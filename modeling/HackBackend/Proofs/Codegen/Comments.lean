import HackBackend.Proofs.Asm.Assembly
import HackBackend.Proofs.Codegen.Histories

/-!
# Comments

Comments are for the reader of a text. A run that keeps them fails exactly where the run without
them does. Otherwise the two texts agree line by line, up to comments at the ends of lines, and the
assembler makes the same of both. The code of a command is a row of batches, and only the first line
of a batch may have a comment. That of the first batch of a command is the text of the command.

## Implementation notes

The two runs are followed side by side. What they have in common is a list of batches: one listing
spells the batches with their comments, the other one spells only their code. The batches are those
of the operations that the commands stand for, so the comments of a run can be read off its commands.
-/

namespace HackBackend

namespace Asm

/-- The same value, or the same failure at the same line. Only the text of that line, as the error
shows it, may differ. -/
inductive SameVerdict {α : Type} : Except Error α → Except Error α → Prop where
  | accepted (value : α) : SameVerdict (.ok value) (.ok value)
  | rejected (cause : Cause) (number : Nat) (text text' : String) :
      SameVerdict (.error (.located cause ⟨number, text⟩)) (.error (.located cause ⟨number, text'⟩))

theorem SameVerdict.map {α β : Type} {x y : Except Error α} (h : SameVerdict x y) (f : α → β) :
    SameVerdict (x.map f) (y.map f) := by
  cases h with
  | accepted value => exact .accepted (f value)
  | rejected cause number text text' => exact .rejected cause number text text'

namespace Layout

/-- Where a line is placed depends only on its code. -/
theorem sameVerdict_placeText {raw raw' : String} (h : codeOf raw = codeOf raw') (layout : Layout)
    (number : Nat) : SameVerdict (layout.placeText number raw) (layout.placeText number raw') := by
  rw [placeText, placeText, readLine, readLine, ← h]
  cases codeOf raw with
  | nil => exact .accepted layout
  | cons c cs =>
      cases hline : lineOfCode (c :: cs) with
      | none => simpa only [hline] using .rejected _ number _ _
      | some line =>
          cases hplace : layout.place line with
          | error cause => simpa only [hline, hplace] using .rejected cause number _ _
          | ok next => simpa only [hline, hplace] using .accepted next

theorem sameVerdict_placeAll {texts texts' : List String}
    (h : List.Forall₂ (fun raw raw' => codeOf raw = codeOf raw') texts texts') (layout : Layout)
    (number : Nat) :
    SameVerdict (layout.placeAll number texts) (layout.placeAll number texts') := by
  induction h generalizing layout number with
  | nil => exact .accepted layout
  | @cons raw raw' rest rest' hraw _ ih =>
      rw [placeAll, placeAll]
      cases hfirst : layout.placeText (number + 1) raw with
      | error e =>
          have hverdict := hfirst ▸ sameVerdict_placeText hraw layout (number + 1)
          generalize layout.placeText (number + 1) raw' = second at hverdict
          cases hverdict with
          | rejected cause number text text' => exact .rejected cause number text text'
      | ok next =>
          have hverdict := hfirst ▸ sameVerdict_placeText hraw layout (number + 1)
          generalize layout.placeText (number + 1) raw' = second at hverdict
          cases hverdict with
          | accepted => exact ih next (number + 1)

end Layout

/-- Texts with the same code on each line are accepted or rejected alike, and are assembled to the
same program. -/
theorem sameVerdict_assemble {texts texts' : List String}
    (h : List.Forall₂ (fun raw raw' => codeOf raw = codeOf raw') texts texts') :
    SameVerdict (assemble texts) (assemble texts') :=
  (Layout.sameVerdict_placeAll h {} 0).map Layout.program

end Asm

namespace Codegen

open Asm Vm StackMachine

/-! ### Batches with their comments -/

/-- The lines of a batch whose comment is kept. -/
def Batch.text (batch : Batch) : List String :=
  annotate batch.comment (batch.code.map Line.text)

/-- The batches of a command, with a text as the comment on the first of them. -/
def titled (text : String) : List Batch → List Batch
  | [] => []
  | batch :: rest => { batch with comment := some text } :: rest

theorem codeOf_titled (text : String) (batches : List Batch) :
    Codegen.codeOf (titled text batches) = Codegen.codeOf batches := by
  cases batches <;> rfl

/-- The first batch of an operation has code, and no comment of its own. -/
theorem exists_first_of_lower {options : Options} {rom : Nat} {site : Site} {op : Operation}
    {batches : List Batch} (h : lower options rom site op = .ok batches) :
    ∃ first rest, batches = first :: rest ∧ first.comment = none ∧ first.code ≠ [] := by
  cases op with
  | push segment offset =>
      obtain ⟨place, -, rfl⟩ := lower_push_eq_ok_iff.mp h
      exact ⟨_, [], rfl, rfl, by simp [pushCode, pushD]⟩
  | pop segment offset =>
      obtain ⟨place, -, code, hcode, rfl⟩ := lower_pop_eq_ok_iff.mp h
      refine ⟨_, [], rfl, rfl, ?_⟩
      cases place with
      | constant value => cases hcode
      | indirect base offset | direct name =>
          obtain rfl := Except.ok.inj hcode
          simp [popD]
  | compare r =>
      obtain ⟨-, rfl⟩ := lower_compare_eq_ok_iff.mp h
      exact ⟨_, [], rfl, rfl, by simp [compareCode, popD]⟩
  | call name args =>
      obtain ⟨-, rfl⟩ := lower_call_eq_ok_iff.mp h
      exact ⟨_, _, rfl, rfl, by simp⟩
  | _ =>
      obtain rfl := Except.ok.inj h
      exact ⟨_, _, rfl, rfl, by
        simp [unaryCode, binaryCode, gotoCode, ifGotoCode, functionCode, popD]⟩

/-! ### The rows of a run -/

/-- The batches of some operations, a row of them for each. -/
def lowerRows (options : Options) (n : Counters) : List Placed → Except Cause (List (List Batch))
  | [] => .ok []
  | c :: rest => do
      let row ← lower options n.rom (n.site c) c.op
      let rows ← lowerRows options (n.after options c) rest
      .ok (row :: rows)

theorem lowerRows_cons_eq_ok_iff {options : Options} {n : Counters} {c : Placed}
    {rest : List Placed} {rows : List (List Batch)} :
    lowerRows options n (c :: rest) = .ok rows ↔
      ∃ row, lower options n.rom (n.site c) c.op = .ok row ∧
        ∃ later, lowerRows options (n.after options c) rest = .ok later ∧ row :: later = rows := by
  simp only [lowerRows, bind_eq_ok_iff, Except.ok.injEq]

/-- The code of the rows is that of the operations. -/
theorem lowerAll_eq_lowerRows (options : Options) (n : Counters) (code : List Placed) :
    lowerAll options n code =
      (lowerRows options n code).map fun rows => rows.map Codegen.codeOf := by
  induction code generalizing n with
  | nil => rfl
  | cons c rest ih =>
      rw [lowerAll, lowerRows, ih]
      cases lower options n.rom (n.site c) c.op with
      | error cause => rfl
      | ok row => cases lowerRows options (n.after options c) rest <;> rfl

theorem lowerRows_flags (options : Options) (comments bootstrap : Bool) (n : Counters)
    (code : List Placed) :
    lowerRows { options with comments := comments, bootstrap := bootstrap } n code =
      lowerRows options n code := by
  induction code generalizing n with
  | nil => rfl
  | cons c rest ih =>
      have hafter : n.after { options with comments := comments, bootstrap := bootstrap } c =
          n.after options c := rfl
      simp only [lowerRows, lower_flags, hafter, ih]

theorem lowerRows_append {options : Options} {n : Counters} {xs ys : List Placed}
    {first last : List (List Batch)} (hxs : lowerRows options n xs = .ok first)
    (hys : lowerRows options (n.afterAll options xs) ys = .ok last) :
    lowerRows options n (xs ++ ys) = .ok (first ++ last) := by
  induction xs generalizing n first with
  | nil =>
      obtain rfl := Except.ok.inj hxs
      exact hys
  | cons c rest ih =>
      obtain ⟨row, hrow, later, hlater, rfl⟩ := lowerRows_cons_eq_ok_iff.mp hxs
      exact lowerRows_cons_eq_ok_iff.mpr ⟨row, hrow, later ++ last, ih hlater hys, rfl⟩

/-- Some commands, the operations that they are, and the rows of batches of these. -/
structure LoweredAs (options : Options) (n : Counters) (commands : List Command)
    (code : List Placed) (rows : List (List Batch)) : Prop where
  operations : List.Forall₂ (fun c placed => c.operation = .ok placed.op) commands code
  lowered : lowerRows options n code = .ok rows

theorem LoweredAs.append {options : Options} {n : Counters} {commands more : List Command}
    {xs ys : List Placed} {first last : List (List Batch)}
    (hxs : LoweredAs options n commands xs first)
    (hys : LoweredAs options (n.afterAll options xs) more ys last) :
    LoweredAs options n (commands ++ more) (xs ++ ys) (first ++ last) where
  operations := List.rel_append hxs.operations hys.operations
  lowered := lowerRows_append hxs.lowered hys.lowered

/-- Each row begins with some code, and without a comment. -/
theorem exists_first_of_lowerRows {options : Options} {n : Counters} {code : List Placed}
    {rows : List (List Batch)} (h : lowerRows options n code = .ok rows) :
    rows.length = code.length ∧ ∀ row ∈ rows,
      ∃ first rest, row = first :: rest ∧ first.comment = none ∧ first.code ≠ [] := by
  induction code generalizing n rows with
  | nil =>
      obtain rfl := Except.ok.inj h
      simp
  | cons c rest ih =>
      obtain ⟨row, hrow, later, hlater, rfl⟩ := lowerRows_cons_eq_ok_iff.mp h
      obtain ⟨hlength, hrows⟩ := ih hlater
      exact ⟨congrArg (· + 1) hlength,
        List.forall_mem_cons.mpr ⟨exists_first_of_lower hrow, hrows⟩⟩

theorem LoweredAs.length_eq {options : Options} {n : Counters} {commands : List Command}
    {code : List Placed} {rows : List (List Batch)} (h : LoweredAs options n commands code rows) :
    commands.length = rows.length :=
  h.operations.length_eq.trans (exists_first_of_lowerRows h.lowered).1.symm

/-- The rows of some commands, with the text of each command as the comment on its first batch. -/
def titledRows (commands : List Command) (rows : List (List Batch)) : List (List Batch) :=
  commands.zipWith (fun c row => titled c.source.text row) rows

theorem titledRows_append {commands : List Command} {rows : List (List Batch)}
    (hlength : commands.length = rows.length) (more : List Command) (rows' : List (List Batch)) :
    titledRows (commands ++ more) (rows ++ rows') =
      titledRows commands rows ++ titledRows more rows' :=
  List.zipWith_append hlength

theorem map_codeOf_titledRows {commands : List Command} {rows : List (List Batch)}
    (hlength : commands.length = rows.length) :
    (titledRows commands rows).map Codegen.codeOf = rows.map Codegen.codeOf := by
  induction commands generalizing rows with
  | nil =>
      obtain rfl := List.length_eq_zero_iff.mp hlength.symm
      rfl
  | cons c rest ih =>
      cases rows with
      | nil => cases hlength
      | cons row later =>
          rw [titledRows, List.zipWith_cons_cons, List.map_cons, codeOf_titled, List.map_cons]
          exact congrArg _ (ih (Nat.succ.inj hlength))

/-- The batches before the first command. -/
def bootBatches (options : Options) : List Batch :=
  if options.bootstrap then [bootstrapBatch] else []

/-- The batches of a run, given the rows of its commands. -/
def runBatches (options : Options) (rows : List (List Batch)) : List Batch :=
  bootBatches options ++ rows.flatten ++ [haltBatch]

theorem codeOf_bootBatches (options : Options) :
    Codegen.codeOf (bootBatches options) = bootCode options := by
  unfold bootBatches bootCode
  split <;> simp [Codegen.codeOf]

theorem codeOf_flatten (rows : List (List Batch)) :
    Codegen.codeOf rows.flatten = (rows.map Codegen.codeOf).flatten := by
  induction rows with
  | nil => rfl
  | cons row rest ih => rw [List.flatten_cons, codeOf_append, ih, List.map_cons, List.flatten_cons]

theorem codeOf_runBatches (options : Options) (rows : List (List Batch)) :
    Codegen.codeOf (runBatches options rows) = runCode options (rows.map Codegen.codeOf) := by
  rw [runBatches, codeOf_append, codeOf_append, codeOf_bootBatches, codeOf_flatten, runCode]
  simp [Codegen.codeOf]

/-! ### Listings with comments -/

namespace Listing

variable {listing : Listing}

/-- Where comments are kept, that of a batch replaces one that is waiting. -/
theorem lines_add_of_comments (h : listing.comments) (batch : Batch) :
    (listing.add batch).lines.toList = listing.lines.toList ++
      annotate (batch.comment <|> listing.staged) (batch.code.map Line.text) := by
  unfold Listing.add
  cases batch.comment with
  | none => exact toList_lines_write _ _
  | some text =>
      rw [toList_lines_write, lines_stage]
      simp [stage, h]

theorem staged_add (listing : Listing) (batch : Batch) : (listing.add batch).staged = none := rfl

theorem comments_add (listing : Listing) (batch : Batch) :
    (listing.add batch).comments = listing.comments := by
  unfold Listing.add
  cases batch.comment <;> simp

theorem comments_addAll (listing : Listing) (batches : List Batch) :
    (listing.addAll batches).comments = listing.comments := by
  induction batches generalizing listing with
  | nil => rfl
  | cons batch rest ih => rw [addAll_cons, ih, comments_add]

/-- Batches are written with their own comments where none is waiting. -/
theorem lines_addAll_of_comments (h : listing.comments) (hstaged : listing.staged = none)
    (batches : List Batch) :
    (listing.addAll batches).lines.toList = listing.lines.toList ++ batches.flatMap Batch.text := by
  induction batches generalizing listing with
  | nil => simp
  | cons batch rest ih =>
      have hcomments : (listing.add batch).comments := by rwa [comments_add]
      have hown : (batch.comment <|> none) = batch.comment := by simp
      rw [addAll_cons, ih hcomments (staged_add listing batch), lines_add_of_comments h, hstaged,
        hown, List.append_assoc, List.flatMap_cons]
      rfl

/-- A comment that is staged before some batches ends up on the first line of the first of them. -/
theorem lines_addAll_stage (h : listing.comments) {first : Batch} (hfirst : first.comment = none)
    (text : String) (rest : List Batch) :
    ((listing.stage text).addAll (first :: rest)).lines.toList =
      listing.lines.toList ++ (titled text (first :: rest)).flatMap Batch.text := by
  have hcomments : (listing.stage text).comments := by rwa [comments_stage]
  have hstaged : (listing.stage text).staged = some text := by simp [stage, h]
  have hrest : ((listing.stage text).add first).comments := by rwa [comments_add]
  rw [addAll_cons, lines_addAll_of_comments hrest (staged_add _ _), lines_add_of_comments hcomments,
    hfirst, hstaged, lines_stage, List.append_assoc, titled, List.flatMap_cons]
  rfl

end Listing

/-! ### Two runs side by side -/

/-- The commands of some units, as far as they can be read. -/
def commandsOfUnits (units : List (String × Text.Source)) : List Command :=
  units.flatMap fun unit => (Stream.ofSource unit.2).toList.filterMap Except.toOption

namespace Generator

/-- A generator that keeps comments and one that does not, after the same batches. -/
structure Twins (batches : List Batch) (g b : Generator) : Prop where
  options : g.options = { b.options with comments := true }
  site : g.site = b.site
  instructions : g.listing.instructions = b.listing.instructions
  comments : g.listing.comments
  bare : b.listing.Bare
  text : g.listing.lines.toList = batches.flatMap Batch.text
  code : b.listing.lines.toList = (Codegen.codeOf batches).map Line.text

/-- Two answers to the same requests: both fail with the same error, or the generators have gone on
by the batches of the commands, which have the texts of these where comments are kept. -/
inductive SameAnswer (batches : List Batch) (b : Generator) (commands : List Command)
    (code : List Placed) :
    Except Error Unit × Generator → Except Error Unit × Generator → Prop where
  | failed (e : Error) (g' b' : Generator) :
      SameAnswer batches b commands code (.error e, g') (.error e, b')
  | done {rows : List (List Batch)} {g' b' : Generator}
      (lowered : LoweredAs b.options b.counters commands code rows)
      (twins : Twins (batches ++ (titledRows commands rows).flatten) g' b')
      (emits : Emits b code (rows.map Codegen.codeOf) b') :
      SameAnswer batches b commands code (.ok (), g') (.ok (), b')

variable {batches : List Batch} {g b : Generator}

theorem Twins.beginUnit (h : Twins batches g b) (name : String) :
    Twins batches (g.beginUnit name) (b.beginUnit name) where
  options := h.options
  site := by simp only [Generator.beginUnit, h.site]
  instructions := h.instructions
  comments := h.comments
  bare := h.bare
  text := h.text
  code := h.code

/-- The batches of an operation are written by both, with the text of the command by one. -/
theorem Twins.emit (h : Twins batches g b) {op : Operation} {row : List Batch}
    (hlower : lower b.options b.listing.instructions b.site op = .ok row) (text : String) :
    Twins (batches ++ titled text row)
      ({ g with listing := g.listing.stage text }.emit op row)
      ({ b with listing := b.listing.stage text }.emit op row) := by
  obtain ⟨first, rest, rfl, hfirst, -⟩ := exists_first_of_lower hlower
  obtain ⟨hbare, hcode⟩ := h.bare.addAll (first :: rest)
  rw [← h.bare.stage_eq text] at hbare hcode
  refine ⟨h.options, ?_, ?_, ?_, hbare, ?_, ?_⟩
  · simp only [Generator.emit, h.options, h.site]
    rfl
  · simp only [Generator.emit, Listing.instructions_addAll, Listing.instructions_stage,
      h.instructions]
  · simp only [Generator.emit, Listing.comments_addAll, Listing.comments_stage, h.comments]
  · rw [List.flatMap_append, ← h.text]
    exact Listing.lines_addAll_stage h.comments hfirst text rest
  · rw [Listing.lines_stage] at hcode
    rw [codeOf_append, codeOf_titled, List.map_append, ← h.code]
    exact hcode

/-- Answers are the same if they are so from where the generators have gone on to. -/
theorem SameAnswer.after {rows : List (List Batch)} {b' : Generator} {commands more : List Command}
    {code later : List Placed} {x y : Except Error Unit × Generator}
    (hlowered : LoweredAs b.options b.counters commands code rows)
    (hemits : Emits b code (rows.map Codegen.codeOf) b')
    (h : SameAnswer (batches ++ (titledRows commands rows).flatten) b' more later x y) :
    SameAnswer batches b (commands ++ more) (code ++ later) x y := by
  cases h with
  | failed e g' b' => exact .failed e g' b'
  | @done rows' g'' b'' lowered twins emits =>
      rw [hemits.options, hemits.counters] at lowered
      refine @SameAnswer.done _ _ _ _ (rows ++ rows') _ _ (hlowered.append lowered) ?_ ?_
      · rw [titledRows_append hlowered.length_eq, List.flatten_append, ← List.append_assoc]
        exact twins
      · rw [List.map_append]
        exact hemits.trans emits

theorem Twins.takeCommand (h : Twins batches g b) (c : Command) :
    SameAnswer batches b [c] (c.operation.toOption.map b.place).toList
      (g.takeCommand c) (b.takeCommand c) := by
  rw [Generator.takeCommand, Generator.takeCommand]
  cases hop : c.operation with
  | error cause => exact .failed _ _ _
  | ok op =>
      have hsame : lower g.options (g.listing.stage c.source.text).instructions g.site op =
          lower b.options (b.listing.stage c.source.text).instructions b.site op := by
        rw [h.options, lower_flags, Listing.instructions_stage, Listing.instructions_stage,
          h.instructions, h.site]
      simp only [hsame]
      cases hlower : lower b.options (b.listing.stage c.source.text).instructions b.site op with
      | error cause => exact .failed _ _ _
      | ok row =>
          rw [Listing.instructions_stage] at hlower
          have hlowered : LoweredAs b.options b.counters [c] [b.place op] [row] :=
            ⟨.cons hop .nil, lowerRows_cons_eq_ok_iff.mpr ⟨row, hlower, [], rfl, rfl⟩⟩
          refine .done hlowered ?_ (emits_emit hlower)
          rw [titledRows, List.zipWith_cons_cons, List.zipWith_nil_left, List.flatten_singleton]
          exact h.emit hlower c.source.text

theorem Twins.takeLines (h : Twins batches g b) (number : Nat)
    (items : List (Except Text.ReadFault String)) :
    SameAnswer batches b ((Stream.itemsOf number items).filterMap Except.toOption)
      (placeOps b.site.unit b.site.function
        ((Stream.itemsOf number items).filterMap operation?))
      (g.takeLines number items) (b.takeLines number items) := by
  induction items generalizing g b batches number with
  | nil => exact .done ⟨.nil, rfl⟩ (by simpa [titledRows] using h) (.refl b)
  | cons item rest ih =>
      rw [Generator.takeLines, Generator.takeLines, Stream.itemsOf]
      rcases Stream.readItem (number + 1) item with e | _ | c
      · exact .failed e g b
      · exact ih h (number + 1)
      · have hanswer := h.takeCommand c
        generalize hg : g.takeCommand c = x at hanswer
        generalize hb : b.takeCommand c = y at hanswer
        cases hanswer with
        | failed e g' b' => simpa only [hg, hb] using .failed e g' b'
        | @done rows g' b' hlowered htwins hemits =>
            obtain ⟨op, hop, row, hlower, rfl⟩ := takeCommand_eq_ok_iff.mp hb
            have hsome : c.operation.toOption = some op := by rw [hop]; rfl
            rw [hsome] at hemits hlowered
            simp only [hg, hb, List.filterMap_cons, operation?, Except.toOption, hop]
            rw [place_emit b c.source.text op row]
            exact (ih htwins (number + 1)).after hlowered hemits

theorem Twins.takeUnit (h : Twins batches g b) (unit : String × Text.Source) :
    SameAnswer batches b ((Stream.ofSource unit.2).toList.filterMap Except.toOption)
      (codeOfUnit unit) (g.takeUnit unit.1 unit.2) (b.takeUnit unit.1 unit.2) := by
  have hlines := (h.beginUnit unit.1).takeLines 0 unit.2.lines
  generalize hx : g.takeUnit unit.1 unit.2 = x
  generalize hy : b.takeUnit unit.1 unit.2 = y
  rw [Generator.takeUnit] at hx hy
  rw [hx, hy] at hlines
  cases hlines with
  | failed e g' b' => exact .failed e g' b'
  | done lowered twins emits =>
      exact .done ⟨lowered.operations, lowered.lowered⟩ twins
        ⟨emits.lowered, emits.text, emits.options, emits.counters⟩

theorem Twins.takeUnits (h : Twins batches g b) (units : List (String × Text.Source)) :
    SameAnswer batches b (commandsOfUnits units) (codeOfUnits units) (g.takeUnits units)
      (b.takeUnits units) := by
  induction units generalizing g b batches with
  | nil => exact .done ⟨.nil, rfl⟩ (by simpa [titledRows] using h) (.refl b)
  | cons unit rest ih =>
      have hfirst := h.takeUnit unit
      obtain ⟨name, source⟩ := unit
      rw [Generator.takeUnits, Generator.takeUnits, commandsOfUnits, codeOfUnits,
        List.flatMap_cons, List.flatMap_cons]
      generalize hg : g.takeUnit name source = x at hfirst
      generalize hb : b.takeUnit name source = y at hfirst
      cases hfirst with
      | failed e g' b' => exact .failed e g' b'
      | done lowered twins emits => exact (ih twins).after lowered emits

theorem twins_new (options : Options) :
    Twins (bootBatches options) (new { options with comments := true })
      (new { options with comments := false }) := by
  unfold bootBatches
  by_cases h : options.bootstrap
  · have hbare : ({ comments := false } : Listing).Bare := ⟨rfl, rfl⟩
    obtain ⟨hlisting, hcode⟩ := hbare.add bootstrapBatch
    have htext := @Listing.lines_add_of_comments { comments := true } rfl bootstrapBatch
    simp only [Generator.new, h, if_true]
    exact ⟨rfl, rfl, rfl, Listing.comments_add _ _, hlisting, htext, hcode⟩
  · simp only [Generator.new, h]
    exact ⟨rfl, rfl, rfl, rfl, ⟨rfl, rfl⟩, rfl, rfl⟩

theorem Twins.finish (h : Twins batches g b) :
    g.finish = (batches ++ [haltBatch]).flatMap Batch.text ∧
      b.finish = (Codegen.codeOf (batches ++ [haltBatch])).map Line.text := by
  constructor
  · rw [Generator.finish, Listing.lines_add_of_comments h.comments, h.text, List.flatMap_append,
      List.flatMap_singleton]
    rfl
  · rw [Generator.finish, (h.bare.add haltBatch).2, h.code, codeOf_append, List.map_append]
    rfl

end Generator

/-! ### The two texts -/

/-- A line without its comment, and the line as it is where comments are kept. -/
def Commented (bare text : String) : Prop :=
  text = bare ∨ ∃ comment, text = bare ++ " //" ++ comment

theorem Commented.codeOf_eq {bare text : String} (h : Commented bare text) :
    Asm.codeOf bare = Asm.codeOf text := by
  rcases h with rfl | ⟨comment, rfl⟩
  · rfl
  · exact (codeOf_comment bare comment).symm

theorem commented_annotate (comment : Option String) (lines : List String) :
    List.Forall₂ Commented lines (annotate comment lines) := by
  have hsame (lines : List String) : List.Forall₂ Commented lines lines :=
    List.forall₂_same.mpr fun line _ => .inl rfl
  cases lines with
  | nil => exact .nil
  | cons line rest =>
      cases comment with
      | none => exact hsame (line :: rest)
      | some text => exact .cons (.inr ⟨text, rfl⟩) (hsame rest)

theorem commented_flatMap_text (batches : List Batch) :
    List.Forall₂ Commented ((Codegen.codeOf batches).map Line.text)
      (batches.flatMap Batch.text) := by
  induction batches with
  | nil => exact .nil
  | cons batch rest ih =>
      rw [Codegen.codeOf, List.flatMap_cons, List.map_append, List.flatMap_cons]
      exact List.rel_append (commented_annotate batch.comment _) ih

/-- A line is the first one of a batch. -/
def OpensBatch (batches : List Batch) (k : Nat) : Prop :=
  ∃ before batch after, batches = before ++ batch :: after ∧ batch.code ≠ [] ∧
    (Codegen.codeOf before).length = k

theorem OpensBatch.cons {batches : List Batch} {k : Nat} (h : OpensBatch batches k)
    (batch : Batch) : OpensBatch (batch :: batches) (batch.code.length + k) := by
  obtain ⟨before, opened, after, rfl, hcode, rfl⟩ := h
  exact ⟨batch :: before, opened, after, rfl, hcode, by
    rw [Codegen.codeOf, List.flatMap_cons, List.length_append]
    rfl⟩

/-- A line that opens no batch has no comment. -/
theorem getElem?_flatMap_text {batches : List Batch} {k : Nat} (h : ¬ OpensBatch batches k) :
    (batches.flatMap Batch.text)[k]? = ((Codegen.codeOf batches).map Line.text)[k]? := by
  induction batches generalizing k with
  | nil => rfl
  | cons batch rest ih =>
      rw [List.flatMap_cons, Codegen.codeOf, List.flatMap_cons, List.map_append]
      have hlength : batch.text.length = (batch.code.map Line.text).length :=
        length_annotate batch.comment _
      by_cases hlt : k < (batch.code.map Line.text).length
      · rw [List.getElem?_append_left (hlength ▸ hlt), List.getElem?_append_left hlt, Batch.text]
        cases hcode : batch.code with
        | nil => rfl
        | cons line lines =>
            cases k with
            | zero => exact absurd ⟨[], batch, rest, rfl, by simp [hcode], rfl⟩ h
            | succ k => cases batch.comment <;> rfl
      · have hle := Nat.le_of_not_lt hlt
        rw [List.getElem?_append_right (hlength ▸ hle), List.getElem?_append_right hle, hlength]
        apply ih
        intro hopens
        refine h ?_
        have hstep := hopens.cons batch
        rw [List.length_map] at hle hstep
        rwa [Nat.add_sub_cancel' hle] at hstep

/-- The first line of a batch is where the lines before the batch end, and it has the comment of the
batch. -/
theorem getElem?_first_of_batch {batch : Batch} {line : Line} {lines : List Line} {text : String}
    (hcode : batch.code = line :: lines) (hcomment : batch.comment = some text)
    (before after : List Batch) :
    (Codegen.codeOf (before ++ batch :: after))[(Codegen.codeOf before).length]? = some line ∧
      ((before ++ batch :: after).flatMap Batch.text)[(Codegen.codeOf before).length]? =
        some (line.text ++ " //" ++ text) := by
  constructor
  · rw [codeOf_append, List.getElem?_append_right (Nat.le_refl _), Nat.sub_self, Codegen.codeOf,
      List.flatMap_cons, hcode]
    rfl
  · have hlength := (commented_flatMap_text before).length_eq
    rw [List.length_map] at hlength
    rw [List.flatMap_append, hlength, List.getElem?_append_right (Nat.le_refl _), Nat.sub_self,
      List.flatMap_cons, Batch.text, hcode, hcomment]
    rfl

/-- The number of lines before those of a command, given the code of the operations. -/
def linesBefore (options : Options) (chunks : List (List Line)) (i : Nat) : Nat :=
  (bootCode options ++ (chunks.take i).flatten).length

/-- The first line of a row is where the lines before the row end. -/
theorem getElem?_first_of_row {rows : List (List Batch)} {i : Nat} {batch : Batch}
    {rest : List Batch} (hrow : rows[i]? = some (batch :: rest)) {line : Line} {lines : List Line}
    {text : String} (hcode : batch.code = line :: lines) (hcomment : batch.comment = some text)
    (options : Options) :
    (runCode options (rows.map Codegen.codeOf))[linesBefore options
        (rows.map Codegen.codeOf) i]? = some line ∧
      ((runBatches options rows).flatMap Batch.text)[linesBefore options
        (rows.map Codegen.codeOf) i]? = some (line.text ++ " //" ++ text) := by
  have hbefore : linesBefore options (rows.map Codegen.codeOf) i =
      (Codegen.codeOf (bootBatches options ++ (rows.take i).flatten)).length := by
    rw [linesBefore, codeOf_append, codeOf_bootBatches, codeOf_flatten, List.map_take]
  have hbatches : runBatches options rows = bootBatches options ++ (rows.take i).flatten ++
      batch :: (rest ++ ((rows.drop (i + 1)).flatten ++ [haltBatch])) := by
    conv => lhs; rw [eq_take_append_cons_drop hrow]
    simp [runBatches]
  rw [← codeOf_runBatches, hbefore, hbatches]
  exact getElem?_first_of_batch hcode hcomment _ _

/-- A command has code, and the text of the command is the comment on the first line of that. -/
theorem LoweredAs.exists_first {options : Options} {n : Counters} {commands : List Command}
    {code : List Placed} {rows : List (List Batch)} (h : LoweredAs options n commands code rows)
    {i : Nat} {c : Command} (hc : commands[i]? = some c) :
    ∃ line lines, (rows.map Codegen.codeOf)[i]? = some (line :: lines) ∧
      (runCode options (rows.map Codegen.codeOf))[linesBefore options
        (rows.map Codegen.codeOf) i]? = some line ∧
      ((runBatches options (titledRows commands rows)).flatMap Batch.text)[linesBefore options
        (rows.map Codegen.codeOf) i]? = some (line.text ++ " //" ++ c.source.text) := by
  obtain ⟨hlt, -⟩ := List.getElem?_eq_some_iff.mp hc
  rw [h.length_eq] at hlt
  obtain ⟨first, rest, hrow, -, hne⟩ := (exists_first_of_lowerRows h.lowered).2 _
    (List.getElem_mem hlt)
  obtain ⟨line, lines, hcode⟩ := List.exists_cons_of_ne_nil hne
  have hget : rows[i]? = some (first :: rest) := hrow ▸ List.getElem?_eq_getElem hlt
  have htitled : (titledRows commands rows)[i]? =
      some ({ first with comment := some c.source.text } :: rest) := by
    rw [titledRows, List.getElem?_zipWith, hc, hget]
    rfl
  have hfirst := getElem?_first_of_row htitled hcode rfl options
  rw [map_codeOf_titledRows h.length_eq] at hfirst
  refine ⟨line, lines ++ Codegen.codeOf rest, ?_, hfirst⟩
  rw [List.getElem?_map, hget, Option.map_some, Codegen.codeOf, List.flatMap_cons, hcode]
  rfl

/-- The text of some units where comments are kept, and what it is without them. The rows are the
batches of the commands. -/
structure OnlyComments (options : Options) (units : List (String × Text.Source))
    (rows : List (List Batch)) (bare commented : List String) : Prop where
  /-- A line is the same in both texts, but for a comment at its end. -/
  lines : List.Forall₂ Commented bare commented
  /-- The assembler makes the same of both texts. -/
  verdict : SameVerdict (assemble bare) (assemble commented)
  /-- Each command is an operation, and its row has the batches of that. -/
  lowered : LoweredAs options (startCounters options) (commandsOfUnits units) (codeOfUnits units)
    rows
  chunks : lowerAll options (startCounters options) (codeOfUnits units) =
    .ok (rows.map Codegen.codeOf)
  /-- The text without comments is the code of these batches. -/
  code : bare = (runCode options (rows.map Codegen.codeOf)).map Line.text
  /-- The text with comments is that of the batches, where the first one of each command has the
  text of the command. -/
  batches : commented = (runBatches options (titledRows (commandsOfUnits units) rows)).flatMap
    fun batch => annotate batch.comment (batch.code.map Line.text)
  /-- A command has code, and the text of the command is on the first line of that. -/
  first : ∀ (i : Nat) c, (commandsOfUnits units)[i]? = some c →
    ∃ line lines, (rows.map Codegen.codeOf)[i]? = some (line :: lines) ∧
      bare[linesBefore options (rows.map Codegen.codeOf) i]? = some line.text ∧
      commented[linesBefore options (rows.map Codegen.codeOf) i]? =
        some (line.text ++ " //" ++ c.source.text)
  /-- There are no comments but on lines that open a batch. -/
  plain : ∀ k, ¬ OpensBatch (runBatches options (titledRows (commandsOfUnits units) rows)) k →
    commented[k]? = bare[k]?

/-- The texts of the rows of some commands differ only in the comments. -/
theorem LoweredAs.onlyComments {options : Options} {units : List (String × Text.Source)}
    {rows : List (List Batch)}
    (h : LoweredAs options (startCounters options) (commandsOfUnits units) (codeOfUnits units)
      rows) :
    OnlyComments options units rows ((runCode options (rows.map Codegen.codeOf)).map Line.text)
      ((runBatches options (titledRows (commandsOfUnits units) rows)).flatMap Batch.text) := by
  have hcode : Codegen.codeOf (runBatches options (titledRows (commandsOfUnits units) rows)) =
      runCode options (rows.map Codegen.codeOf) := by
    rw [codeOf_runBatches, map_codeOf_titledRows h.length_eq]
  have hlines := commented_flatMap_text
    (runBatches options (titledRows (commandsOfUnits units) rows))
  rw [hcode] at hlines
  refine {
    lines := hlines
    verdict := sameVerdict_assemble (hlines.imp fun bare text => Commented.codeOf_eq)
    lowered := h
    chunks := ?chunks
    code := rfl
    batches := rfl
    first := ?first
    plain := ?plain }
  case chunks =>
    rw [lowerAll_eq_lowerRows, h.lowered]
    rfl
  case first =>
    intro i c hc
    obtain ⟨line, lines, hchunk, hbare, hcommented⟩ := h.exists_first hc
    refine ⟨line, lines, hchunk, ?_, hcommented⟩
    rw [List.getElem?_map, hbare, Option.map_some]
  case plain =>
    intro k hk
    rw [getElem?_flatMap_text hk, hcode]

/-- Whether comments are kept makes no difference to errors, nor to what the text means. Each line
of the text with comments is that of the text without them, perhaps with a comment at its end. Such
a line opens a batch, and the first line of a command has the text of that. -/
theorem comments_invisible (options : Options) (units : List (String × Text.Source)) :
    (∃ e, generate { options with comments := false } units = .error e ∧
        generate { options with comments := true } units = .error e) ∨
      ∃ rows bare commented, generate { options with comments := false } units = .ok bare ∧
        generate { options with comments := true } units = .ok commented ∧
        OnlyComments options units rows bare commented := by
  have hanswer := (Generator.twins_new options).takeUnits units
  rw [generate, generate]
  generalize (Generator.new { options with comments := true }).takeUnits units = x at hanswer
  generalize (Generator.new { options with comments := false }).takeUnits units = y at hanswer
  cases hanswer with
  | failed e g b => exact .inl ⟨e, rfl, rfl⟩
  | @done rows g b hbare htwins _ =>
      have hlowered := hbare.lowered
      rw [counters_new] at hlowered
      have hrows : LoweredAs options (startCounters options) (commandsOfUnits units)
          (codeOfUnits units) rows := by
        refine ⟨hbare.operations, ?_⟩
        rw [← lowerRows_flags options false options.bootstrap]
        exact hlowered
      obtain ⟨htext, hcode⟩ := htwins.finish
      rw [← runBatches, codeOf_runBatches, map_codeOf_titledRows hrows.length_eq] at hcode
      refine .inr ⟨rows, b.finish, g.finish, rfl, rfl, ?_⟩
      rw [hcode, htext]
      exact hrows.onlyComments

end Codegen

end HackBackend
