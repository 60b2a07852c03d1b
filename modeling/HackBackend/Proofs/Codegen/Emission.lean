import HackBackend.Codegen.Generator
import HackBackend.Proofs.Asm.Spelling
import HackBackend.Proofs.Result
import HackBackend.Proofs.StackMachine.Code
import Mathlib.Data.List.Forall2

/-!
# What a generator emits

A generator that takes commands without an error has spelled out the code of each of them, in
their order. The code of a command depends on its place: on the unit and the function that it
stands in, on the number of instructions before it, and on the numbers of calls and of
comparisons before it that made up a label.
-/

namespace HackBackend

namespace Vm.Operation

/-- The number of instructions that an operation is turned into. -/
def size : Operation → Nat
  | .push (.based _) _ => 10
  | .push _ _ => 7
  | .pop (.based _) _ => 12
  | .pop _ _ => 5
  | .unary _ => 3
  | .binary _ => 5
  | .compare _ => Codegen.compareLength
  | .label _ => 0
  | .goto _ => 2
  | .ifGoto _ => 5
  | .function _ locals => if locals = 0 then 0 else 2 * locals + 5
  | .call _ _ => 47
  | .ret => 42

end Vm.Operation

namespace Codegen

open Asm Vm StackMachine

/-- The lines that clear the locals of a function. -/
theorem mem_zeroLocals {count : Nat} {line : Line} (h : line ∈ zeroLocals count) :
    line ∈ [.symbol "SP", .store .a (.copy .m), .store .m .zero, .store .a (.inc .a),
      .store .d (.copy .a), .store .m (.copy .d)] := by
  rw [zeroLocals] at h
  split at h
  · cases h
  · rcases List.mem_append.mp h with h | h
    · rcases List.mem_append.mp h with h | h
      · rcases List.mem_pair.mp h with rfl | rfl <;> simp
      · obtain ⟨pair, hpair, hmem⟩ := List.mem_flatten.mp h
        rw [List.eq_of_mem_replicate hpair] at hmem
        rcases List.mem_pair.mp hmem with rfl | rfl <;> simp
    · simp only [List.mem_cons, List.not_mem_nil, or_false] at h
      rcases h with rfl | rfl | rfl <;> simp

theorem countP_zeroLocals (locals : Nat) :
    (zeroLocals locals).countP Line.isInstruction =
      if locals = 0 then 0 else 2 * locals + 5 := by
  have hloop (count : Nat) : ((List.replicate count
      [Line.store .m .zero, .store .a (.inc .a)]).flatten).countP Line.isInstruction =
        2 * count := by
    induction count with
    | zero => rfl
    | succ count ih =>
        rw [List.replicate_succ, List.flatten_cons, List.countP_append, ih]
        simp only [List.countP_cons, Line.store, Line.isInstruction, List.countP_nil, if_true]
        omega
  rw [zeroLocals]
  by_cases h : locals = 0
  · simp [h]
  · rw [if_neg h, if_neg h, List.countP_append, List.countP_append, hloop]
    have hends : [Line.symbol "SP", .store .a (.copy .m)].countP Line.isInstruction = 2 ∧
        [Line.store .d (.copy .a), .symbol "SP", .store .m (.copy .d)].countP
          Line.isInstruction = 3 := ⟨rfl, rfl⟩
    omega

theorem lower_push_eq_ok_iff {options : Options} {rom : Nat} {site : Site} {segment : Segment}
    {offset : Nat} {batches : List Batch} :
    lower options rom site (.push segment offset) = .ok batches ↔
      ∃ place, segment.resolve site.unit offset = .ok place ∧
        [{ code := pushCode place }] = batches := by
  simp only [lower, bind_eq_ok_iff, Except.ok.injEq]

theorem lower_pop_eq_ok_iff {options : Options} {rom : Nat} {site : Site} {segment : Segment}
    {offset : Nat} {batches : List Batch} :
    lower options rom site (.pop segment offset) = .ok batches ↔
      ∃ place, segment.resolve site.unit offset = .ok place ∧
        ∃ code, popCode place = .ok code ∧ [{ code := code }] = batches := by
  simp only [lower, bind_eq_ok_iff, Except.ok.injEq]

theorem lower_call_eq_ok_iff {options : Options} {rom : Nat} {site : Site} {name : String}
    {args : Nat} {batches : List Batch} :
    lower options rom site (.call name args) = .ok batches ↔
      args + frameSize ≤ maxLiteral ∧ callBatches name (site.returnSymbol name) args = batches := by
  by_cases h : args + frameSize ≤ maxLiteral <;> simp [lower, h]

/-- The address at which a comparison goes on if its relation holds. -/
def compareTarget (options : Options) (rom : Nat) (site : Site) : Address :=
  match options.compare with
  | .absolute => .literal (rom + compareLength)
  | .symbolic => .symbol site.compareSymbol

/-- The label of that place, if it has one. -/
def compareLabel (options : Options) (site : Site) : List Line :=
  match options.compare with
  | .absolute => []
  | .symbolic => [.label site.compareSymbol]

theorem lower_compare_eq_ok_iff {options : Options} {rom : Nat} {site : Site} {r : Relation}
    {batches : List Batch} :
    lower options rom site (.compare r) = .ok batches ↔
      (options.compare = .absolute → rom + compareLength ≤ maxLiteral) ∧
        [{ code := compareCode r (.instruction (.load (compareTarget options rom site))) ++
            compareLabel options site }] = batches := by
  cases h : options.compare with
  | absolute =>
      by_cases hle : rom + compareLength ≤ maxLiteral <;>
        simp [lower, h, hle, compareTarget, compareLabel, Line.literal]
  | symbolic => simp [lower, h, compareTarget, compareLabel, Line.symbol]

@[simp] theorem codeOf_single (comment : Option String) (code : List Line) :
    Codegen.codeOf [⟨comment, code⟩] = code := by
  simp [Codegen.codeOf]

/-- The size of an operation does not depend on where it stands. -/
theorem countP_of_lower {options : Options} {rom : Nat} {site : Site} {op : Operation}
    {batches : List Batch} (h : lower options rom site op = .ok batches) :
    (Codegen.codeOf batches).countP Line.isInstruction = op.size := by
  cases op with
  | push segment offset =>
      obtain ⟨place, hplace, rfl⟩ := lower_push_eq_ok_iff.mp h
      obtain ⟨-, rfl⟩ := Segment.resolve_eq_ok_iff.mp hplace
      cases segment <;> rfl
  | pop segment offset =>
      obtain ⟨place, hplace, code, hcode, rfl⟩ := lower_pop_eq_ok_iff.mp h
      obtain ⟨-, rfl⟩ := Segment.resolve_eq_ok_iff.mp hplace
      cases segment with
      | constant => cases hcode
      | _ =>
          obtain rfl := Except.ok.inj hcode
          rfl
  | compare r =>
      obtain ⟨-, rfl⟩ := lower_compare_eq_ok_iff.mp h
      cases hstyle : options.compare <;> simp only [compareLabel, hstyle] <;> rfl
  | call name args =>
      obtain ⟨-, rfl⟩ := lower_call_eq_ok_iff.mp h
      rfl
  | function name locals =>
      obtain rfl := Except.ok.inj h
      simp [Codegen.codeOf, functionCode, countP_zeroLocals, Line.isInstruction, Operation.size]
  | _ =>
      obtain rfl := Except.ok.inj h
      rfl

/-- The number of comparison labels that an operation makes up. -/
def Options.compareLabels (options : Options) (c : Placed) : Nat :=
  match options.compare, c.op with
  | .symbolic, .compare _ => 1
  | _, _ => 0

/-- The counters that the code of an operation depends on, besides its unit and its function. -/
structure Counters where
  rom : Nat
  calls : Nat
  compares : Nat
deriving DecidableEq, Repr

namespace Counters

def site (n : Counters) (c : Placed) : Site where
  unit := c.unit
  function := c.function
  calls := n.calls
  compares := n.compares

def after (n : Counters) (options : Options) (c : Placed) : Counters where
  rom := n.rom + c.op.size
  calls := n.calls + c.calls
  compares := n.compares + options.compareLabels c

/-- The counters after some operations. -/
def afterAll (n : Counters) (options : Options) (code : List Placed) : Counters :=
  code.foldl (fun n c => n.after options c) n

@[simp] theorem afterAll_nil (n : Counters) (options : Options) : n.afterAll options [] = n := rfl

@[simp] theorem afterAll_cons (n : Counters) (options : Options) (c : Placed)
    (rest : List Placed) :
    n.afterAll options (c :: rest) = (n.after options c).afterAll options rest := rfl

theorem afterAll_append (n : Counters) (options : Options) (xs ys : List Placed) :
    n.afterAll options (xs ++ ys) = (n.afterAll options xs).afterAll options ys :=
  List.foldl_append

end Counters

/-- The code of an operation is the same with comments and without, and the same behind a
bootstrap. -/
theorem lower_flags (options : Options) (comments bootstrap : Bool) (rom : Nat) (site : Site)
    (op : Operation) :
    lower { options with comments := comments, bootstrap := bootstrap } rom site op =
      lower options rom site op := by
  cases op <;> rfl

/-- The code of some operations, one row of lines for each. -/
def lowerAll (options : Options) (n : Counters) : List Placed → Except Cause (List (List Line))
  | [] => .ok []
  | c :: rest => do
      let batches ← lower options n.rom (n.site c) c.op
      let chunks ← lowerAll options (n.after options c) rest
      .ok (Codegen.codeOf batches :: chunks)

theorem lowerAll_cons_eq_ok_iff {options : Options} {n : Counters} {c : Placed}
    {rest : List Placed} {chunks : List (List Line)} :
    lowerAll options n (c :: rest) = .ok chunks ↔
      ∃ batches, lower options n.rom (n.site c) c.op = .ok batches ∧
        ∃ later, lowerAll options (n.after options c) rest = .ok later ∧
          Codegen.codeOf batches :: later = chunks := by
  simp only [lowerAll, bind_eq_ok_iff, Except.ok.injEq]

theorem lowerAll_flags (options : Options) (comments bootstrap : Bool) (n : Counters)
    (code : List Placed) :
    lowerAll { options with comments := comments, bootstrap := bootstrap } n code =
      lowerAll options n code := by
  induction code generalizing n with
  | nil => rfl
  | cons c rest ih =>
      have hafter : n.after { options with comments := comments, bootstrap := bootstrap } c =
          n.after options c := rfl
      simp only [lowerAll, lower_flags, hafter, ih]

theorem lowerAll_append_eq_ok_iff {options : Options} {n : Counters} {xs ys : List Placed}
    {chunks : List (List Line)} :
    lowerAll options n (xs ++ ys) = .ok chunks ↔
      ∃ first, lowerAll options n xs = .ok first ∧
        ∃ last, lowerAll options (n.afterAll options xs) ys = .ok last ∧
          first ++ last = chunks := by
  induction xs generalizing n chunks with
  | nil => simp [lowerAll]
  | cons c rest ih =>
      simp only [List.cons_append, lowerAll_cons_eq_ok_iff, ih, Counters.afterAll_cons]
      constructor
      · rintro ⟨batches, hlower, later, ⟨first, hfirst, last, hlast, rfl⟩, rfl⟩
        exact ⟨_, ⟨batches, hlower, first, hfirst, rfl⟩, last, hlast, rfl⟩
      · rintro ⟨_, ⟨batches, hlower, first, hfirst, rfl⟩, last, hlast, rfl⟩
        exact ⟨batches, hlower, _, ⟨first, hfirst, last, hlast, rfl⟩, rfl⟩

theorem length_of_lowerAll {options : Options} {n : Counters} {code : List Placed}
    {chunks : List (List Line)} (h : lowerAll options n code = .ok chunks) :
    chunks.length = code.length := by
  induction code generalizing n chunks with
  | nil =>
      obtain rfl := Except.ok.inj h
      rfl
  | cons c rest ih =>
      obtain ⟨batches, -, later, hlater, rfl⟩ := lowerAll_cons_eq_ok_iff.mp h
      rw [List.length_cons, List.length_cons, ih hlater]

/-- A list falls into the elements before an index, that at the index, and those after it. -/
theorem eq_take_append_cons_drop {α : Type} {xs : List α} {i : Nat} {x : α} (h : xs[i]? = some x) :
    xs = xs.take i ++ x :: xs.drop (i + 1) := by
  obtain ⟨hlt, rfl⟩ := List.getElem?_eq_some_iff.mp h
  rw [← List.drop_eq_getElem_cons hlt, List.take_append_drop]

/-- The code of an operation is made with the counters that the operations before it leave. -/
theorem getElem?_lowerAll {options : Options} {n : Counters} {code : List Placed}
    {chunks : List (List Line)} (h : lowerAll options n code = .ok chunks) {i : Nat} {c : Placed}
    (hc : code[i]? = some c) :
    ∃ batches, lower options (n.afterAll options (code.take i)).rom
        ((n.afterAll options (code.take i)).site c) c.op = .ok batches ∧
      chunks[i]? = some (Codegen.codeOf batches) := by
  induction code generalizing n chunks i with
  | nil => cases hc
  | cons first rest ih =>
      obtain ⟨batches, hlower, later, hlater, rfl⟩ := lowerAll_cons_eq_ok_iff.mp h
      cases i with
      | zero =>
          obtain rfl := Option.some.inj hc
          exact ⟨batches, hlower, rfl⟩
      | succ i => exact ih hlater hc

/-- What holds of all lines of each operation holds of all lines of their code. -/
theorem forall_mem_of_lowerAll {options : Options} {p : Line → Prop} {n : Counters}
    {code : List Placed} {chunks : List (List Line)}
    (hcode : ∀ c ∈ code, ∀ (m : Counters) (batches : List Batch),
      lower options m.rom (m.site c) c.op = .ok batches → ∀ line ∈ Codegen.codeOf batches, p line)
    (h : lowerAll options n code = .ok chunks) : ∀ line ∈ chunks.flatten, p line := by
  induction code generalizing n chunks with
  | nil =>
      obtain rfl := Except.ok.inj h
      simp
  | cons c rest ih =>
      obtain ⟨batches, hlower, later, hlater, rfl⟩ := lowerAll_cons_eq_ok_iff.mp h
      obtain ⟨hfirst, hrest⟩ := List.forall_mem_cons.mp hcode
      rw [List.flatten_cons]
      exact List.forall_mem_append.mpr ⟨hfirst n batches hlower, ih hrest hlater⟩

/-- The counter of instructions runs along with the code. -/
theorem countP_of_lowerAll {options : Options} {n : Counters} {code : List Placed}
    {chunks : List (List Line)} (h : lowerAll options n code = .ok chunks) :
    n.rom + chunks.flatten.countP Line.isInstruction = (n.afterAll options code).rom := by
  induction code generalizing n chunks with
  | nil =>
      obtain rfl := Except.ok.inj h
      rfl
  | cons c rest ih =>
      obtain ⟨batches, hlower, later, hlater, rfl⟩ := lowerAll_cons_eq_ok_iff.mp h
      have hrest : n.rom + c.op.size + later.flatten.countP Line.isInstruction = _ := ih hlater
      rw [Counters.afterAll_cons, ← hrest, List.flatten_cons, List.countP_append,
        countP_of_lower hlower, Nat.add_assoc]

/-! ### The text -/

/-- A line of text spells a line of code, perhaps with a comment. -/
def Spells (text : String) (line : Line) : Prop :=
  text = line.text ∨ ∃ comment, text = line.text ++ " //" ++ comment

theorem isLabelText_of_spells {text : String} {line : Line} (h : Spells text line) :
    isLabelText text = !line.isInstruction := by
  rcases h with rfl | ⟨comment, rfl⟩
  · exact isLabelText_text line
  · rw [isLabelText_comment, isLabelText_text]

theorem forall₂_spells_annotate (comment : Option String) (code : List Line) :
    List.Forall₂ Spells (annotate comment (code.map Line.text)) code := by
  have hplain (code : List Line) : List.Forall₂ Spells (code.map Line.text) code := by
    rw [List.forall₂_map_left_iff]
    exact List.forall₂_same.mpr fun line _ => .inl rfl
  cases code with
  | nil => exact .nil
  | cons line rest =>
      cases comment with
      | none => exact hplain (line :: rest)
      | some text => exact .cons (.inr ⟨text, rfl⟩) (hplain rest)

theorem Listing.spells_add (listing : Listing) (batch : Batch) :
    ∃ texts, (listing.add batch).lines.toList = listing.lines.toList ++ texts ∧
      List.Forall₂ Spells texts batch.code := by
  unfold Listing.add
  cases batch.comment with
  | none => exact ⟨_, Listing.toList_lines_write _ _, forall₂_spells_annotate _ _⟩
  | some text =>
      refine ⟨_, ?_, forall₂_spells_annotate (listing.stage text).staged batch.code⟩
      rw [Listing.toList_lines_write, Listing.lines_stage]

theorem Listing.spells_addAll (listing : Listing) (batches : List Batch) :
    ∃ texts, (listing.addAll batches).lines.toList = listing.lines.toList ++ texts ∧
      List.Forall₂ Spells texts (Codegen.codeOf batches) := by
  induction batches generalizing listing with
  | nil => exact ⟨[], by simp, .nil⟩
  | cons batch rest ih =>
      obtain ⟨first, hfirst, hspells⟩ := listing.spells_add batch
      obtain ⟨texts, htexts, hrest⟩ := ih (listing.add batch)
      refine ⟨first ++ texts, ?_, List.rel_append hspells hrest⟩
      rw [Listing.addAll_cons, htexts, hfirst, List.append_assoc]

/-! ### Generators -/

namespace Generator

def counters (g : Generator) : Counters where
  rom := g.listing.instructions
  calls := g.site.calls
  compares := g.site.compares

/-- A generator goes on to another one by the code of some operations. -/
structure Emits (g : Generator) (code : List Placed) (chunks : List (List Line))
    (g' : Generator) : Prop where
  lowered : lowerAll g.options g.counters code = .ok chunks
  text : ∃ texts, g'.listing.lines.toList = g.listing.lines.toList ++ texts.flatten ∧
    List.Forall₂ (List.Forall₂ Spells) texts chunks
  options : g'.options = g.options
  counters : g'.counters = g.counters.afterAll g.options code

theorem Emits.refl (g : Generator) : Emits g [] [] g where
  lowered := rfl
  text := ⟨[], by simp, .nil⟩
  options := rfl
  counters := rfl

theorem Emits.trans {g g' g'' : Generator} {xs ys : List Placed}
    {first last : List (List Line)} (hxs : Emits g xs first g') (hys : Emits g' ys last g'') :
    Emits g (xs ++ ys) (first ++ last) g'' where
  lowered := by
    have hlast := hys.lowered
    rw [hxs.options, hxs.counters] at hlast
    exact lowerAll_append_eq_ok_iff.mpr ⟨first, hxs.lowered, last, hlast, rfl⟩
  text := by
    obtain ⟨texts, htexts, hspells⟩ := hxs.text
    obtain ⟨more, hmore, hmoreSpells⟩ := hys.text
    refine ⟨texts ++ more, ?_, List.rel_append hspells hmoreSpells⟩
    rw [hmore, htexts, List.flatten_append, List.append_assoc]
  options := hys.options.trans hxs.options
  counters := by rw [hys.counters, hxs.options, hxs.counters, Counters.afterAll_append]

/-- An operation as a generator places it. -/
def place (g : Generator) (op : Operation) : Placed :=
  ⟨g.site.unit, g.site.function, op⟩

theorem unit_after (options : Options) (site : Site) (op : Operation) :
    (site.after options op).unit = site.unit := by
  cases op with
  | compare r => cases h : options.compare <;> simp [Site.after, h]
  | _ => rfl

theorem function_after (options : Options) (site : Site) (op : Operation) :
    (site.after options op).function = functionAfter site.function op := by
  cases op with
  | compare r => cases h : options.compare <;> simp [Site.after, h, functionAfter]
  | _ => rfl

theorem calls_after (options : Options) (site : Site) (c : Placed) :
    (site.after options c.op).calls = site.calls + c.calls := by
  obtain ⟨unit, function, op⟩ := c
  cases op with
  | compare r => cases h : options.compare <;> simp [Site.after, h, Placed.calls]
  | _ => rfl

theorem compares_after (options : Options) (site : Site) (c : Placed) :
    (site.after options c.op).compares = site.compares + options.compareLabels c := by
  obtain ⟨unit, function, op⟩ := c
  cases op with
  | compare r => cases h : options.compare <;> simp [Site.after, h, Options.compareLabels]
  | _ => cases h : options.compare <;> simp [Site.after, h, Options.compareLabels]

/-- A command that fits is taken if there is code for its operation. -/
theorem takeCommand_eq_ok_iff {g g' : Generator} {c : Command} :
    g.takeCommand c = (.ok (), g') ↔
      ∃ op, c.operation = .ok op ∧
        ∃ batches, lower g.options g.listing.instructions g.site op = .ok batches ∧
          { g with listing := g.listing.stage c.source.text }.emit op batches = g' := by
  rw [takeCommand]
  cases hop : c.operation with
  | error cause => simp
  | ok op =>
      cases hlower : lower g.options g.listing.instructions g.site op with
      | error cause => simp [hlower]
      | ok batches => simp [hlower]

theorem emits_emit {g : Generator} {text : String} {op : Operation} {batches : List Batch}
    (hlower : lower g.options g.listing.instructions g.site op = .ok batches) :
    Emits g [g.place op] [Codegen.codeOf batches]
      ({ g with listing := g.listing.stage text }.emit op batches) where
  lowered := lowerAll_cons_eq_ok_iff.mpr ⟨batches, hlower, [], rfl, rfl⟩
  text := by
    obtain ⟨texts, htexts, hspells⟩ := (g.listing.stage text).spells_addAll batches
    refine ⟨[texts], ?_, .cons hspells .nil⟩
    rw [Listing.lines_stage] at htexts
    rw [List.flatten_singleton]
    exact htexts
  options := rfl
  counters := by
    have hrom := Listing.instructions_addAll (g.listing.stage text) batches
    rw [Listing.instructions_stage, countP_of_lower hlower] at hrom
    have hcalls := calls_after g.options g.site (g.place op)
    have hcompares := compares_after g.options g.site (g.place op)
    simp only [Counters.afterAll_cons, Counters.afterAll_nil, Counters.after, counters, emit,
      Counters.mk.injEq]
    exact ⟨hrom, hcalls, hcompares⟩

end Generator

end Codegen

end HackBackend
