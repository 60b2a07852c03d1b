import HackBackend.Proofs.Codegen.Building
import HackBackend.Proofs.Codegen.Requests

/-!
# The code of a history of requests

A generator that serves requests spells out the code of the commands that it takes, each at the
place where it finds it: in the unit that it has gone on to and in the function that is open there.
A command that is refused has no code. Where no comments are kept, the text is that code and
nothing else.
-/

namespace HackBackend.Codegen

open Asm Vm StackMachine Text

namespace Listing

/-- A listing that keeps no comments, and for which none is waiting. -/
structure Bare (listing : Listing) : Prop where
  comments : listing.comments = false
  staged : listing.staged = none

/-- Listings without comments that cannot be told apart are the same. -/
theorem Alike.eq {a b : Listing} (h : a.Alike b) (hcomments : b.comments = false) : a = b := by
  have hb : b.stage "" = b := by simp [stage, hcomments]
  have hsame : a.stage "" = b := (h "").trans hb
  have ha : a.comments = false := by rw [← comments_stage a "", hsame, hcomments]
  rw [← hsame]
  simp [stage, ha]

variable {listing : Listing}

theorem Bare.stage_eq (h : listing.Bare) (text : String) : listing.stage text = listing := by
  simp [stage, h.comments]

/-- A batch is written as it is where no comment is waiting. -/
theorem Bare.add (h : listing.Bare) (batch : Batch) :
    (listing.add batch).Bare ∧
      (listing.add batch).lines.toList = listing.lines.toList ++ batch.code.map Line.text := by
  have hadd : listing.add batch = listing.write (batch.code.map Line.text) := by
    unfold Listing.add
    cases batch.comment with
    | none => rfl
    | some text => simp only [h.stage_eq]
  rw [hadd, toList_lines_write, h.staged, annotate_none]
  exact ⟨⟨h.comments, rfl⟩, rfl⟩

theorem Bare.addAll (h : listing.Bare) (batches : List Batch) :
    (listing.addAll batches).Bare ∧ (listing.addAll batches).lines.toList =
      listing.lines.toList ++ (Codegen.codeOf batches).map Line.text := by
  induction batches generalizing listing with
  | nil => exact ⟨h, by simp [Codegen.codeOf]⟩
  | cons batch rest ih =>
      obtain ⟨hfirst, hlines⟩ := h.add batch
      obtain ⟨hlast, hrest⟩ := ih hfirst
      refine ⟨hlast, ?_⟩
      rw [addAll_cons, hrest, hlines, List.append_assoc, ← List.map_append]
      rfl

end Listing

/-- The names at a place are those of a unit and of a function. -/
structure Site.Named (site : Site) : Prop where
  unit : IsStem site.unit
  function : ∀ name ∈ site.function, isSymbol name.toList

namespace Generator

/-- The operation of a request that is served, where the generator finds it. -/
def placed? (g : Generator) : Request → Option Placed
  | .beginUnit _ => none
  | .command c =>
      if (g.takeCommand c).1.toOption.isSome then c.operation.toOption.map g.place else none

/-- The operations that a generator takes when it serves some requests. -/
def codeOfRequests (g : Generator) : List Request → List Placed
  | [] => []
  | r :: rest => (g.placed? r).toList ++ (g.handle r).2.codeOfRequests rest

theorem placed?_of_takeCommand {g g' : Generator} {c : Command} {op : Operation}
    (htake : g.takeCommand c = (.ok (), g')) (hop : c.operation = .ok op) :
    g.placed? (.command c) = some (g.place op) := by
  simp [placed?, htake, hop, Except.toOption]

/-- A command is refused, or it has an operation with code that the generator adds. -/
theorem command_cases (g : Generator) (c : Command) :
    (g.placed? (.command c) = none ∧ Alike (g.handle (.command c)).2 g) ∨
      ∃ op batches, c.operation = .ok op ∧ g.placed? (.command c) = some (g.place op) ∧
        lower g.options g.listing.instructions g.site op = .ok batches ∧
        (g.handle (.command c)).2 =
          { g with listing := g.listing.stage c.source.text }.emit op batches := by
  rcases htake : g.takeCommand c with ⟨e | ⟨⟩, next⟩
  · left
    constructor
    · simp [placed?, htake, Except.toOption]
    · rw [handle, htake]
      exact alike_of_takeCommand_error htake
  · right
    obtain ⟨op, hop, batches, hlower, hnext⟩ := takeCommand_eq_ok_iff.mp htake
    refine ⟨op, batches, hop, placed?_of_takeCommand htake hop, hlower, ?_⟩
    rw [handle, htake, hnext]

/-- Serving a request adds the code of its operation, if it has one and is not refused. -/
theorem emits_handle (g : Generator) (r : Request) :
    ∃ chunks, Emits g (g.placed? r).toList chunks (g.handle r).2 ∧
      (g.listing.Bare → (g.handle r).2.listing.Bare ∧ (g.handle r).2.listing.lines.toList =
        g.listing.lines.toList ++ chunks.flatten.map Line.text) := by
  cases r with
  | beginUnit name =>
      refine ⟨[], ⟨rfl, ⟨[], ?_, .nil⟩, rfl, rfl⟩, ?_⟩
      · simp [handle, Generator.beginUnit]
      · intro hbare
        exact ⟨hbare, by simp [handle, Generator.beginUnit]⟩
  | command c =>
      rcases g.command_cases c with ⟨hnone, halike⟩ | ⟨op, batches, -, hplaced, hlower, hnext⟩
      · rw [hnone]
        refine ⟨[], ⟨rfl, ⟨[], ?_, .nil⟩, halike.options, ?_⟩, ?_⟩
        · simp [halike.listing.lines]
        · simp [counters, halike.listing.instructions, halike.site]
        · intro hbare
          rw [halike.listing.eq hbare.comments]
          exact ⟨hbare, by simp⟩
      · rw [hplaced, hnext]
        refine ⟨[Codegen.codeOf batches], emits_emit hlower, ?_⟩
        intro hbare
        obtain ⟨hlast, hlines⟩ := hbare.addAll batches
        rw [emit, hbare.stage_eq, List.flatten_singleton]
        exact ⟨hlast, hlines⟩

/-- Serving requests adds the code of the operations that are taken, one after another. -/
theorem emits_after (g : Generator) (requests : List Request) :
    ∃ chunks, Emits g (g.codeOfRequests requests) chunks (g.after requests) ∧
      (g.listing.Bare → (g.after requests).listing.Bare ∧
        (g.after requests).listing.lines.toList =
          g.listing.lines.toList ++ chunks.flatten.map Line.text) := by
  induction requests generalizing g with
  | nil => exact ⟨[], .refl g, fun hbare => ⟨hbare, by simp [after]⟩⟩
  | cons r rest ih =>
      obtain ⟨first, hfirst, hfirstBare⟩ := g.emits_handle r
      obtain ⟨last, hlast, hlastBare⟩ := ih (g.handle r).2
      refine ⟨first ++ last, hfirst.trans hlast, ?_⟩
      intro hbare
      obtain ⟨hnext, hlines⟩ := hfirstBare hbare
      obtain ⟨hend, hrest⟩ := hlastBare hnext
      refine ⟨hend, ?_⟩
      rw [List.flatten_append, List.map_append, ← List.append_assoc, ← hlines]
      exact hrest

/-- A generator that keeps no comments starts with the bare code of the bootstrap. -/
theorem bare_new {options : Options} (h : options.comments = false) :
    (new options).listing.Bare ∧
      (new options).listing.lines.toList = (bootCode options).map Line.text := by
  have hempty : ({ comments := options.comments } : Listing).Bare := ⟨h, rfl⟩
  unfold new bootCode
  split
  · obtain ⟨hbare, hlines⟩ := hempty.add bootstrapBatch
    exact ⟨hbare, by simpa using hlines⟩
  · exact ⟨hempty, rfl⟩

/-- The finished text spells out the bootstrap, the operations that were taken and the halt loop. It
has nothing else in it if no comments are kept. -/
theorem spells_history (options : Options) (requests : List Request) :
    ∃ chunks, lowerAll options (startCounters options)
        ((new options).codeOfRequests requests) = .ok chunks ∧
      List.Forall₂ Spells ((new options).after requests).finish (runCode options chunks) ∧
      (options.comments = false →
        ((new options).after requests).finish = (runCode options chunks).map Line.text) := by
  obtain ⟨chunks, hemits, hbody⟩ := (new options).emits_after requests
  refine ⟨chunks, ?_, hemits.spells_finish, ?_⟩
  · rw [← counters_new]
    exact hemits.lowered
  · intro hcomments
    obtain ⟨hbare, hboot⟩ := bare_new hcomments
    obtain ⟨hlast, hlines⟩ := hbody hbare
    obtain ⟨-, hhalt⟩ := hlast.add haltBatch
    rw [finish, hhalt, hlines, hboot, runCode, List.map_append, List.map_append]

/-! ### The names in a history -/

/-- The names at the place of a generator stay those of a unit and of a function, and the operation
of a request has them. -/
theorem named_handle {g : Generator} (h : g.site.Named) {r : Request}
    (hname : ∀ name, r = .beginUnit name → IsStem name) :
    (g.handle r).2.site.Named ∧ ∀ c ∈ g.placed? r, IsStem c.unit ∧ c.Named := by
  cases r with
  | beginUnit name =>
      refine ⟨⟨hname name rfl, ?_⟩, ?_⟩
      · simp [handle, Generator.beginUnit]
      · simp [placed?]
  | command c =>
      rcases g.command_cases c with ⟨hnone, halike⟩ | ⟨op, batches, hop, hplaced, -, hnext⟩
      · rw [hnone, halike.site]
        exact ⟨h, by simp⟩
      · have hnames := isSymbol_of_operation hop
        rw [hplaced, hnext]
        constructor
        · constructor
          · rw [emit, unit_after]
            exact h.unit
          · intro name hfunction
            rw [emit, function_after] at hfunction
            cases op with
            | function callee locals => exact hnames name hfunction
            | ret => cases hfunction
            | _ => exact h.function name hfunction
        · intro c hc
          obtain rfl := Option.some.inj hc
          exact ⟨h.unit, h.function, hnames⟩

/-- Every operation that is taken stands in a unit that was begun, or before all units. -/
theorem named_of_mem_codeOfRequests {g : Generator} (h : g.site.Named) {requests : List Request}
    (hnames : ∀ name, .beginUnit name ∈ requests → IsStem name) :
    ∀ c ∈ g.codeOfRequests requests, IsStem c.unit ∧ c.Named := by
  induction requests generalizing g with
  | nil => simp [codeOfRequests]
  | cons r rest ih =>
      have hr : ∀ name, r = .beginUnit name → IsStem name := by
        rintro name rfl
        exact hnames name (List.mem_cons_self ..)
      obtain ⟨hnext, hfirst⟩ := named_handle h hr
      have hrest := ih hnext fun name hname => hnames name (List.mem_cons_of_mem r hname)
      intro c hc
      rw [codeOfRequests] at hc
      rcases List.mem_append.mp hc with hc | hc
      · exact hfirst c (Option.mem_toList.mp hc)
      · exact hrest c hc

theorem named_new (options : Options) : (new options).site.Named where
  unit := .inl rfl
  function := by simp [new]

/-! ### Units as histories -/

/-- The commands on some lines that a generator is asked to take: those up to the first error. -/
def commandsOn (g : Generator) (number : Nat) : List (Except ReadFault String) → List Command
  | [] => []
  | item :: rest =>
      match Stream.readItem (number + 1) item with
      | .error _ => []
      | .ok none => g.commandsOn (number + 1) rest
      | .ok (some c) =>
          match g.takeCommand c with
          | (.error _, _) => [c]
          | (.ok (), next) => c :: next.commandsOn (number + 1) rest

/-- Taking lines is being asked to take the commands on them, whether they are all taken or not. -/
theorem after_commandsOn (g : Generator) (number : Nat) (items : List (Except ReadFault String)) :
    g.after ((g.commandsOn number items).map .command) = (g.takeLines number items).2 := by
  induction items generalizing g number with
  | nil => rfl
  | cons item rest ih =>
      rw [commandsOn, takeLines]
      rcases Stream.readItem (number + 1) item with e | _ | c
      · rfl
      · exact ih g (number + 1)
      · cases htake : g.takeCommand c with
        | mk outcome next =>
            have hnext : (g.handle (.command c)).2 = next := congrArg Prod.snd htake
            simp only [htake]
            rcases outcome with e | ⟨⟩
            · exact hnext
            · rw [List.map_cons, after_cons, hnext]
              exact ih next (number + 1)

/-- The requests that taking a unit comes to. -/
def requestsOfUnit (g : Generator) (name : String) (source : Source) : List Request :=
  .beginUnit name :: ((g.beginUnit name).commandsOn 0 source.lines).map .command

theorem after_requestsOfUnit (g : Generator) (name : String) (source : Source) :
    g.after (g.requestsOfUnit name source) = (g.takeUnit name source).2 :=
  after_commandsOn (g.beginUnit name) 0 source.lines

end Generator

end HackBackend.Codegen
