import HackBackend.Codegen.Generator
import HackBackend.Proofs.Codegen.Emission

/-!
# Requests to a generator

A generator serves requests one after another: it goes on to a unit or takes a command. A command
that is refused leaves no trace. Without it every other request is answered in the same way, and
the finished text is the same.

## Implementation notes

A refused command may leave its comment staged. The comment is never written, since whatever adds
lines next stages a comment of its own before. Listings count as alike if they are equal as soon
as a comment has been staged.
-/

namespace HackBackend.Codegen

open Vm

namespace Listing

/-- Of two comments that are staged one after the other, only the second counts. -/
@[simp] theorem stage_stage (listing : Listing) (first second : String) :
    (listing.stage first).stage second = listing.stage second := by
  unfold stage
  by_cases h : listing.comments <;> simp [h]

/-- Listings that cannot be told apart once a comment has been staged. -/
def Alike (a b : Listing) : Prop :=
  ∀ text, a.stage text = b.stage text

theorem Alike.refl (a : Listing) : Alike a a := fun _ => rfl

theorem alike_stage (a : Listing) (text : String) : Alike (a.stage text) a :=
  fun _ => stage_stage a text _

variable {a b : Listing}

theorem Alike.lines (h : Alike a b) : a.lines = b.lines := by
  rw [← lines_stage a "", h, lines_stage]

theorem Alike.instructions (h : Alike a b) : a.instructions = b.instructions := by
  rw [← instructions_stage a "", h, instructions_stage]

end Listing

namespace Generator

/-- Generators that differ at most in a comment that neither of them will write. -/
structure Alike (g h : Generator) : Prop where
  options : g.options = h.options
  site : g.site = h.site
  listing : g.listing.Alike h.listing

variable {g h : Generator}

theorem Alike.refl (g : Generator) : Alike g g := ⟨rfl, rfl, .refl _⟩

theorem Alike.trans {g₁ g₂ g₃ : Generator} (h₁ : Alike g₁ g₂) (h₂ : Alike g₂ g₃) :
    Alike g₁ g₃ :=
  ⟨h₁.options.trans h₂.options, h₁.site.trans h₂.site,
    fun text => (h₁.listing text).trans (h₂.listing text)⟩

theorem Alike.symm (hg : Alike g h) : Alike h g :=
  ⟨hg.options.symm, hg.site.symm, fun text => (hg.listing text).symm⟩

theorem Alike.beginUnit (hg : Alike g h) (name : String) :
    Alike (g.beginUnit name) (h.beginUnit name) where
  options := hg.options
  site := by simp only [Generator.beginUnit, hg.site]
  listing := hg.listing

/-- A refused command changes at most the staged comment. -/
theorem alike_of_takeCommand_error {c : Command} {e : Error}
    (hrefused : g.takeCommand c = (.error e, h)) : Alike h g := by
  rw [takeCommand] at hrefused
  cases hop : c.operation with
  | error cause =>
      obtain rfl : g = h := by simpa [hop] using congrArg Prod.snd hrefused
      exact .refl g
  | ok op =>
      cases hlower : lower g.options g.listing.instructions g.site op with
      | error cause =>
          obtain rfl : { g with listing := g.listing.stage c.source.text } = h := by
            simpa [hop, hlower] using congrArg Prod.snd hrefused
          exact ⟨rfl, rfl, g.listing.alike_stage c.source.text⟩
      | ok batches => simp [hop, hlower] at hrefused

/-- Generators that are alike give a command the same result and stay alike. -/
theorem Alike.takeCommand (hg : Alike g h) (c : Command) :
    (g.takeCommand c).1 = (h.takeCommand c).1 ∧
      Alike (g.takeCommand c).2 (h.takeCommand c).2 := by
  obtain ⟨options, listing, site⟩ := g
  obtain ⟨options', listing', site'⟩ := h
  obtain ⟨rfl, rfl, hlisting⟩ := hg
  rw [Generator.takeCommand, Generator.takeCommand]
  cases c.operation with
  | error cause => exact ⟨rfl, rfl, rfl, hlisting⟩
  | ok op =>
      have hstaged : listing.stage c.source.text = listing'.stage c.source.text :=
        hlisting c.source.text
      rw [hstaged]
      exact ⟨rfl, .refl _⟩

theorem Alike.finish (hg : Alike g h) : g.finish = h.finish := by
  have hstaged : g.listing.add haltBatch = h.listing.add haltBatch :=
    congrArg (fun staged => staged.write (haltBatch.code.map Asm.Line.text))
      (hg.listing "end of program")
  rw [Generator.finish, Generator.finish, hstaged]

/-! ### Requests and their answers -/

inductive Request where
  | beginUnit (name : String)
  | command (c : Command)

/-- What can be seen of a request that has been served. -/
structure Answer where
  result : Except Error Unit
  /-- The lines that the request added. -/
  added : List String
  /-- The number of instructions up to the next request. -/
  instructions : Nat
  /-- Where the next request finds the generator. -/
  site : Site

def Answer.accepted (answer : Answer) : Bool :=
  answer.result.toOption.isSome

def handle (g : Generator) : Request → Except Error Unit × Generator
  | .beginUnit name => (.ok (), g.beginUnit name)
  | .command c => g.takeCommand c

/-- The answer to a request, in view of the generator before and after it. -/
def answer (g : Generator) (r : Request) : Answer where
  result := (g.handle r).1
  added := (g.handle r).2.listing.lines.toList.drop g.listing.lines.size
  instructions := (g.handle r).2.listing.instructions
  site := (g.handle r).2.site

/-- The requests of a run with their answers. -/
def answers (g : Generator) : List Request → List (Request × Answer)
  | [] => []
  | r :: rest => (r, g.answer r) :: (g.handle r).2.answers rest

/-- The requests of a run without the ones that are refused. -/
def accepted (g : Generator) : List Request → List Request
  | [] => []
  | r :: rest =>
      if (g.answer r).accepted then r :: (g.handle r).2.accepted rest
      else (g.handle r).2.accepted rest

/-- The generator after a run. -/
def after (g : Generator) (requests : List Request) : Generator :=
  requests.foldl (fun g r => (g.handle r).2) g

theorem after_cons (g : Generator) (r : Request) (rest : List Request) :
    g.after (r :: rest) = (g.handle r).2.after rest := rfl

theorem after_append (g : Generator) (first last : List Request) :
    g.after (first ++ last) = (g.after first).after last :=
  List.foldl_append

/-- Lines are only ever added at the end. -/
theorem toList_lines_handle (g : Generator) (r : Request) :
    (g.handle r).2.listing.lines.toList = g.listing.lines.toList ++ (g.answer r).added := by
  have hextends : ∃ texts,
      (g.handle r).2.listing.lines.toList = g.listing.lines.toList ++ texts := by
    cases r with
    | beginUnit name => exact ⟨[], (List.append_nil _).symm⟩
    | command c =>
        cases htake : g.takeCommand c with
        | mk outcome next =>
            simp only [handle, htake]
            cases outcome with
            | error e =>
                rw [(alike_of_takeCommand_error htake).listing.lines]
                exact ⟨[], (List.append_nil _).symm⟩
            | ok done =>
                obtain ⟨op, -, batches, hlower, rfl⟩ := takeCommand_eq_ok_iff.mp htake
                obtain ⟨texts, htexts, -⟩ := (@emits_emit g c.source.text op batches hlower).text
                exact ⟨_, htexts⟩
  obtain ⟨texts, htexts⟩ := hextends
  rw [answer, htexts, ← Array.length_toList, List.drop_left]

theorem Alike.handle (hg : Alike g h) (r : Request) :
    g.answer r = h.answer r ∧ Alike (g.handle r).2 (h.handle r).2 := by
  have hsame : (g.handle r).1 = (h.handle r).1 ∧ Alike (g.handle r).2 (h.handle r).2 := by
    cases r with
    | beginUnit name => exact ⟨rfl, hg.beginUnit name⟩
    | command c => exact hg.takeCommand c
  obtain ⟨hresult, hnext⟩ := hsame
  refine ⟨?_, hnext⟩
  rw [answer, answer, hresult, hnext.listing.lines, hnext.listing.instructions, hnext.site,
    hg.listing.lines]

/-- A request that is not accepted leaves the generator as it was, but for a staged comment. -/
theorem alike_of_not_accepted {r : Request} (hrefused : (g.answer r).accepted = false) :
    Alike (g.handle r).2 g := by
  cases r with
  | beginUnit name => simp [answer, handle, Answer.accepted, Except.toOption] at hrefused
  | command c =>
      cases htake : g.takeCommand c with
      | mk outcome next =>
          cases outcome with
          | error e =>
              rw [Generator.handle, htake]
              exact alike_of_takeCommand_error htake
          | ok done => simp [answer, handle, htake, Answer.accepted, Except.toOption] at hrefused

/-- A generator that is alike, and is only asked what the first one accepts, answers as it does. -/
theorem Alike.answers_accepted (hg : Alike g h) (requests : List Request) :
    h.answers (g.accepted requests) = (g.answers requests).filter (fun entry => entry.2.accepted) ∧
      Alike (h.after (g.accepted requests)) (g.after requests) := by
  induction requests generalizing g h with
  | nil => exact ⟨rfl, hg.symm⟩
  | cons r rest ih =>
      rw [accepted, answers, List.filter_cons]
      by_cases haccepted : (g.answer r).accepted
      · obtain ⟨hanswer, hnext⟩ := hg.handle r
        obtain ⟨hrest, hlast⟩ := ih hnext
        rw [if_pos haccepted, if_pos haccepted, answers, hrest, hanswer]
        exact ⟨rfl, hlast⟩
      · -- The second generator is not asked; the first has at most staged a comment meanwhile.
        have hunchanged := alike_of_not_accepted (Bool.eq_false_iff.mpr haccepted)
        rw [if_neg haccepted, if_neg haccepted]
        exact ih (hunchanged.trans hg)

/-- Leaving out the commands that a generator refuses changes nothing else: the other requests have
the same answers, and the finished text is the same. A refused command adds no line, does not move
the counters of instructions, calls and comparisons, and does not change unit or function. -/
theorem answers_without_refused (options : Options) (requests : List Request) :
    (new options).answers ((new options).accepted requests) =
        ((new options).answers requests).filter (fun entry => entry.2.accepted) ∧
      ((new options).after ((new options).accepted requests)).finish =
        ((new options).after requests).finish ∧
      ∀ before r, (((new options).after before).answer r).accepted = false →
        (((new options).after before).answer r).added = [] ∧
          (((new options).after before).answer r).instructions =
            ((new options).after before).listing.instructions ∧
          (((new options).after before).answer r).site = ((new options).after before).site := by
  obtain ⟨hanswers, hlast⟩ := (Alike.refl (new options)).answers_accepted requests
  refine ⟨hanswers, hlast.finish, fun before r hrefused => ?_⟩
  have hsame := alike_of_not_accepted hrefused
  refine ⟨?_, hsame.listing.instructions, hsame.site⟩
  have hlines := toList_lines_handle ((new options).after before) r
  rw [hsame.listing.lines] at hlines
  exact List.self_eq_append_right.mp hlines

end Generator

end HackBackend.Codegen
