import HackBackend.Proofs.Asm.Inlining
import HackBackend.Proofs.Codegen.LineByLine
import HackBackend.Proofs.Codegen.UnitNames

/-!
# The physical lines of generated text

A line of generated text stands on one line of a file, if the names of the units do. The texts of
commands, which are echoed as comments, were lines of a source themselves.
-/

namespace HackBackend

open Asm Vm StackMachine Text

namespace Asm

theorem oneLine_text {line : Line} (h : ∀ name ∈ line.name?, OneLine name) : OneLine line.text := by
  rcases line with ((n | name) | ⟨dest, comp, jump⟩) | name
  · exact oneLine_append.mpr ⟨by decide, oneLine_toString n⟩
  · exact oneLine_append.mpr ⟨by decide, h name rfl⟩
  · intro hmem
    exact absurd (computeText_plain dest comp jump _ hmem).1 (by decide)
  · exact oneLine_append.mpr ⟨oneLine_append.mpr ⟨by decide, h name rfl⟩, by decide⟩

theorem Line.Owned.oneLine {isUnit : String → Prop} {line : Line} (h : line.Owned isUnit)
    (hunit : ∀ unit, isUnit unit → OneLine unit) : OneLine line.text := by
  refine oneLine_text fun name hname => ?_
  cases h with
  | readable hreadable =>
      rcases line with ((n | symbol) | ⟨dest, comp, jump⟩) | label
      · cases hname
      · obtain rfl := Option.some.inj hname
        exact oneLine_of_isSymbol hreadable
      · cases hname
      · obtain rfl := Option.some.inj hname
        exact oneLine_of_isSymbol hreadable
  | symbol hisUnit hsuffix | label hisUnit hsuffix =>
      obtain rfl := Option.some.inj hname
      exact oneLine_append.mpr ⟨hunit _ hisUnit, oneLine_of_isSymbol hsuffix⟩

end Asm

/-! ### The texts of commands -/

/-- The text of a command is part of the line that it is on. -/
theorem Vm.oneLine_source {number : Nat} {raw : String} {c : Command}
    (h : Vm.readLine number raw = .ok (some c)) (hraw : OneLine raw) : OneLine c.source.text := by
  obtain ⟨ws, -, hc⟩ := Vm.readLine_eq_ok_some_iff.mp h
  have hecho : Vm.IsEcho raw (Vm.codeOf raw) := Vm.isEcho_iff.mpr rfl
  intro hmem
  rw [hc.source_eq, String.toList_ofList] at hmem
  exact hraw (hecho.isInfix.subset hmem)

namespace Codegen

/-- A batch without newlines in its lines and in its comment. -/
structure Batch.Tidy (batch : Batch) : Prop where
  comment : ∀ text ∈ batch.comment, OneLine text
  code : ∀ line ∈ batch.code, OneLine line.text

/-- A listing without newlines in its lines, and in the comment that waits for the next one. -/
structure Listing.Tidy (listing : Listing) : Prop where
  lines : ∀ raw ∈ listing.lines.toList, OneLine raw
  staged : ∀ text ∈ listing.staged, OneLine text

theorem oneLine_of_mem_annotate {comment : Option String} {lines : List String}
    (hcomment : ∀ text ∈ comment, OneLine text) (hlines : ∀ raw ∈ lines, OneLine raw) :
    ∀ raw ∈ annotate comment lines, OneLine raw := by
  cases lines with
  | nil => exact hlines
  | cons line rest =>
      cases comment with
      | none => exact hlines
      | some text =>
          obtain ⟨hline, hrest⟩ := List.forall_mem_cons.mp hlines
          have htext : OneLine (line ++ " //" ++ text) := oneLine_append.mpr
            ⟨oneLine_append.mpr ⟨hline, by decide⟩, hcomment text rfl⟩
          exact List.forall_mem_cons.mpr ⟨htext, hrest⟩

namespace Listing.Tidy

variable {listing : Listing}

theorem stage (h : listing.Tidy) {text : String} (htext : OneLine text) :
    (listing.stage text).Tidy := by
  rw [Listing.stage]
  split
  · refine ⟨h.lines, fun found hfound => ?_⟩
    rwa [← Option.some.inj hfound]
  · exact h

theorem add (h : listing.Tidy) {batch : Batch} (hbatch : batch.Tidy) :
    (listing.add batch).Tidy := by
  have hwrite {listing : Listing} (h : listing.Tidy) :
      (listing.write (batch.code.map Line.text)).Tidy := by
    refine ⟨?_, by simp⟩
    rw [toList_lines_write]
    refine List.forall_mem_append.mpr ⟨h.lines, oneLine_of_mem_annotate h.staged ?_⟩
    exact List.forall_mem_map.mpr hbatch.code
  rw [Listing.add]
  cases hcomment : batch.comment with
  | none => exact hwrite h
  | some text => exact hwrite (h.stage (hbatch.comment text hcomment))

theorem addAll (h : listing.Tidy) {batches : List Batch} (hbatches : ∀ b ∈ batches, b.Tidy) :
    (listing.addAll batches).Tidy := by
  induction batches generalizing listing with
  | nil => exact h
  | cons batch rest ih =>
      obtain ⟨hbatch, hrest⟩ := List.forall_mem_cons.mp hbatches
      exact ih (h.add hbatch) hrest

end Listing.Tidy

theorem oneLine_comment_call (callee returnTo : String) (args : Nat) :
    ∀ batch ∈ callBatches callee returnTo args, ∀ text ∈ batch.comment, OneLine text := by
  have hargs : OneLine s!"ARG = SP-{args}-{frameSize}" := by
    have hnumber : OneLine ("ARG = SP-" ++ toString args ++ "-") :=
      oneLine_append.mpr ⟨oneLine_append.mpr ⟨by decide, oneLine_toString args⟩, by decide⟩
    exact oneLine_append.mpr ⟨hnumber, by decide⟩
  intro batch hbatch text htext
  rcases List.mem_append.mp hbatch with hsaved | hrest
  · rcases List.mem_cons.mp hsaved with rfl | hsaved
    · cases htext
    · obtain ⟨b, -, rfl⟩ := List.mem_map.mp hsaved
      obtain rfl := Option.some.inj htext
      cases b <;> decide
  · simp only [List.mem_cons, List.not_mem_nil, or_false] at hrest
    rcases hrest with rfl | rfl | rfl
    · obtain rfl := Option.some.inj htext
      exact hargs
    · obtain rfl := Option.some.inj htext
      decide
    · cases htext

/-- The comments that come with an operation have no newlines. -/
theorem oneLine_comment_of_lower {options : Options} {rom : Nat} {site : Site} {op : Operation}
    {batches : List Batch} (h : lower options rom site op = .ok batches) :
    ∀ batch ∈ batches, ∀ text ∈ batch.comment, OneLine text := by
  cases op with
  | push segment offset =>
      obtain ⟨place, -, rfl⟩ := lower_push_eq_ok_iff.mp h
      simp
  | pop segment offset =>
      obtain ⟨place, -, code, -, rfl⟩ := lower_pop_eq_ok_iff.mp h
      simp
  | compare r =>
      obtain ⟨-, rfl⟩ := lower_compare_eq_ok_iff.mp h
      simp
  | call name args =>
      obtain ⟨-, rfl⟩ := lower_call_eq_ok_iff.mp h
      exact oneLine_comment_call _ _ args
  | ret =>
      obtain rfl := Except.ok.inj h
      decide
  | _ =>
      obtain rfl := Except.ok.inj h
      simp

namespace Generator

/-- A generator that has written no newline within a line, and is not about to. -/
structure Tidy (g : Generator) : Prop where
  listing : g.listing.Tidy
  unit : OneLine g.site.unit
  function : ∀ name ∈ g.site.function, isSymbol name.toList

variable {g g' : Generator}

theorem Tidy.beginUnit (h : g.Tidy) {name : String} (hname : OneLine name) :
    (g.beginUnit name).Tidy :=
  ⟨h.listing, hname, by simp [Generator.beginUnit]⟩

theorem Tidy.takeCommand (h : g.Tidy) {c : Command} (htext : OneLine c.source.text)
    (htake : g.takeCommand c = (.ok (), g')) : g'.Tidy := by
  obtain ⟨op, hop, batches, hlower, rfl⟩ := takeCommand_eq_ok_iff.mp htake
  have hnames := isSymbol_of_operation hop
  have hcode : ∀ line ∈ Codegen.codeOf batches, line.Owned OneLine :=
    @owned_of_lower OneLine _ g.counters (g.place op) batches h.unit ⟨h.function, hnames⟩ hlower
  refine ⟨(h.listing.stage htext).addAll fun batch hbatch => ⟨?_, ?_⟩, ?_, ?_⟩
  · exact oneLine_comment_of_lower hlower batch hbatch
  · intro line hline
    exact (hcode line (List.mem_flatMap.mpr ⟨batch, hbatch, hline⟩)).oneLine fun _ => id
  · rw [emit, unit_after]
    exact h.unit
  · rw [emit, function_after]
    cases op with
    | function name locals => exact fun opened hopened => hnames opened hopened
    | ret => simp [functionAfter]
    | _ => exact h.function

theorem Tidy.takeLines (h : g.Tidy) {number : Nat} {items : List (Except ReadFault String)}
    (hitems : ∀ raw, .ok raw ∈ items → OneLine raw)
    (htake : g.takeLines number items = (.ok (), g')) : g'.Tidy := by
  induction items generalizing g number with
  | nil =>
      obtain rfl : g = g' := by simpa [Generator.takeLines] using htake
      exact h
  | cons item rest ih =>
      have hrest : ∀ raw, .ok raw ∈ rest → OneLine raw := fun raw hraw =>
        hitems raw (List.mem_cons_of_mem item hraw)
      rw [Generator.takeLines] at htake
      rcases hread : Stream.readItem (number + 1) item with e | _ | c
      · simp [hread] at htake
      · exact ih h hrest (by simpa [hread] using htake)
      · have htext : OneLine c.source.text := by
          rcases item with (_ | message) | raw
          · cases hread
          · cases hread
          · exact oneLine_source hread (hitems raw (List.mem_cons_self ..))
        rcases hcommand : g.takeCommand c with ⟨e | ⟨⟩, next⟩
        · simp [hread, hcommand] at htake
        · exact ih (h.takeCommand htext hcommand) hrest (by simpa [hread, hcommand] using htake)

theorem Tidy.takeUnits (h : g.Tidy) {units : List (String × Text.Source)}
    (hunits : ∀ unit ∈ units, OneLine unit.1) (htake : g.takeUnits units = (.ok (), g')) :
    g'.Tidy := by
  induction units generalizing g with
  | nil =>
      obtain rfl : g = g' := by simpa [Generator.takeUnits] using htake
      exact h
  | cons unit rest ih =>
      obtain ⟨name, source⟩ := unit
      obtain ⟨hname, hrest⟩ := List.forall_mem_cons.mp hunits
      rw [Generator.takeUnits] at htake
      rcases hunit : g.takeUnit name source with ⟨e | ⟨⟩, next⟩
      · simp [hunit] at htake
      · have hnext := (h.beginUnit hname).takeLines (fun _ => oneLine_of_mem_lines) hunit
        exact ih hnext hrest (by simpa [hunit] using htake)

theorem tidy_new (options : Options) : (new options).Tidy := by
  have hempty : ({ comments := options.comments } : Listing).Tidy := ⟨by simp, by simp⟩
  have hboot : bootstrapBatch.Tidy := ⟨by decide, by decide⟩
  have hunit : OneLine "" := by decide
  refine ⟨?_, hunit, by simp [new]⟩
  rw [new]
  split
  · exact hempty.add hboot
  · exact hempty

end Generator

/-- Each line of generated text stands on one line, if the names of the units do. -/
theorem oneLine_of_generate {options : Options} {units : List (String × Text.Source)}
    {texts : List String} (hunits : ∀ unit ∈ units, OneLine unit.1)
    (h : generate options units = .ok texts) : ∀ raw ∈ texts, OneLine raw := by
  obtain ⟨g, htake, rfl⟩ := generate_eq_ok_iff.mp h
  have hhalt : haltBatch.Tidy := ⟨by decide, by decide⟩
  exact (((Generator.tidy_new options).takeUnits hunits htake).listing.add hhalt).lines

end Codegen

end HackBackend
