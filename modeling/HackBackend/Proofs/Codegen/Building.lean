import HackBackend.Proofs.Asm.Assembly
import HackBackend.Proofs.Codegen.Legibility
import HackBackend.Proofs.Codegen.Translation

/-!
# Building a program

If the names of the units are symbols, all lines of a run are read as what they are. What is left
of translating, spelling, reading and assembling is then that the code of the run is placed.
-/

namespace HackBackend.Codegen

open Asm Vm StackMachine Text

theorem readable_bootCode (options : Options) : ∀ line ∈ bootCode options, line.Readable := by
  have hbase : stackBase ≤ maxLiteral := by decide
  unfold bootCode
  split <;> simp [bootstrapBatch, hbase]

theorem readable_haltBatch : ∀ line ∈ haltBatch.code, line.Readable := by
  have hname : isSymbol haltLabel.toList := by decide
  simp [haltBatch, gotoCode, hname]

theorem readable_of_lowerAll {options : Options} {n : Counters} {code : List Placed}
    {chunks : List (List Line)} (hunit : ∀ c ∈ code, IsStem c.unit)
    (hnamed : ∀ c ∈ code, c.Named) (h : lowerAll options n code = .ok chunks) :
    ∀ line ∈ chunks.flatten, line.Readable :=
  forall_mem_of_lowerAll (fun c hc _ _ => readable_of_lower (hunit c hc) (hnamed c hc)) h

/-- The code of a run is read as what it is, if the names of the units in it are symbols or
empty. -/
theorem readable_run {options : Options} {code : List Placed} {chunks : List (List Line)}
    (hunit : ∀ c ∈ code, IsStem c.unit) (hnamed : ∀ c ∈ code, c.Named)
    (h : lowerAll options (startCounters options) code = .ok chunks) :
    ∀ line ∈ runCode options chunks, line.Readable := by
  have hchunks := readable_of_lowerAll hunit hnamed h
  exact List.forall_mem_append.mpr ⟨List.forall_mem_append.mpr
    ⟨readable_bootCode options, hchunks⟩, readable_haltBatch⟩

theorem readable_runCode {options : Options} {units : List (String × Text.Source)}
    {chunks : List (List Line)} (hunits : ∀ unit ∈ units, isSymbol unit.1.toList)
    (h : lowerAll options (startCounters options) (codeOfUnits units) = .ok chunks) :
    ∀ line ∈ runCode options chunks, line.Readable := by
  refine readable_run ?_ (fun c hc => (named_of_mem_codeOfUnits c hc).1) h
  intro c hc
  obtain ⟨-, unit, hunit, hname⟩ := named_of_mem_codeOfUnits c hc
  rw [hname]
  exact .inr (hunits unit hunit)

theorem codeOf_of_spells {text : String} {line : Line} (h : Spells text line) :
    Asm.codeOf text = Asm.codeOf line.text := by
  rcases h with rfl | ⟨comment, rfl⟩
  · rfl
  · exact codeOf_comment line.text comment

/-- A text is assembled as the lines that it spells are read. -/
theorem linesOf_eq_reread {texts : List String} {code : List Line}
    (h : List.Forall₂ Spells texts code) :
    linesOf texts = reread code ∧
      ((∀ raw ∈ texts, Asm.codeOf raw ≠ [] → (lineOf? raw).isSome) ↔
        ∀ line ∈ code, (lineOf? line.text).isSome) := by
  induction h with
  | nil => simp [linesOf, reread]
  | @cons text line texts code hspells _ ih =>
      obtain ⟨hlines, hread⟩ := ih
      have hcode := codeOf_of_spells hspells
      have hline : lineOf? text = lineOf? line.text := by rw [lineOf?, hcode, lineOf?]
      constructor
      · rw [linesOf, List.filterMap_cons, hline, reread, List.filterMap_cons]
        cases lineOf? line.text with
        | none => exact hlines
        | some read => exact congrArg (read :: ·) hlines
      · rw [List.forall_mem_cons, List.forall_mem_cons, hread, hline, hcode]
        exact and_congr_left' ⟨fun h => h (codeOf_text_ne_nil line), fun h _ => h⟩

/-- A line that is read as what it is can be read from any text that spells it. -/
theorem lineOf?_of_spells {text : String} {line : Line} (h : Spells text line)
    (hreadable : line.Readable) : lineOf? text = some line := by
  rw [lineOf?, codeOf_of_spells h, ← lineOf?, lineOf?_text hreadable]

/-- Lines that are read as what they are can be read from any text that spells them. -/
theorem linesOf_of_spells {texts : List String} {code : List Line}
    (h : List.Forall₂ Spells texts code) (hreadable : ∀ line ∈ code, line.Readable) :
    linesOf texts = code ∧ ∀ raw ∈ texts, (lineOf? raw).isSome := by
  induction h with
  | nil => exact ⟨rfl, by simp⟩
  | @cons text line texts code hspells _ ih =>
      obtain ⟨hline, hrest⟩ := List.forall_mem_cons.mp hreadable
      obtain ⟨hlines, hsome⟩ := ih hrest
      have hread : lineOf? text = some line := lineOf?_of_spells hspells hline
      refine ⟨?_, List.forall_mem_cons.mpr ⟨by rw [hread]; rfl, hsome⟩⟩
      rw [linesOf, List.filterMap_cons, hread]
      exact congrArg (line :: ·) hlines

/-- A program is built exactly if every command fits, there is code for every operation, and the
code of the run can be placed. -/
theorem build_eq_ok_iff {options : Options} {units : List (String × Text.Source)}
    {program : Program} (hunits : ∀ unit ∈ units, isSymbol unit.1.toList) :
    build options units = .ok program ↔
      (∀ unit ∈ units, Fits unit.2) ∧
        ∃ chunks, lowerAll options (startCounters options) (codeOfUnits units) = .ok chunks ∧
          ∃ layout, ({} : Layout).placeLines (runCode options chunks) = .ok layout ∧
            layout.program = program := by
  constructor
  · intro h
    obtain ⟨texts, hgenerate, hassemble⟩ := bind_eq_ok_iff.mp h
    obtain ⟨hfits, chunks, hlowered, hspells⟩ := spells_of_generate hgenerate
    obtain ⟨hlines, -⟩ := linesOf_of_spells hspells (readable_runCode hunits hlowered)
    obtain ⟨-, hplaced⟩ := assemble_eq_ok_iff.mp hassemble
    rw [hlines] at hplaced
    exact ⟨hfits, chunks, hlowered, hplaced⟩
  · rintro ⟨hfits, chunks, hlowered, hplaced⟩
    obtain ⟨texts, hgenerate⟩ := generate_of_lowerAll hfits hlowered
    obtain ⟨-, same, hsame, hspells⟩ := spells_of_generate hgenerate
    obtain rfl := Except.ok.inj (hlowered.symm.trans hsame)
    obtain ⟨hlines, hsome⟩ := linesOf_of_spells hspells (readable_runCode hunits hlowered)
    refine bind_eq_ok_iff.mpr ⟨texts, hgenerate, assemble_eq_ok_iff.mpr ⟨?_, ?_⟩⟩
    · exact fun raw hraw _ => hsome raw hraw
    · rw [hlines]
      exact hplaced

/-- The layout of the code of a run, if there is code for every operation and it can be placed. It
is found without spelling the code out. -/
def layout? (options : Options) (code : List Placed) : Option Layout := do
  let chunks ← (lowerAll options (startCounters options) code).toOption
  (({} : Layout).placeLines (runCode options chunks)).toOption

theorem build_of_layout? {options : Options} {units : List (String × Text.Source)}
    {layout : Layout} (hunits : ∀ unit ∈ units, isSymbol unit.1.toList)
    (hfits : ∀ unit ∈ units, Fits unit.2) (h : layout? options (codeOfUnits units) = some layout) :
    build options units = .ok layout.program := by
  obtain ⟨chunks, hchunks, hplaced⟩ := Option.bind_eq_some_iff.mp h
  exact (build_eq_ok_iff hunits).mpr ⟨hfits, chunks, toOption_eq_some_iff.mp hchunks, layout,
    toOption_eq_some_iff.mp hplaced, rfl⟩

/-- What the program of some units is like can be decided on the layout of their code. -/
theorem exists_layout_of_any {options : Options} {units : List (String × Text.Source)}
    {code : List Placed} {p : Layout → Bool} (hunits : ∀ unit ∈ units, isSymbol unit.1.toList)
    (hfits : ∀ unit ∈ units, Fits unit.2) (hcode : codeOfUnits units = code)
    (h : (layout? options code).any p) :
    ∃ layout, build options units = .ok layout.program ∧ p layout := by
  obtain ⟨layout, hlayout, hp⟩ := (Option.any_eq_true _ _).mp h
  exact ⟨layout, build_of_layout? hunits hfits (hcode ▸ hlayout), hp⟩

theorem exists_build_of_layout? {options : Options} {units : List (String × Text.Source)}
    {code : List Placed} (hunits : ∀ unit ∈ units, isSymbol unit.1.toList)
    (hfits : ∀ unit ∈ units, Fits unit.2) (hcode : codeOfUnits units = code)
    (h : (layout? options code).isSome) : ∃ program, build options units = .ok program := by
  obtain ⟨layout, hlayout⟩ := Option.isSome_iff_exists.mp h
  exact ⟨layout.program, build_of_layout? hunits hfits (hcode ▸ hlayout)⟩

end HackBackend.Codegen
