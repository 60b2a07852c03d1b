import HackBackend.Proofs.Asm.Relocation
import HackBackend.Proofs.Codegen.Placement

/-!
# The bootstrap

The code of the bootstrap comes first, so all other code stands four instructions later than it
does without it. That shows wherever an address of the code is loaded: for a label, or for the place
where a comparison goes on. Numbers that only look like such an address stay as they are, and so do
the cells of registers and variables.
-/

namespace HackBackend

namespace Asm

/-- If all moved lines can be read, so can the lines themselves, and what is read has been moved in
the same way. This holds even if a name makes a line be read as another one. -/
theorem Moved.reread {distance start : Nat} {target : Nat → Prop} {code moved : List Line}
    (h : Moved distance target start code moved)
    (hread : ∀ line ∈ moved, (lineOf? line.text).isSome) :
    (∀ line ∈ code, (lineOf? line.text).isSome) ∧
      Moved distance target start (reread code) (reread moved) := by
  induction h with
  | nil start => exact ⟨by simp, .nil start⟩
  | label name _ ih =>
      obtain ⟨hline, hrest⟩ := List.forall_mem_cons.mp hread
      obtain ⟨hsome, hmoved⟩ := ih hrest
      obtain ⟨read, hlabel⟩ := Option.isSome_iff_exists.mp hline
      refine ⟨List.forall_mem_cons.mpr ⟨hline, hsome⟩, ?_⟩
      rw [reread_cons hlabel, reread_cons hlabel]
      cases read with
      | instruction i => cases isInstruction_of_lineOf?_text hlabel
      | label other => exact .label other hmoved
  | kept i hkept _ ih =>
      obtain ⟨hline, hrest⟩ := List.forall_mem_cons.mp hread
      obtain ⟨hsome, hmoved⟩ := ih hrest
      obtain ⟨read, hinstruction⟩ := Option.isSome_iff_exists.mp hline
      refine ⟨List.forall_mem_cons.mpr ⟨hline, hsome⟩, ?_⟩
      rw [reread_cons hinstruction, reread_cons hinstruction]
      cases read with
      | instruction j => exact .kept j hkept hmoved
      | label name => cases isInstruction_of_lineOf?_text hinstruction
  | @shifted start rest moved n htarget hfits _ ih =>
      obtain ⟨-, hrest⟩ := List.forall_mem_cons.mp hread
      obtain ⟨hsome, hmoved⟩ := ih hrest
      have hnumber (m : Nat) (hm : m ≤ maxLiteral) :
          lineOf? (Line.instruction (.load (.literal m))).text =
            some (.instruction (.load (.literal m))) := lineOf?_literal hm
      have hplain := hnumber n (Nat.le_trans (Nat.le_add_right n distance) hfits)
      refine ⟨List.forall_mem_cons.mpr ⟨Option.isSome_iff_exists.mpr ⟨_, hplain⟩, hsome⟩, ?_⟩
      rw [reread_cons hplain, reread_cons (hnumber _ hfits)]
      exact .shifted n htarget hfits hmoved

end Asm

namespace Codegen

open Asm Machine Vm StackMachine

/-! ### The addresses that comparisons load -/

/-- The number of instructions of a comparison before the one that loads its target. -/
def targetOffset : Nat := 6

/-- The instruction at an index loads the target of a comparison by its address, if operations are
turned into code from some counters on. -/
def LoadsTarget (options : Options) (n : Counters) (code : List Placed) (i : Nat) : Prop :=
  options.compare = .absolute ∧ ∃ position c r, code[position]? = some c ∧ c.op = .compare r ∧
    i = (n.afterAll options (code.take position)).rom + targetOffset

theorem loadsTarget_cons {options : Options} {n : Counters} {c : Placed} {rest : List Placed}
    {i : Nat} : LoadsTarget options n (c :: rest) i ↔
      (options.compare = .absolute ∧ (∃ r, c.op = .compare r) ∧ i = n.rom + targetOffset) ∨
        LoadsTarget options (n.after options c) rest i := by
  constructor
  · rintro ⟨hstyle, position, d, r, hd, hop, hi⟩
    cases position with
    | zero =>
        obtain rfl := Option.some.inj hd
        exact .inl ⟨hstyle, ⟨r, hop⟩, hi⟩
    | succ position => exact .inr ⟨hstyle, position, d, r, hd, hop, hi⟩
  · rintro (⟨hstyle, ⟨r, hop⟩, hi⟩ | ⟨hstyle, position, d, r, hd, hop, hi⟩)
    · exact ⟨hstyle, 0, c, r, rfl, hop, hi⟩
    · exact ⟨hstyle, position + 1, d, r, hd, hop, hi⟩

theorem le_rom_afterAll (options : Options) (n : Counters) (code : List Placed) :
    n.rom ≤ (n.afterAll options code).rom := by
  induction code generalizing n with
  | nil => exact Nat.le_refl _
  | cons c rest ih => exact Nat.le_trans (Nat.le_add_right n.rom c.op.size) (ih (n.after options c))

/-- The targets of comparisons are loaded by instructions of the code. -/
theorem LoadsTarget.bounds {options : Options} {n : Counters} {code : List Placed} {i : Nat}
    (h : LoadsTarget options n code i) : n.rom ≤ i ∧ i < (n.afterAll options code).rom := by
  induction code generalizing n with
  | nil =>
      obtain ⟨-, position, c, r, hc, -⟩ := h
      cases hc
  | cons c rest ih =>
      have hafter : (n.after options c).rom = n.rom + c.op.size := rfl
      rcases loadsTarget_cons.mp h with ⟨-, ⟨r, hop⟩, rfl⟩ | hrest
      · have hsize : c.op.size = compareLength := by rw [hop]; rfl
        have hlater := le_rom_afterAll options (n.after options c) rest
        rw [hafter, hsize] at hlater
        simp only [targetOffset, compareLength, Counters.afterAll_cons] at hlater ⊢
        omega
      · obtain ⟨hle, hlt⟩ := ih hrest
        exact ⟨by omega, hlt⟩

/-! ### Code from later counters on -/

/-- The counters behind some more instructions. -/
def Counters.behind (n : Counters) (distance : Nat) : Counters :=
  { n with rom := n.rom + distance }

theorem after_behind (n : Counters) (distance : Nat) (options : Options) (c : Placed) :
    (n.behind distance).after options c = (n.after options c).behind distance := by
  simp only [Counters.after, Counters.behind, Nat.add_right_comm]

/-- Only the code of a comparison by address depends on where it stands. -/
theorem lower_rom {options : Options} {op : Operation}
    (h : ¬ (options.compare = .absolute ∧ ∃ r, op = .compare r)) (rom rom' : Nat) (site : Site) :
    lower options rom site op = lower options rom' site op := by
  cases op with
  | compare r =>
      cases hstyle : options.compare with
      | absolute => exact absurd ⟨hstyle, r, rfl⟩ h
      | symbolic => simp only [lower, hstyle]
  | _ => rfl

/-- The code of a comparison by address differs in its target. -/
theorem moved_compareCode {distance rom : Nat} {target : Nat → Prop} (r : Relation)
    (hfits : rom + distance + compareLength ≤ maxLiteral)
    (htarget : ∀ i, rom ≤ i → i < rom + compareLength → (target i ↔ i = rom + targetOffset)) :
    Moved distance target rom (compareCode r (.literal (rom + compareLength)))
      (compareCode r (.literal (rom + distance + compareLength))) := by
  have hkept (i : Nat) (hle : rom ≤ i) (hlt : i < rom + compareLength)
      (hne : i ≠ rom + targetOffset) : ¬ target i := fun hi => hne ((htarget i hle hlt).mp hi)
  have hloaded : target (rom + targetOffset) :=
    (htarget _ (Nat.le_add_right _ _) (Nat.add_lt_add_left (by decide) rom)).mpr rfl
  rw [Nat.add_right_comm] at hfits ⊢
  simp only [compareLength, targetOffset] at hkept
  have hbefore : Moved distance target rom compareHead compareHead := by
    refine .self fun i hle hlt => ?_
    have hlt : i < rom + 6 := hlt
    exact hkept i hle (by omega) (by omega)
  have hafter : Moved distance target (rom + targetOffset + 1) (compareTail r)
      (compareTail r) := by
    refine .self fun i hle hlt => ?_
    have hlt : i < rom + 6 + 1 + 4 := hlt
    simp only [targetOffset] at hle
    exact hkept i (by omega) (by omega) (by omega)
  exact hbefore.append (.shifted _ hloaded hfits hafter)

/-- There is code for an operation if there is code for it further behind, and the two differ at
most in the target of a comparison. -/
theorem exists_lower_moved {options : Options} {n : Counters} {distance : Nat} {c : Placed}
    {target : Nat → Prop} {batches' : List Batch}
    (h : lower options (n.rom + distance) (n.site c) c.op = .ok batches')
    (htarget : ∀ i, n.rom ≤ i → i < n.rom + c.op.size →
      (target i ↔ options.compare = .absolute ∧ (∃ r, c.op = .compare r) ∧
        i = n.rom + targetOffset)) :
    ∃ batches, lower options n.rom (n.site c) c.op = .ok batches ∧
      Moved distance target n.rom (Codegen.codeOf batches) (Codegen.codeOf batches') := by
  by_cases hcompare : options.compare = .absolute ∧ ∃ r, c.op = .compare r
  · obtain ⟨hstyle, r, hop⟩ := hcompare
    rw [hop] at h ⊢
    have hsize : c.op.size = compareLength := by rw [hop]; rfl
    rw [hsize, hop] at htarget
    obtain ⟨hle, rfl⟩ := lower_compare_eq_ok_iff.mp h
    have hfits := hle hstyle
    refine ⟨_, lower_compare_eq_ok_iff.mpr ⟨fun _ => by omega, rfl⟩, ?_⟩
    have hcompare : ∀ i, n.rom ≤ i → i < n.rom + compareLength →
        (target i ↔ i = n.rom + targetOffset) := by
      simpa [hstyle] using htarget
    rw [codeOf_single, codeOf_single, compareTarget, compareTarget, compareLabel, hstyle]
    simp only [List.append_nil]
    exact moved_compareCode r hfits hcompare
  · rw [lower_rom hcompare (n.rom + distance) n.rom] at h
    refine ⟨batches', h, .self fun i hle hlt htargeted => hcompare ?_⟩
    rw [countP_of_lower h] at hlt
    obtain ⟨hstyle, hop, -⟩ := (htarget i hle hlt).mp htargeted
    exact ⟨hstyle, hop⟩

theorem exists_lowerAll_moved {options : Options} {n : Counters} {distance : Nat}
    {code : List Placed} {target : Nat → Prop} {chunks' : List (List Line)}
    (h : lowerAll options (n.behind distance) code = .ok chunks')
    (htarget : ∀ i, n.rom ≤ i → i < (n.afterAll options code).rom →
      (target i ↔ LoadsTarget options n code i)) :
    ∃ chunks, lowerAll options n code = .ok chunks ∧
      Moved distance target n.rom chunks.flatten chunks'.flatten := by
  induction code generalizing n chunks' with
  | nil =>
      obtain rfl := Except.ok.inj h
      exact ⟨[], rfl, .nil _⟩
  | cons c rest ih =>
      obtain ⟨batches', hlower', later', hlater', rfl⟩ := lowerAll_cons_eq_ok_iff.mp h
      have hafter : (n.after options c).rom = n.rom + c.op.size := rfl
      have hroom := le_rom_afterAll options (n.after options c) rest
      rw [Counters.afterAll_cons] at htarget
      obtain ⟨batches, hlower, hfirst⟩ := @exists_lower_moved options n distance c target _ hlower'
        fun i hle hlt => by
          rw [htarget i hle (by omega), loadsTarget_cons]
          refine or_iff_left fun hrest => ?_
          have := hrest.bounds.1
          omega
      rw [after_behind] at hlater'
      obtain ⟨later, hlater, hrest⟩ := ih hlater' fun i hle hlt => by
        rw [htarget i (by omega) hlt, loadsTarget_cons]
        refine or_iff_right fun ⟨hstyle, ⟨r, hop⟩, hi⟩ => ?_
        have hsize : c.op.size = compareLength := by rw [hop]; rfl
        simp only [targetOffset, compareLength] at hi hsize
        omega
      refine ⟨_, lowerAll_cons_eq_ok_iff.mpr ⟨batches, hlower, later, hlater, rfl⟩, ?_⟩
      rw [List.flatten_cons, List.flatten_cons]
      refine hfirst.append ?_
      rw [countP_of_lower hlower]
      exact hrest

/-! ### Programs with and without the bootstrap -/

/-- The counters before the first operation, where nothing comes before it. -/
def Counters.zero : Counters := ⟨0, 0, 0⟩

theorem isPrologue_bootstrap : IsPrologue bootstrapBatch.code where
  labels := rfl
  predefined name hname := by
    have hload : Instruction.load (Address.symbol name) = .load (.symbol "SP") := by
      simpa [bootstrapBatch, Line.literal, Line.store, Line.symbol] using hname
    have hpredefined : predefined? "SP" ≠ none := by decide
    obtain rfl : name = "SP" := by simpa using hload
    exact hpredefined

theorem reread_bootstrap : reread bootstrapBatch.code = bootstrapBatch.code :=
  reread_eq_self (readable_bootCode { bootstrap := true })

/-- The code of a run behind a bootstrap is the code without it, moved by four instructions. -/
theorem moved_runCode {options : Options} {code : List Placed} {chunks chunks' : List (List Line)}
    (hlowered : lowerAll options .zero code = .ok chunks)
    (hmoved : Moved 4 (LoadsTarget options .zero code) 0 chunks.flatten chunks'.flatten) :
    Moved 4 (LoadsTarget options .zero code) 0 (chunks.flatten ++ haltBatch.code)
      (chunks'.flatten ++ haltBatch.code) := by
  refine hmoved.append (.self fun i hle _ htarget => ?_)
  have hlt := htarget.bounds.2
  rw [← countP_of_lowerAll hlowered] at hlt
  exact Nat.not_lt.mpr hle hlt

theorem Built.take_boot {options : Options} {code : List Placed} {program : Program}
    (h : Built { options with bootstrap := true } code program) :
    program.instructions.toList.take 4 = [.load 256, .compute .d (.copy .a) .never, .load 0,
      .compute .m (.copy .d) .never] := by
  have hstack : predefined? "SP" = some 0 := by decide
  obtain ⟨before, after, hinstructions, hbefore⟩ := h.boot
  rw [hinstructions, List.eq_nil_of_length_eq_zero hbefore]
  simp [bootCode, bootstrapBatch, stackBase, Program.address_of_predefined hstack]

/-- The bootstrap comes first and only moves all other code. A program that is built with it is
built without it as well, with the same variables, and every address of the code is smaller by the
four instructions of the bootstrap. -/
theorem bootstrap_relocates {options : Options} {units : List (String × Text.Source)}
    {boot : Program} (h : build { options with bootstrap := true } units = .ok boot) :
    ∃ texts plain, generate { options with bootstrap := false } units = .ok texts ∧
      assemble texts = .ok plain ∧
      boot.instructions.toList.take 4 = [.load 256, .compute .d (.copy .a) .never, .load 0,
        .compute .m (.copy .d) .never] ∧
      Relocated 4 (LoadsTarget options .zero (codeOfUnits units)) (linesOf texts) plain boot := by
  obtain ⟨texts', hgenerate', hassemble'⟩ := bind_eq_ok_iff.mp h
  obtain ⟨hfits, chunks', hlowered', hspells'⟩ := spells_of_generate hgenerate'
  have hbehind : lowerAll options (Counters.zero.behind 4) (codeOfUnits units) = .ok chunks' := by
    rw [← lowerAll_flags options options.comments true]
    exact hlowered'
  obtain ⟨chunks, hlowered, hmoved⟩ := exists_lowerAll_moved hbehind fun i _ _ => Iff.rfl
  have hplain : lowerAll { options with bootstrap := false }
      (startCounters { options with bootstrap := false }) (codeOfUnits units) = .ok chunks := by
    rw [lowerAll_flags options options.comments false]
    exact hlowered
  obtain ⟨texts, hgenerate⟩ := generate_of_lowerAll hfits hplain
  obtain ⟨-, same, hsame, hspells⟩ := spells_of_generate hgenerate
  obtain rfl := Except.ok.inj (hplain.symm.trans hsame)
  obtain ⟨hlines, hread⟩ := linesOf_eq_reread hspells
  obtain ⟨hlines', hread'⟩ := linesOf_eq_reread hspells'
  obtain ⟨hall', layout', hplace', rfl⟩ := assemble_eq_ok_iff.mp hassemble'
  -- Both texts are read line by line: behind the bootstrap, the one is the other one moved.
  have hrun : runCode { options with bootstrap := false } chunks =
      chunks.flatten ++ haltBatch.code := rfl
  have hrun' : runCode { options with bootstrap := true } chunks' =
      bootstrapBatch.code ++ (chunks'.flatten ++ haltBatch.code) := List.append_assoc _ _ _
  have hsome' := hrun' ▸ hread'.mp hall'
  obtain ⟨hsome, hmovedLines⟩ := (moved_runCode hlowered hmoved).reread
    (List.forall_mem_append.mp hsome').2
  have hall := hread.mpr hsome
  rw [hrun'] at hlines'
  rw [hlines', reread_append, reread_bootstrap] at hplace'
  have htarget (i : Nat) (hi : LoadsTarget options .zero (codeOfUnits units) i) :
      i < (instructionsOf (linesOf texts)).length := by
    have hlt := hi.bounds.2
    rw [← countP_of_lowerAll hlowered] at hlt
    rw [hlines, length_instructionsOf_reread (hread.mp hall), hrun, List.countP_append]
    exact Nat.lt_add_right _ (by simpa [Counters.zero] using hlt)
  rw [← hrun, ← hlines] at hmovedLines
  obtain ⟨layout, hlayout, hrelocated⟩ :=
    hmovedLines.exists_relocated isPrologue_bootstrap rfl htarget hplace'
  exact ⟨texts, layout.program, hgenerate, assemble_eq_ok_iff.mpr ⟨hall, layout, hlayout, rfl⟩,
    (built_of_build h).take_boot, hrelocated⟩

/-- A unit that compares a static with a number. The number is the address at which the comparison
goes on. -/
def belowTarget : List (String × Text.Source) :=
  [("Main", .ofString "label TOP\npush static 3\npush constant 25\nlt\ngoto TOP")]

/-- The target of the comparison and that of the branch are moved, and the number is not. -/
theorem bootstrap_relocates_belowTarget :
    ∃ boot texts plain, build { bootstrap := true } belowTarget = .ok boot ∧
      generate {} belowTarget = .ok texts ∧ assemble texts = .ok plain ∧
      Relocated 4 (LoadsTarget {} .zero (codeOfUnits belowTarget)) (linesOf texts) plain boot ∧
      boot.instructions[4 + 7]? = some (.load 25) ∧ boot.instructions[4 + 20]? = some (.load 29) ∧
      boot.instructions[4 + 25]? = some (.load 4) := by
  obtain ⟨layout, hbuild, hloaded⟩ := @exists_layout_of_any { bootstrap := true } belowTarget _
    (fun layout => layout.program.instructions[11]? = some (.load 25) ∧
      layout.program.instructions[24]? = some (.load 29) ∧
      layout.program.instructions[29]? = some (.load 4))
    (by decide) (by decide +kernel) rfl (by decide +kernel)
  obtain ⟨hnumber, htarget, hlabel⟩ := of_decide_eq_true hloaded
  obtain ⟨texts, plain, hgenerate, hassemble, -, hrelocated⟩ :=
    @bootstrap_relocates {} belowTarget layout.program hbuild
  exact ⟨_, texts, plain, hbuild, hgenerate, hassemble, hrelocated, hnumber, htarget, hlabel⟩

end Codegen

end HackBackend
