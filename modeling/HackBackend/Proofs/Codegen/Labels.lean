import HackBackend.Proofs.Asm.Inlining
import HackBackend.Proofs.Asm.Linking
import HackBackend.Proofs.Codegen.Translation
import HackBackend.Proofs.StackMachine.Names

/-!
# The labels of a run

A run defines three kinds of labels: those that name the place of an operation, those that a
call returns to, and those that a comparison makes up for itself. All other names in its code are
predefined or belong to statics. A label that is made up for a comparison is used by nothing else.
-/

namespace HackBackend

namespace Text

/-- What stands before the number at the end of a name is known from the name. -/
theorem head_eq_of_append_toString {s t : String} {m n : Nat}
    (hs : ∀ c ∈ s.toList.getLast?, c.isDigit = false)
    (ht : ∀ c ∈ t.toList.getLast?, c.isDigit = false)
    (h : s ++ toString m = t ++ toString n) : s = t := by
  have hdrop {u : String} (hu : ∀ c ∈ u.toList.getLast?, c.isDigit = false) (k : Nat) :
      (u ++ toString k).toList.reverse.dropWhile Char.isDigit = u.toList.reverse := by
    have hdigits : ∀ c ∈ (toString k).toList.reverse, c.isDigit :=
      fun c hc => isDigit_of_mem_toString c (List.mem_reverse.mp hc)
    rw [String.toList_append, List.reverse_append, List.dropWhile_append_of_pos hdigits]
    cases hlast : u.toList.reverse with
    | nil => rfl
    | cons c rest =>
        have hc : c.isDigit = false := hu c (by rw [List.getLast?_eq_head?_reverse, hlast]; rfl)
        rw [List.dropWhile_cons_of_neg (by simp [hc])]
  have hsame := hdrop hs m
  rw [h, hdrop ht n] at hsame
  exact String.toList_injective (List.reverse_injective hsame.symm)

end Text

namespace Codegen

open Asm Vm StackMachine

/-- The labels that an operation defines, except the one that it may make up for a comparison. -/
def placeLabels (n : Counters) (c : Placed) : List String :=
  match c.op with
  | .label name => [(n.site c).labelSymbol name]
  | .function name _ => [name]
  | .call name _ => [(n.site c).returnSymbol name]
  | _ => []

/-- The label that a comparison makes up. -/
def compareLabels (options : Options) (n : Counters) (c : Placed) : List String :=
  match c.op with
  | .compare _ => labelsOf (compareLabel options (n.site c))
  | _ => []

/-- The labels that the comparisons of some operations make up. -/
def allCompareLabels (options : Options) (n : Counters) : List Placed → List String
  | [] => []
  | c :: rest => compareLabels options n c ++ allCompareLabels options (n.after options c) rest

def allPlaceLabels (options : Options) (n : Counters) : List Placed → List String
  | [] => []
  | c :: rest => placeLabels n c ++ allPlaceLabels options (n.after options c) rest

theorem labelsOf_zeroLocals (count : Nat) : labelsOf (zeroLocals count) = [] := by
  refine List.eq_nil_iff_forall_not_mem.mpr fun name hname => ?_
  have hline := mem_zeroLocals (mem_labelsOf.mp hname)
  simp [Line.symbol, Line.store] at hline

/-- The code of an operation defines the labels of the operation. -/
theorem labelsOf_of_lower {options : Options} {n : Counters} {c : Placed} {batches : List Batch}
    (h : lower options n.rom (n.site c) c.op = .ok batches) :
    labelsOf (Codegen.codeOf batches) = compareLabels options n c ++ placeLabels n c := by
  obtain ⟨unit, function, op⟩ := c
  cases op with
  | push segment offset =>
      obtain ⟨place, hplace, rfl⟩ := lower_push_eq_ok_iff.mp h
      rw [codeOf_single]
      cases place <;> rfl
  | pop segment offset =>
      obtain ⟨place, hplace, code, hcode, rfl⟩ := lower_pop_eq_ok_iff.mp h
      rw [codeOf_single]
      cases place with
      | constant value => cases hcode
      | _ =>
          obtain rfl := Except.ok.inj hcode
          rfl
  | compare r =>
      obtain ⟨-, rfl⟩ := lower_compare_eq_ok_iff.mp h
      rw [codeOf_single]
      simp [compareLabels, placeLabels, compareCode, popD, Line.symbol, Line.store, Line.jump]
  | call name args =>
      obtain ⟨-, rfl⟩ := lower_call_eq_ok_iff.mp h
      rfl
  | function name locals =>
      obtain rfl := Except.ok.inj h
      simp [codeOf_single, functionCode, labelsOf_zeroLocals, compareLabels, placeLabels]
  | _ =>
      obtain rfl := Except.ok.inj h
      rfl

theorem perm_labelsOf {options : Options} {n : Counters} {code : List Placed}
    {chunks : List (List Line)} (h : lowerAll options n code = .ok chunks) :
    (labelsOf chunks.flatten).Perm
      (allCompareLabels options n code ++ allPlaceLabels options n code) := by
  induction code generalizing n chunks with
  | nil =>
      obtain rfl := Except.ok.inj h
      exact .nil
  | cons c rest ih =>
      obtain ⟨batches, hlower, later, hlater, rfl⟩ := lowerAll_cons_eq_ok_iff.mp h
      rw [List.flatten_cons, labelsOf_append, labelsOf_of_lower hlower, allCompareLabels,
        allPlaceLabels, List.append_assoc, List.append_assoc]
      refine List.Perm.append_left _ ?_
      have hrest := (ih hlater).append_left (placeLabels n c)
      exact hrest.trans (List.perm_append_comm_assoc _ _ _)

/-- The symbol that an operation gives to its place is one of the labels of the run. -/
theorem mem_allPlaceLabels_of_symbol {options : Options} {n : Counters} {code : List Placed}
    {c : Placed} (hc : c ∈ code) {name : String} (hname : c.symbol? = some name) :
    name ∈ allPlaceLabels options n code := by
  induction code generalizing n with
  | nil => cases hc
  | cons first rest ih =>
      rw [allPlaceLabels, List.mem_append]
      rcases List.mem_cons.mp hc with rfl | hc
      · left
        obtain ⟨unit, function, op⟩ := c
        cases op with
        | label label =>
            obtain rfl := Option.some.inj hname
            exact List.mem_singleton_self _
        | function label locals =>
            obtain rfl := Option.some.inj hname
            exact List.mem_singleton_self _
        | _ => cases hname
      · exact .inr (ih hc)

/-- A label of a comparison is made from the name of a unit and a number. -/
theorem exists_of_mem_allCompareLabels {options : Options} {n : Counters} {code : List Placed}
    {name : String} (h : name ∈ allCompareLabels options n code) :
    ∃ unit k, name = unit ++ ":CMP_" ++ toString (k : Nat) := by
  induction code generalizing n with
  | nil => cases h
  | cons c rest ih =>
      rcases List.mem_append.mp h with hfirst | hrest
      · obtain ⟨unit, function, op⟩ := c
        cases op with
        | compare r =>
            cases hstyle : options.compare with
            | absolute => simp [compareLabels, compareLabel, hstyle] at hfirst
            | symbolic =>
                have hname : name = (n.site ⟨unit, function, .compare r⟩).compareSymbol := by
                  simpa [compareLabels, compareLabel, hstyle] using hfirst
                exact ⟨unit, n.compares, hname⟩
        | _ => cases hfirst
      · exact ih hrest

/-- An operation at some counters defines a label: its own symbol, or one that it makes up. -/
inductive Defines (options : Options) (n : Counters) (c : Placed) (name : String) : Prop where
  | own (h : c.symbol? = some name)
  | back {callee : String} (h : c.callee? = some callee)
      (hname : (n.site c).returnSymbol callee = name)
  | compare (h : options.compareLabels c = 1) (hname : (n.site c).compareSymbol = name)

/-- An operation defines at most one label. -/
theorem labels_eq_nil_or_singleton (options : Options) (n : Counters) (c : Placed) :
    compareLabels options n c ++ placeLabels n c = [] ∨
      ∃ name, compareLabels options n c ++ placeLabels n c = [name] ∧
        Defines options n c name := by
  obtain ⟨unit, function, op⟩ := c
  cases op with
  | label name => exact .inr ⟨_, rfl, .own rfl⟩
  | function name locals => exact .inr ⟨_, rfl, .own rfl⟩
  | call name args => exact .inr ⟨_, rfl, .back rfl rfl⟩
  | compare r =>
      cases hstyle : options.compare with
      | absolute => simp [compareLabels, compareLabel, placeLabels, hstyle]
      | symbolic =>
          have hone : options.compareLabels ⟨unit, function, .compare r⟩ = 1 := by
            simp [Options.compareLabels, hstyle]
          exact .inr ⟨_, by simp [compareLabels, compareLabel, placeLabels, hstyle],
            .compare hone rfl⟩
  | _ => exact .inl rfl

/-- Every label in the code of some operations is defined by one of them. -/
theorem exists_defines_of_mem {options : Options} {n : Counters} {code : List Placed}
    {chunks : List (List Line)} (h : lowerAll options n code = .ok chunks) {name : String}
    (hname : name ∈ labelsOf chunks.flatten) :
    ∃ j d, code[j]? = some d ∧ Defines options (n.afterAll options (code.take j)) d name := by
  induction code generalizing n chunks with
  | nil =>
      obtain rfl := Except.ok.inj h
      cases hname
  | cons c rest ih =>
      obtain ⟨batches, hlower, later, hlater, rfl⟩ := lowerAll_cons_eq_ok_iff.mp h
      rw [List.flatten_cons, labelsOf_append, labelsOf_of_lower hlower] at hname
      rcases List.mem_append.mp hname with hfirst | hrest
      · obtain hnil | ⟨label, hsingle, hdefines⟩ := labels_eq_nil_or_singleton options n c
        · simp [hnil] at hfirst
        · rw [hsingle] at hfirst
          obtain rfl := List.mem_singleton.mp hfirst
          exact ⟨0, c, rfl, hdefines⟩
      · obtain ⟨j, d, hd, hdefines⟩ := ih hlater hrest
        exact ⟨j + 1, d, hd, hdefines⟩

/-- The labels of a run are those of its operations and the halt label. -/
theorem labelsOf_runCode (options : Options) (chunks : List (List Line)) :
    labelsOf (runCode options chunks) = labelsOf chunks.flatten ++ [haltLabel] := by
  have hboot : labelsOf (bootCode options) = [] := by
    unfold bootCode
    split <;> rfl
  have hhalt : labelsOf haltBatch.code = [haltLabel] := rfl
  rw [runCode, labelsOf_append, labelsOf_append, hboot, hhalt, List.nil_append]

/-- The names in the code of an operation that is no comparison. -/
inductive Mentions (n : Counters) (c : Placed) : String → Prop where
  | register {name : String} (h : (predefined? name).isSome) : Mentions n c name
  | static (offset : Nat) : Mentions n c (Segment.staticSymbol c.unit offset)
  | place {name : String} (h : name ∈ placeLabels n c) : Mentions n c name
  | target {name : String} (h : c.target? = some name) : Mentions n c name

/-- The names of a line satisfy a condition. -/
def AllNames (P : String → Prop) (line : Line) : Prop :=
  ∀ name ∈ line.name?, P name

section

variable {P : String → Prop}

@[simp] theorem allNames_symbol (name : String) : AllNames P (.symbol name) ↔ P name := by
  simp [AllNames, Line.symbol, Line.name?]

@[simp] theorem allNames_label (name : String) : AllNames P (.label name) ↔ P name := by
  simp [AllNames, Line.name?]

@[simp] theorem allNames_literal (n : Nat) : AllNames P (.literal n) := by
  simp [AllNames, Line.literal, Line.name?]

@[simp] theorem allNames_store (dest : Dest) (comp : Comp) : AllNames P (.store dest comp) := by
  simp [AllNames, Line.store, Line.name?]

@[simp] theorem allNames_jump (comp : Comp) (jump : Jump) : AllNames P (.jump comp jump) := by
  simp [AllNames, Line.jump, Line.name?]

end

/-- The registers that the code of operations works with. -/
theorem mentions_registers (n : Counters) (c : Placed) :
    ∀ name ∈ ["SP", "LCL", "ARG", "THIS", "THAT", "R13", "R14", "R15"], Mentions n c name := by
  have hregisters : ∀ name ∈ ["SP", "LCL", "ARG", "THIS", "THAT", "R13", "R14", "R15"],
      (predefined? name).isSome := by decide
  exact fun name hname => .register (hregisters name hname)

theorem mentions_of_resolve {n : Counters} {c : Placed} {segment : Segment} {offset : Nat}
    {place : Access} (h : segment.resolve c.unit offset = .ok place) :
    ∀ line ∈ loadD place, AllNames (Mentions n c) line := by
  have hregisters := mentions_registers n c
  simp only [List.forall_mem_cons, List.not_mem_nil, false_imp_iff, implies_true] at hregisters
  obtain ⟨hlimit, rfl⟩ := Segment.resolve_eq_ok_iff.mp h
  cases segment with
  | constant => simp [Segment.access, loadD]
  | based b => cases b <;> simp [Segment.access, loadD, Base.register, hregisters]
  | static =>
      have hstatic : Mentions n c (Segment.staticSymbol c.unit offset) := .static offset
      simpa [Segment.access, loadD] using hstatic
  | pointer => by_cases hzero : offset = 0 <;> simp [Segment.access, loadD, hzero, hregisters]
  | temp =>
      have htemps : ∀ offset ≤ 7,
          (predefined? ("R" ++ toString (Segment.tempBase + offset))).isSome := by
        decide
      have htemp : Mentions n c ("R" ++ toString (Segment.tempBase + offset)) :=
        .register (htemps offset (hlimit 7 rfl))
      simpa [Segment.access, loadD] using htemp

/-- Nothing but the names that an operation mentions occurs in its code. -/
theorem mentions_of_lower {options : Options} {n : Counters} {c : Placed} {batches : List Batch}
    (hcompare : ∀ r, c.op ≠ .compare r)
    (h : lower options n.rom (n.site c) c.op = .ok batches) :
    ∀ line ∈ Codegen.codeOf batches, AllNames (Mentions n c) line := by
  have hregisters := mentions_registers n c
  simp only [List.forall_mem_cons, List.not_mem_nil, false_imp_iff, implies_true] at hregisters
  have hplace (name : String) (hname : name ∈ placeLabels n c) : Mentions n c name := .place hname
  have htarget (name : String) (hname : c.target? = some name) : Mentions n c name := .target hname
  obtain ⟨unit, function, op⟩ := c
  cases op with
  | push segment offset =>
      obtain ⟨place, hresolve, rfl⟩ := lower_push_eq_ok_iff.mp h
      have hload := @mentions_of_resolve n ⟨unit, function, .push segment offset⟩ _ _ _ hresolve
      rw [codeOf_single, pushCode]
      exact List.forall_mem_append.mpr ⟨hload, by simp [pushD, incrementSp, hregisters]⟩
  | pop segment offset =>
      obtain ⟨place, hresolve, code, hcode, rfl⟩ := lower_pop_eq_ok_iff.mp h
      have hload := @mentions_of_resolve n ⟨unit, function, .pop segment offset⟩ _ _ _ hresolve
      rw [codeOf_single]
      cases place with
      | constant value => cases hcode
      | indirect b value =>
          obtain rfl := Except.ok.inj hcode
          simpa [loadD, popD, hregisters] using hload
      | direct name =>
          obtain rfl := Except.ok.inj hcode
          simpa [loadD, popD, hregisters] using hload
  | unary f =>
      obtain rfl := Except.ok.inj h
      simp [unaryCode, hregisters]
  | binary f =>
      obtain rfl := Except.ok.inj h
      simp [binaryCode, popD, hregisters]
  | compare r => exact absurd rfl (hcompare r)
  | label name =>
      obtain rfl := Except.ok.inj h
      simpa using hplace _ (List.mem_singleton_self _)
  | goto name =>
      obtain rfl := Except.ok.inj h
      have hbranch : Mentions n ⟨unit, function, .goto name⟩
          ((n.site ⟨unit, function, .goto name⟩).labelSymbol name) := htarget _ rfl
      simpa [gotoCode] using hbranch
  | ifGoto name =>
      obtain rfl := Except.ok.inj h
      have hbranch : Mentions n ⟨unit, function, .ifGoto name⟩
          ((n.site ⟨unit, function, .ifGoto name⟩).labelSymbol name) := htarget _ rfl
      simpa [ifGotoCode, popD, hregisters] using hbranch
  | function name locals =>
      obtain rfl := Except.ok.inj h
      rw [codeOf_single, functionCode, List.forall_mem_cons]
      refine ⟨by simpa using hplace _ (List.mem_singleton_self _), fun line hline => ?_⟩
      have hzero := mem_zeroLocals hline
      simp only [List.mem_cons, List.not_mem_nil, or_false] at hzero
      rcases hzero with rfl | rfl | rfl | rfl | rfl | rfl <;> simp [hregisters]
  | call name args =>
      obtain ⟨-, rfl⟩ := lower_call_eq_ok_iff.mp h
      have hcallee := htarget name rfl
      have hreturn := hplace _ (List.mem_singleton_self _)
      simpa [Codegen.codeOf, callBatches, savedBases, saveBase, pushD, incrementSp, gotoCode,
        Base.register, hregisters, hcallee] using hreturn
  | ret =>
      obtain rfl := Except.ok.inj h
      simp [Codegen.codeOf, returnBatches, savedBases, restoreBase, Base.register, hregisters]

end Codegen

end HackBackend
