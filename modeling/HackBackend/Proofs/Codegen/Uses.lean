import HackBackend.Proofs.Codegen.References

/-!
# The names that operations use

Apart from predefined names, the code of an operation loads at most two: the label that the
operation makes up for itself, and the static or the target that it has as an argument. The labels
that it defines are its own symbol, if it has one, and the label that it makes up.
-/

namespace HackBackend

namespace Asm

/-- The name that a line loads, unless it is a predefined one. -/
def Line.use? : Line → Option String
  | .instruction (.load (.symbol name)) => if predefined? name = none then some name else none
  | _ => none

/-- The names that some code loads, apart from the predefined ones. -/
def usesOf (code : List Line) : List String :=
  code.filterMap Line.use?

theorem Line.use?_eq_some_iff {line : Line} {name : String} :
    line.use? = some name ↔ line = .symbol name ∧ predefined? name = none := by
  rcases line with ((n | symbol) | ⟨dest, comp, jump⟩) | label
  case instruction.load.symbol =>
    by_cases hfree : predefined? symbol = none
    · simp only [use?, if_pos hfree, Option.some.injEq, Line.symbol, Line.instruction.injEq,
        Instruction.load.injEq, Address.symbol.injEq]
      constructor
      · rintro rfl
        exact ⟨rfl, hfree⟩
      · exact fun h => h.1
    · simp only [use?, if_neg hfree, reduceCtorEq, Line.symbol, Line.instruction.injEq,
        Instruction.load.injEq, Address.symbol.injEq, false_iff, not_and]
      rintro rfl
      exact hfree
  all_goals simp [use?, Line.symbol]

@[simp] theorem usesOf_nil : usesOf [] = [] := rfl

@[simp] theorem usesOf_append (xs ys : List Line) : usesOf (xs ++ ys) = usesOf xs ++ usesOf ys :=
  List.filterMap_append

@[simp] theorem usesOf_symbol (name : String) (code : List Line) :
    usesOf (.symbol name :: code) =
      if predefined? name = none then name :: usesOf code else usesOf code := by
  by_cases hfree : predefined? name = none <;>
    simp [usesOf, Line.use?, Line.symbol, hfree]

@[simp] theorem usesOf_literal (n : Nat) (code : List Line) :
    usesOf (.literal n :: code) = usesOf code := rfl

@[simp] theorem usesOf_store (dest : Dest) (comp : Comp) (code : List Line) :
    usesOf (.store dest comp :: code) = usesOf code := rfl

@[simp] theorem usesOf_jump (comp : Comp) (jump : Jump) (code : List Line) :
    usesOf (.jump comp jump :: code) = usesOf code := rfl

@[simp] theorem usesOf_label (name : String) (code : List Line) :
    usesOf (.label name :: code) = usesOf code := rfl

theorem mem_usesOf {code : List Line} {name : String} :
    name ∈ usesOf code ↔ .symbol name ∈ code ∧ predefined? name = none := by
  simp [usesOf, List.mem_filterMap, Line.use?_eq_some_iff]

/-- A name that is not predefined is loaded as often as it is used. -/
theorem count_symbol (code : List Line) {name : String} (hfree : predefined? name = none) :
    code.count (.symbol name) = (usesOf code).count name := by
  rw [usesOf, List.count_filterMap, List.count]
  apply List.countP_congr
  intro line _
  simp [Line.use?_eq_some_iff, hfree]

theorem count_label (code : List Line) (name : String) :
    code.count (.label name) = (labelsOf code).count name := by
  induction code with
  | nil => rfl
  | cons line rest ih => cases line <;> simp [List.count_cons, ih]

end Asm

namespace Codegen

open Asm Vm StackMachine

/-- The label that an operation makes up for itself: a call for the place that it returns to, and a
comparison for the place where it goes on, if it has no address for that. -/
def madeUp? (options : Options) (n : Counters) (c : Placed) : Option String :=
  match c.op with
  | .call name _ => some ((n.site c).returnSymbol name)
  | .compare _ =>
      match options.compare with
      | .absolute => none
      | .symbolic => some (n.site c).compareSymbol
  | _ => none

/-- The labels that some operations make up, in their order. -/
def allMadeUp (options : Options) (n : Counters) : List Placed → List String
  | [] => []
  | c :: rest => (madeUp? options n c).toList ++ allMadeUp options (n.after options c) rest

variable {options : Options} {n : Counters} {c : Placed} {batches : List Batch}

/-- The code of an operation defines its own symbol and the label that it makes up. -/
theorem labelsOf_code (h : lower options n.rom (n.site c) c.op = .ok batches) :
    labelsOf (Codegen.codeOf batches) = c.symbol?.toList ++ (madeUp? options n c).toList := by
  rw [labelsOf_of_lower h]
  obtain ⟨unit, function, op⟩ := c
  cases op with
  | compare r =>
      cases hstyle : options.compare <;>
        simp [compareLabels, compareLabel, placeLabels, madeUp?, Placed.symbol?, hstyle]
  | _ => rfl

/-- The registers that the code of operations works with are predefined. -/
theorem predefined?_registers :
    predefined? "SP" ≠ none ∧ predefined? "LCL" ≠ none ∧ predefined? "ARG" ≠ none ∧
      predefined? "THIS" ≠ none ∧ predefined? "THAT" ≠ none ∧ predefined? "R13" ≠ none ∧
      predefined? "R14" ≠ none ∧ predefined? "R15" ≠ none := by
  decide

theorem predefined?_register (b : Base) : predefined? b.register ≠ none := by
  cases b <;> decide

theorem usesOf_zeroLocals (count : Nat) : usesOf (zeroLocals count) = [] := by
  apply List.eq_nil_iff_forall_not_mem.mpr
  intro name hname
  obtain ⟨hload, hfree⟩ := mem_usesOf.mp hname
  have hline := mem_zeroLocals hload
  obtain rfl : name = "SP" := by simpa [Line.symbol, Line.store] using hline
  exact absurd hfree (by decide)

/-- The code that loads from a place uses the symbol of a static, if it is the place of one. -/
theorem usesOf_loadD {segment : Segment} {offset : Nat} {place : Access}
    (hop : c.op = .push segment offset ∨ c.op = .pop segment offset)
    (h : segment.resolve c.unit offset = .ok place) :
    usesOf (loadD place) = c.static?.toList := by
  have hstatic : c.static?.toList =
      if segment = .static then [Segment.staticSymbol c.unit offset] else [] := by
    rw [Placed.static?]
    rcases hop with hop | hop <;> rw [hop] <;> cases segment <;> rfl
  obtain ⟨hlimit, rfl⟩ := Segment.resolve_eq_ok_iff.mp h
  rw [hstatic]
  cases segment with
  | constant => simp [Segment.access, loadD]
  | based b => simp [Segment.access, loadD, predefined?_register]
  | static => simp [Segment.access, loadD, predefined?_staticSymbol]
  | pointer =>
      by_cases hzero : offset = 0 <;>
        simp [Segment.access, loadD, hzero, predefined?_registers]
  | temp =>
      have htemps : ∀ offset ≤ 7,
          predefined? ("R" ++ toString (Segment.tempBase + offset)) ≠ none := by
        decide
      rw [Segment.access, loadD, usesOf_symbol, if_neg (htemps offset (hlimit 7 rfl))]
      rfl

/-- The code of an operation loads the label that it makes up, and the static or the target that it
has as an argument, unless that is predefined. -/
theorem usesOf_code (h : lower options n.rom (n.site c) c.op = .ok batches) :
    usesOf (Codegen.codeOf batches) = (madeUp? options n c).toList ++ c.static?.toList ++
      c.target?.toList.filter fun name => predefined? name = none := by
  obtain ⟨unit, function, op⟩ := c
  cases op with
  | push segment offset =>
      obtain ⟨place, hplace, rfl⟩ := lower_push_eq_ok_iff.mp h
      have hload := @usesOf_loadD ⟨unit, function, _⟩ segment offset place (.inl rfl) hplace
      have hpush : usesOf pushD = [] := by simp [pushD, incrementSp, predefined?_registers]
      rw [codeOf_single, pushCode, usesOf_append, hload, hpush]
      simp [madeUp?, Placed.target?]
  | pop segment offset =>
      obtain ⟨place, hplace, code, hcode, rfl⟩ := lower_pop_eq_ok_iff.mp h
      have hload := @usesOf_loadD ⟨unit, function, _⟩ segment offset place (.inr rfl) hplace
      have hpop : usesOf code = usesOf (loadD place) := by
        cases place with
        | constant value => cases hcode
        | indirect b value =>
            obtain rfl := Except.ok.inj hcode
            simp [loadD, popD, predefined?_registers]
        | direct name =>
            obtain rfl := Except.ok.inj hcode
            simp [loadD, popD, predefined?_registers]
      rw [codeOf_single, hpop, hload]
      simp [madeUp?, Placed.target?]
  | unary f =>
      obtain rfl := Except.ok.inj h
      simp [unaryCode, predefined?_registers, madeUp?, Placed.static?, Placed.target?]
  | binary f =>
      obtain rfl := Except.ok.inj h
      simp [binaryCode, popD, predefined?_registers, madeUp?, Placed.static?, Placed.target?]
  | compare r =>
      obtain ⟨-, rfl⟩ := lower_compare_eq_ok_iff.mp h
      rw [codeOf_single]
      cases hstyle : options.compare with
      | absolute =>
          have htarget : Line.instruction (.load (compareTarget options n.rom
              (n.site ⟨unit, function, .compare r⟩))) = .literal (n.rom + compareLength) := by
            rw [compareTarget, hstyle]
            rfl
          simp [htarget, compareCode, popD, compareLabel, predefined?_registers, hstyle, madeUp?,
            Placed.static?, Placed.target?]
      | symbolic =>
          have htarget : Line.instruction (.load (compareTarget options n.rom
              (n.site ⟨unit, function, .compare r⟩))) =
                .symbol (n.site ⟨unit, function, .compare r⟩).compareSymbol := by
            rw [compareTarget, hstyle]
            rfl
          simp [htarget, compareCode, popD, compareLabel, predefined?_registers, hstyle, madeUp?,
            Placed.static?, Placed.target?, predefined?_compareSymbol]
  | label name =>
      obtain rfl := Except.ok.inj h
      rfl
  | goto name =>
      obtain rfl := Except.ok.inj h
      have htarget : (n.site ⟨unit, function, .goto name⟩).labelSymbol name =
          (⟨unit, function, .goto name⟩ : Placed).labelSymbol name := rfl
      simp [htarget, gotoCode, predefined?_labelSymbol, madeUp?, Placed.static?, Placed.target?]
  | ifGoto name =>
      obtain rfl := Except.ok.inj h
      have htarget : (n.site ⟨unit, function, .ifGoto name⟩).labelSymbol name =
          (⟨unit, function, .ifGoto name⟩ : Placed).labelSymbol name := rfl
      simp [htarget, ifGotoCode, popD, predefined?_registers, predefined?_labelSymbol, madeUp?,
        Placed.static?, Placed.target?]
  | function name locals =>
      obtain rfl := Except.ok.inj h
      simp [functionCode, usesOf_zeroLocals, madeUp?, Placed.static?, Placed.target?]
  | call name args =>
      obtain ⟨-, rfl⟩ := lower_call_eq_ok_iff.mp h
      by_cases hcallee : predefined? name = none
      all_goals
        simp [hcallee, Codegen.codeOf, callBatches, savedBases, saveBase, pushD, incrementSp,
          gotoCode, Base.register, predefined?_registers, predefined?_returnSymbol, madeUp?,
          Placed.static?, Placed.target?]
  | ret =>
      obtain rfl := Except.ok.inj h
      simp [Codegen.codeOf, returnBatches, savedBases, restoreBase, Base.register,
        predefined?_registers, madeUp?, Placed.static?, Placed.target?]

/-! ### The names of a run -/

variable {code : List Placed} {chunks : List (List Line)} {name : String}

/-- The labels that are made up are those of the operations, each with the counters that the
operations before it leave. -/
theorem mem_allMadeUp_iff : name ∈ allMadeUp options n code ↔
    ∃ (i : Nat) (c : Placed), code[i]? = some c ∧
      madeUp? options (n.afterAll options (code.take i)) c = some name := by
  induction code generalizing n with
  | nil => simp [allMadeUp]
  | cons first rest ih =>
      rw [allMadeUp, List.mem_append, Option.mem_toList, ih]
      constructor
      · rintro (hmade | ⟨i, c, hc, hmade⟩)
        · exact ⟨0, first, rfl, hmade⟩
        · exact ⟨i + 1, c, hc, hmade⟩
      · rintro ⟨i, c, hc, hmade⟩
        cases i with
        | zero =>
            obtain rfl := Option.some.inj hc
            exact .inl hmade
        | succ i => exact .inr ⟨i, c, hc, hmade⟩

theorem usesOf_runCode (options : Options) (chunks : List (List Line)) :
    usesOf (runCode options chunks) = usesOf chunks.flatten ++ [haltLabel] := by
  have hboot : usesOf (bootCode options) = [] := by
    unfold bootCode
    split
    · decide
    · rfl
  have hhalt : usesOf haltBatch.code = [haltLabel] := by decide
  rw [runCode, usesOf_append, usesOf_append, hboot, hhalt, List.nil_append]

/-- The labels in the code of some operations are those that they make up and their symbols. -/
theorem mem_labelsOf_flatten (h : lowerAll options n code = .ok chunks) :
    name ∈ labelsOf chunks.flatten ↔
      name ∈ allMadeUp options n code ∨ ∃ c ∈ code, c.symbol? = some name := by
  induction code generalizing n chunks with
  | nil =>
      obtain rfl := Except.ok.inj h
      simp [allMadeUp]
  | cons c rest ih =>
      obtain ⟨batches, hlower, later, hlater, rfl⟩ := lowerAll_cons_eq_ok_iff.mp h
      rw [List.flatten_cons, labelsOf_append, labelsOf_code hlower, List.mem_append, ih hlater,
        allMadeUp]
      simp only [List.mem_append, Option.mem_toList, List.exists_mem_cons_iff, or_assoc,
        or_left_comm]

/-- The names that the code of some operations loads are the labels that they make up, and the
statics and targets that they have as arguments. -/
theorem mem_usesOf_flatten (h : lowerAll options n code = .ok chunks) :
    name ∈ usesOf chunks.flatten ↔ name ∈ allMadeUp options n code ∨ ∃ c ∈ code,
      c.static? = some name ∨ (c.target? = some name ∧ predefined? name = none) := by
  induction code generalizing n chunks with
  | nil =>
      obtain rfl := Except.ok.inj h
      simp [allMadeUp]
  | cons c rest ih =>
      obtain ⟨batches, hlower, later, hlater, rfl⟩ := lowerAll_cons_eq_ok_iff.mp h
      rw [List.flatten_cons, usesOf_append, usesOf_code hlower, List.mem_append, ih hlater,
        allMadeUp]
      simp only [List.mem_append, List.mem_filter, Option.mem_toList, decide_eq_true_eq,
        List.exists_mem_cons_iff, or_assoc, or_left_comm]

end Codegen

end HackBackend
