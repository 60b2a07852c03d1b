import HackBackend.Proofs.Codegen.Emission
import HackBackend.Proofs.StackMachine.Names

/-!
# Generated lines are read as what they are

A line whose names are symbols and whose number fits into an instruction is read back from its
spelling. The checks on the arguments of an operation see to that for all of its code, but for the
name of its unit, which stands as it is in front of some of the symbols. So the code has legible
lines only, if that name is a symbol or empty. Functions, calls and returns do not depend on it.
-/

namespace HackBackend.Asm

open StackMachine Text

/-- A line whose names are symbols, or have the name of a unit in front of a symbol. -/
inductive Line.Owned (isUnit : String → Prop) : Line → Prop where
  | readable {line : Line} (h : line.Readable) : Owned isUnit line
  | symbol {unit suffix : String} (hunit : isUnit unit) (hsuffix : isSymbol suffix.toList) :
      Owned isUnit (.symbol (unit ++ suffix))
  | label {unit suffix : String} (hunit : isUnit unit) (hsuffix : isSymbol suffix.toList) :
      Owned isUnit (.label (unit ++ suffix))

theorem Line.Owned.readable_of_isStem {line : Line} (h : line.Owned IsStem) : line.Readable := by
  cases h with
  | readable h => exact h
  | symbol hunit hsuffix => exact isSymbol_stem_append hunit hsuffix
  | label hunit hsuffix => exact isSymbol_stem_append hunit hsuffix

end HackBackend.Asm

namespace HackBackend.Codegen

open Asm Vm StackMachine Text

@[simp] theorem readable_symbol (name : String) :
    (Line.symbol name).Readable ↔ isSymbol name.toList := Iff.rfl

@[simp] theorem readable_literal (n : Nat) : (Line.literal n).Readable ↔ n ≤ maxLiteral := Iff.rfl

@[simp] theorem readable_store (dest : Dest) (comp : Comp) :
    (Line.store dest comp).Readable ↔ True := Iff.rfl

@[simp] theorem readable_jump (comp : Comp) (jump : Jump) :
    (Line.jump comp jump).Readable ↔ True := Iff.rfl

@[simp] theorem readable_label (name : String) :
    (Line.label name).Readable ↔ isSymbol name.toList := Iff.rfl

@[simp] theorem isSymbol_register (b : Base) : isSymbol b.register.toList := by
  cases b <;> decide

/-- The names of registers, as rows of characters. -/
@[simp] theorem isSymbol_names :
    isSymbol ['S', 'P'] ∧ isSymbol ['L', 'C', 'L'] ∧ isSymbol ['A', 'R', 'G'] ∧
      isSymbol ['T', 'H', 'I', 'S'] ∧ isSymbol ['T', 'H', 'A', 'T'] ∧
      isSymbol ['R', '1', '3'] ∧ isSymbol ['R', '1', '4'] ∧ isSymbol ['R', '1', '5'] := by
  decide

theorem isSymbol_returnSymbol (site : Site) {name : String} (h : isSymbol name.toList) :
    isSymbol (site.returnSymbol name).toList := by
  rw [Site.returnSymbol]
  refine isSymbol_toString_append (isSymbol_toString_append ?_ (by decide))
    all_isSymbolChar_toString
  exact isSymbol_toString_append h (by decide)

theorem readable_pushD : ∀ line ∈ pushD, line.Readable := by
  simp [pushD, incrementSp]

theorem readable_popD : ∀ line ∈ popD, line.Readable := by
  simp [popD]

/-- The instructions of a comparison before the one that loads its target. -/
def compareHead : List Line :=
  popD ++ [.store .a (.dec .a), .store .d (.subFrom .m), .store .m .minusOne]

/-- The instructions of a comparison behind the one that loads its target. -/
def compareTail (r : Relation) : List Line :=
  [.jump (.copy .d) (relationJump r), .symbol "SP", .store .a (.dec .m), .store .m .zero]

theorem compareCode_eq (r : Relation) (target : Line) :
    compareCode r target = compareHead ++ target :: compareTail r := rfl

theorem readable_compareHead : ∀ line ∈ compareHead, line.Readable := by
  simp [compareHead, popD]

theorem readable_compareTail (r : Relation) : ∀ line ∈ compareTail r, line.Readable := by
  simp [compareTail]

theorem readable_functionCode {name : String} (h : isSymbol name.toList) (locals : Nat) :
    ∀ line ∈ functionCode name locals, line.Readable := by
  rw [functionCode]
  refine List.forall_mem_cons.mpr ⟨h, fun line hline => ?_⟩
  have hzero := mem_zeroLocals hline
  simp only [List.mem_cons, List.not_mem_nil, or_false] at hzero
  rcases hzero with rfl | rfl | rfl | rfl | rfl | rfl <;> simp

theorem readable_callBatches {callee returnTo : String} {args : Nat}
    (hcallee : isSymbol callee.toList) (hreturn : isSymbol returnTo.toList)
    (hargs : args + frameSize ≤ maxLiteral) :
    ∀ line ∈ codeOf (callBatches callee returnTo args), line.Readable := by
  simp [codeOf, callBatches, savedBases, saveBase, pushD, incrementSp, gotoCode, hcallee,
    hreturn, hargs]

theorem readable_returnBatches : ∀ line ∈ codeOf returnBatches, line.Readable := by
  have hframe : frameSize ≤ maxLiteral := by decide
  simp [codeOf, returnBatches, savedBases, restoreBase, hframe]

/-- Labels are scoped by the name of a unit or of a function. -/
theorem isSymbol_scope {n : Counters} {c : Placed} (hunit : isSymbol c.unit.toList)
    (hnamed : c.Named) : isSymbol (n.site c).scope.toList := by
  cases hname : c.function with
  | none => simpa [Site.scope, Counters.site, hname] using hunit
  | some name =>
      have hscope : isSymbol name.toList := hnamed.function name hname
      simpa [Site.scope, Counters.site, hname] using hscope

/-! ### The name of the unit -/

section

variable {isUnit : String → Prop}

theorem owned_of_readable {code : List Line} (h : ∀ line ∈ code, line.Readable) :
    ∀ line ∈ code, line.Owned isUnit :=
  fun line hline => .readable (h line hline)

/-- The lines that the access to a place adds have the name of the unit in front of a symbol only
where the place is a static. -/
theorem owned_of_resolve {unit : String} (hunit : isUnit unit) {segment : Segment} {offset : Nat}
    {place : Access} (h : segment.resolve unit offset = .ok place) :
    ∀ line ∈ loadD place, line.Owned isUnit := by
  obtain ⟨hlimit, rfl⟩ := Segment.resolve_eq_ok_iff.mp h
  cases segment with
  | constant =>
      have hoffset : offset ≤ maxLiteral := hlimit _ rfl
      apply owned_of_readable
      simp [Segment.access, loadD, hoffset]
  | based b =>
      have hoffset : offset ≤ maxLiteral := hlimit _ rfl
      apply owned_of_readable
      simp [Segment.access, loadD, hoffset]
  | static =>
      have hsuffix : isSymbol ("." ++ toString offset).toList :=
        isSymbol_toString_append (by decide) all_isSymbolChar_toString
      rw [Segment.access, Segment.staticSymbol, String.append_assoc]
      exact List.forall_mem_cons.mpr ⟨.symbol hunit hsuffix,
        List.forall_mem_singleton.mpr (.readable trivial)⟩
  | pointer =>
      apply owned_of_readable
      by_cases hzero : offset = 0 <;> simp [Segment.access, loadD, hzero]
  | temp =>
      have hname : isSymbol ("R" ++ toString (Segment.tempBase + offset)).toList :=
        isSymbol_toString_append (by decide) all_isSymbolChar_toString
      apply owned_of_readable
      simpa [Segment.access, loadD] using hname

theorem le_of_resolve_indirect {unit : String} {segment : Segment} {offset : Nat} {b : Base}
    {value : Nat} (h : segment.resolve unit offset = .ok (.indirect b value)) :
    value ≤ maxLiteral := by
  obtain ⟨hlimit, haccess⟩ := Segment.resolve_eq_ok_iff.mp h
  cases segment with
  | based base =>
      obtain ⟨-, rfl⟩ := Access.indirect.inj haccess
      exact hlimit _ rfl
  | _ => cases haccess

theorem owned_popCode {unit : String} (hunit : isUnit unit) {segment : Segment} {offset : Nat}
    {place : Access} {code : List Line} (h : segment.resolve unit offset = .ok place)
    (hcode : popCode place = .ok code) : ∀ line ∈ code, line.Owned isUnit := by
  have hload := owned_of_resolve hunit h
  cases place with
  | constant value => cases hcode
  | indirect b value =>
      have hvalue := le_of_resolve_indirect h
      obtain rfl := Except.ok.inj hcode
      apply owned_of_readable
      simp [popD, hvalue]
  | direct name =>
      obtain rfl := Except.ok.inj hcode
      exact List.forall_mem_append.mpr ⟨owned_of_readable readable_popD,
        List.forall_mem_cons.mpr ⟨hload _ (List.mem_cons_self ..),
          List.forall_mem_singleton.mpr (.readable trivial)⟩⟩

/-- A label belongs to the function that is open, or else to the unit. -/
theorem owned_labelSymbol {n : Counters} {c : Placed} (hunit : isUnit c.unit)
    (hfunction : ∀ name ∈ c.function, isSymbol name.toList) {name : String}
    (hname : isSymbol name.toList) :
    (Line.symbol ((n.site c).labelSymbol name)).Owned isUnit ∧
      (Line.label ((n.site c).labelSymbol name)).Owned isUnit := by
  have hsuffix : isSymbol ("$" ++ name).toList :=
    isSymbol_toString_append (by decide) (List.all_eq_true.mpr (isSymbolChar_of_mem hname))
  rw [Site.labelSymbol, String.append_assoc]
  cases hopen : c.function with
  | none =>
      have hscope : (n.site c).scope = c.unit := by simp [Site.scope, Counters.site, hopen]
      rw [hscope]
      exact ⟨.symbol hunit hsuffix, .label hunit hsuffix⟩
  | some function =>
      have hscope : (n.site c).scope = function := by simp [Site.scope, Counters.site, hopen]
      have hsymbol : isSymbol (function ++ ("$" ++ name)).toList :=
        isSymbol_stem_append (.inr (hfunction function hopen)) hsuffix
      rw [hscope]
      exact ⟨.readable hsymbol, .readable hsymbol⟩

/-- A comparison names nothing but the place where it goes on. -/
theorem owned_compareCode (r : Relation) {target : Line} (h : target.Owned isUnit) :
    ∀ line ∈ compareCode r target, line.Owned isUnit := by
  rw [compareCode_eq]
  exact List.forall_mem_append.mpr ⟨owned_of_readable readable_compareHead,
    List.forall_mem_cons.mpr ⟨h, owned_of_readable (readable_compareTail r)⟩⟩

/-- The names in the code of an operation are symbols, or the name of its unit in front of one. -/
theorem owned_of_lower {options : Options} {n : Counters} {c : Placed} {batches : List Batch}
    (hunit : isUnit c.unit) (hnamed : c.Named)
    (h : lower options n.rom (n.site c) c.op = .ok batches) :
    ∀ line ∈ codeOf batches, line.Owned isUnit := by
  obtain ⟨unit, function, op⟩ := c
  have hname := hnamed.op
  have hlabel {name : String} (hlabel : name ∈ op.name?) :=
    @owned_labelSymbol isUnit n ⟨unit, function, op⟩ hunit hnamed.function name (hname name hlabel)
  cases op with
  | push segment offset =>
      obtain ⟨place, hplace, rfl⟩ := lower_push_eq_ok_iff.mp h
      rw [codeOf_single, pushCode]
      exact List.forall_mem_append.mpr ⟨owned_of_resolve hunit hplace,
        owned_of_readable readable_pushD⟩
  | pop segment offset =>
      obtain ⟨place, hplace, code, hcode, rfl⟩ := lower_pop_eq_ok_iff.mp h
      rw [codeOf_single]
      exact owned_popCode hunit hplace hcode
  | unary f =>
      obtain rfl := Except.ok.inj h
      apply owned_of_readable
      simp [codeOf, unaryCode]
  | binary f =>
      obtain rfl := Except.ok.inj h
      apply owned_of_readable
      simp [codeOf, binaryCode, popD]
  | compare r =>
      obtain ⟨hfits, rfl⟩ := lower_compare_eq_ok_iff.mp h
      rw [codeOf_single]
      cases hstyle : options.compare with
      | absolute =>
          simp only [compareTarget, compareLabel, hstyle, List.append_nil]
          exact owned_compareCode r (.readable (hfits hstyle))
      | symbolic =>
          have hsuffix : isSymbol (":CMP_" ++ toString n.compares).toList :=
            isSymbol_toString_append (by decide) all_isSymbolChar_toString
          simp only [compareTarget, compareLabel, hstyle]
          rw [Site.compareSymbol, String.append_assoc]
          exact List.forall_mem_append.mpr ⟨owned_compareCode r (.symbol hunit hsuffix),
            List.forall_mem_singleton.mpr (.label hunit hsuffix)⟩
  | label name =>
      obtain rfl := Except.ok.inj h
      exact List.forall_mem_singleton.mpr (hlabel rfl).2
  | goto name =>
      obtain rfl := Except.ok.inj h
      exact List.forall_mem_cons.mpr ⟨(hlabel rfl).1, List.forall_mem_singleton.mpr
        (.readable trivial)⟩
  | ifGoto name =>
      obtain rfl := Except.ok.inj h
      rw [codeOf_single, ifGotoCode]
      exact List.forall_mem_append.mpr ⟨owned_of_readable readable_popD,
        List.forall_mem_cons.mpr ⟨(hlabel rfl).1,
          List.forall_mem_singleton.mpr (.readable trivial)⟩⟩
  | function name locals =>
      obtain rfl := Except.ok.inj h
      rw [codeOf_single]
      exact owned_of_readable (readable_functionCode (hname name rfl) locals)
  | call name args =>
      obtain ⟨hargs, rfl⟩ := lower_call_eq_ok_iff.mp h
      exact owned_of_readable (readable_callBatches (hname name rfl)
        (isSymbol_returnSymbol _ (hname name rfl)) hargs)
  | ret =>
      obtain rfl := Except.ok.inj h
      exact owned_of_readable readable_returnBatches

end

/-- All code of an operation is read as what it is, if the name of its unit is a symbol or empty. -/
theorem readable_of_lower {options : Options} {n : Counters} {c : Placed} {batches : List Batch}
    (hunit : IsStem c.unit) (hnamed : c.Named)
    (h : lower options n.rom (n.site c) c.op = .ok batches) :
    ∀ line ∈ codeOf batches, line.Readable :=
  fun line hline => (owned_of_lower hunit hnamed h line hline).readable_of_isStem

end HackBackend.Codegen
