import HackBackend.Proofs.Asm.Spelling
import HackBackend.Proofs.Result
import HackBackend.Proofs.StackMachine.Code

/-!
# Names in the code of a run

The names of labels and functions are checked when a command is read, so that they are symbols
of the assembly language. If the names of the units are symbols as well, so is every name that
is made from them.
-/

namespace HackBackend

open Text

/-- A name before which nothing stands: it is empty, or a symbol by itself. -/
def IsStem (name : String) : Prop :=
  name = "" ∨ isSymbol name.toList

/-- What is put behind the name of a unit is a symbol even where that name is empty. -/
theorem isSymbol_stem_append {name suffix : String} (h : IsStem name)
    (hsuffix : isSymbol suffix.toList) : isSymbol (name ++ suffix).toList := by
  rcases h with rfl | hname
  · simpa using hsuffix
  · apply isSymbol_toString_append hname
    exact List.all_eq_true.mpr (isSymbolChar_of_mem hsuffix)

namespace Vm

/-- The name that an operation has as an argument. -/
def Operation.name? : Operation → Option String
  | .label name | .goto name | .ifGoto name | .function name _ | .call name _ => some name
  | _ => none

theorem isSymbol_of_checkSymbol {name checked : String} (h : checkSymbol name = .ok checked) :
    isSymbol checked.toList := by
  unfold checkSymbol at h
  split at h
  · obtain rfl := Except.ok.inj h
    assumption
  · cases h

theorem isSymbol_of_checkLabel {name checked : String} (h : checkLabel name = .ok checked) :
    isSymbol checked.toList := by
  obtain ⟨label, hlabel, hreserved⟩ := bind_eq_ok_iff.mp h
  split at hreserved
  · cases hreserved
  · obtain rfl := Except.ok.inj hreserved
    exact isSymbol_of_checkSymbol hlabel

theorem isReserved_of_checkLabel {name checked : String} (h : checkLabel name = .ok checked) :
    isReserved checked = false := by
  obtain ⟨label, -, hreserved⟩ := bind_eq_ok_iff.mp h
  split at hreserved
  case isTrue => cases hreserved
  case isFalse hfree =>
    obtain rfl := Except.ok.inj hreserved
    exact Bool.eq_false_iff.mpr hfree

/-- No command defines a label that is reserved for return addresses. -/
theorem isReserved_of_operation {c : Command} {name : String}
    (h : c.operation = .ok (.label name)) : isReserved name = false := by
  unfold Command.operation at h
  split at h
  case h_6 =>
    obtain ⟨label, hlabel, hsame⟩ := map_eq_ok_iff.mp h
    obtain rfl := Operation.label.inj hsame
    exact isReserved_of_checkLabel hlabel
  case h_1 | h_2 | h_7 | h_8 | h_9 | h_10 =>
    obtain ⟨argument, -, hsame⟩ := map_eq_ok_iff.mp h
    cases hsame
  all_goals cases h

/-- The name of an operation is a symbol. -/
theorem isSymbol_of_operation {c : Command} {op : Operation} (h : c.operation = .ok op) :
    ∀ name ∈ op.name?, isSymbol name.toList := by
  unfold Command.operation at h
  split at h
  case h_1 | h_2 =>
    obtain ⟨segment, -, rfl⟩ := map_eq_ok_iff.mp h
    simp [Operation.name?]
  case h_6 | h_7 | h_8 =>
    obtain ⟨label, hlabel, rfl⟩ := map_eq_ok_iff.mp h
    simpa [Operation.name?] using isSymbol_of_checkLabel hlabel
  case h_9 | h_10 =>
    obtain ⟨symbol, hsymbol, rfl⟩ := map_eq_ok_iff.mp h
    simpa [Operation.name?] using isSymbol_of_checkSymbol hsymbol
  case h_12 => cases h
  all_goals
    obtain rfl := Except.ok.inj h
    simp [Operation.name?]

end Vm

namespace StackMachine

open Vm

/-- The names that stand in an operation, and the function that it is in, are symbols. -/
structure Placed.Named (c : Placed) : Prop where
  function : ∀ name ∈ c.function, isSymbol name.toList
  op : ∀ name ∈ c.op.name?, isSymbol name.toList

/-- Every operation of a source is what one of its commands stands for. -/
theorem exists_command_of_mem_operationsOf {source : Text.Source} {op : Operation}
    (hop : op ∈ operationsOf source) : ∃ c : Command, c.operation = .ok op := by
  obtain ⟨item, -, hitem⟩ := List.mem_filterMap.mp hop
  rcases item with e | c
  · cases hitem
  · cases hc : c.operation with
    | error cause => simp [operation?, hc, Except.toOption] at hitem
    | ok found =>
        obtain rfl : found = op := by simpa [operation?, hc, Except.toOption] using hitem
        exact ⟨c, hc⟩

theorem isSymbol_of_mem_operationsOf {source : Text.Source} :
    ∀ op ∈ operationsOf source, ∀ name ∈ op.name?, isSymbol name.toList := by
  intro op hop
  obtain ⟨c, hc⟩ := exists_command_of_mem_operationsOf hop
  exact isSymbol_of_operation hc

theorem op_mem_of_mem_placeOps {unit : String} {function : Option String} {ops : List Operation}
    {c : Placed} (hc : c ∈ placeOps unit function ops) : c.op ∈ ops := by
  induction ops generalizing function with
  | nil => cases hc
  | cons op rest ih =>
      rcases List.mem_cons.mp hc with rfl | hrest
      · exact List.mem_cons_self ..
      · exact List.mem_cons_of_mem op (ih hrest)

theorem exists_command_of_mem_codeOfUnits {units : List (String × Text.Source)} {c : Placed}
    (hc : c ∈ codeOfUnits units) : ∃ command : Command, command.operation = .ok c.op := by
  obtain ⟨unit, -, hmem⟩ := List.mem_flatMap.mp hc
  exact exists_command_of_mem_operationsOf (op_mem_of_mem_placeOps hmem)

theorem named_of_mem_placeOps {unit : String} {function : Option String} {ops : List Operation}
    (hfunction : ∀ name ∈ function, isSymbol name.toList)
    (hops : ∀ op ∈ ops, ∀ name ∈ op.name?, isSymbol name.toList) :
    ∀ c ∈ placeOps unit function ops, c.unit = unit ∧ c.Named := by
  induction ops generalizing function with
  | nil => simp [placeOps]
  | cons op rest ih =>
      obtain ⟨hop, hrest⟩ := List.forall_mem_cons.mp hops
      have hafter : ∀ name ∈ functionAfter function op, isSymbol name.toList := by
        cases op with
        | function name locals =>
            intro n hn
            exact hop n hn
        | ret => simp [functionAfter]
        | _ => exact hfunction
      exact List.forall_mem_cons.mpr ⟨⟨rfl, hfunction, hop⟩, ih hafter hrest⟩

theorem named_of_mem_codeOfUnits {units : List (String × Text.Source)} :
    ∀ c ∈ codeOfUnits units, c.Named ∧ ∃ unit ∈ units, c.unit = unit.1 := by
  intro c hc
  obtain ⟨unit, hunit, hmem⟩ := List.mem_flatMap.mp hc
  have hnone : ∀ name ∈ (none : Option String), isSymbol name.toList := by simp
  have hnamed := named_of_mem_placeOps hnone isSymbol_of_mem_operationsOf c hmem
  exact ⟨hnamed.2, unit, hunit, hnamed.1⟩

end StackMachine

end HackBackend
