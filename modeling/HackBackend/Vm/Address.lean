import HackBackend.Diagnostic

/-!
# Addressing

Finding the place that an offset of a segment names. The segments with a fixed number of
cells, and those whose offset must fit into an instruction, have a largest offset.
-/

namespace HackBackend.Vm.Segment

/-- The place of an offset of a segment in a unit, if the segment reaches that far. -/
def resolve (unit : String) (s : Segment) (offset : Nat) : Except Cause Access :=
  match s.limit? with
  | none => .ok (s.access unit offset)
  | some limit =>
      if offset ≤ limit then .ok (s.access unit offset)
      else .error (.offsetOutOfRange s offset limit)

theorem resolve_eq_ok_iff {unit : String} {s : Segment} {offset : Nat} {place : Access} :
    resolve unit s offset = .ok place ↔
      (∀ limit ∈ s.limit?, offset ≤ limit) ∧ s.access unit offset = place := by
  unfold resolve
  cases h : s.limit? with
  | none => simp
  | some limit =>
      by_cases hle : offset ≤ limit
      · simp [hle]
      · simp [hle]

end HackBackend.Vm.Segment
