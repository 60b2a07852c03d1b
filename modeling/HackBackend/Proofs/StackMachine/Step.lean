import HackBackend.Proofs.StackMachine.Code
import HackBackend.Proofs.StackMachine.Effect

/-!
# The stack machine

The stack machine carries out one operation in each step. Its state is a position in the code of
a run and the data memory. Control goes on with the next operation, to the place that a symbol
names, or to the operation after the call that a return address belongs to.

## Implementation notes

The machine does not know how its code is translated. What it takes from a translation is where
the statics of a unit are kept and which address a call saves as its return address.
-/

namespace HackBackend.StackMachine

open Machine Vm

/-- Where control goes after an operation. -/
inductive Control where
  | next
  | goTo (symbol : String)
  | back
deriving DecidableEq, Repr

/-- The code of a run as the machine carries it out. -/
structure Image where
  code : List Placed
  branch : Codegen.BranchTest
  /-- The cell of a static of a unit. -/
  static : String → Nat → Nat
  /-- The return address that the call at a position saves. -/
  returnAddress : Nat → Nat

structure State where
  position : Nat
  memory : Memory

/-- The reasons for which there is no next step. -/
inductive Stop where
  /-- Control has come to the end of the code. -/
  | finished
  | fault (fault : Fault)
  /-- No operation gives the symbol to its place. -/
  | undefined (symbol : String)
  /-- No call has the return address. -/
  | lost (address : Word)
deriving DecidableEq, Repr

namespace Image

variable (image : Image)

/-- What an operation does to the memory, and where control goes after it. -/
def effect (position : Nat) (c : Placed) (m : Memory) : Except Fault (Control × Memory) :=
  match c.op with
  | .push segment offset => do
      let value ← fetch (image.static c.unit) segment offset m
      let m ← push value m
      .ok (.next, m)
  | .pop segment offset => do
      let m ← moveTop (image.static c.unit) segment offset m
      .ok (.next, m)
  | .unary f => do
      let m ← applyUnary f m
      .ok (.next, m)
  | .binary f => do
      let m ← applyBinary f m
      .ok (.next, m)
  | .compare r => do
      let m ← applyCompare r m
      .ok (.next, m)
  | .label _ => .ok (.next, m)
  | .goto name => .ok (.goTo (c.labelSymbol name), m)
  | .ifGoto name => do
      let (value, m) ← pop m
      .ok (if branchTaken value image.branch then .goTo (c.labelSymbol name) else .next, m)
  | .function _ locals => do
      let m ← enterFunction locals m
      .ok (.next, m)
  | .call name args => do
      let m ← enterCall (image.returnAddress position) args m
      .ok (.goTo name, m)
  | .ret => do
      let m ← leaveCall m
      .ok (.back, m)

variable {image} in
/-- Control goes to a symbol only if it is the target of the operation. -/
theorem target_of_effect {position : Nat} {c : Placed} {m m' : Memory} {symbol : String}
    (h : image.effect position c m = .ok (.goTo symbol, m')) : c.target? = some symbol := by
  obtain ⟨unit, function, op⟩ := c
  cases op with
  | goto name =>
      simp only [effect, Except.ok.injEq, Prod.mk.injEq, Control.goTo.injEq] at h
      exact congrArg some h.1
  | ifGoto name =>
      obtain ⟨⟨value, m₁⟩, -, hresult⟩ := bind_eq_ok_iff.mp h
      simp only [Except.ok.injEq, Prod.mk.injEq] at hresult
      split at hresult
      · exact congrArg some (Control.goTo.inj hresult.1)
      · cases hresult.1
  | call name args =>
      obtain ⟨m₁, -, hresult⟩ := bind_eq_ok_iff.mp h
      simp only [Except.ok.injEq, Prod.mk.injEq, Control.goTo.injEq] at hresult
      exact congrArg some hresult.1
  | _ => simp [effect, bind_eq_ok_iff] at h

/-- The first place that a symbol is given to. -/
def placeOf? (symbol : String) : Option Nat :=
  image.code.findIdx? fun c => c.symbol? = some symbol

/-- The first call that a return address belongs to. -/
def callOf? (address : Word) : Option Nat :=
  (List.range image.code.length).find? fun position =>
    (image.code[position]?.any fun c => c.calls = 1) ∧
      BitVec.ofNat 16 (image.returnAddress position) = address

/-- The position that control goes to. -/
def follow (position : Nat) (m : Memory) : Control → Except Stop Nat
  | .next => .ok (position + 1)
  | .goTo symbol =>
      match image.placeOf? symbol with
      | some place => .ok place
      | none => .error (.undefined symbol)
  | .back =>
      match image.callOf? (m.read returnCell) with
      | some call => .ok (call + 1)
      | none => .error (.lost (m.read returnCell))

/-- Carries out the operation at the position of a state. -/
def step (s : State) : Except Stop State :=
  match image.code[s.position]? with
  | none => .error .finished
  | some c =>
      match image.effect s.position c s.memory with
      | .error fault => .error (.fault fault)
      | .ok (control, m) =>
          match image.follow s.position m control with
          | .error stop => .error stop
          | .ok position => .ok ⟨position, m⟩

variable {image}

theorem follow_goTo_eq_ok_iff {position next : Nat} {m : Memory} {symbol : String} :
    image.follow position m (.goTo symbol) = .ok next ↔ image.placeOf? symbol = some next := by
  cases h : image.placeOf? symbol <;> simp [follow, h]

theorem follow_back_eq_ok_iff {position next : Nat} {m : Memory} :
    image.follow position m .back = .ok next ↔
      ∃ call, image.callOf? (m.read returnCell) = some call ∧ call + 1 = next := by
  cases h : image.callOf? (m.read returnCell) <;> simp [follow, h]

/-- Control is not found only where a symbol has no place or a return address no call. -/
theorem follow_eq_error {position : Nat} {m : Memory} {control : Control} {stop : Stop}
    (h : image.follow position m control = .error stop) :
    (∃ symbol, control = .goTo symbol ∧ image.placeOf? symbol = none ∧
      stop = .undefined symbol) ∨ control = .back ∧ stop = .lost (m.read returnCell) := by
  cases control with
  | next => cases h
  | goTo symbol =>
      cases hplace : image.placeOf? symbol with
      | none =>
          have hstop : Stop.undefined symbol = stop := by simpa [follow, hplace] using h
          exact .inl ⟨symbol, rfl, hplace, hstop.symm⟩
      | some place => simp [follow, hplace] at h
  | back =>
      cases hcall : image.callOf? (m.read returnCell) with
      | none =>
          have hstop : Stop.lost (m.read returnCell) = stop := by simpa [follow, hcall] using h
          exact .inr ⟨rfl, hstop.symm⟩
      | some call => simp [follow, hcall] at h

theorem step_eq_ok_iff {s s' : State} :
    image.step s = .ok s' ↔ ∃ c control, image.code[s.position]? = some c ∧
      image.effect s.position c s.memory = .ok (control, s'.memory) ∧
        image.follow s.position s'.memory control = .ok s'.position := by
  obtain ⟨position, m⟩ := s'
  rw [step]
  cases hc : image.code[s.position]? with
  | none => simp
  | some c =>
      cases heffect : image.effect s.position c s.memory with
      | error fault => simp [heffect]
      | ok result =>
          obtain ⟨control, m'⟩ := result
          cases hfollow : image.follow s.position m' control with
          | error stop =>
              simp only [hfollow, heffect, Option.some.injEq, reduceCtorEq, false_iff]
              rintro ⟨_, _, rfl, hsame, hok⟩
              obtain ⟨rfl, rfl⟩ := Prod.mk.inj (Except.ok.inj (heffect.symm.trans hsame))
              simp [hfollow] at hok
          | ok next =>
              simp only [hfollow, heffect, Option.some.injEq, Except.ok.injEq, State.mk.injEq]
              constructor
              · rintro ⟨rfl, rfl⟩
                exact ⟨c, control, rfl, heffect, hfollow⟩
              · rintro ⟨_, _, rfl, hsame, hok⟩
                obtain ⟨rfl, rfl⟩ := Prod.mk.inj (Except.ok.inj (heffect.symm.trans hsame))
                exact ⟨Except.ok.inj (hfollow.symm.trans hok), rfl⟩

/-- A call goes to the place of the name that it calls. -/
theorem step_call {s : State} {c : Placed} {name : String} {args place : Nat} {m : Memory}
    (hc : image.code[s.position]? = some c) (hcall : c.op = .call name args)
    (henter : enterCall (image.returnAddress s.position) args s.memory = .ok m)
    (hplace : image.placeOf? name = some place) : image.step s = .ok ⟨place, m⟩ := by
  refine step_eq_ok_iff.mpr ⟨c, .goTo name, hc, ?_, follow_goTo_eq_ok_iff.mpr hplace⟩
  simp only [effect, hcall, henter, ok_bind]

/-- A step stops at the end of the code, at a fault, or where control is not found. -/
theorem step_eq_error {s : State} {stop : Stop} (h : image.step s = .error stop) :
    (image.code[s.position]? = none ∧ stop = .finished) ∨
      ∃ c, image.code[s.position]? = some c ∧
        ((∃ fault, image.effect s.position c s.memory = .error fault ∧ stop = .fault fault) ∨
          (∃ symbol, c.target? = some symbol ∧ image.placeOf? symbol = none ∧
            stop = .undefined symbol) ∨
          ∃ m, image.effect s.position c s.memory = .ok (.back, m) ∧
            stop = .lost (m.read returnCell)) := by
  rw [step] at h
  cases hc : image.code[s.position]? with
  | none =>
      rw [hc] at h
      exact .inl ⟨rfl, (Except.error.inj h).symm⟩
  | some c =>
      refine .inr ⟨c, rfl, ?_⟩
      rw [hc] at h
      cases heffect : image.effect s.position c s.memory with
      | error fault =>
          have hstop : Stop.fault fault = stop := by simpa [heffect] using h
          exact .inl ⟨fault, rfl, hstop.symm⟩
      | ok result =>
          obtain ⟨control, m⟩ := result
          cases hfollow : image.follow s.position m control with
          | ok next => simp [heffect, hfollow] at h
          | error other =>
              obtain rfl : other = stop := by simpa [heffect, hfollow] using h
              rcases follow_eq_error hfollow with ⟨symbol, rfl, hplace, rfl⟩ | ⟨rfl, rfl⟩
              · exact .inr (.inl ⟨symbol, target_of_effect heffect, hplace, rfl⟩)
              · exact .inr (.inr ⟨m, rfl, rfl⟩)

/-- Control stays within the code. -/
theorem position_le_of_step {s s' : State} (h : image.step s = .ok s') :
    s'.position ≤ image.code.length := by
  obtain ⟨c, control, hc, -, hfollow⟩ := step_eq_ok_iff.mp h
  obtain ⟨hlt, -⟩ := List.getElem?_eq_some_iff.mp hc
  cases control with
  | next =>
      rw [← Except.ok.inj hfollow]
      exact hlt
  | goTo symbol =>
      obtain ⟨hplace, -⟩ :=
        List.findIdx?_eq_some_iff_getElem.mp (follow_goTo_eq_ok_iff.mp hfollow)
      exact Nat.le_of_lt hplace
  | back =>
      obtain ⟨call, hcall, hnext⟩ := follow_back_eq_ok_iff.mp hfollow
      rw [← hnext]
      exact List.mem_range.mp (List.mem_of_find?_eq_some hcall)

variable (image)

/-- Takes a number of steps. -/
def run : Nat → State → Except Stop State
  | 0, s => .ok s
  | n + 1, s =>
      match image.step s with
      | .error stop => .error stop
      | .ok s => run n s

variable {image}

theorem position_le_of_run (n : Nat) {s s' : State} (hposition : s.position ≤ image.code.length)
    (hrun : image.run n s = .ok s') : s'.position ≤ image.code.length := by
  induction n generalizing s with
  | zero =>
      obtain rfl := Except.ok.inj hrun
      exact hposition
  | succ n ih =>
      rw [run] at hrun
      cases hstep : image.step s with
      | error stop => simp [hstep] at hrun
      | ok next => exact ih (position_le_of_step hstep) (by simpa [hstep] using hrun)

end Image

end HackBackend.StackMachine
