import HackBackend.Codegen.Sequence
import HackBackend.Proofs.Asm.Linking
import HackBackend.Proofs.Machine.Block
import HackBackend.Proofs.StackMachine.Effect

/-!
# What the code of an operation does

The instructions of each code sequence do to the memory what the operation does to it, and end
with the same fault if one of the accesses fails. What the registers A and D hold beforehand
does not matter.
-/

namespace HackBackend

open Asm Machine Vm Codegen StackMachine

namespace Asm.Program

variable (program : Program)

@[simp] theorem address_stackPointer : program.address "SP" = stackPointer :=
  address_of_predefined (by decide) program

@[simp] theorem address_register (b : Base) : program.address b.register = baseCell b := by
  have hb : predefined? b.register = some (baseCell b) := by
    cases b <;> decide
  exact address_of_predefined hb program

@[simp] theorem address_scratch : program.address "R13" = addressCell ∧
    program.address "R14" = frameCell ∧ program.address "R15" = returnCell :=
  ⟨address_of_predefined (by decide) program,
    address_of_predefined (by decide) program,
    address_of_predefined (by decide) program⟩

theorem address_temp {offset : Nat} (h : offset ≤ 7) :
    program.address ("R" ++ toString (Segment.tempBase + offset)) =
      Segment.tempBase + offset := by
  have htable : ∀ n ∈ List.range 8, predefined? ("R" ++ toString (Segment.tempBase + n)) =
      some (Segment.tempBase + n) := by decide
  exact address_of_predefined (htable offset (by simp; omega)) program

end Asm.Program

namespace Machine

open Cpu

/-- A row of instructions at an address turns a memory into a result, which tells where control
goes on, whatever the registers hold. -/
def Yields (block : List (Instruction Nat)) (pc : Nat) (m : Memory)
    (result : Except Fault (Nat × Memory)) : Prop :=
  ∀ a d, (performAll block ⟨⟨a, d, pc⟩, m⟩).map (fun cpu => (cpu.pc, cpu.memory)) = result

/-- A row of instructions changes the memory as an effect does, and control goes on after it. -/
def Performs (block : List (Instruction Nat)) (effect : Memory → Except Fault Memory) : Prop :=
  ∀ pc m, Yields block pc m (do
    let m ← effect m
    .ok (pc + block.length, m))

theorem Performs.yields_append {xs ys : List (Instruction Nat)}
    {effect : Memory → Except Fault Memory} {goOn : Memory → Except Fault (Nat × Memory)}
    (hxs : Performs xs effect) (pc : Nat) (m : Memory)
    (hys : ∀ m, Yields ys (pc + xs.length) m (goOn m)) :
    Yields (xs ++ ys) pc m (effect m >>= goOn) := by
  intro a d
  have hfirst := hxs pc m a d
  rw [performAll_append]
  cases hperform : performAll xs ⟨⟨a, d, pc⟩, m⟩ with
  | error fault =>
      cases heffect : effect m with
      | error other => simpa [hperform, heffect, Except.map] using hfirst
      | ok next => simp [hperform, heffect, Except.map] at hfirst
  | ok next =>
      cases heffect : effect m with
      | error other => simp [hperform, heffect, Except.map] at hfirst
      | ok after =>
          obtain ⟨⟨a, d, pc⟩, m⟩ := next
          obtain ⟨rfl, rfl⟩ : pc = _ ∧ m = after := by
            simpa [hperform, heffect, Except.map] using hfirst
          exact hys m a d

theorem Performs.append {xs ys : List (Instruction Nat)}
    {f g : Memory → Except Fault Memory} (hxs : Performs xs f) (hys : Performs ys g) :
    Performs (xs ++ ys) fun m => f m >>= g := by
  intro pc m
  rw [bind_assoc, List.length_append, ← Nat.add_assoc]
  exact hxs.yields_append pc m fun m => hys (pc + xs.length) m

end Machine

namespace Codegen

open Cpu Program

variable (program : Program)

theorem performAll_popD (a d : Word) (pc : Nat) (m : Memory) :
    performAll (program.linked popD) ⟨⟨a, d, pc⟩, m⟩ = (do
      let (value, m) ← pop m
      .ok ⟨⟨sp m, value, pc + 3⟩, m⟩) := by
  simp [popD, performAll, perform_compute, Dest.am, Dest.d, pop, sp]

theorem performAll_pushD (a d : Word) (pc : Nat) (m : Memory) :
    performAll (program.linked pushD) ⟨⟨a, d, pc⟩, m⟩ = (do
      let m ← push d m
      .ok ⟨⟨.ofNat 16 stackPointer, d, pc + 5⟩, m⟩) := by
  simp [pushD, incrementSp, performAll, perform_compute, Dest.a, Dest.m, push, sp]

theorem address_resolve {unit : String} {segment : Segment} {offset : Nat} {name : String}
    (h : segment.resolve unit offset = .ok (.direct name)) (m : Memory) :
    address? (fun i => program.address (Segment.staticSymbol unit i)) m segment offset =
      some (.ofNat 16 (program.address name)) := by
  obtain ⟨hlimit, haccess⟩ := Segment.resolve_eq_ok_iff.mp h
  cases segment with
  | constant => cases haccess
  | based b => cases haccess
  | static =>
      obtain rfl := Access.direct.inj haccess
      rfl
  | pointer =>
      obtain rfl := Access.direct.inj haccess
      have hoffset : offset ≤ 1 := hlimit 1 rfl
      obtain rfl | rfl : offset = 0 ∨ offset = 1 := by omega
      · exact congrArg (fun n => some (BitVec.ofNat 16 n)) (program.address_register .this).symm
      · exact congrArg (fun n => some (BitVec.ofNat 16 n)) (program.address_register .that).symm
  | temp =>
      obtain rfl := Access.direct.inj haccess
      rw [program.address_temp (hlimit 7 rfl)]
      rfl

/-- The value at a place, which is loaded into D. -/
theorem performAll_loadD {unit : String} {segment : Segment} {offset : Nat} {place : Access}
    (h : segment.resolve unit offset = .ok place) (a d : Word) (pc : Nat) (m : Memory) :
    ∃ last, performAll (program.linked (loadD place)) ⟨⟨a, d, pc⟩, m⟩ = (do
      let value ← fetch (fun i => program.address (Segment.staticSymbol unit i)) segment offset m
      .ok ⟨⟨last, value, pc + (loadD place).length⟩, m⟩) := by
  obtain ⟨hlimit, haccess⟩ := Segment.resolve_eq_ok_iff.mp h
  cases place with
  | constant value =>
      obtain ⟨rfl, rfl⟩ : segment = .constant ∧ offset = value := by
        cases segment <;> simp_all [Segment.access]
      refine ⟨.ofNat 16 offset, ?_⟩
      simp [loadD, performAll, perform_compute, fetch, address?, Dest.d]
  | indirect b value =>
      obtain ⟨rfl, rfl⟩ : segment = .based b ∧ offset = value := by
        cases segment <;> simp_all [Segment.access]
      refine ⟨base m b + .ofNat 16 offset, ?_⟩
      simp [loadD, performAll, perform_compute, fetch, address?, Dest.d, Dest.a, base]
  | direct name =>
      refine ⟨.ofNat 16 (program.address name), ?_⟩
      rw [fetch, address_resolve program h]
      simp [loadD, performAll, perform_compute, Dest.d]

@[simp] theorem length_linked_popD : (program.linked popD).length = 3 := rfl

@[simp] theorem length_linked_pushD : (program.linked pushD).length = 5 := rfl

theorem performs_push {unit : String} {segment : Segment} {offset : Nat} {place : Access}
    (h : segment.resolve unit offset = .ok place) :
    Performs (program.linked (pushCode place)) fun m =>
      fetch (fun i => program.address (Segment.staticSymbol unit i)) segment offset m >>=
        (push · m) := by
  intro pc m a d
  obtain ⟨last, hload⟩ := performAll_loadD program h a d pc m
  have hlength : (program.linked (pushCode place)).length = (loadD place).length + 5 := by
    cases place <;> simp [pushCode, loadD, pushD, incrementSp]
  rw [hlength, pushCode, linked_append, performAll_append, hload]
  simp [performAll_pushD, map_eq_bind, Nat.add_assoc]

/-- The value at an operand is put on top of the stack. -/
theorem performs_pushDirect (address : Address) :
    Performs (program.linked
        ([.instruction (.load address), .store .d (.copy .m)] ++ pushD))
      fun m => m.load (.ofNat 16 (program.operand address)) >>= (push · m) := by
  intro pc m a d
  simp [Instruction.map, performAll, perform_compute, performAll_pushD, Dest.d, map_eq_bind,
    Nat.add_assoc]

/-- The topmost value goes to the cell at an operand. -/
theorem performs_popDirect (address : Address) :
    Performs (program.linked (popD ++ [.instruction (.load address), .store .m (.copy .d)]))
      (popTo (.ofNat 16 (program.operand address))) := by
  intro pc m a d
  simp only [linked_append, performAll_append, performAll_popD]
  simp [Instruction.map, performAll, perform_compute, Dest.m, popTo, pop, popD, map_eq_bind,
    Nat.add_assoc]

/-- The topmost value goes to the address in the scratch cell. -/
theorem performs_popScratch :
    Performs (program.linked
        (popD ++ [.symbol "R13", .store .a (.copy .m), .store .m (.copy .d)]))
      fun m => popTo (m.read addressCell) m := by
  intro pc m a d
  have hkept (x : Word) : (m.write stackPointer x).read addressCell = m.read addressCell :=
    Memory.read_write_of_ne m x (by decide)
  simp only [linked_append, performAll_append, performAll_popD]
  simp [performAll, perform_compute, Dest.m, Dest.a, popTo, pop, popD, hkept, map_eq_bind,
    Nat.add_assoc]

/-- The scratch cell takes the address of an offset from a base. -/
theorem performs_keepAddress (b : Base) (offset : Nat) :
    Performs (program.linked
        [.symbol b.register, .store .d (.copy .m), .literal offset, .store .d (.add .a),
          .symbol "R13", .store .m (.copy .d)])
      fun m => .ok (m.write addressCell (base m b + .ofNat 16 offset)) := by
  intro pc m a d
  simp [performAll, perform_compute, Dest.d, Dest.m, base, map_eq_bind, Nat.add_assoc]

theorem performs_pop {unit : String} {segment : Segment} {offset : Nat} {place : Access}
    {code : List Line} (h : segment.resolve unit offset = .ok place)
    (hcode : popCode place = .ok code) :
    Performs (program.linked code)
      (moveTop (fun i => program.address (Segment.staticSymbol unit i)) segment offset) := by
  obtain ⟨hlimit, haccess⟩ := Segment.resolve_eq_ok_iff.mp h
  cases place with
  | constant value => cases hcode
  | indirect b value =>
      obtain rfl := Except.ok.inj hcode
      obtain ⟨rfl, rfl⟩ : segment = .based b ∧ offset = value := by
        cases segment <;> simp_all [Segment.access]
      have hpop := (performs_keepAddress program b offset).append (performs_popScratch program)
      have heffect (m : Memory) :
          popTo ((m.write addressCell (base m b + .ofNat 16 offset)).read addressCell)
            (m.write addressCell (base m b + .ofNat 16 offset)) =
          popIndirect (base m b + .ofNat 16 offset) m := by
        rw [Memory.read_write_self _ _ (by decide), popIndirect]
      simp only [ok_bind, heffect] at hpop
      rw [List.append_assoc, linked_append]
      exact hpop
  | direct name =>
      obtain rfl := Except.ok.inj hcode
      intro pc m
      have hsegment (b : Base) : segment ≠ .based b := by
        rintro rfl
        cases haccess
      rw [moveTop_of_address? hsegment (address_resolve program h m)]
      exact performs_popDirect program (.symbol name) pc m

@[simp] theorem readsMemory_unaryComp (f : Unary) : (unaryComp f).readsMemory = true := by
  cases f <;> rfl

@[simp] theorem eval_unaryComp (f : Unary) (d a x : Word) :
    (unaryComp f).eval d a x = unaryValue f x := by
  cases f <;> rfl

theorem performs_unary (f : Unary) :
    Performs (program.linked (unaryCode f)) (applyUnary f) := by
  intro pc m a d
  simp [unaryCode, performAll, perform_compute, Dest.a, Dest.m, applyUnary, top, setTop,
    sp, map_eq_bind, Nat.add_assoc]

@[simp] theorem readsMemory_binaryComp (f : Binary) : (binaryComp f).readsMemory = true := by
  cases f <;> rfl

@[simp] theorem eval_binaryComp (f : Binary) (right a left : Word) :
    (binaryComp f).eval right a left = binaryValue f left right := by
  cases f with
  | add => exact BitVec.add_comm right left
  | sub => rfl
  | and => exact BitVec.and_comm right left
  | or => exact BitVec.or_comm right left

theorem performs_binary (f : Binary) :
    Performs (program.linked (binaryCode f)) (applyBinary f) := by
  intro pc m a d
  rw [binaryCode, linked_append, performAll_append, performAll_popD]
  simp [performAll, perform_compute, Dest.a, Dest.m, applyBinary, top, setTop,
    popD, map_eq_bind, Nat.add_assoc]

/-! ### Branches -/

theorem yields_goto {name : String} (h : program.address name < romSize) (pc : Nat)
    (m : Memory) :
    Yields (program.linked (gotoCode name)) pc m (.ok (program.address name, m)) := by
  intro a d
  simp [gotoCode, performAll, perform_jump Comp.readsMemory_zero, Jump.taken,
    toNat_ofNat_of_lt h, map_eq_bind]

@[simp] theorem taken_jump (test : BranchTest) (value : Word) :
    test.jump.taken value = branchTaken value test := by
  cases test <;> rfl

theorem yields_ifGoto (test : BranchTest) {name : String} (h : program.address name < romSize)
    (pc : Nat) (m : Memory) :
    Yields (program.linked (ifGotoCode test name)) pc m (do
      let (value, m) ← pop m
      .ok (if branchTaken value test then program.address name else pc + 5, m)) := by
  intro a d
  rw [ifGotoCode, linked_append, performAll_append, performAll_popD]
  simp [performAll, perform_jump, toNat_ofNat_of_lt h, map_eq_bind, Nat.add_assoc]

@[simp] theorem taken_relationJump (r : Relation) (difference : Word) :
    (relationJump r).taken difference = relationHolds difference r := by
  cases r <;> rfl

/-- The first part of a comparison stores -1 and skips the rest if the relation holds. -/
theorem yields_compare (r : Relation) {target : Address}
    (h : program.operand target < romSize) (pc : Nat) (m : Memory) :
    Yields (program.linked (popD ++ [.store .a (.dec .a), .store .d (.subFrom .m),
        .store .m .minusOne, .instruction (.load target),
        .jump (.copy .d) (relationJump r)])) pc m (do
      let (right, m) ← pop m
      let left ← top m
      let m ← setTop (-1) m
      .ok (if relationHolds (left - right) r then program.operand target else pc + 8, m)) := by
  intro a d
  rw [linked_append, performAll_append, performAll_popD]
  simp [performAll, Instruction.map, perform_compute, perform_jump, Dest.a, Dest.d, Dest.m, top,
    setTop, toNat_ofNat_of_lt h, map_eq_bind, Nat.add_assoc]

/-- The last part of a comparison replaces the result by 0. -/
theorem performs_clearTop :
    Performs (program.linked [.symbol "SP", .store .a (.dec .m), .store .m .zero])
      (setTop 0) := by
  intro pc m a d
  simp [performAll, perform_compute, Dest.a, Dest.m, setTop, sp, map_eq_bind, Nat.add_assoc]

/-! ### Functions -/

/-- Each pass stores a zero and moves A on. -/
theorem performAll_clear (count : Nat) (a d : Word) (pc : Nat) (m : Memory) :
    performAll (program.linked
        (List.replicate count [Line.store .m .zero, .store .a (.inc .a)]).flatten)
      ⟨⟨a, d, pc⟩, m⟩ = (do
        let m ← clear a count m
        .ok ⟨⟨a + .ofNat 16 count, d, pc + 2 * count⟩, m⟩) := by
  induction count generalizing a pc m with
  | zero => simp [performAll, clear]
  | succ count ih =>
      have hpass (a : Word) (pc : Nat) (m : Memory) :
          performAll (program.linked [.store .m .zero, .store .a (.inc .a)]) ⟨⟨a, d, pc⟩, m⟩ =
            (do
              let m ← m.store a 0
              .ok ⟨⟨a + 1, d, pc + 2⟩, m⟩) := by
        simp [performAll, perform_compute, Dest.a, Dest.m]
      have hnext : a + 1 + BitVec.ofNat 16 count = a + BitVec.ofNat 16 (count + 1) := by
        rw [BitVec.ofNat_add, BitVec.add_assoc, BitVec.add_comm 1]
        rfl
      have hpc : pc + 2 + 2 * count = pc + 2 * (count + 1) := by omega
      rw [List.replicate_succ, List.flatten_cons, linked_append, performAll_append, hpass]
      simp only [bind_assoc, ok_bind, ih, clear, hnext, hpc]

theorem length_linked_clear (count : Nat) :
    (program.linked (List.replicate count
      [Line.store .m .zero, .store .a (.inc .a)]).flatten).length = 2 * count := by
  induction count with
  | zero => rfl
  | succ count ih => simp [List.replicate_succ, ih]; omega

theorem performs_function (name : String) (locals : Nat) :
    Performs (program.linked (functionCode name locals)) (enterFunction locals) := by
  intro pc m a d
  rw [functionCode, linked_label, zeroLocals]
  by_cases hzero : locals = 0
  · subst hzero
    have hsame : m.write stackPointer (sp m) = m := Memory.write_read m stackPointer
    simp [performAll, enterFunction, clear, hsame, map_eq_bind]
  · have hstart : performAll (program.linked [.symbol "SP", .store .a (.copy .m)])
        ⟨⟨a, d, pc⟩, m⟩ = .ok ⟨⟨sp m, d, pc + 2⟩, m⟩ := by
      simp [performAll, perform_compute, Dest.a, sp]
    rw [if_neg hzero, linked_append, linked_append, performAll_append, performAll_append,
      hstart]
    simp only [ok_bind, bind_assoc, performAll_clear, List.length_append, length_linked_clear]
    simp [performAll, perform_compute, Dest.d, Dest.m, enterFunction, map_eq_bind,
      Nat.add_assoc]

/-! ### Calls -/

theorem performs_saveBase (b : Base) :
    Performs (program.linked (Codegen.saveBase b).code) (StackMachine.saveBase b) := by
  intro pc m a d
  simp [Codegen.saveBase, performAll, perform_compute, performAll_pushD, Dest.d,
    StackMachine.saveBase, base, map_eq_bind, Nat.add_assoc]

/-- The rows of a call, up to its jump. -/
def pushAddressCode (name : String) : List Line :=
  .symbol name :: .store .d (.copy .a) :: pushD

def setArgumentsCode (args : Nat) : List Line :=
  [.symbol "SP", .store .d (.copy .m), .literal (args + frameSize), .store .d (.sub .a),
    .symbol "ARG", .store .m (.copy .d)]

def setLocalsCode : List Line :=
  [.symbol "SP", .store .d (.copy .m), .symbol "LCL", .store .m (.copy .d)]

theorem performs_pushAddress {name : String} {address : Nat} (h : program.address name = address) :
    Performs (program.linked (pushAddressCode name)) (push (.ofNat 16 address)) := by
  intro pc m a d
  simp [pushAddressCode, performAll, perform_compute, performAll_pushD, Dest.d, h, map_eq_bind,
    Nat.add_assoc]

theorem performs_setArguments (args : Nat) :
    Performs (program.linked (setArgumentsCode args))
      fun m => .ok (m.write (baseCell .arguments) (sp m - .ofNat 16 (args + savedWords))) := by
  intro pc m a d
  have harg : program.address "ARG" = baseCell .arguments := program.address_register .arguments
  simp [setArgumentsCode, performAll, perform_compute, Dest.d, Dest.m, harg, sp, frameSize,
    savedWords, map_eq_bind, Nat.add_assoc]

theorem performs_setLocals :
    Performs (program.linked setLocalsCode)
      fun m => .ok (m.write (baseCell .locals) (sp m)) := by
  intro pc m a d
  have hlcl : program.address "LCL" = baseCell .locals := program.address_register .locals
  simp [setLocalsCode, performAll, perform_compute, Dest.d, Dest.m, hlcl, sp, map_eq_bind,
    Nat.add_assoc]

/-- The code of a call puts a frame on the stack and goes to what is called. -/
theorem yields_call {callee returnTo : String} {returnAddress : Nat} (args : Nat)
    (hreturn : program.address returnTo = returnAddress)
    (hcallee : program.address callee < romSize) (pc : Nat) (m : Memory) :
    Yields (program.linked (Codegen.codeOf (callBatches callee returnTo args))) pc m (do
      let m ← enterCall returnAddress args m
      .ok (program.address callee, m)) := by
  have hframe := (performs_pushAddress program hreturn).append
    ((performs_saveBase program .locals).append
      ((performs_saveBase program .arguments).append
        ((performs_saveBase program .this).append
          ((performs_saveBase program .that).append
            ((performs_setArguments program args).append (performs_setLocals program))))))
  have hyields := hframe.yields_append pc m
    fun m => yields_goto program hcallee _ m
  simp only [← linked_append] at hyields
  -- The label that the call returns to is no instruction.
  have hcode : program.linked (Codegen.codeOf (callBatches callee returnTo args)) =
      program.linked (pushAddressCode returnTo ++ ((Codegen.saveBase .locals).code ++
        ((Codegen.saveBase .arguments).code ++ ((Codegen.saveBase .this).code ++
          ((Codegen.saveBase .that).code ++ (setArgumentsCode args ++ setLocalsCode))))) ++
        gotoCode callee) := by
    rfl
  rw [hcode]
  simpa only [enterCall, bind_assoc, ok_bind] using hyields

/-- The rows of a return, around those that restore the base pointers. -/
def noteFrameCode : List Line :=
  [.symbol "LCL", .store .d (.copy .m), .symbol "R14", .store .m (.copy .d),
    .literal frameSize, .store .a (.sub .a), .store .d (.copy .m), .symbol "R15",
    .store .m (.copy .d)]

def moveResultCode : List Line :=
  [.symbol "SP", .store .a (.dec .m), .store .d (.copy .m), .symbol "ARG", .store .a (.copy .m),
    .store .m (.copy .d)]

def dropFrameCode : List Line :=
  [.symbol "ARG", .store .d (.inc .m), .symbol "SP", .store .m (.copy .d)]

def jumpBackCode : List Line :=
  [.symbol "R15", .store .a (.copy .m), .jump .zero .always]

theorem performs_noteFrame : Performs (program.linked noteFrameCode) noteFrame := by
  intro pc m a d
  have hlcl : program.address "LCL" = baseCell .locals := program.address_register .locals
  simp [noteFrameCode, performAll, perform_compute, Dest.a, Dest.d, Dest.m, hlcl, base, noteFrame,
    frameSize, savedWords, map_eq_bind, Nat.add_assoc]

theorem performs_moveResult :
    Performs (program.linked moveResultCode)
      fun m => top m >>= m.store (base m .arguments) := by
  intro pc m a d
  have harg : program.address "ARG" = baseCell .arguments := program.address_register .arguments
  simp [moveResultCode, performAll, perform_compute, Dest.a, Dest.d, Dest.m, harg, base, top, sp,
    map_eq_bind, Nat.add_assoc]

theorem performs_dropFrame :
    Performs (program.linked dropFrameCode)
      fun m => .ok (m.write stackPointer (base m .arguments + 1)) := by
  intro pc m a d
  have harg : program.address "ARG" = baseCell .arguments := program.address_register .arguments
  simp [dropFrameCode, performAll, perform_compute, Dest.d, Dest.m, harg, base, map_eq_bind,
    Nat.add_assoc]

theorem performs_restoreBase (b : Base) :
    Performs (program.linked (Codegen.restoreBase b).code) (StackMachine.restoreBase b) := by
  intro pc m a d
  have hmoved (x : Word) : (m.write frameCell x).read frameCell = x :=
    Memory.read_write_self m x (by decide)
  simp [Codegen.restoreBase, performAll, perform_compute, Dest.am, Dest.d, Dest.m, hmoved,
    StackMachine.restoreBase, map_eq_bind, Nat.add_assoc]

/-- The last jump goes to the address that has been noted. -/
theorem yields_jumpBack (pc : Nat) (m : Memory) :
    Yields (program.linked jumpBackCode) pc m (.ok ((m.read returnCell).toNat, m)) := by
  intro a d
  simp [jumpBackCode, performAll, perform_compute, perform_jump Comp.readsMemory_zero, Dest.a,
    Jump.taken, map_eq_bind]

/-- The code of a return takes the frame off the stack and goes to the return address. -/
theorem yields_return (pc : Nat) (m : Memory) :
    Yields (program.linked (Codegen.codeOf returnBatches)) pc m (do
      let m ← leaveCall m
      .ok ((m.read returnCell).toNat, m)) := by
  have hleave := (performs_noteFrame program).append
    ((performs_moveResult program).append
      ((performs_dropFrame program).append
        ((performs_restoreBase program .that).append
          ((performs_restoreBase program .this).append
            ((performs_restoreBase program .arguments).append
              (performs_restoreBase program .locals))))))
  have hyields := hleave.yields_append pc m
    fun m => yields_jumpBack program _ m
  simp only [← linked_append] at hyields
  have hcode : Codegen.codeOf returnBatches =
      noteFrameCode ++ (moveResultCode ++ (dropFrameCode ++ ((Codegen.restoreBase .that).code ++
        ((Codegen.restoreBase .this).code ++ ((Codegen.restoreBase .arguments).code ++
          (Codegen.restoreBase .locals).code))))) ++ jumpBackCode := by
    rfl
  rw [hcode]
  simpa only [leaveCall, bind_assoc, ok_bind] using hyields

theorem performs_bootstrap :
    Performs (program.linked bootstrapBatch.code)
      fun m => .ok (m.write stackPointer (.ofNat 16 stackBase)) := by
  intro pc m a d
  simp [bootstrapBatch, performAll, perform_compute, Dest.d, Dest.m, map_eq_bind, Nat.add_assoc]

end Codegen

end HackBackend
