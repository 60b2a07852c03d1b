import HackBackend.Proofs.Codegen.Simulation
import HackBackend.Proofs.StackMachine.Frame

/-!
# Moving a value and back

A value that is pushed and popped to where it comes from leaves the memory as it was. Only the cell
on top of the stack has changed, and the scratch cell where the segment has a base pointer. It does
not matter whether the place of the value is one of these cells, a register, or the base pointer
itself. What carries this is the order of the accesses: the address is computed before the stack
pointer is lowered, and the value is stored last.

All of this holds at every place of a built program, whatever the names of the units are: a push and
a pop of one static name it in the same way, so it is read as the same address.
-/

namespace HackBackend

open Asm Machine Vm StackMachine Text

namespace StackMachine

/-- A value has been pushed from an address and popped back. -/
structure Restored (segment : Segment) (m m' : Memory) (start address : Nat) : Prop where
  stack : sp m' = sp m
  pushed : m'.read start = m.read address
  kept : ∀ cell, cell ≠ start → (∀ b, segment = .based b → cell ≠ addressCell) →
    m'.read cell = m.read cell

/-- The topmost value is stored last, so it stays where it is moved to, be it the stack pointer. -/
theorem exists_popTo {m : Memory} {start : Nat} {address : Word}
    (hsp : sp m = .ofNat 16 (start + 1)) (hlow : stackPointer < start) (hhigh : start < ramSize)
    (hin : address.toNat < ramSize) :
    ∃ m', popTo address m = .ok m' ∧ m'.read address.toNat = m.read start ∧
      (stackPointer ≠ address.toNat → sp m' = .ofNat 16 start) ∧
      ∀ cell, cell ≠ address.toNat → cell ≠ stackPointer → m'.read cell = m.read cell := by
  refine ⟨(m.write stackPointer (.ofNat 16 start)).write address.toNat (m.read start), ?_, ?_, ?_,
    ?_⟩
  · rw [popTo, pop_eq hsp hhigh hlow, ok_bind]
    exact if_pos hin
  · exact Memory.read_write_self _ _ hin
  · intro hpointer
    rw [sp_write_of_ne _ (Ne.symm hpointer), sp_write_stackPointer]
  · intro cell hplace hpointer
    rw [Memory.read_write_of_ne _ _ (Ne.symm hplace),
      Memory.read_write_of_ne _ _ (Ne.symm hpointer)]

theorem exists_restored_of_popTo {segment : Segment} {m m₁ : Memory} {start : Nat} {address : Word}
    (hsp : sp m = .ofNat 16 start) (hsp₁ : sp m₁ = .ofNat 16 (start + 1))
    (hlow : stackPointer < start) (hhigh : start < ramSize) (hin : address.toNat < ramSize)
    (hpushed : m₁.read start = m.read address.toNat)
    (hkept : ∀ cell, cell ≠ stackPointer → cell ≠ start →
      (∀ b, segment = .based b → cell ≠ addressCell) → m₁.read cell = m.read cell) :
    ∃ m', popTo address m₁ = .ok m' ∧ Restored segment m m' start address.toNat := by
  obtain ⟨m', hm', hmoved, hstack, hother⟩ := exists_popTo hsp₁ hlow hhigh hin
  have hplace : m'.read address.toNat = m.read address.toNat := hmoved.trans hpushed
  have hrestored (cell : Nat) (hstart : cell ≠ start)
      (hscratch : ∀ b, segment = .based b → cell ≠ addressCell) :
      m'.read cell = m.read cell := by
    by_cases hcell : cell = address.toNat
    · rw [hcell, hplace]
    by_cases hpointer : cell = stackPointer
    · subst hpointer
      exact (hstack hcell).trans hsp.symm
    · rw [hother cell hcell hpointer, hkept cell hpointer hstart hscratch]
  refine ⟨m', hm', hrestored _ (Nat.ne_of_lt hlow) (fun _ _ => by decide), ?_, hrestored⟩
  by_cases hcell : start = address.toNat
  · rw [← hcell] at hplace ⊢
    exact hplace
  · rw [hother start hcell (Nat.ne_of_gt hlow), hpushed]

/-- Where the statics are makes no difference to the other segments. -/
theorem fetch_of_not_static {segment : Segment} (h : segment ≠ .static) (static static' : Nat → Nat)
    (offset : Nat) (m : Memory) :
    fetch static segment offset m = fetch static' segment offset m := by
  cases segment with
  | static => exact absurd rfl h
  | _ => rfl

/-- A push changes nothing that the address of a place depends on. -/
theorem address?_of_kept {static static' : Nat → Nat} {segment : Segment} {offset start : Nat}
    {m m' : Memory} (hlow : 16 ≤ start)
    (hkept : ∀ cell, cell ≠ stackPointer → cell ≠ start → m'.read cell = m.read cell)
    (hstatic : segment = .static → static' offset = static offset) :
    address? static' m' segment offset = address? static m segment offset := by
  cases segment with
  | based b => rw [address?, address?, base_eq_of_kept hlow hkept]
  | static => rw [address?, address?, hstatic rfl]
  | _ => rfl

/-- On a stack that is not in the registers a value is pushed and popped back. -/
theorem exists_restored {static static' : Nat → Nat} {segment : Segment} {offset start : Nat}
    {m : Memory} {address : Word} (hsp : sp m = .ofNat 16 start) (hlow : 16 ≤ start)
    (hhigh : start < ramSize) (haddress : address? static m segment offset = some address)
    (hin : address.toNat < ramSize)
    (hstatic : segment = .static → static' offset = static offset) :
    ∃ m₁ m₂, (fetch static segment offset m >>= (push · m)) = .ok m₁ ∧
      moveTop static' segment offset m₁ = .ok m₂ ∧
      Restored segment m m₂ start address.toNat := by
  obtain ⟨m₁, hpush, hsp₁, hpushed, hkept⟩ := exists_push hsp hlow hhigh (m.read address.toNat)
  have hfetch : fetch static segment offset m = .ok (m.read address.toNat) := by
    rw [fetch, haddress]
    exact if_pos hin
  have hlow' : stackPointer < start := Nat.lt_of_lt_of_le (by decide) hlow
  have haddress₁ : address? static' m₁ segment offset = some address :=
    (address?_of_kept hlow hkept hstatic).trans haddress
  refine ⟨m₁, ?_⟩
  rw [hfetch, ok_bind, hpush]
  by_cases hbased : ∃ b, segment = .based b
  · -- The address is kept in its scratch cell, below the stack, before the value is popped.
    obtain ⟨b, rfl⟩ := hbased
    obtain rfl : base m₁ b + .ofNat 16 offset = address := Option.some.inj haddress₁
    have hother (cell : Nat) (hcell : cell ≠ addressCell) (value : Word) :
        (m₁.write addressCell value).read cell = m₁.read cell :=
      Memory.read_write_of_ne _ _ (Ne.symm hcell)
    have hstart : start ≠ addressCell := by
      have hnamed := addressCell_lt
      simp only [Memory.namedCells] at hnamed
      omega
    obtain ⟨m₂, hm₂, hrestored⟩ := @exists_restored_of_popTo (.based b) _ _ _ _ hsp
      ((hother stackPointer (by decide) (base m₁ b + .ofNat 16 offset)).trans hsp₁) hlow' hhigh hin
      ((hother start hstart _).trans hpushed) fun cell hpointer hcell hscratch =>
        (hother cell (hscratch b rfl) _).trans (hkept cell hpointer hcell)
    exact ⟨m₂, rfl, hm₂, hrestored⟩
  · obtain ⟨m₂, hm₂, hrestored⟩ := exists_restored_of_popTo hsp hsp₁ hlow' hhigh hin hpushed
      fun cell hpointer hcell _ => hkept cell hpointer hcell
    rw [moveTop_of_address? (not_exists.mp hbased) haddress₁]
    exact ⟨m₂, rfl, hm₂, hrestored⟩

end StackMachine

namespace Codegen

open Program

theorem le_of_resolve_constant {unit : String} {segment : Segment} {offset value : Nat}
    (h : segment.resolve unit offset = .ok (.constant value)) :
    segment = .constant ∧ offset = value ∧ value ≤ maxLiteral := by
  obtain ⟨hlimit, haccess⟩ := Segment.resolve_eq_ok_iff.mp h
  cases segment with
  | constant =>
      obtain rfl := Access.constant.inj haccess
      exact ⟨rfl, rfl, hlimit _ rfl⟩
  | _ => cases haccess

/-- However the name of a unit is read, the symbol of a place is read as its address. -/
theorem address?_of_read {unit : String} {segment : Segment} {offset : Nat} {name : String}
    (h : segment.resolve unit offset = .ok (.direct name)) (program : Program) (m : Memory) :
    address? (fun i => program.cellOf (Segment.staticSymbol unit i)) m segment offset =
      some (.ofNat 16 (program.cellOf name)) := by
  obtain ⟨-, haccess⟩ := Segment.resolve_eq_ok_iff.mp h
  have haddress := address_resolve program h m
  cases segment with
  | constant => cases haccess
  | based b => cases haccess
  | static =>
      obtain rfl := Access.direct.inj haccess
      rfl
  | pointer =>
      obtain rfl := Access.direct.inj haccess
      have hname : isSymbol (if offset = 0 then "THIS" else "THAT").toList := by
        split <;> decide
      rw [cellOf_of_isSymbol hname]
      exact haddress
  | temp =>
      obtain rfl := Access.direct.inj haccess
      have hname : isSymbol ("R" ++ toString (Segment.tempBase + offset)).toList :=
        isSymbol_toString_append (by decide) all_isSymbolChar_toString
      rw [cellOf_of_isSymbol hname]
      exact haddress

/-- Code that pushes what a place holds does so however the name of the unit is read. -/
theorem performs_reread_push {unit : String} {segment : Segment} {offset : Nat} {place : Access}
    (h : segment.resolve unit offset = .ok place)
    (hread : ∀ line ∈ pushCode place, (lineOf? line.text).isSome) (program : Program) :
    (program.linked (reread (pushCode place))).dropLast.all Cpu.fallsThrough ∧
      Performs (program.linked (reread (pushCode place))) fun m =>
        fetch (fun i => program.cellOf (Segment.staticSymbol unit i)) segment offset m >>=
          (push · m) := by
  have hplain (hstatic : segment ≠ .static) (m : Memory) :
      (fetch (fun i => program.cellOf (Segment.staticSymbol unit i)) segment offset m >>=
          (push · m)) =
        fetch (fun i => program.address (Segment.staticSymbol unit i)) segment offset m >>=
          (push · m) :=
    congrArg (· >>= (push · m)) (fetch_of_not_static hstatic _ _ offset m)
  cases place with
  | constant value =>
      obtain ⟨rfl, rfl, hvalue⟩ := le_of_resolve_constant h
      rw [reread_eq_self (by simp [pushCode, loadD, pushD, incrementSp, hvalue]),
        funext (hplain (by decide))]
      exact ⟨rfl, performs_push program h⟩
  | indirect b value =>
      have hvalue := le_of_resolve_indirect h
      obtain ⟨-, haccess⟩ := Segment.resolve_eq_ok_iff.mp h
      cases segment with
      | based base =>
        rw [reread_eq_self (by simp [pushCode, loadD, pushD, incrementSp, hvalue]),
          funext (hplain (by simp))]
        exact ⟨rfl, performs_push program h⟩
      | _ => cases haccess
  | direct name =>
      obtain ⟨address, hline, hoperand⟩ :=
        exists_lineOf?_symbol (hread (.symbol name) (List.mem_cons_self ..)) program
      have hcode : reread (pushCode (.direct name)) =
          [.instruction (.load address), .store .d (.copy .m)] ++ pushD := by
        have hrest : ∀ line ∈ Line.store .d (.copy .m) :: pushD, line.Readable := by
          simp [pushD, incrementSp]
        exact (reread_cons hline _).trans (congrArg _ (reread_eq_self hrest))
      have hfetch (m : Memory) :
          fetch (fun i => program.cellOf (Segment.staticSymbol unit i)) segment offset m =
            m.load (.ofNat 16 (program.operand address)) := by
        rw [fetch, address?_of_read h, hoperand]
      simp only [hcode, hfetch]
      exact ⟨rfl, performs_pushDirect program address⟩

/-- Code that pops to a place, however the name of the unit is read. -/
theorem performs_reread_pop {unit : String} {segment : Segment} {offset : Nat} {place : Access}
    {code : List Line} (h : segment.resolve unit offset = .ok place)
    (hcode : popCode place = .ok code) (hread : ∀ line ∈ code, (lineOf? line.text).isSome)
    (program : Program) :
    (program.linked (reread code)).dropLast.all Cpu.fallsThrough ∧
      Performs (program.linked (reread code))
        (moveTop (fun i => program.cellOf (Segment.staticSymbol unit i)) segment offset) := by
  have haccess := (Segment.resolve_eq_ok_iff.mp h).2
  cases place with
  | constant value => cases hcode
  | indirect b value =>
      have hvalue := le_of_resolve_indirect h
      cases segment with
      | based base =>
          have hperforms := performs_pop program h hcode
          obtain rfl := Except.ok.inj hcode
          rw [reread_eq_self (by simp [popD, hvalue])]
          exact ⟨rfl, hperforms⟩
      | _ => cases haccess
  | direct name =>
      obtain rfl := Except.ok.inj hcode
      obtain ⟨address, hline, hoperand⟩ := exists_lineOf?_symbol
        (hread (.symbol name) (List.mem_append_right _ (List.mem_cons_self ..))) program
      have hcode : reread (popD ++ [.symbol name, .store .m (.copy .d)]) =
          popD ++ [.instruction (.load address), .store .m (.copy .d)] := by
        rw [reread_append, reread_eq_self readable_popD, reread_cons hline]
        rfl
      have hsegment (b : Base) : segment ≠ .based b := by
        rintro rfl
        cases haccess
      have hmove (m : Memory) :
          moveTop (fun i => program.cellOf (Segment.staticSymbol unit i)) segment offset m =
            popTo (.ofNat 16 (program.operand address)) m := by
        rw [moveTop_of_address? hsegment (address?_of_read h program m), hoperand]
      rw [hcode, funext hmove]
      exact ⟨rfl, performs_popDirect program address⟩

/-- Code that can be read and does not jump carries out its effect where it stands. -/
theorem runs_of_reread {options : Options} {code : List Placed} {program : Program}
    {position : Nat} {c : Placed} (hc : code[position]? = some c) {row : List Line}
    (hstands : Stands program (entry options code position) (reread row))
    (hread : ∀ line ∈ row, (lineOf? line.text).isSome)
    (hsize : row.countP Line.isInstruction = c.op.size) {f : Memory → Except Fault Memory}
    (hrow : (program.linked (reread row)).dropLast.all Cpu.fallsThrough ∧
      Performs (program.linked (reread row)) f) (m : Memory) :
    Runs program c.op.size (entry options code position) m (do
      let m ← f m
      .ok (entry options code (position + 1), m)) := by
  have hcount : (reread row).countP Line.isInstruction = c.op.size := by
    rw [← length_instructionsOf, length_instructionsOf_reread hread, hsize]
  exact runs_of_performs hc hstands.1 hcount hrow.1 hrow.2 m

theorem Built.runs_push {options : Options} {code : List Placed} {program : Program}
    (h : Built options code program) {position : Nat} {c : Placed} (hc : code[position]? = some c)
    {segment : Segment} {offset : Nat} (hop : c.op = .push segment offset) (m : Memory) :
    Runs program c.op.size (entry options code position) m (do
      let m ← fetch (fun i => program.cellOf (Segment.staticSymbol c.unit i)) segment offset m >>=
        (push · m)
      .ok (entry options code (position + 1), m)) := by
  obtain ⟨batches, hlower, hread, hstands⟩ := h.stands_reread hc
  have hsize := countP_of_lower hlower
  rw [hop] at hlower
  obtain ⟨place, hplace, rfl⟩ := lower_push_eq_ok_iff.mp hlower
  rw [codeOf_single] at hread hstands hsize
  exact runs_of_reread hc hstands hread hsize (performs_reread_push hplace hread program) m

theorem Built.runs_pop {options : Options} {code : List Placed} {program : Program}
    (h : Built options code program) {position : Nat} {c : Placed} (hc : code[position]? = some c)
    {segment : Segment} {offset : Nat} (hop : c.op = .pop segment offset) (m : Memory) :
    Runs program c.op.size (entry options code position) m (do
      let m ← moveTop (fun i => program.cellOf (Segment.staticSymbol c.unit i)) segment offset m
      .ok (entry options code (position + 1), m)) := by
  obtain ⟨batches, hlower, hread, hstands⟩ := h.stands_reread hc
  have hsize := countP_of_lower hlower
  rw [hop] at hlower
  obtain ⟨place, hplace, row, hrow, rfl⟩ := lower_pop_eq_ok_iff.mp hlower
  rw [codeOf_single] at hread hstands hsize
  exact runs_of_reread hc hstands hread hsize (performs_reread_pop hplace hrow hread program) m

/-- Everywhere in a built program a push and a pop of the same place restore the stack and the
memory, and control goes on behind them. Only the cell on top of the stack, which holds the pushed
value, and the scratch cell of an indirect store have changed. The same segment and offset name the
same place, but for a static at the end of a unit and the beginning of the next one. -/
theorem push_pop_of_build {options : Options} {units : List (String × Text.Source)}
    {program : Program} (hbuild : build options units = .ok program) {position : Nat}
    {c d : Placed} (hc : (codeOfUnits units)[position]? = some c)
    (hd : (codeOfUnits units)[position + 1]? = some d) {segment : Segment} {offset : Nat}
    (hpush : c.op = .push segment offset) (hpop : d.op = .pop segment offset)
    (hplace : segment = .static → program.cellOf (Segment.staticSymbol d.unit offset) =
      program.cellOf (Segment.staticSymbol c.unit offset))
    {cpu : Cpu} (hpc : cpu.pc = entry options (codeOfUnits units) position) {start : Nat}
    (hsp : sp cpu.memory = .ofNat 16 start) (hlow : 16 ≤ start) (hhigh : start < ramSize)
    {address : Word}
    (haddress : address? (fun i => program.cellOf (Segment.staticSymbol c.unit i)) cpu.memory
      segment offset = some address)
    (hin : address.toNat < ramSize) :
    ∃ after, Cpu.steps program (c.op.size + d.op.size) cpu = .ok after ∧
      after.pc = entry options (codeOfUnits units) (position + 2) ∧
      Restored segment cpu.memory after.memory start address.toNat := by
  have hbuilt := built_of_build hbuild
  obtain ⟨m₁, m₂, hm₁, hm₂, hrestored⟩ :=
    @exists_restored _ (fun i => program.cellOf (Segment.staticSymbol d.unit i)) _ _ _ _ _
      hsp hlow hhigh haddress hin hplace
  have hfirst := hbuilt.runs_push hc hpush cpu.memory
  have hlast := hbuilt.runs_pop hd hpop m₁
  rw [hm₁, ok_bind, ← hpc] at hfirst
  rw [hm₂, ok_bind] at hlast
  obtain ⟨after, hsteps, hafter, rfl⟩ := (hfirst.trans hlast).exists_steps
  exact ⟨after, hsteps, hafter, hrestored⟩

/-- A unit that pushes and pops the first cell of `that`. -/
def thatAndBack : List (String × Text.Source) := [("Main", .ofString "push that 0\npop that 0")]

theorem codeOfUnits_thatAndBack :
    codeOfUnits thatAndBack =
      [⟨"Main", none, .push (.based .that) 0⟩, ⟨"Main", none, .pop (.based .that) 0⟩] := by
  decide +kernel

/-- A memory with an empty stack, in which `that` begins at the stack pointer. -/
def thatAtStackPointer : Memory :=
  Memory.zero.write stackPointer (.ofNat 16 256)

theorem thatAtStackPointer_spec :
    sp thatAtStackPointer = .ofNat 16 256 ∧ base thatAtStackPointer .that = 0 :=
  ⟨sp_write_stackPointer _ _, Memory.read_write_of_ne _ _ (by decide)⟩

/-- The stack pointer itself is pushed and popped back. -/
theorem push_pop_of_build_stackPointer :
    ∃ program, build {} thatAndBack = .ok program ∧
      ∃ after, Cpu.steps program 22 ⟨⟨0, 0, 0⟩, thatAtStackPointer⟩ = .ok after ∧
        after.pc = entry {} (codeOfUnits thatAndBack) 2 ∧
        sp after.memory = .ofNat 16 256 ∧ after.memory.read 256 = .ofNat 16 256 := by
  obtain ⟨program, hbuild⟩ := @exists_build_of_layout? {} thatAndBack _ (by decide)
    (by decide +kernel) codeOfUnits_thatAndBack (by decide +kernel)
  have hc : (codeOfUnits thatAndBack)[0]? = some ⟨"Main", none, .push (.based .that) 0⟩ := by
    rw [codeOfUnits_thatAndBack]
    rfl
  have hd : (codeOfUnits thatAndBack)[0 + 1]? = some ⟨"Main", none, .pop (.based .that) 0⟩ := by
    rw [codeOfUnits_thatAndBack]
    rfl
  obtain ⟨hsp, hbase⟩ := thatAtStackPointer_spec
  have haddress : address? (fun i => program.cellOf (Segment.staticSymbol "Main" i))
      thatAtStackPointer (.based .that) 0 = some 0 := by
    rw [address?, hbase]
    rfl
  obtain ⟨after, hsteps, hpc, hrestored⟩ := push_pop_of_build hbuild hc hd rfl rfl
    (by rintro ⟨⟩) (show (⟨⟨0, 0, 0⟩, thatAtStackPointer⟩ : Cpu).pc = _ from rfl) hsp
    (by decide) (by decide) haddress (by decide)
  exact ⟨program, hbuild, after, hsteps, hpc, hrestored.stack.trans hsp,
    hrestored.pushed.trans hsp⟩

end Codegen

end HackBackend
