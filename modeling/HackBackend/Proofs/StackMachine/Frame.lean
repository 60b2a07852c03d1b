import HackBackend.Proofs.StackMachine.Effect

/-!
# The frame of a call

A call puts the return address and the four base pointers on top of the stack, above the
arguments, and a return finds them there. Where the stack has room for the frame and lies above
the registers, both are the plain changes to the memory that one expects, and no other cell is
affected.
-/

namespace HackBackend.StackMachine

open Machine Vm

/-- The words of the frame that starts at an address. -/
structure HasFrame (m : Memory) (start : Nat) (returnAddress : Word) (bases : Base → Word) :
    Prop where
  returnAddress : m.read start = returnAddress
  locals : m.read (start + 1) = bases .locals
  arguments : m.read (start + 2) = bases .arguments
  this : m.read (start + 3) = bases .this
  that : m.read (start + 4) = bases .that

/-! ### The top of the stack -/

section

variable {m : Memory} {height : Nat} (hsp : sp m = .ofNat 16 (height + 1))
variable (hhigh : height < ramSize)

include hsp

theorem sp_sub_one : sp m - 1 = .ofNat 16 height := by
  rw [hsp]
  exact ofNat_add_sub height 1

include hhigh

theorem top_eq : top m = .ok (m.read height) := by
  rw [top, sp_sub_one hsp, Memory.load_of_lt m hhigh]

theorem setTop_eq (value : Word) : setTop value m = .ok (m.write height value) := by
  rw [setTop, sp_sub_one hsp, Memory.store_of_lt m hhigh]

theorem pop_eq (hlow : stackPointer < height) :
    pop m = .ok (m.read height, m.write stackPointer (.ofNat 16 height)) := by
  rw [pop, sp_sub_one hsp, sp, read_write_stackPointer, Memory.load_of_lt _ hhigh, ok_bind,
    Memory.read_write_of_ne m _ (Nat.ne_of_lt hlow)]

end

/-- Where the stack has room, a value is put on top of it and nothing else changes. -/
theorem exists_push {m : Memory} {start : Nat} (hsp : sp m = .ofNat 16 start)
    (hlow : 16 ≤ start) (hhigh : start < ramSize) (value : Word) :
    ∃ m', push value m = .ok m' ∧ sp m' = .ofNat 16 (start + 1) ∧ m'.read start = value ∧
      ∀ cell, cell ≠ 0 → cell ≠ start → m'.read cell = m.read cell := by
  have hkept : sp (m.write start value) = sp m :=
    sp_write_of_ne m (by simp only [stackPointer]; omega) value
  refine ⟨(m.write start value).write stackPointer (.ofNat 16 (start + 1)), ?_, ?_, ?_, ?_⟩
  · rw [push, hsp, Memory.store_of_lt m hhigh, ok_bind, hkept, hsp, BitVec.ofNat_add]
    rfl
  · exact sp_write_stackPointer _ _
  · rw [Memory.read_write_of_ne _ _ (by simp only [stackPointer]; omega),
      Memory.read_write_self m value hhigh]
  · intro cell hzero hstart
    have hother := Memory.read_write_of_ne m value (Ne.symm hstart)
    exact (Memory.read_write_of_ne _ _ (Ne.symm hzero)).trans hother

theorem base_eq_of_kept {m m' : Memory} {start : Nat} (hlow : 16 ≤ start)
    (hsame : ∀ cell, cell ≠ 0 → cell ≠ start → m'.read cell = m.read cell) (b : Base) :
    base m' b = base m b := by
  have hzero : baseCell b ≠ 0 := by cases b <;> decide
  have hcell : baseCell b < 16 := baseCell_lt b
  exact hsame (baseCell b) hzero (by omega)

/-- The base pointers are put on the stack one after another. -/
theorem exists_saveBases {m : Memory} {start : Nat} (hsp : sp m = .ofNat 16 start)
    (hlow : 16 ≤ start) (hhigh : start + 4 ≤ ramSize) :
    ∃ m₁ m₂ m₃ m₄, saveBase .locals m = .ok m₁ ∧ saveBase .arguments m₁ = .ok m₂ ∧
      saveBase .this m₂ = .ok m₃ ∧ saveBase .that m₃ = .ok m₄ ∧
      sp m₄ = .ofNat 16 (start + 4) ∧ m₄.read start = base m .locals ∧
      m₄.read (start + 1) = base m .arguments ∧ m₄.read (start + 2) = base m .this ∧
      m₄.read (start + 3) = base m .that ∧
      ∀ cell, cell ≠ 0 → (cell < start ∨ start + 4 ≤ cell) → m₄.read cell = m.read cell := by
  obtain ⟨m₁, hm₁, hsp₁, htop₁, hsame₁⟩ := exists_push hsp hlow (by omega) (base m .locals)
  obtain ⟨m₂, hm₂, hsp₂, htop₂, hsame₂⟩ :=
    exists_push hsp₁ (by omega) (by omega) (base m₁ .arguments)
  obtain ⟨m₃, hm₃, hsp₃, htop₃, hsame₃⟩ :=
    exists_push hsp₂ (by omega) (by omega) (base m₂ .this)
  obtain ⟨m₄, hm₄, hsp₄, htop₄, hsame₄⟩ :=
    exists_push hsp₃ (by omega) (by omega) (base m₃ .that)
  have hbase₁ := base_eq_of_kept hlow hsame₁
  have hbase₂ := base_eq_of_kept (by omega) hsame₂
  have hbase₃ := base_eq_of_kept (by omega) hsame₃
  refine ⟨m₁, m₂, m₃, m₄, hm₁, hm₂, hm₃, hm₄, hsp₄, ?_, ?_, ?_, ?_, ?_⟩
  · calc
      m₄.read start = m₃.read start := hsame₄ _ (by omega) (by omega)
      _ = m₂.read start := hsame₃ _ (by omega) (by omega)
      _ = m₁.read start := hsame₂ _ (by omega) (by omega)
      _ = base m .locals := htop₁
  · calc
      m₄.read (start + 1) = m₃.read (start + 1) := hsame₄ _ (by omega) (by omega)
      _ = m₂.read (start + 1) := hsame₃ _ (by omega) (by omega)
      _ = base m₁ .arguments := htop₂
      _ = base m .arguments := hbase₁ .arguments
  · calc
      m₄.read (start + 2) = m₃.read (start + 2) := hsame₄ _ (by omega) (by omega)
      _ = base m₂ .this := htop₃
      _ = base m₁ .this := hbase₂ .this
      _ = base m .this := hbase₁ .this
  · calc
      m₄.read (start + 3) = base m₃ .that := htop₄
      _ = base m₂ .that := hbase₃ .that
      _ = base m₁ .that := hbase₂ .that
      _ = base m .that := hbase₁ .that
  · intro cell hzero hout
    calc
      m₄.read cell = m₃.read cell := hsame₄ _ hzero (by omega)
      _ = m₂.read cell := hsame₃ _ hzero (by omega)
      _ = m₁.read cell := hsame₂ _ hzero (by omega)
      _ = m.read cell := hsame₁ _ hzero (by omega)

/-- A frame is put on the stack, and of all other cells only three registers change. -/
theorem exists_enterCall {m : Memory} {start : Nat} (hsp : sp m = .ofNat 16 start)
    (hlow : 16 ≤ start) (hhigh : start + savedWords ≤ ramSize) (returnAddress args : Nat) :
    ∃ m', enterCall returnAddress args m = .ok m' ∧
      HasFrame m' start (.ofNat 16 returnAddress) (base m) ∧
      base m' .arguments = .ofNat 16 (start + savedWords) - .ofNat 16 (args + savedWords) ∧
      base m' .locals = .ofNat 16 (start + savedWords) ∧
      sp m' = .ofNat 16 (start + savedWords) ∧
      ∀ cell, 2 < cell → (cell < start ∨ start + savedWords ≤ cell) →
        m'.read cell = m.read cell := by
  have hroom : start + 5 ≤ ramSize := hhigh
  obtain ⟨m₁, hm₁, hsp₁, htop₁, hsame₁⟩ :=
    exists_push hsp hlow (by omega) (.ofNat 16 returnAddress)
  obtain ⟨m₂, m₃, m₄, m₅, hm₂, hm₃, hm₄, hm₅, hsp₅, hlocals, harguments, hthis, hthat, hsame₅⟩ :=
    exists_saveBases hsp₁ (by omega) (by omega)
  have hbase := base_eq_of_kept hlow hsame₁
  have hwrite (x y : Word) (cell : Nat) (hcell : 2 < cell ∨ cell = 0) :
      ((m₅.write (baseCell .arguments) x).write (baseCell .locals) y).read cell = m₅.read cell := by
    rw [Memory.read_write_of_ne _ _ (by simp only [baseCell]; omega),
      Memory.read_write_of_ne _ _ (by simp only [baseCell]; omega)]
  have hword (x y : Word) (i : Nat) : ((m₅.write (baseCell .arguments) x).write
      (baseCell .locals) y).read (start + i) = m₅.read (start + i) :=
    hwrite x y _ (.inl (by omega))
  refine ⟨(m₅.write (baseCell .arguments) (sp m₅ - .ofNat 16 (args + savedWords))).write
    (baseCell .locals) (sp m₅), ?_, ⟨?_, ?_, ?_, ?_, ?_⟩, ?_, ?_, ?_, ?_⟩
  · have hkept : sp (m₅.write (baseCell .arguments) (sp m₅ - .ofNat 16 (args + savedWords))) =
        sp m₅ := Memory.read_write_of_ne _ _ (by decide)
    simp only [enterCall, hm₁, hm₂, hm₃, hm₄, hm₅, ok_bind, hkept]
  · exact (hword _ _ 0).trans ((hsame₅ _ (by omega) (by omega)).trans htop₁)
  · exact (hword _ _ 1).trans (hlocals.trans (hbase .locals))
  · exact (hword _ _ 2).trans (harguments.trans (hbase .arguments))
  · exact (hword _ _ 3).trans (hthis.trans (hbase .this))
  · exact (hword _ _ 4).trans (hthat.trans (hbase .that))
  · rw [base, Memory.read_write_of_ne _ _ (by decide), Memory.read_write_self _ _ (by decide), hsp₅]
    rfl
  · rw [base, Memory.read_write_self _ _ (by decide), hsp₅]
    rfl
  · exact (hwrite _ _ _ (.inr rfl)).trans hsp₅
  · intro cell hcell hout
    simp only [savedWords] at hout
    calc
      _ = m₅.read cell := hwrite _ _ _ (.inl hcell)
      _ = m₁.read cell := hsame₅ _ (by omega) (by omega)
      _ = m.read cell := hsame₁ _ (by omega) (by omega)

/-- A number of cells from an address on are cleared, and no others are changed. -/
theorem exists_clear {first count : Nat} (h : first + count ≤ ramSize) (m : Memory) :
    ∃ m', clear (.ofNat 16 first) count m = .ok m' ∧
      (∀ i < count, m'.read (first + i) = 0) ∧
      ∀ cell, (cell < first ∨ first + count ≤ cell) → m'.read cell = m.read cell := by
  induction count generalizing first m with
  | zero => exact ⟨m, rfl, by omega, fun _ _ => rfl⟩
  | succ count ih =>
      obtain ⟨m', hm', hzeros, hsame⟩ :=
        @ih (first + 1) (by omega) (m.write first 0)
      refine ⟨m', ?_, ?_, ?_⟩
      · rw [clear, Memory.store_of_lt m (by omega), ok_bind, ← hm', BitVec.ofNat_add]
        rfl
      · intro i hi
        cases i with
        | zero =>
            rw [Nat.add_zero, hsame first (.inl (Nat.lt_succ_self first)),
              Memory.read_write_self m 0 (by omega)]
        | succ i =>
            rw [← hzeros i (by omega)]
            congr 1
            omega
      · intro cell hcell
        rw [hsame cell (by omega), Memory.read_write_of_ne m 0 (by omega)]

/-- The locals of a function are put on the stack as zeros. -/
theorem exists_enterFunction {m : Memory} {first : Nat} (hsp : sp m = .ofNat 16 first)
    (hlow : 16 ≤ first) {locals : Nat} (hhigh : first + locals ≤ ramSize) :
    ∃ m', enterFunction locals m = .ok m' ∧ sp m' = .ofNat 16 (first + locals) ∧
      (∀ i < locals, m'.read (first + i) = 0) ∧
      ∀ cell, cell ≠ 0 → (cell < first ∨ first + locals ≤ cell) →
        m'.read cell = m.read cell := by
  obtain ⟨m', hm', hzeros, hsame⟩ := exists_clear hhigh m
  have hother (cell : Nat) (hcell : cell ≠ 0) (value : Word) :
      (m'.write stackPointer value).read cell = m'.read cell :=
    Memory.read_write_of_ne m' value (Ne.symm hcell)
  refine ⟨m'.write stackPointer (sp m + .ofNat 16 locals), ?_, ?_, ?_, ?_⟩
  · rw [← hsp] at hm'
    rw [enterFunction, hm', ok_bind]
  · rw [hsp, ← BitVec.ofNat_add]
    exact Memory.read_write_self _ _ (by decide)
  · intro i hi
    rw [hother _ (by omega), hzeros i hi]
  · intro cell hcell hout
    rw [hother cell hcell, hsame cell hout]

/-- The base pointers are taken from the frame one after another, from its upper end on. -/
theorem exists_restoreBase {m : Memory} {frame : Nat}
    (hframe : m.read frameCell = .ofNat 16 (frame + 1)) (hhigh : frame < ramSize)
    (hlow : 16 ≤ frame) (b : Base) :
    ∃ m', restoreBase b m = .ok m' ∧ m'.read frameCell = .ofNat 16 frame ∧
      base m' b = m.read frame ∧
      ∀ cell, cell ≠ frameCell → cell ≠ baseCell b → m'.read cell = m.read cell := by
  have hmoved (x : Word) : (m.write frameCell x).read frameCell = x :=
    Memory.read_write_self m x (by decide)
  have hless : BitVec.ofNat 16 (frame + 1) - 1 = BitVec.ofNat 16 frame := ofNat_add_sub frame 1
  have hne : frameCell ≠ baseCell b := by cases b <;> decide
  refine ⟨(m.write frameCell (.ofNat 16 frame)).write (baseCell b) (m.read frame), ?_, ?_, ?_, ?_⟩
  · rw [restoreBase, hframe, hless]
    simp only [hmoved]
    rw [Memory.load_of_lt _ hhigh, ok_bind,
      Memory.read_write_of_ne m _ (by simp only [frameCell]; omega)]
  · rw [Memory.read_write_of_ne _ _ hne.symm, hmoved]
  · exact Memory.read_write_self _ _ (Memory.lt_ramSize_of_named (baseCell_lt b))
  · intro cell hframeCell hbase
    rw [Memory.read_write_of_ne _ _ (Ne.symm hbase),
      Memory.read_write_of_ne _ _ (Ne.symm hframeCell)]

/-- The frame and the return address are noted in two cells, and nothing else changes. -/
theorem exists_noteFrame {m : Memory} {start : Nat}
    (hlocals : base m .locals = .ofNat 16 (start + savedWords))
    (hlow : 16 ≤ start) (hhigh : start + savedWords ≤ ramSize) :
    ∃ m', noteFrame m = .ok m' ∧ m'.read frameCell = .ofNat 16 (start + savedWords) ∧
      m'.read returnCell = m.read start ∧
      ∀ cell, cell ≠ frameCell → cell ≠ returnCell → m'.read cell = m.read cell := by
  have hless : BitVec.ofNat 16 (start + savedWords) - BitVec.ofNat 16 savedWords =
      BitVec.ofNat 16 start := ofNat_add_sub start savedWords
  have hstart : (m.write frameCell (.ofNat 16 (start + savedWords))).read start = m.read start :=
    Memory.read_write_of_ne m _ (by simp only [frameCell]; omega)
  refine ⟨(m.write frameCell (.ofNat 16 (start + savedWords))).write returnCell (m.read start),
    ?_, ?_, ?_, ?_⟩
  · rw [noteFrame, hlocals, hless, Memory.load_of_lt _ (by simp only [savedWords] at hhigh; omega),
      ok_bind, hstart]
  · rw [Memory.read_write_of_ne _ _ (by decide), Memory.read_write_self _ _ (by decide)]
  · exact Memory.read_write_self _ _ (by decide)
  · intro cell hframe hreturn
    rw [Memory.read_write_of_ne _ _ (Ne.symm hreturn),
      Memory.read_write_of_ne _ _ (Ne.symm hframe)]

/-- The base pointers are taken from a frame, and of all other cells only that of the frame
changes. -/
theorem exists_restoreBases {m : Memory} {start : Nat}
    (hframe : m.read frameCell = .ofNat 16 (start + 4 + 1)) (hlow : 16 ≤ start)
    (hhigh : start + 5 ≤ ramSize) :
    ∃ m₁ m₂ m₃ m₄, restoreBase .that m = .ok m₁ ∧ restoreBase .this m₁ = .ok m₂ ∧
      restoreBase .arguments m₂ = .ok m₃ ∧ restoreBase .locals m₃ = .ok m₄ ∧
      base m₄ .locals = m.read (start + 1) ∧ base m₄ .arguments = m.read (start + 2) ∧
      base m₄ .this = m.read (start + 3) ∧ base m₄ .that = m.read (start + 4) ∧
      ∀ cell, (cell = 0 ∨ 4 < cell) → cell ≠ frameCell → m₄.read cell = m.read cell := by
  obtain ⟨m₁, hm₁, hframe₁, hthat₁, hsame₁⟩ :=
    exists_restoreBase hframe (by omega) (by omega) .that
  obtain ⟨m₂, hm₂, hframe₂, hthis₂, hsame₂⟩ :=
    @exists_restoreBase _ (start + 3) hframe₁ (by omega) (by omega) .this
  obtain ⟨m₃, hm₃, hframe₃, harguments₃, hsame₃⟩ :=
    @exists_restoreBase _ (start + 2) hframe₂ (by omega) (by omega) .arguments
  obtain ⟨m₄, hm₄, -, hlocals₄, hsame₄⟩ :=
    @exists_restoreBase _ (start + 1) hframe₃ (by omega) (by omega) .locals
  have hnotFrame (i : Nat) : start + i ≠ frameCell := by
    simp only [frameCell]
    omega
  have hnotBase (i : Nat) (b : Base) : start + i ≠ baseCell b := by
    have hcell : baseCell b < 16 := baseCell_lt b
    omega
  refine ⟨m₁, m₂, m₃, m₄, hm₁, hm₂, hm₃, hm₄, ?_, ?_, ?_, ?_, ?_⟩
  · calc
      base m₄ .locals = m₃.read (start + 1) := hlocals₄
      _ = m₂.read (start + 1) := hsame₃ _ (hnotFrame 1) (hnotBase 1 _)
      _ = m₁.read (start + 1) := hsame₂ _ (hnotFrame 1) (hnotBase 1 _)
      _ = m.read (start + 1) := hsame₁ _ (hnotFrame 1) (hnotBase 1 _)
  · calc
      base m₄ .arguments = base m₃ .arguments := hsame₄ _ (by decide) (by decide)
      _ = m₂.read (start + 2) := harguments₃
      _ = m₁.read (start + 2) := hsame₂ _ (hnotFrame 2) (hnotBase 2 _)
      _ = m.read (start + 2) := hsame₁ _ (hnotFrame 2) (hnotBase 2 _)
  · calc
      base m₄ .this = base m₃ .this := hsame₄ _ (by decide) (by decide)
      _ = base m₂ .this := hsame₃ _ (by decide) (by decide)
      _ = m₁.read (start + 3) := hthis₂
      _ = m.read (start + 3) := hsame₁ _ (hnotFrame 3) (hnotBase 3 _)
  · calc
      base m₄ .that = base m₃ .that := hsame₄ _ (by decide) (by decide)
      _ = base m₂ .that := hsame₃ _ (by decide) (by decide)
      _ = base m₁ .that := hsame₂ _ (by decide) (by decide)
      _ = m.read (start + 4) := hthat₁
  · intro cell hcell hother
    have hnot (b : Base) : cell ≠ baseCell b := by
      cases b <;> simp only [baseCell] <;> omega
    calc
      m₄.read cell = m₃.read cell := hsame₄ _ hother (hnot _)
      _ = m₂.read cell := hsame₃ _ hother (hnot _)
      _ = m₁.read cell := hsame₂ _ hother (hnot _)
      _ = m.read cell := hsame₁ _ hother (hnot _)

/-- The result of a call is put in the place of the first argument, and everything above it is
taken off the stack. -/
theorem exists_dropFrame {m : Memory} {start args : Nat}
    (harguments : base m .arguments = .ofNat 16 (start - args)) (hlow : args + 16 ≤ start)
    (hhigh : start < ramSize) (result : Word) :
    ∃ m', m.store (base m .arguments) result = .ok m' ∧
      sp (m'.write stackPointer (base m' .arguments + 1)) = .ofNat 16 (start - args + 1) ∧
      (m'.write stackPointer (base m' .arguments + 1)).read (start - args) = result ∧
      ∀ cell, cell ≠ 0 → cell ≠ start - args →
        (m'.write stackPointer (base m' .arguments + 1)).read cell = m.read cell := by
  have hsame (cell : Nat) (hcell : cell ≠ start - args) :
      (m.write (start - args) result).read cell = m.read cell :=
    Memory.read_write_of_ne _ _ (Ne.symm hcell)
  have hkept : base (m.write (start - args) result) .arguments = .ofNat 16 (start - args) :=
    (hsame 2 (by omega)).trans harguments
  refine ⟨m.write (start - args) result, ?_, ?_, ?_, ?_⟩
  · rw [harguments, Memory.store_of_lt m (by omega)]
  · rw [sp, read_write_stackPointer, hkept, BitVec.ofNat_add]
    rfl
  · rw [Memory.read_write_of_ne _ _ (by simp only [stackPointer]; omega),
      Memory.read_write_self _ _ (by omega)]
  · intro cell hzero hcell
    exact (Memory.read_write_of_ne _ _ (Ne.symm hzero)).trans (hsame cell hcell)

/-- A return finds the frame below the locals, puts the topmost value in the place of the first
argument and takes everything above it off the stack. -/
theorem exists_leaveCall {m : Memory} {start args top : Nat} {returnAddress : Word}
    {bases : Base → Word} (hframe : HasFrame m start returnAddress bases)
    (hlocals : base m .locals = .ofNat 16 (start + savedWords))
    (harguments : base m .arguments = .ofNat 16 (start - args))
    (hlow : args + 16 ≤ start) (hhigh : start + savedWords ≤ ramSize)
    (hsp : sp m = .ofNat 16 (top + 1)) (htop : 16 ≤ top) (htopHigh : top < ramSize) :
    ∃ m', leaveCall m = .ok m' ∧ m'.read returnCell = returnAddress ∧
      (∀ b, base m' b = bases b) ∧ sp m' = .ofNat 16 (start - args + 1) ∧
      m'.read (start - args) = m.read top ∧
      ∀ cell, 4 < cell → cell ≠ start - args → cell ≠ frameCell → cell ≠ returnCell →
        m'.read cell = m.read cell := by
  have hroom : start + 5 ≤ ramSize := hhigh
  have hfar {cell : Nat} (hcell : 16 ≤ cell) : cell ≠ frameCell ∧ cell ≠ returnCell := by
    simp only [frameCell, returnCell]
    omega
  obtain ⟨m₁, hm₁, hframe₁, hreturn₁, hsame₁⟩ := exists_noteFrame hlocals (by omega) hhigh
  have htop₁ : StackMachine.top m₁ = .ok (m.read top) := by
    have hsp₁ : sp m₁ = .ofNat 16 (top + 1) := (hsame₁ 0 (by decide) (by decide)).trans hsp
    rw [top_eq hsp₁ htopHigh, hsame₁ top (hfar htop).1 (hfar htop).2]
  have harguments₁ : base m₁ .arguments = .ofNat 16 (start - args) :=
    (hsame₁ 2 (by decide) (by decide)).trans harguments
  obtain ⟨m₂, hm₂, hsp₂, hresult₂, hsame₂⟩ :=
    exists_dropFrame harguments₁ hlow (by omega) (m.read top)
  have hframe₂ := (hsame₂ frameCell (by decide) (by simp only [frameCell]; omega)).trans hframe₁
  obtain ⟨m₃, m₄, m₅, m₆, hm₃, hm₄, hm₅, hm₆, hlocals₆, harguments₆, hthis₆, hthat₆, hsame₆⟩ :=
    exists_restoreBases hframe₂ (by omega) hroom
  have hword (i : Nat) (hi : 0 < i) :
      (m₂.write stackPointer (base m₂ .arguments + 1)).read (start + i) = m.read (start + i) := by
    rw [hsame₂ _ (by omega) (by omega), hsame₁ _ (hfar (by omega)).1 (hfar (by omega)).2]
  refine ⟨m₆, ?_, ?_, ?_, ?_, ?_, ?_⟩
  · simp only [leaveCall, hm₁, htop₁, hm₂, hm₃, hm₄, hm₅, hm₆, ok_bind]
  · calc
      m₆.read returnCell = _ := hsame₆ _ (.inr (by decide)) (by decide)
      _ = m₁.read returnCell := hsame₂ _ (by decide) (by simp only [returnCell]; omega)
      _ = m.read start := hreturn₁
      _ = returnAddress := hframe.returnAddress
  · intro b
    cases b with
    | locals => exact hlocals₆.trans ((hword 1 (by decide)).trans hframe.locals)
    | arguments => exact harguments₆.trans ((hword 2 (by decide)).trans hframe.arguments)
    | this => exact hthis₆.trans ((hword 3 (by decide)).trans hframe.this)
    | that => exact hthat₆.trans ((hword 4 (by decide)).trans hframe.that)
  · exact (hsame₆ 0 (.inl rfl) (by decide)).trans hsp₂
  · exact (hsame₆ _ (.inr (by omega)) (hfar (by omega)).1).trans hresult₂
  · intro cell hcell hplace hframeCell hreturnCell
    calc
      m₆.read cell = _ := hsame₆ _ (.inr hcell) hframeCell
      _ = m₁.read cell := hsame₂ _ (by omega) hplace
      _ = m.read cell := hsame₁ _ hframeCell hreturnCell

end HackBackend.StackMachine
