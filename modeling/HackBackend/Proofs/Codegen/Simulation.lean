import HackBackend.Proofs.Codegen.Execution
import HackBackend.Proofs.Codegen.Placement
import HackBackend.Proofs.Codegen.UnitNames
import HackBackend.Proofs.StackMachine.Step

/-!
# The machine runs what the stack machine runs

A built program carries out each step of the stack machine by the instructions that stand at
its position. The data memories are the same before and after the step, up to the last cell, and
the number of instructions is known beforehand. A step that fails ends the program with the same
fault.

## Implementation notes

The registers A and D are not part of the correspondence: no operation finds anything in them.
-/

namespace HackBackend

open Asm Machine Vm StackMachine Text

namespace Machine

/-- In a number of steps from an address on, a program turns a memory into a result, which tells
where control is then. -/
def Runs (program : Program) (count pc : Nat) (m : Memory)
    (result : Except Fault (Nat × Memory)) : Prop :=
  ∀ a d, (Cpu.steps program count ⟨⟨a, d, pc⟩, m⟩).map (fun cpu => (cpu.pc, cpu.memory)) = result

theorem Runs.of_yields {program : Program} {block : List (Instruction Nat)} {pc : Nat}
    {m : Memory} {result : Except Fault (Nat × Memory)} (h : Holds program pc block)
    (hfalls : block.dropLast.all Cpu.fallsThrough) (hyields : Yields block pc m result) :
    Runs program block.length pc m result := by
  intro a d
  rw [Cpu.steps_eq_performAll h hfalls]
  exact hyields a d

theorem Runs.trans {program : Program} {j k pc pc' : Nat} {m m' : Memory}
    {result : Except Fault (Nat × Memory)} (hfirst : Runs program j pc m (.ok (pc', m')))
    (hlast : Runs program k pc' m' result) : Runs program (j + k) pc m result := by
  intro a d
  obtain ⟨next, hsteps, hpair⟩ := map_eq_ok_iff.mp (hfirst a d)
  obtain ⟨rfl, rfl⟩ := Prod.mk.inj hpair
  rw [Cpu.steps_add, hsteps, ok_bind]
  exact hlast next.a next.d

/-- After a fault no further steps are taken. -/
theorem Runs.fault {program : Program} {j pc : Nat} {m : Memory} {fault : Fault}
    (h : Runs program j pc m (.error fault)) (k : Nat) :
    Runs program (j + k) pc m (.error fault) := by
  intro a d
  have hsteps := h a d
  rw [Cpu.steps_add]
  cases hrun : Cpu.steps program j ⟨⟨a, d, pc⟩, m⟩ with
  | error other =>
      rw [hrun] at hsteps
      exact hsteps
  | ok next =>
      rw [hrun] at hsteps
      cases hsteps

/-- The state after the steps, from any state at the address with the memory. -/
theorem Runs.exists_steps {program : Program} {count next : Nat} {m' : Memory} {cpu : Cpu}
    (h : Runs program count cpu.pc cpu.memory (.ok (next, m'))) :
    ∃ after, Cpu.steps program count cpu = .ok after ∧ after.pc = next ∧ after.memory = m' := by
  obtain ⟨⟨a, d, pc⟩, m⟩ := cpu
  obtain ⟨after, hsteps, hpair⟩ := map_eq_ok_iff.mp (h a d)
  obtain ⟨hpc, hmemory⟩ := Prod.mk.inj hpair
  exact ⟨after, hsteps, hpc, hmemory⟩

end Machine

namespace StackMachine

/-- The left operand of a comparison less the right one. -/
def difference (m : Memory) : Except Fault Word := do
  let (right, m) ← pop m
  let left ← top m
  .ok (left - right)

/-- The number of instructions that carry out a comparison: the last three of them are skipped
if the relation holds. -/
def compareDuration (r : Relation) (m : Memory) : Nat :=
  match difference m with
  | .ok difference => if relationHolds difference r then 8 else 11
  | .error _ => 11

/-- The number of instructions that carry out an operation. -/
def duration (c : Placed) (m : Memory) : Nat :=
  match c.op with
  | .compare r => compareDuration r m
  | op => op.size

/-- The number of instructions that carry out a number of steps, up to a stop. -/
def Image.elapsed (image : Image) : Nat → State → Nat
  | 0, _ => 0
  | n + 1, s =>
      match image.code[s.position]? with
      | none => 0
      | some c =>
          duration c s.memory +
            match image.step s with
            | .error _ => 0
            | .ok s => image.elapsed n s

end StackMachine

namespace Codegen

/-- The code of a run as it is carried out by a program: statics are kept in the cells that the
program has for their symbols, and a call saves the address of its return label. -/
def imageOf (options : Options) (code : List Placed) (program : Program) : Image where
  code := code
  branch := options.branch
  static unit offset := program.address (Segment.staticSymbol unit offset)
  returnAddress position :=
    match code[position]? with
    | some c =>
        match c.op with
        | .call name _ =>
            program.address (((countersAt options code position).site c).returnSymbol name)
        | _ => 0
    | none => 0

/-- The address at which control goes on. -/
def destination (options : Options) (code : List Placed) (program : Program) (position : Nat)
    (m : Memory) : Control → Nat
  | .next => entry options code (position + 1)
  | .goTo name => program.address name
  | .back => (m.read returnCell).toNat

theorem destination_ite (options : Options) (code : List Placed) (program : Program)
    (position : Nat) (m : Memory) (taken : Bool) (x y : Control) :
    destination options code program position m (if taken then x else y) =
      if taken then destination options code program position m x
      else destination options code program position m y := by
  cases taken <;> rfl

/-- A row that does not branch and carries out an effect does so where it stands. -/
theorem runs_of_performs {options : Options} {code : List Placed} {program : Program}
    {position : Nat} {c : Placed} (hc : code[position]? = some c) {row : List Line}
    (hholds : Holds program (entry options code position) (program.linked row))
    (hsize : row.countP Line.isInstruction = c.op.size)
    (hfalls : (program.linked row).dropLast.all Cpu.fallsThrough)
    {f : Memory → Except Fault Memory} (hperforms : Performs (program.linked row) f)
    (m : Memory) :
    Runs program c.op.size (entry options code position) m (do
      let m ← f m
      .ok (entry options code (position + 1), m)) := by
  have hruns := Runs.of_yields hholds hfalls (hperforms _ m)
  rw [Program.length_linked, hsize] at hruns
  rw [entry_succ hc]
  exact hruns

/-- The instructions of a call go to the address of the name that it calls, whatever is there. -/
theorem Built.runs_callCode {options : Options} {code : List Placed} {program : Program}
    (h : Built options code program) {position : Nat} {c : Placed} (hc : code[position]? = some c)
    (hnamed : c.Named) {name : String} {args : Nat} (hcall : c.op = .call name args)
    (hlt : program.address name < romSize) (m : Memory) :
    Runs program c.op.size (entry options code position) m (do
      let m ← enterCall
        (program.address (((countersAt options code position).site c).returnSymbol name)) args m
      .ok (program.address name, m)) := by
  obtain ⟨hholds, -⟩ := h.stands_call hc hnamed hcall
  rw [hcall]
  exact Runs.of_yields hholds rfl (yields_call program args rfl hlt _ m)

theorem all_fallsThrough_function (program : Program) (name : String) (locals : Nat) :
    (program.linked (functionCode name locals)).all Cpu.fallsThrough := by
  have hloop (count : Nat) : (program.linked (List.replicate count
      [Line.store .m .zero, .store .a (.inc .a)]).flatten).all Cpu.fallsThrough := by
    induction count with
    | zero => rfl
    | succ count ih =>
        rw [List.replicate_succ, List.flatten_cons, Program.linked_append, List.all_append, ih]
        rfl
  rw [functionCode, Program.linked_label, zeroLocals]
  split
  · rfl
  · rw [Program.linked_append, Program.linked_append, List.all_append, List.all_append, hloop]
    rfl

theorem dropLast_fallsThrough_function (program : Program) (name : String) (locals : Nat) :
    (program.linked (functionCode name locals)).dropLast.all Cpu.fallsThrough := by
  have hall := all_fallsThrough_function program name locals
  rw [List.all_eq_true] at hall ⊢
  exact fun i hi => hall i (List.dropLast_subset _ hi)

/-- A state of the stack machine and one of the machine correspond to each other. -/
def Represents (options : Options) (code : List Placed) (s : State) (cpu : Cpu) : Prop :=
  cpu.pc = entry options code s.position ∧ cpu.memory = s.memory

/-- What code and program have to be like for the program to carry out the code. -/
structure Carries (options : Options) (code : List Placed) (program : Program) : Prop where
  built : Built options code program
  unit : ∀ c ∈ code, isSymbol c.unit.toList
  named : ∀ c ∈ code, c.Named
  linked : ∀ c ∈ code, ∀ name ∈ c.target?, ∃ d ∈ code, d.symbol? = some name
  callable : ∀ c ∈ code, ∀ name ∈ c.callee?, predefined? name = none

/-- The instructions of a comparison, of which the last three clear the result. -/
theorem runs_compareCode {program : Program} {r : Relation} {target : Address}
    {after : List Line} {pc : Nat}
    (h : Holds program pc
      (program.linked (compareCode r (.instruction (.load target)) ++ after)))
    (htarget : program.operand target = pc + 11) (hlt : pc + 11 < romSize) (m : Memory) :
    Runs program (compareDuration r m) pc m (do
      let m ← applyCompare r m
      .ok (pc + 11, m)) := by
  have hsplit : compareCode r (.instruction (.load target)) =
      (popD ++ [.store .a (.dec .a), .store .d (.subFrom .m), .store .m .minusOne,
        .instruction (.load target), .jump (.copy .d) (relationJump r)]) ++
      [.symbol "SP", .store .a (.dec .m), .store .m .zero] := by
    simp [compareCode]
  rw [hsplit, Program.linked_append, Program.linked_append] at h
  have hclear := h.append_left.append_right
  have hhead := Runs.of_yields h.append_left.append_left rfl
    (yields_compare program r (htarget ▸ hlt) pc m)
  rw [htarget] at hhead
  simp only [compareDuration, difference, applyCompare]
  cases hpop : pop m with
  | error fault =>
      have hfault : Runs program 8 pc m (.error fault) := by simpa [hpop] using hhead
      exact hfault.fault 3
  | ok popped =>
      obtain ⟨right, m'⟩ := popped
      cases htop : top m' with
      | error fault =>
          have hfault : Runs program 8 pc m (.error fault) := by simpa [hpop, htop] using hhead
          simpa [htop] using hfault.fault 3
      | ok left =>
          by_cases hholds : relationHolds (left - right) r
          · simpa [hpop, htop, hholds] using hhead
          · simp only [hpop, htop, hholds, ok_bind, if_false, Bool.false_eq_true] at hhead ⊢
            cases hset : setTop (-1) m' with
            | error fault =>
                rw [hset] at hhead
                exact hhead.fault 3
            | ok m₁ =>
                rw [hset] at hhead
                exact hhead.trans (Runs.of_yields hclear rfl (performs_clearTop program _ m₁))

/-- A comparison by address goes on behind its last instruction. -/
theorem runs_compareCode_literal {program : Program} {r : Relation} {pc : Nat}
    (hfits : pc + compareLength ≤ maxLiteral)
    (hstands : Stands program pc (compareCode r (.literal (pc + compareLength)))) (m : Memory) :
    Runs program (compareDuration r m) pc m (do
      let m ← applyCompare r m
      .ok (pc + compareLength, m)) := by
  have hholds : Holds program pc
      (program.linked (compareCode r (.literal (pc + compareLength)) ++ [])) := by
    rw [List.append_nil]
    exact hstands.1
  exact runs_compareCode hholds rfl (Nat.lt_of_le_of_lt hfits (by decide)) m

/-- A comparison by symbol goes on at its label, which stands behind its last instruction. -/
theorem Built.runs_compareCode_symbol {options : Options} {code : List Placed} {program : Program}
    (h : Built options code program) {r : Relation} {pc : Nat} {name : String}
    (hfree : predefined? name = none)
    (hstands : Stands program pc (compareCode r (.symbol name) ++ [.label name])) (m : Memory) :
    Runs program (compareDuration r m) pc m (do
      let m ← applyCompare r m
      .ok (pc + compareLength, m)) := by
  have hlabel : program.labels[name]? = some (pc + compareLength) := hstands.2 _ _ [] rfl
  exact runs_compareCode hstands.1 (Program.address_of_label hfree hlabel) (h.labels_lt hlabel) m

/-- In the code of a comparison only its target may be read as something else. -/
theorem reread_compareCode (r : Relation) {target read : Line}
    (h : lineOf? target.text = some read) :
    reread (compareCode r target) = compareCode r read := by
  rw [compareCode_eq, reread_append, reread_eq_self readable_compareHead, reread_cons h,
    reread_eq_self (readable_compareTail r), ← compareCode_eq]

theorem predefined?_spaceless_compareSymbol (site : Site) :
    predefined? (spaceless site.compareSymbol) = none := by
  apply predefined?_eq_none_of_mem (.inr rfl)
  rw [toList_spaceless, unspaced, List.mem_filter]
  exact ⟨by simp [Site.compareSymbol], by decide⟩

/-- At every place of a program the code of a comparison compares, and goes on behind itself. The
name of the unit may be read without its blanks, but it is in both the jump and the label. -/
theorem Built.runs_compare {options : Options} {code : List Placed} {program : Program}
    (h : Built options code program) {position : Nat} {c : Placed}
    (hc : code[position]? = some c) {r : Relation} (hop : c.op = .compare r) (m : Memory) :
    Runs program (compareDuration r m) (entry options code position) m (do
      let m ← applyCompare r m
      .ok (entry options code (position + 1), m)) := by
  obtain ⟨batches, hlower, hread, hstands⟩ := h.stands_reread hc
  have hnext : entry options code (position + 1) =
      entry options code position + compareLength := by
    rw [entry_succ hc, hop]
    rfl
  rw [hop] at hlower
  obtain ⟨hfits, rfl⟩ := lower_compare_eq_ok_iff.mp hlower
  rw [hnext]
  rw [codeOf_single] at hread hstands
  cases hstyle : options.compare with
  | absolute =>
      simp only [compareTarget, compareLabel, hstyle, List.append_nil] at hstands
      rw [← Line.literal, reread_compareCode r (lineOf?_literal (hfits hstyle))] at hstands
      exact runs_compareCode_literal (hfits hstyle) hstands m
  | symbolic =>
      simp only [compareTarget, compareLabel, hstyle] at hread hstands
      have hfree := predefined?_spaceless_compareSymbol ((countersAt options code position).site c)
      generalize ((countersAt options code position).site c).compareSymbol = name
        at hfree hread hstands
      obtain ⟨hsymbol, hlabel⟩ := lineOf?_symbol_label
        (hread (.symbol name) (by simp [compareCode, Line.symbol]))
        (hread (.label name) (by simp))
      rw [reread_append, ← Line.symbol, reread_compareCode r hsymbol, reread_cons hlabel]
        at hstands
      exact h.runs_compareCode_symbol hfree hstands m

namespace Carries

variable {options : Options} {code : List Placed} {program : Program}
variable (h : Carries options code program)

include h

/-- The code of the operation at a position stands there. -/
theorem stands {position : Nat} {c : Placed} (hc : code[position]? = some c) :
    ∃ batches, lower options (entry options code position)
        ((countersAt options code position).site c) c.op = .ok batches ∧
      Stands program (entry options code position) (Codegen.codeOf batches) := by
  obtain ⟨batches, hlower, hstands⟩ := h.built.stands hc
  have hmem := List.mem_of_getElem? hc
  exact ⟨batches, hlower,
    hstands (readable_of_lower (.inr (h.unit c hmem)) (h.named c hmem) hlower)⟩

/-- The symbol that an operation gives to its place is a label with the address of the place. -/
theorem label_of_symbol {position : Nat} {c : Placed} (hc : code[position]? = some c)
    {name : String} (hname : c.symbol? = some name) :
    program.labels[name]? = some (entry options code position) :=
  have hmem := List.mem_of_getElem? hc
  h.built.label_of_symbol hc (h.unit c hmem) (h.named c hmem) hname

/-- Where a target is defined, the program has the address of the place that it is given to. -/
theorem address_of_placeOf? {name : String} (hfree : predefined? name = none) {position : Nat}
    (hplace : (imageOf options code program).placeOf? name = some position) :
    program.address name = entry options code position := by
  obtain ⟨hlt, hsymbol, -⟩ := List.findIdx?_eq_some_iff_getElem.mp hplace
  have hlabel := h.label_of_symbol (List.getElem?_eq_getElem hlt) (of_decide_eq_true hsymbol)
  exact Program.address_of_label hfree hlabel

theorem exists_placeOf? {c : Placed} (hc : c ∈ code) {name : String}
    (hname : c.target? = some name) :
    ∃ position, (imageOf options code program).placeOf? name = some position := by
  obtain ⟨d, hd, hsymbol⟩ := h.linked c hc name hname
  cases hfound : (imageOf options code program).placeOf? name with
  | some position => exact ⟨position, rfl⟩
  | none =>
      have hnone := List.findIdx?_eq_none_iff.mp hfound d hd
      simp [hsymbol] at hnone

theorem predefined?_of_target {c : Placed} (hc : c ∈ code) {name : String}
    (hname : c.target? = some name) : predefined? name = none :=
  Codegen.predefined?_of_target (h.callable c hc) hname

theorem address_lt {c : Placed} (hc : c ∈ code) {name : String} (hname : c.target? = some name) :
    program.address name < romSize := by
  obtain ⟨position, hplace⟩ := h.exists_placeOf? hc hname
  obtain ⟨hlt, hsymbol, -⟩ := List.findIdx?_eq_some_iff_getElem.mp hplace
  have hlabel := h.label_of_symbol (List.getElem?_eq_getElem hlt) (of_decide_eq_true hsymbol)
  rw [Program.address_of_label (h.predefined?_of_target hc hname) hlabel]
  exact h.built.labels_lt hlabel

/-- The instructions of an operation do what the stack machine does in a step. -/
theorem runs_operation {position : Nat} {c : Placed} (hc : code[position]? = some c) (m : Memory) :
    Runs program (duration c m) (entry options code position) m (do
      let (control, m) ← (imageOf options code program).effect position c m
      .ok (destination options code program position m control, m)) := by
  obtain ⟨batches, hlower, hstands⟩ := h.stands hc
  have hsize := countP_of_lower hlower
  have hmem := List.mem_of_getElem? hc
  obtain ⟨unit, function, op⟩ := c
  cases op with
  | push segment offset =>
      obtain ⟨place, hplace, rfl⟩ := lower_push_eq_ok_iff.mp hlower
      rw [codeOf_single] at hstands hsize
      have hruns := runs_of_performs hc hstands.1 hsize (by cases place <;> rfl)
        (performs_push program hplace) m
      simpa [duration, Image.effect, imageOf, destination, Counters.site] using hruns
  | pop segment offset =>
      obtain ⟨place, hplace, row, hrow, rfl⟩ := lower_pop_eq_ok_iff.mp hlower
      rw [codeOf_single] at hstands hsize
      have hfalls : (program.linked row).dropLast.all Cpu.fallsThrough := by
        cases place with
        | constant value => cases hrow
        | _ =>
            obtain rfl := Except.ok.inj hrow
            rfl
      have hruns := runs_of_performs hc hstands.1 hsize hfalls (performs_pop program hplace hrow) m
      simpa [duration, Image.effect, imageOf, destination, Counters.site] using hruns
  | unary f =>
      obtain rfl := Except.ok.inj hlower
      rw [codeOf_single] at hstands hsize
      have hruns := runs_of_performs hc hstands.1 hsize rfl (performs_unary program f) m
      simpa [duration, Image.effect, destination] using hruns
  | binary f =>
      obtain rfl := Except.ok.inj hlower
      rw [codeOf_single] at hstands hsize
      have hruns := runs_of_performs hc hstands.1 hsize rfl (performs_binary program f) m
      simpa [duration, Image.effect, destination] using hruns
  | compare r =>
      have hruns := h.built.runs_compare hc rfl m
      simpa [duration, Image.effect, destination] using hruns
  | label name =>
      obtain rfl := Except.ok.inj hlower
      intro a d
      simp [Image.effect, destination, duration, Operation.size, entry_succ hc, Cpu.steps,
        map_eq_bind]
  | goto name =>
      obtain rfl := Except.ok.inj hlower
      rw [codeOf_single] at hstands
      have hlt := h.address_lt hmem rfl
      exact Runs.of_yields hstands.1 rfl (yields_goto program hlt _ m)
  | ifGoto name =>
      obtain rfl := Except.ok.inj hlower
      rw [codeOf_single] at hstands
      have hlt := h.address_lt hmem rfl
      have hruns := Runs.of_yields hstands.1 rfl (yields_ifGoto program options.branch hlt _ m)
      have heffect : (imageOf options code program).effect position
          ⟨unit, function, .ifGoto name⟩ m = (do
            let (value, m) ← pop m
            .ok (if branchTaken value options.branch then
              .goTo ((⟨unit, function, .ifGoto name⟩ : Placed).labelSymbol name) else .next, m)) :=
        rfl
      rw [heffect]
      simp only [bind_assoc, ok_bind, destination_ite]
      simp only [destination, entry_succ hc]
      exact hruns
  | function name locals =>
      obtain rfl := Except.ok.inj hlower
      rw [codeOf_single] at hstands hsize
      have hruns := runs_of_performs hc hstands.1 hsize
        (dropLast_fallsThrough_function program name locals)
        (performs_function program name locals) m
      simpa [duration, Image.effect, destination] using hruns
  | call name args =>
      obtain ⟨-, rfl⟩ := lower_call_eq_ok_iff.mp hlower
      have hlt := h.address_lt hmem rfl
      have hruns := Runs.of_yields hstands.1 rfl (yields_call program args rfl hlt _ m)
      simp only [Image.effect, imageOf, bind_assoc, ok_bind, hc]
      exact hruns
  | ret =>
      obtain rfl := Except.ok.inj hlower
      have hruns := Runs.of_yields hstands.1 rfl (yields_return program _ m)
      simp only [Image.effect, bind_assoc, ok_bind]
      exact hruns

/-- The label of the place that a call returns to is the entry of the next operation. -/
theorem returnAddress_of_call {position : Nat} {c : Placed} (hc : code[position]? = some c)
    (hcall : c.calls = 1) :
    (imageOf options code program).returnAddress position = entry options code (position + 1) ∧
      entry options code (position + 1) < romSize := by
  obtain ⟨batches, hlower, -, hlabels⟩ := h.stands hc
  obtain ⟨unit, function, op⟩ := c
  cases op with
  | call name args =>
      obtain ⟨-, rfl⟩ := lower_call_eq_ok_iff.mp hlower
      have hlabel := hlabels ((Codegen.codeOf (callBatches name
        (((countersAt options code position).site ⟨unit, function, .call name args⟩).returnSymbol
          name) args)).dropLast) _ [] rfl
      have hfree : predefined? (((countersAt options code position).site
          ⟨unit, function, .call name args⟩).returnSymbol name) = none :=
        predefined?_eq_none_of_mem (.inl rfl) (by simp [Site.returnSymbol])
      have hentry : entry options code (position + 1) = entry options code position + 47 :=
        entry_succ hc
      rw [hentry]
      refine ⟨?_, h.built.labels_lt hlabel⟩
      simp only [imageOf, hc]
      exact Program.address_of_label hfree hlabel
  | _ => cases hcall

/-- Control goes on where the stack machine goes on. -/
theorem destination_of_follow {position next : Nat} {c : Placed} (hc : code[position]? = some c)
    {control : Control} {m m' : Memory}
    (heffect : (imageOf options code program).effect position c m = .ok (control, m'))
    (hfollow : (imageOf options code program).follow position m' control = .ok next) :
    destination options code program position m' control = entry options code next := by
  cases control with
  | next =>
      obtain rfl := Except.ok.inj hfollow
      rfl
  | goTo name =>
      have htarget := Image.target_of_effect heffect
      exact h.address_of_placeOf? (h.predefined?_of_target (List.mem_of_getElem? hc) htarget)
        (Image.follow_goTo_eq_ok_iff.mp hfollow)
  | back =>
      obtain ⟨call, hcall, rfl⟩ := Image.follow_back_eq_ok_iff.mp hfollow
      have hfound := List.find?_some hcall
      simp only [decide_eq_true_eq] at hfound
      obtain ⟨hany, haddress⟩ := hfound
      cases hd : code[call]? with
      | none => simp [imageOf, hd] at hany
      | some d =>
          have hcalls : d.calls = 1 := by simpa [imageOf, hd] using hany
          obtain ⟨hreturn, hlt⟩ := h.returnAddress_of_call hd hcalls
          rw [destination, ← haddress, hreturn, toNat_ofNat_of_lt hlt]

/-- A step of the stack machine is taken by as many instructions as it lasts. -/
theorem step_simulates {s s' : State} {cpu : Cpu} (hrep : Represents options code s cpu)
    {c : Placed} (hc : code[s.position]? = some c)
    (hstep : (imageOf options code program).step s = .ok s') :
    ∃ cpu', Cpu.steps program (duration c s.memory) cpu = .ok cpu' ∧
      Represents options code s' cpu' := by
  obtain ⟨hpc, hmemory⟩ := hrep
  obtain ⟨d, control, hd, heffect, hfollow⟩ := Image.step_eq_ok_iff.mp hstep
  obtain rfl : c = d := Option.some.inj (hc.symm.trans hd)
  have hruns := h.runs_operation hc s.memory
  rw [heffect, ok_bind] at hruns
  simp only [h.destination_of_follow hc heffect hfollow, ← hpc, ← hmemory] at hruns
  rw [← hmemory]
  exact hruns.exists_steps

/-- An operation that fails ends the program with the same fault. -/
theorem fault_simulates {s : State} {cpu : Cpu} (hrep : Represents options code s cpu)
    {c : Placed} (hc : code[s.position]? = some c) {fault : Fault}
    (heffect : (imageOf options code program).effect s.position c s.memory = .error fault) :
    Cpu.steps program (duration c s.memory) cpu = .error fault := by
  obtain ⟨⟨a, d, pc⟩, m⟩ := cpu
  obtain ⟨rfl, rfl⟩ : pc = entry options code s.position ∧ m = s.memory := hrep
  have hruns := h.runs_operation hc s.memory a d
  rw [heffect, error_bind] at hruns
  cases hsteps : Cpu.steps program (duration c s.memory)
      ⟨⟨a, d, entry options code s.position⟩, s.memory⟩ with
  | error other => simpa [hsteps, Except.map] using hruns
  | ok cpu' => simp [hsteps, Except.map] at hruns

/-- A return to an address that belongs to no call still leads to that address. -/
theorem lost_simulates {s : State} {cpu : Cpu} (hrep : Represents options code s cpu)
    {c : Placed} (hc : code[s.position]? = some c) {m : Memory}
    (heffect : (imageOf options code program).effect s.position c s.memory = .ok (.back, m)) :
    ∃ cpu', Cpu.steps program (duration c s.memory) cpu = .ok cpu' ∧
      cpu'.pc = (m.read returnCell).toNat := by
  obtain ⟨hpc, hmemory⟩ := hrep
  have hruns := h.runs_operation hc s.memory
  rw [heffect, ok_bind, ← hpc, ← hmemory] at hruns
  obtain ⟨cpu', hsteps, hnext, -⟩ := hruns.exists_steps
  exact ⟨cpu', by rw [← hmemory, hsteps], hnext⟩

/-- Every symbol that control goes to has a place. -/
theorem step_ne_undefined (s : State) (name : String) :
    (imageOf options code program).step s ≠ .error (.undefined name) := by
  intro hstep
  rcases Image.step_eq_error hstep with ⟨-, hstop⟩ | ⟨c, hc, hcause⟩
  · cases hstop
  · rcases hcause with ⟨fault, -, hstop⟩ | ⟨symbol, htarget, hnone, -⟩ | ⟨m, -, hstop⟩
    · cases hstop
    · obtain ⟨place, hplace⟩ := h.exists_placeOf? (List.mem_of_getElem? hc) htarget
      simp [hplace] at hnone
    · cases hstop

end Carries

end Codegen

end HackBackend
