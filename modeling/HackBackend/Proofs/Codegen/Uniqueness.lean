import HackBackend.Proofs.Codegen.Histories
import HackBackend.Proofs.Codegen.Uses
import Mathlib.Data.List.Nodup

/-!
# Made-up labels are unique

A run makes up labels for its calls and comparisons, and the halt label. They are all different,
whatever the units and the functions are called, since each of them ends in the number that was
next when it was made up. Of the lines that do not have a name of the program, one defines such a
label and one loads it, both in the code of the operation that it was made up for. Only the static
of a unit with a name like `f$ret` may be loaded by the same symbol.
-/

namespace HackBackend.Codegen

open Asm Vm StackMachine

/-- A line has a name that the program gives: that of a label or function, or that of a target. -/
def isWritten (c : Placed) (line : Line) : Bool :=
  c.symbol?.any (fun name => line = .label name) || c.target?.any fun name => line = .symbol name

/-- The lines of an operation without those that have a name of the program. -/
def generatedOf (c : Placed) (code : List Line) : List Line :=
  code.filter fun line => !isWritten c line

/-- The lines of a run without those that have a name of the program. -/
def generatedCode (options : Options) (code : List Placed) (chunks : List (List Line)) :
    List Line :=
  runCode options (code.zipWith generatedOf chunks)

/-! ### The names on generated lines -/

variable {c : Placed}

theorem isWritten_label (name : String) :
    isWritten c (.label name) = decide (c.symbol? = some name) := by
  unfold isWritten
  cases c.symbol? <;> cases c.target? <;> simp [Line.symbol, @eq_comm _ name]

theorem isWritten_symbol (name : String) :
    isWritten c (.symbol name) = decide (c.target? = some name) := by
  unfold isWritten
  cases c.symbol? <;> cases c.target? <;> simp [Line.symbol, @eq_comm _ name]

theorem labelsOf_generatedOf (c : Placed) (code : List Line) :
    labelsOf (generatedOf c code) = (labelsOf code).filter fun name => c.symbol? ≠ some name := by
  induction code with
  | nil => rfl
  | cons line rest ih =>
      rw [generatedOf, List.filter_cons]
      rw [generatedOf] at ih
      cases line with
      | instruction i =>
          rw [labelsOf_instruction, ← ih]
          split <;> rfl
      | label name =>
          rw [labelsOf_label, List.filter_cons, ← ih, isWritten_label]
          by_cases hname : c.symbol? = some name <;> simp [hname]

theorem usesOf_generatedOf (c : Placed) (code : List Line) :
    usesOf (generatedOf c code) = (usesOf code).filter fun name => c.target? ≠ some name := by
  rw [usesOf, generatedOf, usesOf, List.filterMap_filter, List.filter_filterMap]
  apply List.filterMap_congr
  intro line _
  cases huse : line.use? with
  | none => simp
  | some name =>
      obtain ⟨rfl, -⟩ := Line.use?_eq_some_iff.mp huse
      by_cases hname : c.target? = some name <;> simp [isWritten_symbol, Option.filter, hname]

/-- The name of a function is not the symbol of the place to which a call of it returns. -/
theorem returnSymbol_ne_callee (site : Site) (callee : String) :
    site.returnSymbol callee ≠ callee := by
  intro h
  have hlength := congrArg (fun s : String => s.toList.length) h
  simp [Site.returnSymbol, returnMark] at hlength

variable {options : Options} {n : Counters} {batches : List Batch}

/-- The lines of an operation without the names of the program define what it makes up. -/
theorem labelsOf_generated (h : lower options n.rom (n.site c) c.op = .ok batches) :
    labelsOf (generatedOf c (Codegen.codeOf batches)) = (madeUp? options n c).toList := by
  rw [labelsOf_generatedOf, labelsOf_code h]
  obtain ⟨unit, function, op⟩ := c
  cases op with
  | compare r => cases hstyle : options.compare <;> simp [madeUp?, Placed.symbol?, hstyle]
  | _ => simp [madeUp?, Placed.symbol?]

/-- The lines of an operation without the names of the program load what it makes up, and the
static that it accesses. -/
theorem usesOf_generated (h : lower options n.rom (n.site c) c.op = .ok batches) :
    usesOf (generatedOf c (Codegen.codeOf batches)) =
      (madeUp? options n c).toList ++ c.static?.toList := by
  rw [usesOf_generatedOf, usesOf_code h]
  obtain ⟨unit, function, op⟩ := c
  cases op with
  | compare r =>
      cases hstyle : options.compare <;>
        simp [madeUp?, Placed.static?, Placed.target?, hstyle]
  | call name args =>
      have hne := returnSymbol_ne_callee (n.site ⟨unit, function, .call name args⟩) name
      by_cases hfree : predefined? name = none <;>
        simp [madeUp?, Placed.static?, Placed.target?, hne.symm, hfree]
  | goto name | ifGoto name =>
      simp [madeUp?, Placed.static?, Placed.target?, predefined?_labelSymbol]
  | _ => simp [madeUp?, Placed.static?, Placed.target?]

/-! ### The numbers of made-up labels -/

/-- A made-up label whose number is not used up yet. -/
inductive IsFresh (n : Counters) (name : String) : Prop where
  | back {site : Site} {callee : String} (h : n.calls ≤ site.calls)
      (hname : site.returnSymbol callee = name)
  | compare {site : Site} (h : n.compares ≤ site.compares) (hname : site.compareSymbol = name)

variable {name : String}

theorem IsFresh.ne_haltLabel (h : IsFresh n name) : name ≠ haltLabel := by
  rcases h with ⟨-, rfl⟩ | ⟨-, rfl⟩
  · exact returnSymbol_ne_haltLabel _
  · exact compareSymbol_ne_haltLabel

theorem IsFresh.predefined? (h : IsFresh n name) : predefined? name = none := by
  rcases h with ⟨-, rfl⟩ | ⟨-, rfl⟩
  · exact predefined?_returnSymbol _ _
  · exact predefined?_compareSymbol _

/-- What is fresh after an operation is fresh before it. -/
theorem IsFresh.of_after (h : IsFresh (n.after options c) name) : IsFresh n name := by
  rcases h with ⟨hcalls, hname⟩ | ⟨hcompares, hname⟩
  · exact .back (Nat.le_trans (Nat.le_add_right ..) hcalls) hname
  · exact .compare (Nat.le_trans (Nat.le_add_right ..) hcompares) hname

/-- An operation makes up a fresh label, and uses up its number. -/
theorem isFresh_of_madeUp? (h : madeUp? options n c = some name) :
    IsFresh n name ∧ ¬ IsFresh (n.after options c) name := by
  obtain ⟨unit, function, op⟩ := c
  cases op with
  | call callee args =>
      obtain rfl := Option.some.inj h
      refine ⟨.back (Nat.le_refl _) rfl, ?_⟩
      rintro (⟨hcalls, hname⟩ | ⟨-, hname⟩)
      · have hsame := (returnSymbol_inj hname).2
        rw [hsame] at hcalls
        exact absurd hcalls (Nat.not_succ_le_self n.calls)
      · exact absurd hname.symm (returnSymbol_ne_compareSymbol callee)
  | compare r =>
      cases hstyle : options.compare with
      | absolute => simp [madeUp?, hstyle] at h
      | symbolic =>
          obtain rfl : (n.site ⟨unit, function, .compare r⟩).compareSymbol = name := by
            simpa [madeUp?, hstyle] using h
          refine ⟨.compare (Nat.le_refl _) rfl, ?_⟩
          rintro (⟨-, hname⟩ | ⟨hcompares, hname⟩)
          · exact absurd hname (returnSymbol_ne_compareSymbol _)
          · have hone : options.compareLabels ⟨unit, function, .compare r⟩ = 1 := by
              simp [Options.compareLabels, hstyle]
            have hsame := (compareSymbol_inj hname).2
            rw [hsame, Counters.after, hone] at hcompares
            exact absurd hcompares (Nat.not_succ_le_self n.compares)
  | _ => cases h

variable {code : List Placed} {chunks : List (List Line)}

theorem isFresh_of_mem (h : name ∈ allMadeUp options n code) : IsFresh n name := by
  induction code generalizing n with
  | nil => cases h
  | cons c rest ih =>
      rcases List.mem_append.mp h with hfirst | hrest
      · exact (isFresh_of_madeUp? (Option.mem_toList.mp hfirst)).1
      · exact (ih hrest).of_after

/-- No label is made up twice. -/
theorem nodup_allMadeUp (options : Options) (n : Counters) (code : List Placed) :
    (allMadeUp options n code).Nodup := by
  induction code generalizing n with
  | nil => exact List.nodup_nil
  | cons c rest ih =>
      have hfirst : (madeUp? options n c).toList.Nodup := by
        cases madeUp? options n c with
        | none => exact List.nodup_nil
        | some name => exact List.nodup_singleton name
      apply List.nodup_append.mpr
      refine ⟨hfirst, ih _, ?_⟩
      intro name hname _ hrest hsame
      obtain ⟨-, hused⟩ := isFresh_of_madeUp? (Option.mem_toList.mp hname)
      exact hused (isFresh_of_mem (hsame ▸ hrest))

/-! ### The generated lines of a run -/

theorem labelsOf_generatedCode (h : lowerAll options n code = .ok chunks) :
    labelsOf (generatedCode options code chunks) = allMadeUp options n code ++ [haltLabel] := by
  have hchunks : ∀ {n code chunks}, lowerAll options n code = .ok chunks →
      labelsOf (code.zipWith generatedOf chunks).flatten = allMadeUp options n code := by
    intro n code
    induction code generalizing n with
    | nil =>
        intro chunks h
        rfl
    | cons c rest ih =>
        intro chunks h
        obtain ⟨batches, hlower, later, hlater, rfl⟩ := lowerAll_cons_eq_ok_iff.mp h
        rw [List.zipWith_cons_cons, List.flatten_cons, labelsOf_append, labelsOf_generated hlower,
          ih hlater, allMadeUp]
  rw [generatedCode, labelsOf_runCode, hchunks h]

theorem count_usesOf_generatedCode (h : lowerAll options n code = .ok chunks) (name : String) :
    (usesOf (generatedCode options code chunks)).count name =
      (allMadeUp options n code ++ [haltLabel]).count name +
        (code.filterMap Placed.static?).count name := by
  have hchunks : ∀ {n code chunks}, lowerAll options n code = .ok chunks →
      (usesOf (code.zipWith generatedOf chunks).flatten).count name =
        (allMadeUp options n code).count name + (code.filterMap Placed.static?).count name := by
    intro n code
    induction code generalizing n with
    | nil =>
        intro chunks h
        rfl
    | cons c rest ih =>
        intro chunks h
        obtain ⟨batches, hlower, later, hlater, rfl⟩ := lowerAll_cons_eq_ok_iff.mp h
        have hstatic : (c :: rest).filterMap Placed.static? =
            c.static?.toList ++ rest.filterMap Placed.static? := by
          rw [List.filterMap_cons]
          cases c.static? <;> rfl
        rw [List.zipWith_cons_cons, List.flatten_cons, usesOf_append, usesOf_generated hlower,
          hstatic, allMadeUp]
        simp only [List.count_append, ih hlater]
        omega
  rw [generatedCode, usesOf_runCode, List.count_append, hchunks h, List.count_append]
  omega

/-- An operation that makes up a label accesses no static. -/
theorem static?_of_madeUp? (h : madeUp? options n c = some name) : c.static? = none := by
  obtain ⟨unit, function, op⟩ := c
  cases op with
  | call callee args => rfl
  | compare r => rfl
  | _ => cases h

/-- The lines of an operation define the label that it makes up once, and use it once. -/
theorem count_generatedOf (h : lower options n.rom (n.site c) c.op = .ok batches)
    (hmade : madeUp? options n c = some name) :
    (generatedOf c (Codegen.codeOf batches)).count (.label name) = 1 ∧
      (generatedOf c (Codegen.codeOf batches)).count (.symbol name) = 1 := by
  constructor
  · rw [count_label, labelsOf_generated h, hmade]
    exact List.count_singleton_self
  · rw [count_symbol _ (isFresh_of_madeUp? hmade).1.predefined?, usesOf_generated h, hmade,
      static?_of_madeUp? hmade]
    exact List.count_singleton_self

/-- A made-up label is the symbol of a static only if it is that of the place to which a call
returns, and then the unit has the name of the callee and its mark. -/
theorem back_of_static?_eq_madeUp? {d : Placed} (hmade : madeUp? options n d = some name)
    (hstatic : c.static? = some name) :
    ∃ callee ∈ d.callee?, (n.site d).returnSymbol callee = name ∧ c.unit = callee ++ "$ret" := by
  obtain ⟨offset, rfl⟩ := Placed.exists_of_static?_eq_some hstatic
  obtain ⟨unit, function, op⟩ := d
  cases op with
  | call callee args =>
      have hback := Option.some.inj hmade
      exact ⟨callee, rfl, hback, unit_of_returnSymbol_eq hback⟩
  | compare r =>
      cases hstyle : options.compare with
      | absolute => simp [madeUp?, hstyle] at hmade
      | symbolic =>
          have hsame : (n.site ⟨unit, function, .compare r⟩).compareSymbol =
              Segment.staticSymbol c.unit offset := by
            simpa [madeUp?, hstyle] using hmade
          exact absurd hsame (compareSymbol_ne_staticSymbol _ _)
  | _ => cases hmade

/-- The halt label is not the symbol of a static. -/
theorem static?_ne_haltLabel (c : Placed) : c.static? ≠ some haltLabel := by
  intro hstatic
  obtain ⟨offset, hsymbol⟩ := Placed.exists_of_static?_eq_some hstatic
  exact append_toString_ne_haltLabel hsymbol.symm

/-- The labels that a run makes up belong each to one operation, or to the halt loop. Lines with a
name of the program are left aside. -/
structure MadeUpOnce (options : Options) (code : List Placed) (chunks : List (List Line)) :
    Prop where
  /-- The labels are those of the calls and comparisons, in their order, and the halt label. -/
  labels : labelsOf (generatedCode options code chunks) =
    allMadeUp options (startCounters options) code ++ [haltLabel]
  nodup : (labelsOf (generatedCode options code chunks)).Nodup
  defined : ∀ name ∈ labelsOf (generatedCode options code chunks),
    (generatedCode options code chunks).count (.label name) = 1
  /-- A label is used once, and wherever else it is the symbol of a static. -/
  used : ∀ name ∈ labelsOf (generatedCode options code chunks),
    (generatedCode options code chunks).count (.symbol name) =
      1 + (code.filterMap Placed.static?).count name
  /-- Only the place to which a call returns may have the symbol of a static. The unit of the static
  is named like the places after the calls of that function. -/
  static : ∀ name ∈ labelsOf (generatedCode options code chunks), ∀ c ∈ code,
    c.static? = some name → ∃ (i : Nat) (d : Placed), code[i]? = some d ∧ ∃ callee ∈ d.callee?,
      ((countersAt options code i).site d).returnSymbol callee = name ∧ c.unit = callee ++ "$ret"
  /-- The label of a comparison is not the symbol of a static, and is used once. -/
  compare : ∀ (i : Nat) d r, code[i]? = some d → d.op = .compare r →
    ∀ name ∈ madeUp? options (countersAt options code i) d,
      (∀ c ∈ code, c.static? ≠ some name) ∧
        (generatedCode options code chunks).count (.symbol name) = 1
  /-- The halt label is not the symbol of a static, and is used once. -/
  halt : (∀ c ∈ code, c.static? ≠ some haltLabel) ∧
    (generatedCode options code chunks).count (.symbol haltLabel) = 1
  /-- The lines of the operation that a label is made up for define it and use it once. -/
  site : ∀ (i : Nat) c lines, code[i]? = some c → chunks[i]? = some lines →
    ∀ name ∈ madeUp? options (countersAt options code i) c,
      (generatedOf c lines).count (.label name) = 1 ∧
        (generatedOf c lines).count (.symbol name) = 1
  /-- The halt loop defines the halt label and uses it once. -/
  loop : haltBatch.code.count (.label haltLabel) = 1 ∧ haltBatch.code.count (.symbol haltLabel) = 1

/-- The labels of a run, the halt label among them, are all different. -/
theorem nodup_labelsOf_generatedCode (h : lowerAll options n code = .ok chunks) :
    (labelsOf (generatedCode options code chunks)).Nodup := by
  rw [labelsOf_generatedCode h]
  apply List.nodup_append.mpr
  refine ⟨nodup_allMadeUp _ _ _, List.nodup_singleton _, ?_⟩
  intro name hname halt hhalt
  rw [List.mem_singleton.mp hhalt]
  exact (isFresh_of_mem hname).ne_haltLabel

theorem count_symbol_generatedCode (h : lowerAll options n code = .ok chunks)
    (hname : name ∈ labelsOf (generatedCode options code chunks)) :
    (generatedCode options code chunks).count (.symbol name) =
      1 + (code.filterMap Placed.static?).count name := by
  have hfree : predefined? name = none := by
    rw [labelsOf_generatedCode h] at hname
    rcases List.mem_append.mp hname with hmade | hhalt
    · exact (isFresh_of_mem hmade).predefined?
    · rw [List.mem_singleton.mp hhalt]
      decide
  rw [count_symbol _ hfree, count_usesOf_generatedCode h, ← labelsOf_generatedCode h,
    List.count_eq_one_of_mem (nodup_labelsOf_generatedCode h) hname]

/-- A label that is not the symbol of a static is used once. -/
theorem count_symbol_eq_one (h : lowerAll options n code = .ok chunks)
    (hname : name ∈ labelsOf (generatedCode options code chunks))
    (hstatic : ∀ c ∈ code, c.static? ≠ some name) :
    (generatedCode options code chunks).count (.symbol name) = 1 := by
  have hnone : name ∉ code.filterMap Placed.static? := by
    intro hmem
    obtain ⟨c, hc, hsymbol⟩ := List.mem_filterMap.mp hmem
    exact hstatic c hc hsymbol
  rw [count_symbol_generatedCode h hname, List.count_eq_zero_of_not_mem hnone]

theorem madeUpOnce_of_lowerAll (h : lowerAll options (startCounters options) code = .ok chunks) :
    MadeUpOnce options code chunks := by
  have hlabels := labelsOf_generatedCode h
  refine {
    labels := hlabels
    nodup := nodup_labelsOf_generatedCode h
    defined := ?defined
    used := fun name => count_symbol_generatedCode h
    static := ?static
    compare := ?compare
    halt := ?halt
    site := ?site
    loop := by decide }
  case defined =>
    intro name hname
    rw [count_label]
    exact List.count_eq_one_of_mem (nodup_labelsOf_generatedCode h) hname
  case static =>
    intro name hname c _ hstatic
    rw [hlabels] at hname
    rcases List.mem_append.mp hname with hmade | hhalt
    · obtain ⟨i, d, hd, hmade⟩ := mem_allMadeUp_iff.mp hmade
      exact ⟨i, d, hd, back_of_static?_eq_madeUp? hmade hstatic⟩
    · rw [List.mem_singleton.mp hhalt] at hstatic
      exact absurd hstatic (static?_ne_haltLabel c)
  case compare =>
    intro i d r hd hop name hname
    have hstatic : ∀ c ∈ code, c.static? ≠ some name := by
      intro c _ hsymbol
      obtain ⟨callee, hcallee, -⟩ := back_of_static?_eq_madeUp? hname hsymbol
      simp [Placed.callee?, hop] at hcallee
    refine ⟨hstatic, count_symbol_eq_one h ?_ hstatic⟩
    rw [hlabels]
    exact List.mem_append_left _ (mem_allMadeUp_iff.mpr ⟨i, d, hd, hname⟩)
  case halt =>
    refine ⟨fun c _ => static?_ne_haltLabel c, count_symbol_eq_one h ?_ fun c _ =>
      static?_ne_haltLabel c⟩
    rw [hlabels]
    exact List.mem_append_right _ (List.mem_singleton_self haltLabel)
  case site =>
    intro i c lines hc hlines name hname
    obtain ⟨batches, hlower, hchunk⟩ := getElem?_lowerAll h hc
    obtain rfl : Codegen.codeOf batches = lines := Option.some.inj (hchunk.symm.trans hlines)
    exact count_generatedOf hlower hname

namespace Generator

/-- Whatever a generator is asked, the labels that it makes up are all different, and each of them
has one line that defines it and one that uses it, both at its place. Only a static of a unit that
is named like the places after the calls of a function may have the same symbol as one of these. -/
theorem made_up_labels_unique (options : Options) (requests : List Request) :
    ∃ chunks, lowerAll options (startCounters options)
        ((new options).codeOfRequests requests) = .ok chunks ∧
      List.Forall₂ Spells ((new options).after requests).finish (runCode options chunks) ∧
      MadeUpOnce options ((new options).codeOfRequests requests) chunks := by
  obtain ⟨chunks, hlowered, hspells, -⟩ := spells_history options requests
  exact ⟨chunks, hlowered, hspells, madeUpOnce_of_lowerAll hlowered⟩

/-- A unit with a name like a place after a call of `f` uses a static and calls `f`. -/
def returnStatic : List Request :=
  [.beginUnit "f$ret", .command ⟨.push, some "static", some 0, ⟨1, "push static 0"⟩⟩,
    .command ⟨.call, some "f", some 0, ⟨2, "call f 0"⟩⟩,
    .command ⟨.function, some "f", some 0, ⟨3, "function f 0"⟩⟩]

/-- The static is loaded by the symbol of the place that the call returns to. -/
theorem static_shares_return_symbol :
    (∃ chunks, lowerAll {} (startCounters {}) ((new {}).codeOfRequests returnStatic) = .ok chunks ∧
        "f$ret.0" ∈ labelsOf (generatedCode {} ((new {}).codeOfRequests returnStatic) chunks) ∧
        (generatedCode {} ((new {}).codeOfRequests returnStatic) chunks).count
          (.symbol "f$ret.0") = 2) ∧
      ((new { comments := false }).after returnStatic).finish.count "(f$ret.0)" = 1 ∧
      ((new { comments := false }).after returnStatic).finish.count "@f$ret.0" = 2 := by
  refine ⟨?_, by decide +kernel, by decide +kernel⟩
  have hcode : (new {}).codeOfRequests returnStatic =
      [⟨"f$ret", none, .push .static 0⟩, ⟨"f$ret", none, .call "f" 0⟩,
        ⟨"f$ret", none, .function "f" 0⟩] := by decide +kernel
  rw [hcode]
  have hcounted : (lowerAll {} (startCounters {})
      [⟨"f$ret", none, .push .static 0⟩, ⟨"f$ret", none, .call "f" 0⟩,
        ⟨"f$ret", none, .function "f" 0⟩]).toOption.any (fun chunks =>
      let lines := generatedCode {} [⟨"f$ret", none, .push .static 0⟩,
        ⟨"f$ret", none, .call "f" 0⟩, ⟨"f$ret", none, .function "f" 0⟩] chunks
      decide ("f$ret.0" ∈ labelsOf lines) && decide (lines.count (.symbol "f$ret.0") = 2)) =
        true := by
    decide +kernel
  obtain ⟨chunks, hlowered, hboth⟩ := exists_ok_of_any hcounted
  simp only [Bool.and_eq_true, decide_eq_true_eq] at hboth
  exact ⟨chunks, hlowered, hboth⟩

end Generator

end HackBackend.Codegen
