import HackBackend.Proofs.Asm.Rejection
import HackBackend.Proofs.Codegen.Placement
import HackBackend.Proofs.Codegen.Symbols

/-!
# When two labels of a run clash

All labels of a run share one space of names: the symbols of labels and functions, the symbols that
calls return to, those of comparisons, and the halt label. The numbers in the made-up ones keep
those apart from each other. The others are apart from them, and from each other, as far as no name
holds the `$` of a scope or ends like the label of a comparison: then a label is defined twice only
if two functions have one name, or two labels in scopes of one name.
-/

namespace HackBackend.Codegen

open Asm Vm StackMachine Text

/-- A name of the kind that is made up: one with a `$`, or with the end of a comparison label. -/
def Marked (name : String) : Prop :=
  '$' ∈ name.toList ∨ ∃ (start : String) (k : Nat), name = start ++ ":CMP_" ++ toString k

/-- The name of the operation is one of the kind that is made up. -/
def HasMark (c : Placed) : Prop :=
  ∃ name ∈ c.op.name?, Marked name

/-- A name with neither `$` nor `:` is not of that kind. -/
theorem not_marked {name : String} (hdollar : '$' ∉ name.toList) (hcolon : ':' ∉ name.toList) :
    ¬ Marked name := by
  rintro (hmem | ⟨start, k, rfl⟩)
  · exact hdollar hmem
  · exact hcolon (by simp)

/-- Two functions of one name, or two labels of one name in scopes of one name. -/
inductive SameName (c d : Placed) : Prop where
  | function {name : String} {locals locals' : Nat} (hc : c.op = .function name locals)
      (hd : d.op = .function name locals')
  | label {name : String} (hc : c.op = .label name) (hd : d.op = .label name)
      (hscope : c.scope = d.scope)

section

variable {options : Options} {n : Counters} {code : List Placed} {chunks : List (List Line)}

/-- A label that occurs twice in the code of some operations is defined by two of them. -/
theorem exists_defines_of_sublist (h : lowerAll options n code = .ok chunks) {name : String}
    (hname : [name, name].Sublist (labelsOf chunks.flatten)) :
    ∃ i j c d, i < j ∧ code[i]? = some c ∧ code[j]? = some d ∧
      Defines options (n.afterAll options (code.take i)) c name ∧
      Defines options (n.afterAll options (code.take j)) d name := by
  induction code generalizing n chunks with
  | nil =>
      obtain rfl := Except.ok.inj h
      cases hname
  | cons c rest ih =>
      obtain ⟨batches, hlower, later, hlater, rfl⟩ := lowerAll_cons_eq_ok_iff.mp h
      rw [List.flatten_cons, labelsOf_append, labelsOf_of_lower hlower] at hname
      have hshift (hlabels : [name, name].Sublist (labelsOf later.flatten)) :
          ∃ i j first last, i < j ∧ (c :: rest)[i]? = some first ∧ (c :: rest)[j]? = some last ∧
            Defines options (n.afterAll options ((c :: rest).take i)) first name ∧
            Defines options (n.afterAll options ((c :: rest).take j)) last name := by
        obtain ⟨i, j, first, last, hij, hfirst, hlast, hboth⟩ := ih hlater hlabels
        exact ⟨i + 1, j + 1, first, last, Nat.succ_lt_succ hij, hfirst, hlast, hboth⟩
      obtain hnil | ⟨label, hsingle, hdefines⟩ := labels_eq_nil_or_singleton options n c
      · rw [hnil] at hname
        exact hshift hname
      · rw [hsingle, List.singleton_append] at hname
        -- The label of this operation is the first of the two, or both of them come later.
        rcases List.sublist_cons_iff.mp hname with hboth | ⟨_, hcons, hone⟩
        · exact hshift hboth
        · obtain ⟨rfl, rfl⟩ := List.cons.inj hcons
          obtain ⟨j, d, hd, hlast⟩ := exists_defines_of_mem hlater (List.singleton_sublist.mp hone)
          exact ⟨0, j + 1, c, d, Nat.succ_pos j, rfl, hd, hdefines, hlast⟩

end

/-! ### The symbols of labels and functions -/

section

variable {c d : Placed} {symbol : String} (hc : ¬ HasMark c) (hsymbol : c.symbol? = some symbol)

include hc hsymbol

/-- A symbol without a mark in its name is that of a label or of a function without a mark. -/
theorem label_or_function_of_symbol :
    (∃ name, c.op = .label name ∧ ¬ Marked name ∧ symbol = c.labelSymbol name) ∨
      ∃ locals, c.op = .function symbol locals ∧ ¬ Marked symbol := by
  obtain ⟨unit, function, op⟩ := c
  cases op with
  | label name =>
      exact .inl ⟨name, rfl, fun hmark => hc ⟨name, rfl, hmark⟩, (Option.some.inj hsymbol).symm⟩
  | function name locals =>
      obtain rfl := Option.some.inj hsymbol
      exact .inr ⟨locals, rfl, fun hmark => hc ⟨_, rfl, hmark⟩⟩
  | _ => cases hsymbol

theorem symbol_ne_compareSymbol (site : Site) : symbol ≠ site.compareSymbol := by
  rintro rfl
  rcases label_or_function_of_symbol hc hsymbol with ⟨name, -, hmark, hsame⟩ | ⟨locals, -, hmark⟩
  · obtain ⟨start, hname⟩ := exists_of_labelSymbol_eq hsame.symm
    exact hmark (.inr ⟨start, _, hname⟩)
  · exact hmark (.inr ⟨site.unit, site.compares, rfl⟩)

theorem symbol_ne_returnSymbol (hfree : ∀ name, c.op = .label name → isReserved name = false)
    (site : Site) (callee : String) : symbol ≠ site.returnSymbol callee := by
  rintro rfl
  rcases label_or_function_of_symbol hc hsymbol with ⟨name, hop, hmark, hsame⟩ | ⟨locals, -, hmark⟩
  · have hreserved := isReserved_of_labelSymbol_eq (fun h => hmark (.inl h)) hsame.symm
    simp [hfree name hop] at hreserved
  · exact hmark (.inl (by simp [Site.returnSymbol]))

theorem symbol_ne_haltLabel (hscope : isSymbol c.scope.toList) : symbol ≠ haltLabel := by
  rintro rfl
  rcases label_or_function_of_symbol hc hsymbol with ⟨name, -, hmark, hsame⟩ | ⟨locals, -, hmark⟩
  · exact labelSymbol_ne_haltLabel hscope (fun h => hmark (.inl h)) hsame.symm
  · exact hmark (.inl (by decide))

theorem sameName_of_symbol (hd : ¬ HasMark d) (hother : d.symbol? = some symbol) :
    SameName c d := by
  rcases label_or_function_of_symbol hc hsymbol with
    ⟨name, hop, hmark, hsame⟩ | ⟨locals, hop, hmark⟩
  · rcases label_or_function_of_symbol hd hother with
      ⟨label, hop', hmark', hsame'⟩ | ⟨locals, -, hmark'⟩
    · obtain ⟨hscope, rfl⟩ := labelSymbol_inj (fun h => hmark (.inl h)) (fun h => hmark' (.inl h))
        (hsame.symm.trans hsame')
      exact .label hop hop' hscope
    · exact absurd (.inl (by simp [hsame, Placed.labelSymbol])) hmark'
  · rcases label_or_function_of_symbol hd hother with ⟨label, -, -, hsame'⟩ | ⟨locals', hop', -⟩
    · exact absurd (.inl (by simp [hsame', Placed.labelSymbol])) hmark
    · exact .function hop hop'

end

/-! ### The numbers in made-up labels -/

section

variable {options : Options} {code : List Placed}

theorem countersAt_mono {i j : Nat} (h : i ≤ j) :
    (countersAt options code i).calls ≤ (countersAt options code j).calls ∧
      (countersAt options code i).compares ≤ (countersAt options code j).compares := by
  induction h with
  | refl => exact ⟨Nat.le_refl _, Nat.le_refl _⟩
  | @step j _ ih =>
      cases hd : code[j]? with
      | none =>
          have hsame : countersAt options code (j + 1) = countersAt options code j := by
            rw [countersAt, List.take_add_one, hd]
            simp [countersAt]
          rwa [hsame]
      | some d =>
          rw [countersAt_succ hd]
          exact ⟨Nat.le_add_right_of_le ih.1, Nat.le_add_right_of_le ih.2⟩

/-- The operations after one that makes up a label find its number used. -/
theorem countersAt_of_lt {i j : Nat} {c : Placed} (hij : i < j) (hc : code[i]? = some c) :
    (countersAt options code i).calls + c.calls ≤ (countersAt options code j).calls ∧
      (countersAt options code i).compares + options.compareLabels c ≤
        (countersAt options code j).compares := by
  have hmono := @countersAt_mono options code (i + 1) j hij
  rwa [countersAt_succ hc] at hmono

theorem calls_of_callee {c : Placed} {callee : String} (h : c.callee? = some callee) :
    c.calls = 1 := by
  obtain ⟨unit, function, op⟩ := c
  cases op with
  | call name args => rfl
  | _ => cases h

variable {units : List (String × Text.Source)} (hunits : ∀ unit ∈ units, isSymbol unit.1.toList)

include hunits in
theorem isSymbol_scope_of_mem {c : Placed} (hc : c ∈ codeOfUnits units) :
    isSymbol c.scope.toList := by
  obtain ⟨hnamed, unit, hunit, hname⟩ := named_of_mem_codeOfUnits c hc
  exact @isSymbol_scope ⟨0, 0, 0⟩ c (hname ▸ hunits unit hunit) hnamed

theorem isReserved_of_mem {c : Placed} (hc : c ∈ codeOfUnits units) {name : String}
    (hop : c.op = .label name) : isReserved name = false := by
  obtain ⟨command, hcommand⟩ := exists_command_of_mem_codeOfUnits hc
  exact isReserved_of_operation (hop ▸ hcommand)

/-- Two operations define one label only by symbols of theirs: made-up labels are all different. -/
theorem clash_of_defines {i j : Nat} (hij : i < j) {c d : Placed}
    (hc : (codeOfUnits units)[i]? = some c) (hd : (codeOfUnits units)[j]? = some d) {name : String}
    (hfirst : Defines options (countersAt options (codeOfUnits units) i) c name)
    (hlast : Defines options (countersAt options (codeOfUnits units) j) d name) :
    (c.symbol? = some name ∧ d.symbol? = some name ∧ SameName c d) ∨
      (c.symbol? = some name ∧ HasMark c) ∨ (d.symbol? = some name ∧ HasMark d) := by
  have hcFree := @isReserved_of_mem units c (List.mem_of_getElem? hc)
  have hdFree := @isReserved_of_mem units d (List.mem_of_getElem? hd)
  obtain ⟨hcalls, hcompares⟩ := @countersAt_of_lt options _ i j c hij hc
  rcases hfirst with hown | ⟨hcallee, hback⟩ | ⟨hone, hcompare⟩
  · by_cases hmark : HasMark c
    · exact .inr (.inl ⟨hown, hmark⟩)
    rcases hlast with hother | ⟨-, hback⟩ | ⟨-, hcompare⟩
    · by_cases hmark' : HasMark d
      · exact .inr (.inr ⟨hother, hmark'⟩)
      · exact .inl ⟨hown, hother, sameName_of_symbol hmark hown hmark' hother⟩
    · exact absurd hback.symm (symbol_ne_returnSymbol hmark hown @hcFree _ _)
    · exact absurd hcompare.symm (symbol_ne_compareSymbol hmark hown _)
  · rcases hlast with hother | ⟨-, hback'⟩ | ⟨-, hcompare⟩
    · refine .inr (.inr ⟨hother, by_contra fun hmark => ?_⟩)
      exact symbol_ne_returnSymbol hmark hother @hdFree _ _ hback.symm
    · -- The first call has used its number up before the second one comes.
      have hsame : (countersAt options (codeOfUnits units) i).calls =
          (countersAt options (codeOfUnits units) j).calls :=
        (returnSymbol_inj (hback.trans hback'.symm)).2
      rw [calls_of_callee hcallee] at hcalls
      omega
    · exact absurd (hback.trans hcompare.symm) (returnSymbol_ne_compareSymbol _)
  · rcases hlast with hother | ⟨-, hback⟩ | ⟨-, hcompare'⟩
    · refine .inr (.inr ⟨hother, by_contra fun hmark => ?_⟩)
      exact symbol_ne_compareSymbol hmark hother _ hcompare.symm
    · exact absurd (hback.trans hcompare.symm) (returnSymbol_ne_compareSymbol _)
    · have hsame : (countersAt options (codeOfUnits units) i).compares =
          (countersAt options (codeOfUnits units) j).compares :=
        (compareSymbol_inj (hcompare.trans hcompare'.symm)).2
      rw [hone] at hcompares
      omega

include hunits in
/-- Only a symbol with a mark in its name can be the halt label. -/
theorem hasMark_of_defines_haltLabel {n : Counters} {c : Placed} (hc : c ∈ codeOfUnits units)
    (h : Defines options n c haltLabel) : c.symbol? = some haltLabel ∧ HasMark c := by
  rcases h with hown | ⟨-, hback⟩ | ⟨-, hcompare⟩
  · refine ⟨hown, by_contra fun hmark => ?_⟩
    exact symbol_ne_haltLabel hmark hown (isSymbol_scope_of_mem hunits hc) rfl
  · exact absurd hback (returnSymbol_ne_haltLabel _)
  · exact absurd hcompare compareSymbol_ne_haltLabel

include hunits in
/-- A label that is defined twice in a run is the symbol of an operation: if it is not that of two
operations with the same name, it is that of one with a mark in its name. -/
theorem clash_of_sublist {chunks : List (List Line)}
    (hlowered : lowerAll options (startCounters options) (codeOfUnits units) = .ok chunks)
    {name : String} (h : [name, name].Sublist (labelsOf (runCode options chunks))) :
    (∃ (i j : Nat) (c d : Placed), i < j ∧ (codeOfUnits units)[i]? = some c ∧
        (codeOfUnits units)[j]? = some d ∧ c.symbol? = some name ∧ d.symbol? = some name ∧
        SameName c d) ∨
      ∃ c ∈ codeOfUnits units, c.symbol? = some name ∧ HasMark c := by
  rw [labelsOf_runCode] at h
  obtain ⟨first, last, hsplit, hfirst, hlast⟩ := List.sublist_append_iff.mp h
  rcases List.sublist_singleton.mp hlast with rfl | rfl
  · rw [List.append_nil] at hsplit
    subst hsplit
    obtain ⟨i, j, c, d, hij, hc, hd, hdefines, hother⟩ := exists_defines_of_sublist hlowered hfirst
    rcases clash_of_defines hij hc hd hdefines hother with hsame | ⟨hown, hmark⟩ | ⟨hown, hmark⟩
    · exact .inl ⟨i, j, c, d, hij, hc, hd, hsame⟩
    · exact .inr ⟨c, List.mem_of_getElem? hc, hown, hmark⟩
    · exact .inr ⟨d, List.mem_of_getElem? hd, hown, hmark⟩
  · obtain ⟨hone, hname⟩ : [name] = first ∧ [name] = [haltLabel] :=
      List.append_inj' (by simpa using hsplit) rfl
    obtain rfl : name = haltLabel := by simpa using hname
    have hmem := hfirst.subset (hone ▸ List.mem_singleton_self _)
    obtain ⟨j, c, hc, hdefines⟩ := exists_defines_of_mem hlowered hmem
    have hc := List.mem_of_getElem? hc
    exact .inr ⟨c, hc, hasMark_of_defines_haltLabel hunits hc hdefines⟩

/-- If assembling the text of a run reports a duplicate label, then two functions of the run have
that name, or two labels with that symbol stand in scopes of one name, or it is the symbol of a
label or function with a mark in its name. The symbols of all other labels and functions are no
made-up labels, and they are the same only for functions of one name and for labels of one name in
scopes of one name. -/
theorem clash_of_duplicateLabel {texts : List String}
    (hunits : ∀ unit ∈ units, isSymbol unit.1.toList) (h : generate options units = .ok texts) :
    (∀ name line, assemble texts = .error (.located (.duplicateLabel name) line) →
      (∃ (i j : Nat) (c d : Placed), i < j ∧ (codeOfUnits units)[i]? = some c ∧
          (codeOfUnits units)[j]? = some d ∧ c.symbol? = some name ∧ d.symbol? = some name ∧
          SameName c d) ∨
        ∃ c ∈ codeOfUnits units, c.symbol? = some name ∧ HasMark c) ∧
    (∀ c ∈ codeOfUnits units, ¬ HasMark c → ∀ symbol ∈ c.symbol?, symbol ≠ haltLabel ∧
      ∀ (site : Site) (callee : String), symbol ≠ site.returnSymbol callee ∧
        symbol ≠ site.compareSymbol) ∧
    ∀ c ∈ codeOfUnits units, ∀ d ∈ codeOfUnits units, ¬ HasMark c → ¬ HasMark d →
      ∀ symbol ∈ c.symbol?, symbol ∈ d.symbol? → SameName c d := by
  refine ⟨fun name line herror => ?_, fun c hc hmark symbol hsymbol => ?_, ?_⟩
  · obtain ⟨-, chunks, hlowered, hspells⟩ := spells_of_generate h
    obtain ⟨hlines, -⟩ := linesOf_of_spells hspells (readable_runCode hunits hlowered)
    have htwice := sublist_labelsOf_of_duplicateLabel herror
    rw [hlines] at htwice
    exact clash_of_sublist hunits hlowered htwice
  · have hfree := @isReserved_of_mem units c hc
    refine ⟨symbol_ne_haltLabel hmark hsymbol (isSymbol_scope_of_mem hunits hc), ?_⟩
    exact fun site callee => ⟨symbol_ne_returnSymbol hmark hsymbol @hfree site callee,
      symbol_ne_compareSymbol hmark hsymbol site⟩
  · exact fun c _ d _ hc hd symbol hsymbol hother => sameName_of_symbol hc hsymbol hd hother

end

/-- A unit with the same label twice. -/
def labelTwice : List (String × Text.Source) :=
  [("Main", .ofString "label A\nlabel A")]

theorem clash_labelTwice :
    ∃ texts line, generate { comments := false } labelTwice = .ok texts ∧
      assemble texts = .error (.located (.duplicateLabel "Main$A") line) ∧
      ∃ (i j : Nat) (c d : Placed), i < j ∧ (codeOfUnits labelTwice)[i]? = some c ∧
        (codeOfUnits labelTwice)[j]? = some d ∧ SameName c d := by
  have hgenerate : generate { comments := false } labelTwice =
      .ok ["(Main$A)", "(Main$A)", "($HALT)", "@$HALT", "0;JMP"] :=
    toOption_eq_some_iff.mp (by decide +kernel)
  have herror : assemble ["(Main$A)", "(Main$A)", "($HALT)", "@$HALT", "0;JMP"] =
      .error (.located (.duplicateLabel "Main$A") ⟨2, "(Main$A)"⟩) := by
    rfl
  have hnames : ∀ c ∈ codeOfUnits labelTwice, ∀ name ∈ c.op.name?,
      '$' ∉ name.toList ∧ ':' ∉ name.toList := by decide +kernel
  have hplain : ∀ c ∈ codeOfUnits labelTwice, ¬ HasMark c := by
    rintro c hc ⟨name, hname, hmark⟩
    obtain ⟨hdollar, hcolon⟩ := hnames c hc name hname
    exact not_marked hdollar hcolon hmark
  refine ⟨_, _, hgenerate, herror, ?_⟩
  rcases (clash_of_duplicateLabel (by decide) hgenerate).1 _ _ herror with
    ⟨i, j, c, d, hij, hc, hd, -, -, hsame⟩ | ⟨c, hc, -, hmark⟩
  · exact ⟨i, j, c, d, hij, hc, hd, hsame⟩
  · exact absurd hmark (hplain c hc)

/-- Two functions of one name, or two labels of one name in one function or outside all functions
of one unit. -/
def isRepeated (c d : Placed) : Bool :=
  match c.op, d.op with
  | .function name _, .function other _ => name = other
  | .label name, .label other =>
      name = other && c.function = d.function && (c.function.isSome || c.unit = d.unit)
  | _, _ => false

/-- A run is rejected for a duplicate label although nothing is repeated in it. -/
def ClashesUnrepeated (options : Options) (units : List (String × Text.Source)) : Prop :=
  (∀ unit ∈ units, isSymbol unit.1.toList) ∧
    (codeOfUnits units).Pairwise (fun c d => isRepeated c d = false) ∧
    ∃ texts name line, generate options units = .ok texts ∧
      assemble texts = .error (.located (.duplicateLabel name) line)

theorem clashesUnrepeated_of_assemble {options : Options} {units : List (String × Text.Source)}
    (hnames : ∀ unit ∈ units, isSymbol unit.1.toList)
    (hunrepeated : (codeOfUnits units).Pairwise (fun c d => isRepeated c d = false))
    (hrejected : (generate options units).toOption.any (fun texts =>
      match assemble texts with
      | .error (.located (.duplicateLabel _) _) => true
      | _ => false) = true) : ClashesUnrepeated options units := by
  refine ⟨hnames, hunrepeated, ?_⟩
  obtain ⟨texts, hgenerate, herror⟩ := exists_ok_of_any hrejected
  split at herror
  case h_1 name line hassemble => exact ⟨texts, name, line, hgenerate, hassemble⟩
  case h_2 => cases herror

/-- A function may have the name of its unit, the name of a function or of a label may hold the `$`
of a scope, and a function may be named like a comparison: each of these takes a symbol that the run
gives to something else. -/
theorem lookalikes_clash :
    ClashesUnrepeated { comments := false }
        [("Main", .ofString "label A\nfunction Main 0\nlabel A")] ∧
      ClashesUnrepeated { comments := false }
        [("Main", .ofString "label A\nfunction Main$A 0")] ∧
      ClashesUnrepeated { comments := false }
        [("Main", .ofString "label A$B"), ("Main$A", .ofString "label B")] ∧
      ClashesUnrepeated { comments := false, compare := .symbolic }
        [("Main", .ofString "eq\nfunction Main:CMP_0 0")] := by
  refine ⟨?_, ?_, ?_, ?_⟩
  all_goals
    exact clashesUnrepeated_of_assemble (by decide +kernel) (by decide +kernel) (by decide +kernel)

end HackBackend.Codegen
