import HackBackend.Proofs.Codegen.Building
import HackBackend.Proofs.Codegen.Labels

/-!
# Comparisons by address and by label

A comparison may name the place where it goes on by its address or by a label of its own. A
program that can be built with labels can be built with addresses, and the two differ only in
those labels.
-/

namespace HackBackend

namespace Asm

/-- A label that some lines define has an address. -/
theorem Assembled.exists_label {code : List Line} {program : Program}
    (h : Assembled code program) {name : String} (hname : name ∈ labelsOf code) :
    ∃ n, program.labels[name]? = some n := by
  obtain ⟨before, after, rfl⟩ := List.append_of_mem (mem_labelsOf.mp hname)
  exact ⟨_, h.label⟩

end Asm

namespace Codegen

open Asm Vm StackMachine Text

/-- The same options with another style of comparison. -/
def Options.withCompare (options : Options) (style : CompareStyle) : Options :=
  { options with compare := style }

/-- The labels that the comparisons of a run make up in the symbolic style. -/
def Options.comparisonLabels (options : Options) (code : List Placed) : List String :=
  allCompareLabels (options.withCompare .symbolic)
    (startCounters (options.withCompare .symbolic)) code

/-- The code of an operation that is no comparison does not depend on the style of comparison. -/
theorem lower_eq_of_ne_compare {options options' : Options} {n n' : Counters} {c : Placed}
    (hcompare : ∀ r, c.op ≠ .compare r) (hbranch : options'.branch = options.branch)
    (hcalls : n'.calls = n.calls) :
    lower options' n'.rom (n'.site c) c.op = lower options n.rom (n.site c) c.op := by
  obtain ⟨unit, function, op⟩ := c
  cases op with
  | compare r => exact absurd rfl (hcompare r)
  | ifGoto name =>
      simp only [lower, hbranch]
      rfl
  | call name args =>
      simp only [lower, Site.returnSymbol, Counters.site, hcalls]
  | _ => rfl

/-- The labels that comparisons make up are not used by any other operation. -/
theorem not_mem_of_mentions {names : List String}
    (hnames : ∀ name ∈ names, ∃ unit k, name = unit ++ ":CMP_" ++ toString (k : Nat))
    {n : Counters} {c : Placed} (hplace : ∀ name ∈ placeLabels n c, name ∉ names)
    (htarget : ∀ name ∈ c.target?, name ∉ names) {name : String} (h : Mentions n c name) :
    name ∉ names := by
  intro hname
  cases h with
  | register hregister =>
      obtain ⟨unit, k, rfl⟩ := hnames name hname
      have hfree : predefined? (unit ++ ":CMP_" ++ toString k) = none :=
        predefined?_eq_none_of_mem (.inr rfl) (by simp)
      rw [hfree] at hregister
      cases hregister
  | static offset =>
      obtain ⟨unit, k, hsame⟩ := hnames _ hname
      have hhead : c.unit ++ "." = unit ++ ":CMP_" :=
        head_eq_of_append_toString (by simp) (by simp) hsame
      have hlast := congrArg (fun s : String => s.toList.getLast?) hhead
      simp at hlast
  | place hmem => exact hplace name hmem hname
  | target hsome => exact htarget name hsome hname

/-- Where a comparison with a label stands in an assembled text, the same comparison with the
address of that label fits, and its code is that of the other one without the label. -/
theorem lower_compare_absolute {options : Options} {names : List String} {program : Program}
    {before after : List Line} {n n' : Counters} {c : Placed} {r : Relation}
    {batches : List Batch} (hop : c.op = .compare r)
    (hlower : lower (options.withCompare .symbolic) n.rom (n.site c) c.op = .ok batches)
    (hassembled : Assembled (before ++ Codegen.codeOf batches ++ after) program)
    (hbefore : (instructionsOf before).length = n.rom) (hrom : n'.rom = n.rom)
    (hmem : (n.site c).compareSymbol ∈ names) (hstack : "SP" ∉ names) :
    ∃ absolute, lower (options.withCompare .absolute) n'.rom (n'.site c) c.op = .ok absolute ∧
      Codegen.codeOf absolute = inlineLabels names program.address (Codegen.codeOf batches) := by
  rw [hop] at hlower ⊢
  obtain ⟨-, rfl⟩ := lower_compare_eq_ok_iff.mp hlower
  rw [codeOf_single] at hassembled ⊢
  have hlabel : program.labels[(n.site c).compareSymbol]? = some (n.rom + compareLength) := by
    have hsplit : before ++ (compareCode r (.symbol (n.site c).compareSymbol) ++
          [.label (n.site c).compareSymbol]) ++ after =
        (before ++ compareCode r (.symbol (n.site c).compareSymbol)) ++
          .label (n.site c).compareSymbol :: after := by simp
    have hassembled' : Assembled ((before ++ compareCode r (.symbol (n.site c).compareSymbol)) ++
        .label (n.site c).compareSymbol :: after) program := hsplit ▸ hassembled
    have hfound := hassembled'.label
    rw [instructionsOf_append, List.length_append, hbefore] at hfound
    exact hfound
  have hfree : predefined? (n.site c).compareSymbol = none :=
    predefined?_eq_none_of_mem (.inr rfl) (by simp [Site.compareSymbol])
  have haddress := Program.address_of_label hfree hlabel
  have hfits : n'.rom + compareLength ≤ maxLiteral := by
    have hbound := hassembled.bound hlabel
    rw [hrom]
    exact Nat.le_of_lt_succ hbound
  refine ⟨_, lower_compare_eq_ok_iff.mpr ⟨fun _ => hfits, rfl⟩, ?_⟩
  rw [codeOf_single]
  simp [compareTarget, compareLabel, Options.withCompare, compareCode, popD, Line.symbol,
    Line.store, Line.jump, inlineLabels_label, inlineAddress, Instruction.map,
    hmem, hstack, haddress, hrom]

/-- What the symbolic style makes of an operation, the absolute one makes without labels. -/
theorem exists_lower_absolute {options : Options} {names : List String} {program : Program}
    (hnames : ∀ name ∈ names, ∃ unit k, name = unit ++ ":CMP_" ++ toString (k : Nat))
    {before after : List Line} {n n' : Counters} {c : Placed} {batches : List Batch}
    (hlower : lower (options.withCompare .symbolic) n.rom (n.site c) c.op = .ok batches)
    (hassembled : Assembled (before ++ Codegen.codeOf batches ++ after) program)
    (hbefore : (instructionsOf before).length = n.rom) (hrom : n'.rom = n.rom)
    (hcalls : n'.calls = n.calls)
    (hcompare : ∀ name ∈ compareLabels (options.withCompare .symbolic) n c, name ∈ names)
    (hplace : ∀ name ∈ placeLabels n c, name ∉ names)
    (htarget : ∀ name ∈ c.target?, name ∉ names) :
    ∃ absolute, lower (options.withCompare .absolute) n'.rom (n'.site c) c.op = .ok absolute ∧
      Codegen.codeOf absolute = inlineLabels names program.address (Codegen.codeOf batches) := by
  by_cases hop : ∃ r, c.op = .compare r
  · obtain ⟨r, hop⟩ := hop
    have hmem : (n.site c).compareSymbol ∈ names := by
      refine hcompare _ ?_
      simp [compareLabels, hop, compareLabel, Options.withCompare]
    have hstack : "SP" ∉ names :=
      not_mem_of_mentions hnames hplace htarget (.register (by decide))
    exact lower_compare_absolute hop hlower hassembled hbefore hrom hmem hstack
  · have hother : ∀ r, c.op ≠ .compare r := fun r hr => hop ⟨r, hr⟩
    refine ⟨batches, ?_, (inlineLabels_eq_self fun line hline name hname => ?_).symm⟩
    · rw [← hlower]
      exact lower_eq_of_ne_compare hother rfl hcalls
    · have hmentions := mentions_of_lower hother hlower line hline name hname
      exact not_mem_of_mentions hnames hplace htarget hmentions

/-- What the symbolic style makes of some operations, the absolute one makes without labels. -/
theorem exists_lowerAll_absolute {options : Options} {names : List String} {program : Program}
    (hnames : ∀ name ∈ names, ∃ unit k, name = unit ++ ":CMP_" ++ toString (k : Nat))
    {code : List Placed} {before after : List Line} {n n' : Counters} {chunks : List (List Line)}
    (hlowered : lowerAll (options.withCompare .symbolic) n code = .ok chunks)
    (hassembled : Assembled (before ++ chunks.flatten ++ after) program)
    (hbefore : (instructionsOf before).length = n.rom) (hrom : n'.rom = n.rom)
    (hcalls : n'.calls = n.calls)
    (hcompare : ∀ name ∈ allCompareLabels (options.withCompare .symbolic) n code, name ∈ names)
    (hplace : ∀ name ∈ allPlaceLabels (options.withCompare .symbolic) n code, name ∉ names)
    (htarget : ∀ c ∈ code, ∀ name ∈ c.target?, name ∉ names) :
    ∃ absolute, lowerAll (options.withCompare .absolute) n' code = .ok absolute ∧
      absolute.flatten = inlineLabels names program.address chunks.flatten := by
  induction code generalizing before n n' chunks with
  | nil =>
      obtain rfl := Except.ok.inj hlowered
      exact ⟨[], rfl, rfl⟩
  | cons c rest ih =>
      obtain ⟨batches, hlower, later, hlater, rfl⟩ := lowerAll_cons_eq_ok_iff.mp hlowered
      obtain ⟨hcCompare, hrestCompare⟩ := List.forall_mem_append.mp hcompare
      obtain ⟨hcPlace, hrestPlace⟩ := List.forall_mem_append.mp hplace
      obtain ⟨hcTarget, hrestTarget⟩ := List.forall_mem_cons.mp htarget
      rw [List.flatten_cons] at hassembled
      have hfirst : Assembled (before ++ Codegen.codeOf batches ++ (later.flatten ++ after))
          program := by simpa using hassembled
      obtain ⟨absolute, habsolute, hcode⟩ := exists_lower_absolute hnames hlower hfirst hbefore
        hrom hcalls hcCompare hcPlace hcTarget
      have hbefore' : (instructionsOf (before ++ Codegen.codeOf batches)).length =
          (n.after (options.withCompare .symbolic) c).rom := by
        rw [instructionsOf_append, List.length_append, hbefore, length_instructionsOf,
          countP_of_lower hlower]
        rfl
      obtain ⟨last, hlast, hflatten⟩ := @ih (before ++ Codegen.codeOf batches) _
        (n'.after (options.withCompare .absolute) c) later hlater (by simpa using hassembled)
        hbefore' (by simp [Counters.after, hrom]) (by simp [Counters.after, hcalls])
        hrestCompare hrestPlace hrestTarget
      refine ⟨Codegen.codeOf absolute :: last,
        lowerAll_cons_eq_ok_iff.mpr ⟨absolute, habsolute, last, hlast, rfl⟩, ?_⟩
      rw [List.flatten_cons, List.flatten_cons, inlineLabels_append, hcode, hflatten]

/-- The labels of a run that assembles are defined once each: those of comparisons are others than
those of places and of the halt loop. -/
theorem not_mem_comparisonLabels {options : Options} {code : List Placed}
    {chunks : List (List Line)} {program : Program}
    (hlowered : lowerAll (options.withCompare .symbolic)
      (startCounters (options.withCompare .symbolic)) code = .ok chunks)
    (hassembled : Assembled (runCode (options.withCompare .symbolic) chunks) program) :
    (∀ name ∈ allPlaceLabels (options.withCompare .symbolic)
        (startCounters (options.withCompare .symbolic)) code,
      name ∉ options.comparisonLabels code) ∧
      haltLabel ∉ options.comparisonLabels code := by
  have hnodup := hassembled.nodup
  rw [runCode, labelsOf_append, labelsOf_append] at hnodup
  obtain ⟨hbody, -, hhalt⟩ := List.nodup_append.mp hnodup
  obtain ⟨-, hchunks, -⟩ := List.nodup_append.mp hbody
  have hperm := perm_labelsOf hlowered
  obtain ⟨-, -, hdisjoint⟩ := List.nodup_append.mp (hperm.nodup_iff.mp hchunks)
  refine ⟨fun name hplace hcompare => hdisjoint name hcompare name hplace rfl, fun hmem => ?_⟩
  have hlabel : haltLabel ∈ labelsOf chunks.flatten :=
    hperm.mem_iff.mpr (List.mem_append_left _ hmem)
  exact hhalt haltLabel (List.mem_append_right _ hlabel) haltLabel (by simp [haltBatch]) rfl

theorem labelsAt_comparisonLabels {options : Options} {code : List Placed}
    {chunks : List (List Line)} {program : Program}
    (hlowered : lowerAll (options.withCompare .symbolic)
      (startCounters (options.withCompare .symbolic)) code = .ok chunks)
    (hassembled : Assembled (runCode (options.withCompare .symbolic) chunks) program) :
    program.LabelsAt (options.comparisonLabels code) program.address := by
  intro name hname
  have hfree : predefined? name = none := by
    obtain ⟨unit, k, rfl⟩ := exists_of_mem_allCompareLabels hname
    exact predefined?_eq_none_of_mem (.inr rfl) (by simp)
  have hlabel : name ∈ labelsOf (runCode (options.withCompare .symbolic) chunks) := by
    have hmem := (perm_labelsOf hlowered).mem_iff.mpr (List.mem_append_left _ hname)
    rw [runCode, labelsOf_append, labelsOf_append]
    exact List.mem_append_left _ (List.mem_append_right _ hmem)
  obtain ⟨n, hn⟩ := hassembled.exists_label hlabel
  exact ⟨hfree, by rw [hn, Program.address_of_label hfree hn]⟩

/-- The bootstrap and the halt loop stay as they are without labels for comparisons. -/
theorem inlineLabels_runCode {options : Options} {names : List String} {address : String → Nat}
    (hstack : "SP" ∉ names) (hhalt : haltLabel ∉ names) (chunks : List (List Line)) :
    inlineLabels names address (runCode options chunks) =
      bootCode options ++ inlineLabels names address chunks.flatten ++ haltBatch.code := by
  have hboot : ∀ line ∈ bootCode options, AllNames (· ∉ names) line := by
    unfold bootCode
    split <;> simp [bootstrapBatch, hstack]
  have hend : ∀ line ∈ haltBatch.code, AllNames (· ∉ names) line := by
    simp [haltBatch, gotoCode, hhalt]
  rw [runCode, inlineLabels_append, inlineLabels_append, inlineLabels_eq_self hboot,
    inlineLabels_eq_self hend]

/-- A program that is built with labels for its comparisons is built with addresses as well, with
the same instructions, the same variables and all labels but those of the comparisons. -/
theorem build_absolute_of_symbolic {options : Options} {units : List (String × Text.Source)}
    {program : Program} (hunits : ∀ unit ∈ units, isSymbol unit.1.toList)
    (hlinked : ∀ c ∈ codeOfUnits units, ∀ name ∈ c.target?,
      ∃ d ∈ codeOfUnits units, d.symbol? = some name)
    (hbuild : build (options.withCompare .symbolic) units = .ok program) :
    ∃ absolute, build (options.withCompare .absolute) units = .ok absolute ∧
      absolute.instructions = program.instructions ∧ absolute.vars = program.vars ∧
      Lacks (options.comparisonLabels (codeOfUnits units)) absolute.labels program.labels := by
  obtain ⟨hfits, chunks, hlowered, layout, hplaced, rfl⟩ := (build_eq_ok_iff hunits).mp hbuild
  have hassembled := assembled_of_placeLines hplaced
  obtain ⟨hplace, hhalt⟩ := not_mem_comparisonLabels hlowered hassembled
  have hlabels := labelsAt_comparisonLabels hlowered hassembled
  have hstack : "SP" ∉ options.comparisonLabels (codeOfUnits units) := by
    intro hmem
    have hfree := (hlabels "SP" hmem).1
    cases hfree
  have htarget : ∀ c ∈ codeOfUnits units, ∀ name ∈ c.target?,
      name ∉ options.comparisonLabels (codeOfUnits units) := by
    intro c hc name hname
    obtain ⟨d, hd, hsymbol⟩ := hlinked c hc name hname
    exact hplace name (mem_allPlaceLabels_of_symbol hd hsymbol)
  obtain ⟨absolute, habsolute, hflatten⟩ :=
    exists_lowerAll_absolute (fun _ => exists_of_mem_allCompareLabels) hlowered hassembled
      (length_instructionsOf _) rfl rfl (fun _ => id) hplace htarget
  obtain ⟨inlined, hinlined, hinstructions, hvars, hlacks⟩ :=
    exists_placeLines_inlineLabels hplaced hlabels
  refine ⟨inlined.program, ?_, hinstructions, hvars, hlacks⟩
  refine (build_eq_ok_iff hunits).mpr ⟨hfits, absolute, habsolute, inlined, ?_, rfl⟩
  rw [inlineLabels_runCode hstack hhalt] at hinlined
  rw [runCode, hflatten]
  exact hinlined

/-- A unit that compares two numbers. -/
def threeBelowFour : List (String × Text.Source) :=
  [("Main", .ofString "push constant 3\npush constant 4\nlt\nlabel END\ngoto END")]

theorem codeOfUnits_threeBelowFour :
    codeOfUnits threeBelowFour = [⟨"Main", none, .push .constant 3⟩,
      ⟨"Main", none, .push .constant 4⟩, ⟨"Main", none, .compare .lt⟩,
      ⟨"Main", none, .label "END"⟩, ⟨"Main", none, .goto "END"⟩] := by
  decide +kernel

/-- That unit is built either way, and its comparison makes up one label. -/
theorem build_absolute_threeBelowFour :
    ∃ symbolic absolute, build { compare := .symbolic } threeBelowFour = .ok symbolic ∧
      build { compare := .absolute } threeBelowFour = .ok absolute ∧
      absolute.instructions = symbolic.instructions ∧ absolute.vars = symbolic.vars ∧
      Lacks ["Main:CMP_0"] absolute.labels symbolic.labels := by
  have hunits : ∀ unit ∈ threeBelowFour, isSymbol unit.1.toList := by decide
  have hlinked : ∀ c ∈ codeOfUnits threeBelowFour, ∀ name ∈ c.target?,
      ∃ d ∈ codeOfUnits threeBelowFour, d.symbol? = some name := by
    rw [codeOfUnits_threeBelowFour]
    decide
  obtain ⟨program, hbuild⟩ := @exists_build_of_layout? { compare := .symbolic } threeBelowFour _
    hunits (by decide +kernel) codeOfUnits_threeBelowFour (by decide +kernel)
  obtain ⟨absolute, habsolute, hinstructions, hvars, hlacks⟩ :=
    @build_absolute_of_symbolic {} threeBelowFour program hunits hlinked hbuild
  have hlabels : Options.comparisonLabels {} (codeOfUnits threeBelowFour) = ["Main:CMP_0"] := by
    rw [codeOfUnits_threeBelowFour]
    decide +kernel
  exact ⟨program, absolute, hbuild, habsolute, hinstructions, hvars, hlabels ▸ hlacks⟩

end Codegen

end HackBackend
