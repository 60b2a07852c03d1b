import HackBackend.Proofs.Cli.Production
import HackBackend.Proofs.Codegen.PhysicalLines
import HackBackend.Proofs.Codegen.References
import HackBackend.Proofs.Codegen.Validity

/-!
# The names that files give to their statics

A file is a unit that is named by the stem of its path, whatever directory it is in, and the stem
goes into the symbols of its statics as it is. The assembler drops the blanks of a symbol and does
not read every text as one. So the statics of two files are told apart by their stems without
blanks, and each line of the output can be read if these are symbols, or else if the output has
been verified.
-/

namespace HackBackend

open Asm Codegen Vm StackMachine Text

namespace Cli

/-! ### Stems -/

theorem slash_notMem_of_mem_pathParts {path part : String} (h : part ∈ pathParts path) :
    '/' ∉ part.toList := by
  obtain ⟨piece, hpiece, rfl⟩ := List.mem_map.mp h
  rw [String.toList_ofList]
  intro hslash
  exact absurd (not_of_mem_pieces hpiece '/' hslash) (by decide)

theorem mem_of_mem_stem {name : String} {c : Char} (h : c ∈ (splitName name).1.toList) :
    c ∈ name.toList := by
  rw [splitName] at h
  split at h
  · exact h
  · exact h
  · next before _ hbefore =>
      rw [String.toList_ofList, List.mem_reverse] at h
      have htail := List.tail_eq_tail?.trans (congrArg (Option.getD · []) hbefore)
      rw [Option.getD_some] at htail
      exact List.mem_reverse.mp (List.mem_of_mem_drop (List.mem_of_mem_tail (htail ▸ h)))

theorem slash_notMem_of_fileStem? {path stem : String} (h : fileStem? path = some stem) :
    '/' ∉ stem.toList := by
  obtain ⟨name, hname, rfl⟩ := Option.map_eq_some_iff.mp h
  intro hslash
  have hpart : name ∈ pathParts path := by
    rw [fileName?] at hname
    split at hname
    · next last hlast =>
        split at hname
        · cases hname
        · obtain rfl := Option.some.inj hname
          exact (List.mem_filter.mp (List.mem_of_getLast? hlast)).1
    · cases hname
  exact slash_notMem_of_mem_pathParts hpart (mem_of_mem_stem hslash)

end Cli

namespace Codegen

/-! ### The texts of instructions -/

/-- The texts of a run that are no labels, one for each instruction. -/
def instructionTexts (texts : List String) : List String :=
  texts.filter fun raw => !isLabelText raw

theorem forall₂_instructionTexts {texts : List String} {code : List Line}
    (h : List.Forall₂ Spells texts code) :
    List.Forall₂ (fun raw i => Spells raw (.instruction i)) (instructionTexts texts)
      (instructionsOf code) := by
  induction h with
  | nil => exact .nil
  | @cons raw line texts code hspells _ ih =>
      have hlabel := isLabelText_of_spells hspells
      rw [instructionTexts, List.filter_cons, hlabel]
      cases line with
      | instruction i => exact .cons hspells ih
      | label name => exact ih

/-- Where the code of a unit starts in that of a run. -/
def unitStart (units : List (String × Text.Source)) (file : Nat) : Nat :=
  (codeOfUnits (units.take file)).length

/-- A text that names the cell at which the code of a unit accesses a static. -/
def NamesStatic (options : Options) (units : List (String × Text.Source)) (texts : List String)
    (file offset : Nat) (raw : String) : Prop :=
  ∃ unit i c, units[file]? = some unit ∧ (codeOfUnit unit)[i]? = some c ∧
    (c.op = .push .static offset ∨ c.op = .pop .static offset) ∧
      (instructionTexts texts)[entry options (codeOfUnits units) (unitStart units file + i) +
        c.operandIndex]? = some raw

/-- The text of a run on some units as the assembler reads it, once it is the content of a file. -/
structure UnitsNamed (options : Options) (verified : Bool) (units : List (String × Text.Source))
    (texts : List String) (content : ByteArray) : Prop where
  /-- The lines of the file are the lines of the run, if no unit goes over more than one. -/
  written : ∃ text : String, text.toUTF8 = content ∧
    ((∀ unit ∈ units, OneLine unit.1) → endedLines text = texts)
  /-- Each line of the file can be read if it has been verified, or else if the names of the units
  are symbols without their blanks. -/
  accepted : (∀ unit ∈ units, OneLine unit.1) →
    (verified ∨ ∀ unit ∈ units, IsStem (spaceless unit.1)) →
      ∀ text : String, text.toUTF8 = content → ∀ raw ∈ endedLines text, ∀ number,
        ∃ line, Asm.readLine number raw = .ok (some line)
  /-- Each access to a static has a text that names the cell of it. -/
  named : ∀ (file : Nat) unit (i : Nat) c offset, units[file]? = some unit →
    (codeOfUnit unit)[i]? = some c → (c.op = .push .static offset ∨ c.op = .pop .static offset) →
      ∃ raw, (instructionTexts texts)[entry options (codeOfUnits units) (unitStart units file + i) +
        c.operandIndex]? = some raw
  /-- If this can be read, it is the symbol of the static, without the blanks of the unit. -/
  symbol : ∀ (file : Nat) unit offset raw, units[file]? = some unit →
    NamesStatic options units texts file offset raw →
      ∀ number line, Asm.readLine number raw = .ok (some line) →
        line = .symbol (Segment.staticSymbol (spaceless unit.1) offset)
  /-- Units whose names differ in more than their blanks have no static in common. -/
  distinct : ∀ (file : Nat) unit (file' : Nat) unit', units[file]? = some unit →
    units[file']? = some unit' → spaceless unit.1 ≠ spaceless unit'.1 →
      ∀ offset raw offset' raw', NamesStatic options units texts file offset raw →
        NamesStatic options units texts file' offset' raw' →
          ∀ number line, Asm.readLine number raw = .ok (some line) →
            ∀ number' line', Asm.readLine number' raw' = .ok (some line') → line ≠ line'

section

variable {options : Options} {units : List (String × Text.Source)} {texts : List String}

theorem exists_getElem?_of_forall₂ {α β : Type} {r : α → β → Prop} {xs : List α} {ys : List β}
    (h : List.Forall₂ r xs ys) {i : Nat} {y : β} (hy : ys[i]? = some y) :
    ∃ x, xs[i]? = some x ∧ r x y := by
  obtain ⟨hlt, rfl⟩ := List.getElem?_eq_some_iff.mp hy
  have hlt' : i < xs.length := h.length_eq ▸ hlt
  exact ⟨xs[i], List.getElem?_eq_getElem hlt', h.get hlt' hlt⟩

/-- The code of a unit stands in that of the run from its start on. -/
theorem getElem?_unitStart {file : Nat} {unit : String × Text.Source}
    (hunit : units[file]? = some unit) {i : Nat} {c : Placed}
    (hc : (codeOfUnit unit)[i]? = some c) :
    (codeOfUnits units)[unitStart units file + i]? = some c := by
  have hcode : codeOfUnits units = codeOfUnits (units.take file) ++
      (codeOfUnit unit ++ codeOfUnits (units.drop (file + 1))) := by
    conv => lhs; rw [eq_take_append_cons_drop hunit]
    simp [codeOfUnits]
  obtain ⟨hlt, -⟩ := List.getElem?_eq_some_iff.mp hc
  rw [hcode, unitStart, List.getElem?_append_right (Nat.le_add_right ..), Nat.add_sub_cancel_left,
    List.getElem?_append_left hlt, hc]

theorem unit_of_mem_codeOfUnit {unit : String × Text.Source} {c : Placed}
    (h : c ∈ codeOfUnit unit) : c.unit = unit.1 := by
  have hmem : c ∈ codeOfUnits [unit] := List.mem_flatMap.mpr ⟨unit, List.mem_singleton_self _, h⟩
  obtain ⟨-, other, hother, hname⟩ := named_of_mem_codeOfUnits c hmem
  rw [hname, List.mem_singleton.mp hother]

/-- The text that names the cell of an access spells the symbol of the static. -/
theorem exists_static_text (hgenerate : generate options units = .ok texts) {file : Nat}
    {unit : String × Text.Source} (hunit : units[file]? = some unit) {i : Nat} {c : Placed}
    (hc : (codeOfUnit unit)[i]? = some c) {offset : Nat}
    (hop : c.op = .push .static offset ∨ c.op = .pop .static offset) :
    ∃ raw, (instructionTexts texts)[entry options (codeOfUnits units) (unitStart units file + i) +
      c.operandIndex]? = some raw ∧ Spells raw (.symbol (Segment.staticSymbol unit.1 offset)) := by
  obtain ⟨-, chunks, hlowered, hspells⟩ := spells_of_generate hgenerate
  rw [← unit_of_mem_codeOfUnit (List.mem_of_getElem? hc)]
  have hstatic := Placed.static?_eq_some_iff.mpr ⟨offset, hop, rfl⟩
  exact exists_getElem?_of_forall₂ (forall₂_instructionTexts hspells)
    (getElem?_runCode hlowered (getElem?_unitStart hunit hc) (.inl hstatic))

/-- If a text that names a static can be read, it is the symbol without the blanks of the unit. -/
theorem NamesStatic.line_eq (hgenerate : generate options units = .ok texts)
    (hslash : ∀ unit ∈ units, '/' ∉ unit.1.toList) {file : Nat} {unit : String × Text.Source}
    (hunit : units[file]? = some unit) {offset : Nat} {raw : String}
    (h : NamesStatic options units texts file offset raw) {number : Nat} {line : Line}
    (hread : Asm.readLine number raw = .ok (some line)) :
    line = .symbol (Segment.staticSymbol (spaceless unit.1) offset) := by
  obtain ⟨same, i, c, hsame, hc, hop, htext⟩ := h
  obtain rfl := Option.some.inj (hunit.symm.trans hsame)
  obtain ⟨raw', htext', hspells⟩ := exists_static_text hgenerate hunit hc hop
  obtain rfl := Option.some.inj (htext.symm.trans htext')
  have hline := readLine_eq_ok_some_iff.mp hread
  rw [lineOf?, codeOf_of_spells hspells, ← lineOf?] at hline
  exact lineOf?_static (hslash unit (List.mem_of_getElem? hunit)) hline

/-- Each text of a run can be read if the text has been assembled, or else if the names of the units
are symbols without their blanks. -/
theorem isSome_lineOf?_of_generate (hgenerate : generate options units = .ok texts)
    (hslash : ∀ unit ∈ units, '/' ∉ unit.1.toList)
    (h : (∃ program, assemble texts = .ok program) ∨ ∀ unit ∈ units, IsStem (spaceless unit.1)) :
    ∀ raw ∈ texts, (lineOf? raw).isSome := by
  intro raw hraw
  obtain ⟨-, chunks, hlowered, hspells⟩ := spells_of_generate hgenerate
  obtain ⟨line, hline, hspell⟩ := exists_mem_of_forall₂ hspells hraw
  rcases h with ⟨program, hassemble⟩ | hstems
  · obtain ⟨hread, -⟩ := assemble_eq_ok_iff.mp hassemble
    refine hread raw hraw ?_
    rw [codeOf_of_spells hspell]
    exact codeOf_text_ne_nil line
  · have howned : line.Owned fun name => ∃ unit ∈ units, unit.1 = name :=
      owned_runCode (fun unit hunit => ⟨unit, hunit, rfl⟩) hlowered line hline
    rw [lineOf?, codeOf_of_spells hspell, ← lineOf?]
    refine howned.isSome_lineOf? ?_
    rintro name ⟨unit, hunit, rfl⟩
    exact ⟨hslash unit hunit, hstems unit hunit⟩

/-- What is generated for some units names them, if it is the content of a file. -/
theorem unitsNamed_of_generate {verified : Bool} {content : ByteArray}
    (hslash : ∀ unit ∈ units, '/' ∉ unit.1.toList)
    (hgenerate : generate options units = .ok texts)
    (hverified : verified → ∃ program, assemble texts = .ok program)
    (hcontent : (String.join (texts.map (· ++ "\n"))).toUTF8 = content) :
    UnitsNamed options verified units texts content := by
  have hwritten (honeLine : ∀ unit ∈ units, OneLine unit.1) :
      endedLines (String.join (texts.map (· ++ "\n"))) = texts :=
    endedLines_join (oneLine_of_generate honeLine hgenerate)
  refine {
    written := ⟨_, hcontent, hwritten⟩
    accepted := ?accepted
    named := ?named
    symbol := fun _ _ _ _ hunit hnames _ _ => hnames.line_eq hgenerate hslash hunit
    distinct := ?distinct }
  case accepted =>
    intro honeLine hreadable text htext raw hraw number
    have hjoin : text = String.join (texts.map (· ++ "\n")) :=
      String.toByteArray_inj.mp (htext.trans hcontent.symm)
    rw [hjoin, hwritten honeLine] at hraw
    have hsome := isSome_lineOf?_of_generate hgenerate hslash (hreadable.imp_left hverified) raw
      hraw
    obtain ⟨line, hline⟩ := Option.isSome_iff_exists.mp hsome
    exact ⟨line, readLine_eq_ok_some_iff.mpr hline⟩
  case named =>
    intro file unit i c offset hunit hc hop
    obtain ⟨raw, hraw, -⟩ := exists_static_text hgenerate hunit hc hop
    exact ⟨raw, hraw⟩
  case distinct =>
    intro file unit file' unit' hunit hunit' hdiffer offset raw offset' raw' hnames hnames' number
      line hread number' line' hread' hsame
    have hline := hnames.line_eq hgenerate hslash hunit hread
    have hline' := hnames'.line_eq hgenerate hslash hunit' hread'
    have hsymbols : Segment.staticSymbol (spaceless unit.1) offset =
        Segment.staticSymbol (spaceless unit'.1) offset' := by
      simpa [Line.symbol] using hline.symm.trans (hsame.trans hline')
    exact hdiffer (staticSymbol_inj hsymbols).1

end

end Codegen

namespace Cli

variable {tree : FileTree}

theorem IsUnit.slash_notMem {paths : List String} {units : List (String × Text.Source)}
    (h : List.Forall₂ (IsUnit tree) paths units) : ∀ unit ∈ units, '/' ∉ unit.1.toList := by
  intro unit hunit
  obtain ⟨path, -, hpath⟩ := exists_mem_of_forall₂ h.flip hunit
  exact slash_notMem_of_fileStem? hpath.stem

/-- A run that ends well writes a text in which the statics of each file have the stem of it in
their symbols. -/
theorem statics_named_by_stem {args : List String} {run : Arguments}
    (hrequest : Arguments.parse args = .ok (.run run))
    (hstatus : (outcome tree args).status = 0) :
    ∃ paths units, ∃ output : Output, IsJob tree run paths units output.lines ∧
      tree.create output.path output.content = .ok (outcome tree args).tree ∧
        UnitsNamed run.options run.verify units output.lines output.content := by
  obtain ⟨output, hproduce, hcreate⟩ := exists_output_of_status hrequest hstatus
  obtain ⟨paths, units, hjob⟩ := exists_isJob_of_produce hproduce
  exact ⟨paths, units, output, hjob, hcreate, unitsNamed_of_generate
    (IsUnit.slash_notMem hjob.isUnit) hjob.generates hjob.verified rfl⟩

/-- A source that accesses one static. -/
def pushStatic : Text.Source :=
  .ofString "push static 0\n"

/-- Files that access one static each. -/
def tinyFiles (places : List Location) : FileTree :=
  places.foldl (fun tree place => tree.addFile place pushStatic.bytes) {}

/-- Two files in different directories. -/
theorem statics_named_by_stem_twoFiles :
    ∃ run paths units, ∃ output : Output,
      Arguments.parse ["d/A.vm", "B.vm"] = .ok (.run run) ∧
        IsJob (tinyFiles [["d", "A.vm"], ["B.vm"]]) run paths units output.lines ∧
          UnitsNamed run.options run.verify units output.lines output.content := by
  have hrequest : Arguments.parse ["d/A.vm", "B.vm"] =
      .ok (.run { inputs := ["d/A.vm", "B.vm"] }) := by
    decide +kernel
  have hstatus : (outcome (tinyFiles [["d", "A.vm"], ["B.vm"]]) ["d/A.vm", "B.vm"]).status = 0 := by
    decide +kernel
  obtain ⟨paths, units, output, hjob, -, hnamed⟩ := statics_named_by_stem hrequest hstatus
  exact ⟨_, paths, units, output, hrequest, hjob, hnamed⟩

/-! ### Lines that cannot be read, and files that are not told apart -/

/-- The content of the file that a path leads to. -/
def FileTree.content? (tree : FileTree) (path : String) : Option ByteArray :=
  match tree.find path with
  | .ok (.file content) => some content
  | _ => none

/-- A run that ends well has written a file in which a line cannot be read. -/
def WritesUnread (tree : FileTree) (args : List String) (path : String) : Prop :=
  (outcome tree args).status = 0 ∧ ∃ text : String,
    (outcome tree args).tree.content? path = some text.toUTF8 ∧
      ∃ raw ∈ endedLines text, ∀ number line, Asm.readLine number raw ≠ .ok line

/-- A run on two files that ends well accesses a static of the one and a static of the other by
texts that are read as the same line. -/
def SharesStatic (tree : FileTree) (first second : String) : Prop :=
  first ≠ second ∧ (outcome tree [first, second]).status = 0 ∧
    ∃ run units, ∃ output : Output, Arguments.parse [first, second] = .ok (.run run) ∧
      (produce tree.disk run).run = .ok output ∧
        List.Forall₂ (IsUnit tree) [first, second] units ∧
          ∃ offset raw offset' raw' line,
            NamesStatic run.options units output.lines 0 offset raw ∧
              NamesStatic run.options units output.lines 1 offset' raw' ∧
                ∀ number, Asm.readLine number raw = .ok (some line) ∧
                  Asm.readLine number raw' = .ok (some line)

theorem readLine_ne_ok {raw : String} (hcode : Asm.codeOf raw ≠ []) (hline : lineOf? raw = none)
    (number : Nat) (line : Option Line) : Asm.readLine number raw ≠ .ok line := by
  intro h
  have hsome := isSome_of_readLine h hcode
  rw [hline] at hsome
  cases hsome

/-- The text of an access to a static, by a name, with the text of the command. -/
def accessText (name : String) : List String :=
  ["@" ++ name ++ " //push static 0", "D=M", "@SP", "A=M", "M=D", "@SP", "M=M+1"]

def haltText : List String :=
  ["($HALT) //end of program", "@$HALT", "0;JMP"]

/-- Two files with one access each share a static if their names are read as the same symbol. -/
theorem sharesStatic_of_read {tree : FileTree} {first second path : String} {line : Line}
    (stem stem' : String) (hne : first ≠ second)
    (hstatus : (outcome tree [first, second]).status = 0)
    (hrequest : Arguments.parse [first, second] = .ok (.run { inputs := [first, second] }))
    (hproduce : (produce tree.disk { inputs := [first, second] }).run.run =
      .ok ⟨path, accessText (stem ++ ".0") ++ accessText (stem' ++ ".0") ++ haltText⟩)
    (hfirst : IsUnit tree first (stem, pushStatic))
    (hsecond : IsUnit tree second (stem', pushStatic))
    (hread : lineOf? ("@" ++ (stem ++ ".0") ++ " //push static 0") = some line)
    (hread' : lineOf? ("@" ++ (stem' ++ ".0") ++ " //push static 0") = some line) :
    SharesStatic tree first second := by
  have hops : operationsOf pushStatic = [.push .static 0] := by decide +kernel
  have hcode (name : String) :
      codeOfUnit (name, pushStatic) = [⟨name, none, .push .static 0⟩] := by
    rw [codeOfUnit, hops]
    rfl
  have htexts : instructionTexts
      (accessText (stem ++ ".0") ++ accessText (stem' ++ ".0") ++ haltText) =
        accessText (stem ++ ".0") ++ accessText (stem' ++ ".0") ++ ["@$HALT", "0;JMP"] := by
    simp [instructionTexts, accessText, haltText, isLabelText]
  have hcodes : codeOfUnits [(stem, pushStatic), (stem', pushStatic)] =
      [⟨stem, none, .push .static 0⟩, ⟨stem', none, .push .static 0⟩] := by
    simp [codeOfUnits, hcode]
  have hstart : unitStart [(stem, pushStatic), (stem', pushStatic)] 1 = 1 := by
    simp [unitStart, codeOfUnits, hcode]
  refine ⟨hne, hstatus, _, _, _, hrequest, hproduce, .cons hfirst (.cons hsecond .nil), 0, _, 0, _,
    line, ⟨_, 0, _, rfl, congrArg (·[0]?) (hcode stem), .inl rfl, ?_⟩,
    ⟨_, 0, _, rfl, congrArg (·[0]?) (hcode stem'), .inl rfl, ?_⟩,
    fun number => ⟨readLine_eq_ok_some_iff.mpr hread, readLine_eq_ok_some_iff.mpr hread'⟩⟩
  · rw [hcodes, htexts]
    rfl
  · rw [hcodes, htexts, hstart]
    rfl

/-- A stem may be no symbol, and it may go over more than one line of the output. Files in different
directories may have the same stem, and stems may be the same without their blanks. -/
theorem files_share_statics :
    WritesUnread (tinyFiles [["1.vm"]]) ["1.vm"] "1.asm" ∧
      WritesUnread (tinyFiles [["A\nB.vm"]]) ["A\nB.vm", "--verify"] "A\nB.asm" ∧
        SharesStatic (tinyFiles [["a", "X.vm"], ["b", "X.vm"]]) "a/X.vm" "b/X.vm" ∧
          SharesStatic (tinyFiles [["a b.vm"], ["ab.vm"]]) "a b.vm" "ab.vm" := by
  refine ⟨?number, ?newline, ?directories, ?blanks⟩
  case number =>
    exact ⟨by decide +kernel, String.join ((accessText "1.0" ++ haltText).map (· ++ "\n")),
      by decide +kernel, "@1.0 //push static 0", by decide +kernel,
      readLine_ne_ok (by decide +kernel) (by decide +kernel)⟩
  case newline =>
    exact ⟨by decide +kernel, String.join ((accessText "A\nB.0" ++ haltText).map (· ++ "\n")),
      by decide +kernel, "B.0 //push static 0", by decide +kernel,
      readLine_ne_ok (by decide +kernel) (by decide +kernel)⟩
  case directories =>
    have hproduce : (produce (tinyFiles [["a", "X.vm"], ["b", "X.vm"]]).disk
        { inputs := ["a/X.vm", "b/X.vm"] }).run.run =
          .ok ⟨"a/X.asm", accessText ("X" ++ ".0") ++ accessText ("X" ++ ".0") ++ haltText⟩ := by
      decide +kernel
    have hread : lineOf? ("@" ++ ("X" ++ ".0") ++ " //push static 0") = some (.symbol "X.0") := by
      decide +kernel
    exact sharesStatic_of_read "X" "X" (by decide) (by decide +kernel) (by decide +kernel) hproduce
      ⟨by decide +kernel, rfl⟩ ⟨by decide +kernel, rfl⟩ hread hread
  case blanks =>
    have hproduce : (produce (tinyFiles [["a b.vm"], ["ab.vm"]]).disk
        { inputs := ["a b.vm", "ab.vm"] }).run.run =
          .ok ⟨"a b.asm", accessText ("a b" ++ ".0") ++ accessText ("ab" ++ ".0") ++ haltText⟩ := by
      decide +kernel
    have hread : lineOf? ("@" ++ ("a b" ++ ".0") ++ " //push static 0") =
        some (.symbol "ab.0") := by
      decide +kernel
    have hread' : lineOf? ("@" ++ ("ab" ++ ".0") ++ " //push static 0") =
        some (.symbol "ab.0") := by
      decide +kernel
    exact sharesStatic_of_read "a b" "ab" (by decide) (by decide +kernel) (by decide +kernel)
      hproduce ⟨by decide +kernel, rfl⟩ ⟨by decide +kernel, rfl⟩ hread hread'

end Cli

end HackBackend
