import HackBackend.Proofs.Asm.Resolution
import HackBackend.Proofs.Result
import HackBackend.Proofs.Text.Layout

/-!
# What assembling rejects

A line offends if it cannot be read, if it defines a label again, or if no room is left for it in
the program memory. Whether it does depends on the lines before it only, on their labels and on the
number of their instructions. A text is rejected exactly if one of its lines offends, and the error
is about the first one that does. A text in which no line offends is assembled: nothing is left that
could fail in the second pass.
-/

namespace HackBackend.Asm

open Text

/-- A line offends where it stands behind others, with the kind of the error and its cause. -/
inductive Offends (before : List String) (raw : String) : ErrorKind → Cause → Prop where
  | unread (hcode : codeOf raw ≠ []) (hline : lineOf? raw = none) :
      Offends before raw .parse .invalidAssembly
  | duplicate {name : String} (hline : lineOf? raw = some (.label name))
      (hdefined : name ∈ labelsOf (linesOf before)) :
      Offends before raw .duplicateLabel (.duplicateLabel name)
  | label {name : String} (hline : lineOf? raw = some (.label name))
      (hnew : name ∉ labelsOf (linesOf before))
      (hfull : 32768 ≤ (instructionsOf (linesOf before)).length) :
      Offends before raw .range .romFull
  | instruction {i : Instruction Address} (hline : lineOf? raw = some (.instruction i))
      (hfull : 32768 ≤ (instructionsOf (linesOf before)).length) :
      Offends before raw .range .romFull

/-- No line of a text offends. -/
def Inoffensive (texts : List String) : Prop :=
  ∀ before raw after, texts = before ++ raw :: after → ∀ kind cause, ¬ Offends before raw kind cause

/-- Each line holds at most one instruction. -/
theorem length_instructionsOf_linesOf_le (texts : List String) :
    (instructionsOf (linesOf texts)).length ≤ texts.length :=
  (List.length_filterMap_le _ _).trans (List.length_filterMap_le _ _)

theorem Offends.kind_eq {before : List String} {raw : String} {kind : ErrorKind} {cause : Cause}
    (h : Offends before raw kind cause) : cause.kind = kind := by
  cases h <;> rfl

theorem inoffensive_concat_iff {texts : List String} {raw : String} :
    Inoffensive (texts ++ [raw]) ↔
      Inoffensive texts ∧ ∀ kind cause, ¬ Offends texts raw kind cause := by
  constructor
  · intro h
    refine ⟨fun before other after htexts => h before other (after ++ [raw]) ?_, h texts raw [] rfl⟩
    rw [htexts, List.append_assoc, List.cons_append]
  · rintro ⟨htexts, hraw⟩ before other after hsplit
    obtain rfl | ⟨rest, last, rfl⟩ := List.eq_nil_or_concat after
    · obtain ⟨rfl, hlast⟩ := List.append_inj' hsplit rfl
      obtain rfl := List.head_eq_of_cons_eq hlast
      exact hraw
    · rw [List.concat_eq_append, ← List.cons_append, ← List.append_assoc] at hsplit
      exact htexts before other rest (List.append_inj' hsplit rfl).1

/-- A text of instructions alone does not offend as long as there is room for them. -/
theorem inoffensive_of_instructions {texts : List String}
    (h : ∀ raw ∈ texts, ∃ i, lineOf? raw = some (.instruction i))
    (hroom : texts.length ≤ 32768) : Inoffensive texts := by
  rintro before raw after rfl kind cause hoffends
  obtain ⟨i, hline⟩ := h raw (List.mem_append_right _ (List.mem_cons_self ..))
  cases hoffends with
  | unread hcode hnone => simp [hline] at hnone
  | duplicate hlabel hdefined => simp [hline] at hlabel
  | label hlabel hnew hfull => simp [hline] at hlabel
  | instruction hinstruction hfull =>
      have hcount := length_instructionsOf_linesOf_le before
      simp only [List.length_append, List.length_cons] at hroom
      omega

namespace Layout

theorem placeAll_append (layout : Layout) (number : Nat) (xs ys : List String) :
    layout.placeAll number (xs ++ ys) =
      layout.placeAll number xs >>= fun middle => middle.placeAll (number + xs.length) ys := by
  induction xs generalizing layout number with
  | nil => rfl
  | cons raw rest ih =>
      rw [List.cons_append, placeAll, placeAll]
      cases layout.placeText (number + 1) raw with
      | error e => rfl
      | ok next =>
          simp only [ih, List.length_cons]
          rw [Nat.add_assoc, Nat.add_comm 1]

/-- Placing a text fails at its first line that cannot be placed behind those before it. -/
theorem exists_of_placeAll_error {layout : Layout} {number : Nat} {texts : List String} {e : Error}
    (h : layout.placeAll number texts = .error e) :
    ∃ before raw after middle, texts = before ++ raw :: after ∧
      layout.placeAll number before = .ok middle ∧
        middle.placeText (number + before.length + 1) raw = .error e := by
  induction texts generalizing layout number with
  | nil => cases h
  | cons raw rest ih =>
      rw [placeAll] at h
      cases hplace : layout.placeText (number + 1) raw with
      | error found =>
          rw [hplace] at h
          obtain rfl := Except.error.inj h
          exact ⟨[], raw, rest, layout, rfl, rfl, hplace⟩
      | ok next =>
          simp only [hplace] at h
          obtain ⟨before, offender, after, middle, rfl, hbefore, hoffender⟩ := ih h
          refine ⟨raw :: before, offender, after, middle, rfl, ?_, ?_⟩
          · rw [placeAll, hplace]
            exact hbefore
          · rw [List.length_cons, ← Nat.add_assoc, Nat.add_right_comm number]
            exact hoffender

section

variable {before : List String} {layout : Layout}
variable (h : ({} : Layout).placeAll 0 before = .ok layout)

include h

/-- The layout knows the labels of the lines before. -/
theorem mem_labels_iff_of_placeAll {name : String} :
    name ∈ layout.labels ↔ name ∈ labelsOf (linesOf before) :=
  mem_labels_iff (placeAll_eq_ok_iff.mp h).2

/-- The layout has the instructions of the lines before. -/
theorem size_of_placeAll :
    layout.instructions.size = (instructionsOf (linesOf before)).length := by
  rw [← Array.length_toList, toList_instructions (placeAll_eq_ok_iff.mp h).2]

/-- A line that offends is not placed. -/
theorem placeText_of_offends {number : Nat} {raw : String} {kind : ErrorKind} {cause : Cause}
    (hoffends : Offends before raw kind cause) :
    layout.placeText number raw = .error (.located cause (sourceLine number raw)) := by
  rw [placeText]
  cases hoffends with
  | unread hcode hline => rw [readLine_eq_error_iff.mpr ⟨hcode, hline, rfl⟩]
  | duplicate hline hdefined =>
      have hmem := (mem_labels_iff_of_placeAll h).mpr hdefined
      simp only [readLine_eq_ok_some_iff.mpr hline, place, if_pos hmem]
  | label hline hnew hfull =>
      have hmem := mt (mem_labels_iff_of_placeAll h).mp hnew
      have hroom : romSize ≤ layout.instructions.size := hfull.trans_eq (size_of_placeAll h).symm
      simp only [readLine_eq_ok_some_iff.mpr hline, place, if_neg hmem, if_pos hroom]
  | instruction hline hfull =>
      have hroom : romSize ≤ layout.instructions.size := hfull.trans_eq (size_of_placeAll h).symm
      simp only [readLine_eq_ok_some_iff.mpr hline, place, if_pos hroom]

/-- A line that is not placed offends. -/
theorem offends_of_placeText {number : Nat} {raw : String} {e : Error}
    (hfails : layout.placeText number raw = .error e) :
    ∃ kind cause, Offends before raw kind cause ∧ e = .located cause (sourceLine number raw) := by
  rw [placeText] at hfails
  rcases hread : readLine number raw with found | _ | line
  · simp only [hread] at hfails
    obtain rfl := Except.error.inj hfails
    obtain ⟨hcode, hline, rfl⟩ := readLine_eq_error_iff.mp hread
    exact ⟨_, _, .unread hcode hline, rfl⟩
  · simp [hread] at hfails
  · have hline := readLine_eq_ok_some_iff.mp hread
    cases hplace : layout.place line with
    | ok next => simp [hread, hplace] at hfails
    | error cause =>
        simp only [hread, hplace, Except.error.injEq] at hfails
        refine ⟨cause.kind, cause, ?_, hfails.symm⟩
        cases line with
        | instruction i =>
            rw [place] at hplace
            split at hplace
            case isTrue hfull =>
              obtain rfl := Except.error.inj hplace
              exact .instruction hline (size_of_placeAll h ▸ hfull)
            case isFalse => cases hplace
        | label name =>
            rw [place] at hplace
            split at hplace
            case isTrue hdefined =>
              obtain rfl := Except.error.inj hplace
              exact .duplicate hline ((mem_labels_iff_of_placeAll h).mp hdefined)
            case isFalse hnew =>
              split at hplace
              case isTrue hfull =>
                obtain rfl := Except.error.inj hplace
                exact .label hline (mt (mem_labels_iff_of_placeAll h).mpr hnew)
                  (size_of_placeAll h ▸ hfull)
              case isFalse => cases hplace

end

/-- A text is placed exactly if none of its lines offends. -/
theorem exists_placeAll_iff {texts : List String} :
    (∃ layout, ({} : Layout).placeAll 0 texts = .ok layout) ↔ Inoffensive texts := by
  constructor
  · rintro ⟨layout, hplace⟩ before raw after rfl kind cause hoffends
    rw [placeAll_append] at hplace
    obtain ⟨middle, hbefore, hrest⟩ := bind_eq_ok_iff.mp hplace
    rw [placeAll, placeText_of_offends hbefore hoffends] at hrest
    cases hrest
  · intro h
    cases hplace : ({} : Layout).placeAll 0 texts with
    | ok layout => exact ⟨layout, rfl⟩
    | error e =>
        obtain ⟨before, raw, after, middle, htexts, hbefore, hraw⟩ :=
          exists_of_placeAll_error hplace
        obtain ⟨kind, cause, hoffends, -⟩ := offends_of_placeText hbefore hraw
        exact absurd hoffends (h before raw after htexts kind cause)

/-- Lines with labels of their own are placed if there is room for one more instruction than they
have. -/
theorem exists_placeLines_of_nodup {layout : Layout} {code : List Line}
    (hnodup : (labelsOf code).Nodup) (hnew : ∀ name ∈ labelsOf code, name ∉ layout.labels)
    (hroom : layout.instructions.size + (instructionsOf code).length < romSize) :
    ∃ final, layout.placeLines code = .ok final := by
  induction code generalizing layout with
  | nil => exact ⟨layout, rfl⟩
  | cons line rest ih =>
      cases line with
      | instruction i =>
          rw [instructionsOf_instruction, List.length_cons] at hroom
          let next : Layout := { layout with instructions := layout.instructions.push i }
          have hplace : layout.place (.instruction i) = .ok next :=
            place_instruction_eq_ok_iff.mpr ⟨by omega, rfl⟩
          have hnext : next.instructions.size = layout.instructions.size + 1 := Array.size_push i
          obtain ⟨final, hfinal⟩ := @ih next hnodup hnew (by omega)
          exact ⟨final, placeLines_cons_eq_ok_iff.mpr ⟨next, hplace, hfinal⟩⟩
      | label name =>
          rw [instructionsOf_label] at hroom
          obtain ⟨hname, hrest⟩ := List.nodup_cons.mp hnodup
          obtain ⟨hfree, hlater⟩ := List.forall_mem_cons.mp hnew
          let next : Layout :=
            { layout with labels := layout.labels.insert name layout.instructions.size }
          have hplace : layout.place (.label name) = .ok next :=
            place_label_eq_ok_iff.mpr ⟨hfree, by omega, rfl⟩
          have hnext : ∀ other ∈ labelsOf rest, other ∉ next.labels := by
            intro other hother
            rw [Std.TreeMap.mem_insert, not_or]
            refine ⟨fun hsame => hname ?_, hlater other hother⟩
            rwa [Std.LawfulEqCmp.compare_eq_iff_eq.mp hsame]
          obtain ⟨final, hfinal⟩ := @ih next hrest hnext hroom
          exact ⟨final, placeLines_cons_eq_ok_iff.mpr ⟨next, hplace, hfinal⟩⟩

end Layout

/-- A text is rejected where placing its lines fails. -/
theorem assemble_eq_error_iff {texts : List String} {e : Error} :
    assemble texts = .error e ↔ ({} : Layout).placeAll 0 texts = .error e := by
  rw [assemble]
  cases ({} : Layout).placeAll 0 texts <;> simp [Except.map]

theorem assemble_of_placeAll {texts : List String} {layout : Layout}
    (h : ({} : Layout).placeAll 0 texts = .ok layout) : assemble texts = .ok layout.program := by
  rw [assemble, h]
  rfl

theorem exists_assemble_iff {texts : List String} :
    (∃ program, assemble texts = .ok program) ↔ Inoffensive texts := by
  rw [← Layout.exists_placeAll_iff]
  constructor
  · rintro ⟨program, h⟩
    obtain ⟨layout, hplace, -⟩ := map_eq_ok_iff.mp h
    exact ⟨layout, hplace⟩
  · rintro ⟨layout, hplace⟩
    exact ⟨layout.program, assemble_of_placeAll hplace⟩

/-- The error of a text is that of its first line that offends. -/
theorem exists_offends_of_assemble {texts : List String} {e : Error}
    (h : assemble texts = .error e) :
    ∃ before raw after kind cause, texts = before ++ raw :: after ∧ Inoffensive before ∧
      Offends before raw kind cause ∧
        e = .located cause (sourceLine (before.length + 1) raw) := by
  obtain ⟨before, raw, after, middle, htexts, hbefore, hraw⟩ :=
    Layout.exists_of_placeAll_error (assemble_eq_error_iff.mp h)
  obtain ⟨kind, cause, hoffends, he⟩ := Layout.offends_of_placeText hbefore hraw
  rw [Nat.zero_add] at he
  exact ⟨before, raw, after, kind, cause, htexts,
    Layout.exists_placeAll_iff.mp ⟨middle, hbefore⟩, hoffends, he⟩

theorem assemble_of_offends {before : List String} {raw : String} {after : List String}
    {kind : ErrorKind} {cause : Cause} (hbefore : Inoffensive before)
    (hoffends : Offends before raw kind cause) :
    assemble (before ++ raw :: after) =
      .error (.located cause (sourceLine (before.length + 1) raw)) := by
  obtain ⟨middle, hplace⟩ := Layout.exists_placeAll_iff.mpr hbefore
  rw [assemble_eq_error_iff, Layout.placeAll_append, hplace, ok_bind, Layout.placeAll,
    Layout.placeText_of_offends hplace hoffends, Nat.zero_add]

/-- A text whose lines can all be read is rejected only for a label that is defined twice, or
because it is too long. -/
theorem cause_of_assemble_error {texts : List String} {e : Error}
    (hread : ∀ raw ∈ texts, (lineOf? raw).isSome) (h : assemble texts = .error e) :
    ∃ cause line, e = .located cause line ∧
      (cause = .romFull ∨ ∃ name, cause = .duplicateLabel name) := by
  obtain ⟨before, raw, after, kind, cause, rfl, -, hoffends, rfl⟩ := exists_offends_of_assemble h
  refine ⟨cause, _, rfl, ?_⟩
  cases hoffends with
  | unread hcode hline =>
      have hsome := hread raw (List.mem_append_right _ (List.mem_cons_self ..))
      simp [hline] at hsome
  | duplicate hline hdefined => exact .inr ⟨_, rfl⟩
  | label hline hnew hfull => exact .inl rfl
  | instruction hline hfull => exact .inl rfl

/-- A text that is rejected for a duplicate label defines that label in two of its lines. -/
theorem sublist_labelsOf_of_duplicateLabel {texts : List String} {name : String}
    {line : SourceLine} (h : assemble texts = .error (.located (.duplicateLabel name) line)) :
    [name, name].Sublist (labelsOf (linesOf texts)) := by
  obtain ⟨before, raw, after, kind, cause, rfl, -, hoffends, he⟩ := exists_offends_of_assemble h
  obtain ⟨rfl, -⟩ := Error.located.inj he
  cases hoffends with
  | duplicate hline hdefined =>
      rw [linesOf_append_cons hline, labelsOf_append, labelsOf_label]
      exact (List.singleton_sublist.mpr hdefined).append ((List.nil_sublist _).cons_cons name)

theorem exists_assemble_error_iff {texts : List String} :
    (∃ e, assemble texts = .error e) ↔
      ∃ before raw after kind cause, texts = before ++ raw :: after ∧
        Offends before raw kind cause := by
  constructor
  · rintro ⟨e, herror⟩
    obtain ⟨before, raw, after, kind, cause, htexts, -, hoffends, -⟩ :=
      exists_offends_of_assemble herror
    exact ⟨before, raw, after, kind, cause, htexts, hoffends⟩
  · rintro ⟨before, raw, after, kind, cause, htexts, hoffends⟩
    cases hassemble : assemble texts with
    | error e => exact ⟨e, rfl⟩
    | ok program =>
        have hfine := exists_assemble_iff.mp ⟨program, hassemble⟩
        exact absurd hoffends (hfine before raw after htexts kind cause)

theorem assemble_eq_error_iff_offends {texts : List String} {e : Error} :
    assemble texts = .error e ↔
      ∃ before raw after kind cause t, texts = before ++ raw :: after ∧ Inoffensive before ∧
        Offends before raw kind cause ∧ IsTrimmed raw.toList t ∧
        e = .located cause ⟨before.length + 1, String.ofList t⟩ ∧ e.kind = kind := by
  constructor
  · intro herror
    obtain ⟨before, raw, after, kind, cause, htexts, hbefore, hoffends, rfl⟩ :=
      exists_offends_of_assemble herror
    exact ⟨before, raw, after, kind, cause, _, htexts, hbefore, hoffends,
      isTrimmed_trim raw.toList, rfl, hoffends.kind_eq⟩
  · rintro ⟨before, raw, after, kind, cause, t, rfl, hbefore, hoffends, ht, rfl, -⟩
    rw [assemble_of_offends hbefore hoffends, isTrimmed_iff.mp ht, sourceLine]

/-- A blank line neither offends nor makes a difference to the lines behind it. -/
theorem inoffensive_concat_blank {texts : List String} {raw : String} (hblank : codeOf raw = []) :
    linesOf (texts ++ [raw]) = linesOf texts ∧
      (Inoffensive (texts ++ [raw]) ↔ Inoffensive texts) := by
  have hnone : lineOf? raw = none := by rw [lineOf?, hblank, lineOfCode_nil]
  refine ⟨by simp [linesOf, hnone], inoffensive_concat_iff.trans (and_iff_left ?_)⟩
  intro kind cause hoffends
  cases hoffends with
  | unread hcode hline => exact hcode hblank
  | duplicate hline _ | label hline _ _ | instruction hline _ => simp [hnone] at hline

/-- A new label is taken if there is room for an instruction behind it. -/
theorem inoffensive_concat_label {texts : List String} (htexts : Inoffensive texts) {raw : String}
    {name : String} (hline : lineOf? raw = some (.label name))
    (hnew : name ∉ labelsOf (linesOf texts)) :
    Inoffensive (texts ++ [raw]) ↔ (instructionsOf (linesOf texts)).length ≤ 32767 := by
  rw [inoffensive_concat_iff, and_iff_right htexts]
  constructor
  · intro hfine
    exact Nat.le_of_not_lt fun hfull => hfine _ _ (.label hline hnew hfull)
  · intro hroom kind cause hoffends
    cases hoffends with
    | unread hcode hnone => simp [hline] at hnone
    | duplicate hlabel hdefined =>
        obtain ⟨⟩ := hline.symm.trans hlabel
        exact hnew hdefined
    | label hlabel hfree hfull => exact absurd hroom (Nat.not_le_of_lt hfull)
    | instruction hinstruction hfull => simp [hline] at hinstruction

/-- A text is rejected exactly if one of its lines offends. The error is about the first line that
does, with its number and its trimmed text. Once all lines are placed the program is there, and
while it is made the cell of the next new variable never needs more than a word. Blank lines have a
number but take no room, a new label is taken as long as there is room for an instruction behind it,
and a label that is defined again is reported as such even where there is no room. -/
theorem assemble_rejects (texts : List String) :
    ((∃ e, assemble texts = .error e) ↔
        ∃ before raw after kind cause, texts = before ++ raw :: after ∧
          Offends before raw kind cause) ∧
      (∀ e, assemble texts = .error e ↔
        ∃ before raw after kind cause t, texts = before ++ raw :: after ∧ Inoffensive before ∧
          Offends before raw kind cause ∧ IsTrimmed raw.toList t ∧
          e = .located cause ⟨before.length + 1, String.ofList t⟩ ∧ e.kind = kind) ∧
      (∀ layout, ({} : Layout).placeAll 0 texts = .ok layout →
        assemble texts = .ok layout.program ∧
          ∀ count, (layout.resolved count).nextCell < UInt16.size) ∧
      (∀ raw, codeOf raw = [] → linesOf (texts ++ [raw]) = linesOf texts ∧
        (Inoffensive (texts ++ [raw]) ↔ Inoffensive texts)) ∧
      (∀ raw name, Inoffensive texts → lineOf? raw = some (.label name) →
        name ∉ labelsOf (linesOf texts) →
          ((∃ program, assemble (texts ++ [raw]) = .ok program) ↔
            (instructionsOf (linesOf texts)).length ≤ 32767)) ∧
      ∀ raw name after, Inoffensive texts → lineOf? raw = some (.label name) →
        name ∈ labelsOf (linesOf texts) →
          assemble (texts ++ raw :: after) =
            .error (.located (.duplicateLabel name) (sourceLine (texts.length + 1) raw)) := by
  refine ⟨exists_assemble_error_iff, fun _ => assemble_eq_error_iff_offends, ?_,
    fun raw hblank => inoffensive_concat_blank hblank, ?_, ?_⟩
  · intro layout hplace
    exact ⟨assemble_of_placeAll hplace,
      Layout.nextCell_resolved_lt (Layout.placeAll_eq_ok_iff.mp hplace).2⟩
  · intro raw name htexts hline hnew
    rw [exists_assemble_iff]
    exact inoffensive_concat_label htexts hline hnew
  · intro raw name after htexts hline hdefined
    exact assemble_of_offends htexts (.duplicate hline hdefined)

end HackBackend.Asm
