import HackBackend.Proofs.Text.Layout
import HackBackend.Vm.Reader

/-!
# The grammar of command lines

`IsCommand` says which rows of words are commands, and `IsFault` what is wrong with each of the
others. Every line without comment that is not blank is exactly one of the two, and the reader
finds out which. What a command or an error shows of its line is read as the line itself.
-/

namespace HackBackend.Vm

open Text

/-- What a line shows of itself: its code, trimmed. -/
def IsEcho (raw : String) (t : List Char) : Prop :=
  ∃ code, IsCode raw.toList code ∧ IsTrimmed code t

theorem isEcho_iff {raw : String} {t : List Char} : IsEcho raw t ↔ t = codeOf raw := by
  simp only [IsEcho, isCode_iff, isTrimmed_iff, exists_eq_left, codeOf]

/-- What a line shows of itself is a part of it. -/
theorem IsEcho.isInfix {raw : String} {t : List Char} (h : IsEcho raw t) : t <:+: raw.toList := by
  obtain ⟨code, hcode, htrim⟩ := h
  exact htrim.isInfix.trans hcode.isPrefix.isInfix

/-- A word is one of the 18 spellings, up to the case of its ASCII letters. -/
def Keyword.IsSpelling (k : Keyword) (word : List Char) : Prop :=
  ∃ spelling, (k, spelling) ∈ Keyword.spellings ∧ word.map Char.toLower = spelling.toList

/-- No two keywords share a spelling. -/
theorem Keyword.eq_of_spelling {k k' : Keyword} {spelling : String}
    (h : (k, spelling) ∈ Keyword.spellings) (h' : (k', spelling) ∈ Keyword.spellings) :
    k = k' := by
  have apart : ∀ entry ∈ Keyword.spellings, ∀ entry' ∈ Keyword.spellings,
      entry.2 = entry'.2 → entry.1 = entry'.1 := by decide +kernel
  exact apart _ h _ h' rfl

theorem Keyword.ofWord?_eq_some_iff {word : List Char} {k : Keyword} :
    Keyword.ofWord? word = some k ↔ k.IsSpelling word := by
  rw [Keyword.ofWord?, Option.map_eq_some_iff]
  constructor
  · rintro ⟨⟨k, spelling⟩, hfind, rfl⟩
    have hword : spelling.toList = word.map Char.toLower := by
      simpa using List.find?_some hfind
    exact ⟨spelling, List.mem_of_find?_eq_some hfind, hword.symm⟩
  · rintro ⟨spelling, hmem, hword⟩
    have hsome : (Keyword.spellings.find? fun entry =>
        entry.2.toList = word.map Char.toLower).isSome :=
      List.find?_isSome.mpr ⟨_, hmem, by simpa using hword.symm⟩
    obtain ⟨⟨k', spelling'⟩, hfind⟩ := Option.isSome_iff_exists.mp hsome
    have hword' : spelling'.toList = word.map Char.toLower := by
      simpa using List.find?_some hfind
    have hspelling : spelling' = spelling := String.toList_inj.mp (hword'.trans hword)
    subst hspelling
    exact ⟨_, hfind, Keyword.eq_of_spelling (List.mem_of_find?_eq_some hfind) hmem⟩

/-- A numeral of at most 16 bits. -/
def IsOperand (word : List Char) : Prop :=
  isNumeral word ∧ decimalValue word ≤ 65535

theorem numeral?_eq_some_of_isOperand {word : List Char} (h : IsOperand word) :
    numeral? 0xffff word = some (decimalValue word) :=
  numeral?_eq_some_iff.mpr ⟨h.1, rfl, h.2⟩

theorem numeral?_eq_none_of_not_isOperand {word : List Char} (h : ¬ IsOperand word) :
    numeral? 0xffff word = none :=
  if_neg h

/-- The rows of words that are commands. -/
inductive IsCommand (line : SourceLine) : List (List Char) → Command → Prop
  | keyword {k : Keyword} {word : List Char} (hk : k.IsSpelling word) :
      IsCommand line [word] ⟨k, none, none, line⟩
  | name {k : Keyword} {word name : List Char} (hk : k.IsSpelling word) :
      IsCommand line [word, name] ⟨k, some (String.ofList name), none, line⟩
  | number {k : Keyword} {word name number : List Char} (hk : k.IsSpelling word)
      (hn : IsOperand number) :
      IsCommand line [word, name, number]
        ⟨k, some (String.ofList name), some (decimalValue number), line⟩

/-- What is wrong with a line, looked for in this order: its blanks, its keyword, the number of
its words, its number. -/
inductive IsFault : List Char → ErrorKind → Cause → Prop
  | blank {t : List Char} {c : Char} (hc : c ∈ t) (hblank : isBlank c)
      (hforeign : isSeparator c = false) : IsFault t .parse .malformedCommand
  | keyword {t word : List Char} {args : List (List Char)} (ht : IsWords t (word :: args))
      (hk : ∀ k : Keyword, ¬ k.IsSpelling word) :
      IsFault t .parse (.unknownCommand (String.ofList word))
  | arity {t word name number : List Char} {extra : List (List Char)} {k : Keyword}
      (ht : IsWords t (word :: name :: number :: extra)) (hk : k.IsSpelling word)
      (hextra : extra ≠ []) :
      IsFault t .arity (.extraParts k (" ".intercalate (extra.map String.ofList)))
  | number {t word name number : List Char} {k : Keyword} (ht : IsWords t [word, name, number])
      (hk : k.IsSpelling word) (hn : ¬ IsOperand number) :
      IsFault t .parse (.expectedNumber (String.ofList number))

theorem IsFault.kind_eq {t : List Char} {kind : ErrorKind} {cause : Cause}
    (h : IsFault t kind cause) : cause.kind = kind := by
  cases h <;> rfl

theorem commandOfWords_of_isCommand {line : SourceLine} {ws : List (List Char)} {c : Command}
    (h : IsCommand line ws c) : commandOfWords line ws = .ok c := by
  cases h with
  | keyword hk | name hk =>
      rw [commandOfWords, Keyword.ofWord?_eq_some_iff.mpr hk]
      rfl
  | number hk hn =>
      simp only [commandOfWords, Keyword.ofWord?_eq_some_iff.mpr hk, List.drop_succ_cons,
        List.drop_zero, List.drop_nil, readNumber, numeral?_eq_some_of_isOperand hn]
      rfl

theorem commandOfCode_of_isWords {line : SourceLine} {t : List Char} {ws : List (List Char)}
    (h : IsWords t ws) : commandOfCode line t = commandOfWords line ws := by
  rw [commandOfCode, if_neg, h.words_eq]
  intro hforeign
  obtain ⟨c, hc, hboth⟩ := List.any_eq_true.mp hforeign
  simp only [Bool.and_eq_true, Bool.not_eq_true'] at hboth
  simp [h.isSeparator_of_isBlank c hc hboth.1] at hboth

theorem commandOfCode_of_isFault {line : SourceLine} {t : List Char} {kind : ErrorKind}
    {cause : Cause} (h : IsFault t kind cause) : commandOfCode line t = .error cause := by
  cases h with
  | blank hc hblank hforeign =>
      exact if_pos (List.any_eq_true.mpr ⟨_, hc, by simp [hblank, hforeign]⟩)
  | keyword ht hk =>
      have hnone : Keyword.ofWord? _ = none := Option.eq_none_iff_forall_ne_some.mpr fun k hsome =>
        hk k (Keyword.ofWord?_eq_some_iff.mp hsome)
      rw [commandOfCode_of_isWords ht, commandOfWords, hnone]
  | arity ht hk hextra =>
      obtain ⟨part, parts, rfl⟩ := List.exists_cons_of_ne_nil hextra
      rw [commandOfCode_of_isWords ht, commandOfWords, Keyword.ofWord?_eq_some_iff.mpr hk]
      rfl
  | number ht hk hn =>
      rw [commandOfCode_of_isWords ht]
      simp only [commandOfWords, Keyword.ofWord?_eq_some_iff.mpr hk, List.drop_succ_cons,
        List.drop_zero, List.drop_nil, readNumber, numeral?_eq_none_of_not_isOperand hn]
      rfl

/-- A row of words is a command, or something is wrong with it. -/
theorem isCommand_or_isFault_of_isWords {t : List Char} {ws : List (List Char)} (h : IsWords t ws)
    (line : SourceLine) : (∃ c, IsCommand line ws c) ∨ ∃ kind cause, IsFault t kind cause := by
  obtain ⟨word, args, rfl⟩ : ∃ word args, ws = word :: args := by cases h <;> exact ⟨_, _, rfl⟩
  by_cases hk : ∃ k : Keyword, k.IsSpelling word
  case neg => exact .inr ⟨_, _, .keyword h (not_exists.mp hk)⟩
  obtain ⟨k, hk⟩ := hk
  match args with
  | [] => exact .inl ⟨_, .keyword hk⟩
  | [name] => exact .inl ⟨_, .name hk⟩
  | [name, number] =>
      by_cases hn : IsOperand number
      · exact .inl ⟨_, .number hk hn⟩
      · exact .inr ⟨_, _, .number h hk hn⟩
  | name :: number :: part :: parts => exact .inr ⟨_, _, .arity h hk (List.cons_ne_nil _ _)⟩

theorem exists_isCommand_or_isFault {t : List Char} (hne : t ≠ [])
    (head : ∀ c ∈ t.head?, isBlank c = false) (last : ∀ c ∈ t.getLast?, isBlank c = false)
    (line : SourceLine) :
    (∃ ws c, IsWords t ws ∧ IsCommand line ws c) ∨ ∃ kind cause, IsFault t kind cause := by
  by_cases hforeign : ∀ c ∈ t, isBlank c → isSeparator c
  · have hwords : IsWords t (words isSeparator t) := (isWords_iff hne head last).mpr ⟨hforeign, rfl⟩
    rcases isCommand_or_isFault_of_isWords hwords line with ⟨c, hc⟩ | hfault
    · exact .inl ⟨_, c, hwords, hc⟩
    · exact .inr hfault
  · push Not at hforeign
    obtain ⟨c, hc, hblank, hsep⟩ := hforeign
    exact .inr ⟨_, _, .blank hc hblank (by simpa using hsep)⟩

/-- The code of a line is never a comment or framed by blanks. -/
theorem codeOf_echo {raw : String} {t : List Char} (h : IsEcho raw t) :
    codeOf (String.ofList t) = t := by
  obtain ⟨code, hcode, htrim⟩ := h
  have hmark : ¬ commentMark <:+: t := fun hmark => hcode.not_mark (hmark.trans htrim.isInfix)
  rw [codeOf, String.toList_ofList, uncommented_of_not_mark hmark, htrim.trim_eq]

theorem IsFault.ne_nil {t : List Char} {kind : ErrorKind} {cause : Cause}
    (h : IsFault t kind cause) : t ≠ [] := by
  rintro rfl
  cases h with
  | blank hc => cases hc
  | keyword ht | arity ht | number ht =>
      obtain ⟨c, cs, hcs, -⟩ := ht.head
      cases hcs

theorem readLine_of_codeOf_ne_nil {raw : String} (h : codeOf raw ≠ []) (number : Nat) :
    readLine number raw =
      match commandOfCode ⟨number, String.ofList (codeOf raw)⟩ (codeOf raw) with
      | .ok command => .ok (some command)
      | .error cause => .error (.located cause ⟨number, String.ofList (codeOf raw)⟩) := by
  unfold readLine
  generalize codeOf raw = code at h ⊢
  cases code with
  | nil => exact absurd rfl h
  | cons c cs => rfl

theorem readLine_of_isCommand {number : Nat} {raw : String} {ws : List (List Char)} {c : Command}
    (hws : IsWords (codeOf raw) ws)
    (hc : IsCommand ⟨number, String.ofList (codeOf raw)⟩ ws c) :
    readLine number raw = .ok (some c) := by
  have hne : codeOf raw ≠ [] := by
    obtain ⟨first, rest, hcode, -⟩ := hws.head
    exact hcode ▸ List.cons_ne_nil first rest
  rw [readLine_of_codeOf_ne_nil hne, commandOfCode_of_isWords hws, commandOfWords_of_isCommand hc]

theorem readLine_of_isFault {raw : String} {kind : ErrorKind} {cause : Cause}
    (h : IsFault (codeOf raw) kind cause) (number : Nat) :
    readLine number raw = .error (.located cause ⟨number, String.ofList (codeOf raw)⟩) := by
  rw [readLine_of_codeOf_ne_nil h.ne_nil, commandOfCode_of_isFault h]

/-- What a line is read as is decided by its code. -/
theorem readLine_congr {raw raw' : String} (h : codeOf raw = codeOf raw') (number : Nat) :
    readLine number raw = readLine number raw' := by
  rw [readLine, readLine, h]

/-- There are three kinds of lines. -/
theorem line_cases (number : Nat) (raw : String) :
    codeOf raw = [] ∧ readLine number raw = .ok none ∨
      (∃ ws c, IsWords (codeOf raw) ws ∧
        IsCommand ⟨number, String.ofList (codeOf raw)⟩ ws c ∧
        readLine number raw = .ok (some c)) ∨
      ∃ kind cause, IsFault (codeOf raw) kind cause ∧
        readLine number raw = .error (.located cause ⟨number, String.ofList (codeOf raw)⟩) := by
  by_cases hne : codeOf raw = []
  · exact .inl ⟨hne, by rw [readLine, hne]⟩
  obtain ⟨code, -, htrim⟩ := isEcho_iff.mpr (rfl : codeOf raw = codeOf raw)
  rcases exists_isCommand_or_isFault hne htrim.head htrim.last
    ⟨number, String.ofList (codeOf raw)⟩ with ⟨ws, c, hws, hc⟩ | ⟨kind, cause, hfault⟩
  · exact .inr (.inl ⟨ws, c, hws, hc, readLine_of_isCommand hws hc⟩)
  · exact .inr (.inr ⟨kind, cause, hfault, readLine_of_isFault hfault number⟩)

theorem readLine_eq_ok_none_iff {number : Nat} {raw : String} :
    readLine number raw = .ok none ↔ codeOf raw = [] := by
  constructor
  · intro h
    rcases line_cases number raw with ⟨hnil, -⟩ | ⟨_, _, -, -, hread⟩ | ⟨_, _, -, hread⟩
    · exact hnil
    all_goals simp [h] at hread
  · intro hnil
    rw [readLine, hnil]

theorem readLine_eq_ok_some_iff {number : Nat} {raw : String} {c : Command} :
    readLine number raw = .ok (some c) ↔
      ∃ ws, IsWords (codeOf raw) ws ∧
        IsCommand ⟨number, String.ofList (codeOf raw)⟩ ws c := by
  constructor
  · intro h
    rcases line_cases number raw with ⟨-, hread⟩ | ⟨ws, c', hws, hc, hread⟩ | ⟨_, _, -, hread⟩
    case inr.inl =>
      obtain rfl : c = c' := by simpa [h] using hread
      exact ⟨ws, hws, hc⟩
    all_goals simp [h] at hread
  · rintro ⟨ws, hws, hc⟩
    exact readLine_of_isCommand hws hc

theorem readLine_eq_error_iff {number : Nat} {raw : String} {e : Error} :
    readLine number raw = .error e ↔
      ∃ cause, IsFault (codeOf raw) e.kind cause ∧
        e = .located cause ⟨number, String.ofList (codeOf raw)⟩ := by
  constructor
  · intro h
    rcases line_cases number raw with ⟨-, hread⟩ | ⟨_, _, -, -, hread⟩ | ⟨_, cause, hfault, hread⟩
    case inr.inr =>
      obtain rfl : e = .located cause _ := by simpa [h] using hread
      rw [Error.kind, hfault.kind_eq]
      exact ⟨cause, hfault, rfl⟩
    all_goals simp [h] at hread
  · rintro ⟨cause, hfault, rfl⟩
    exact readLine_of_isFault hfault number

theorem IsCommand.source_eq {line : SourceLine} {ws : List (List Char)} {c : Command}
    (h : IsCommand line ws c) : c.source = line := by
  cases h <;> rfl

/-- Whatever is read off a line, a command or an error, is at that line. -/
theorem number_of_readLine {number : Nat} {raw : String} :
    (∀ c, readLine number raw = .ok (some c) → c.source.number = number) ∧
      ∀ e, readLine number raw = .error e →
        ∃ source, e.line? = some source ∧ source.number = number := by
  constructor
  · intro c h
    obtain ⟨ws, -, hc⟩ := readLine_eq_ok_some_iff.mp h
    rw [hc.source_eq]
  · intro e h
    obtain ⟨cause, -, rfl⟩ := readLine_eq_error_iff.mp h
    exact ⟨_, rfl, rfl⟩

/-- A line is read by the grammar of its code, whatever comment and blanks stand around it, and
what a command or an error shows of the line is read in the same way as the line. -/
theorem commandLine_grammar (number : Nat) (raw : String) :
    ∃ t, (∀ other, IsEcho raw other ↔ other = t) ∧
      (readLine number raw = .ok none ↔ t = []) ∧
      (∀ c, readLine number raw = .ok (some c) ↔
        ∃ ws, IsWords t ws ∧ IsCommand ⟨number, String.ofList t⟩ ws c) ∧
      (∀ e, readLine number raw = .error e ↔
        ∃ cause, IsFault t e.kind cause ∧ e = .located cause ⟨number, String.ofList t⟩) ∧
      (∀ c, readLine number raw = .ok (some c) →
        readLine number c.source.text = .ok (some c)) ∧
      ∀ e line, readLine number raw = .error e → e.line? = some line →
        readLine number line.text = .error e := by
  have again : readLine number (String.ofList (codeOf raw)) = readLine number raw :=
    readLine_congr (codeOf_echo (isEcho_iff.mpr rfl)) number
  refine ⟨codeOf raw, fun _ => isEcho_iff, readLine_eq_ok_none_iff,
    fun _ => readLine_eq_ok_some_iff, fun _ => readLine_eq_error_iff, fun c h => ?_,
    fun e line h hline => ?_⟩
  · obtain ⟨ws, -, hc⟩ := readLine_eq_ok_some_iff.mp h
    rw [hc.source_eq, again, h]
  · obtain ⟨cause, -, rfl⟩ := readLine_eq_error_iff.mp h
    obtain rfl : _ = line := Option.some.inj hline
    rw [again, h]

end HackBackend.Vm
