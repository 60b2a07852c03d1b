import HackBackend.Text.Blank
import HackBackend.Text.Pieces
import Mathlib.Data.List.Infix
import Mathlib.Data.List.TakeWhile

/-!
# The layout of a line

What the readers of both languages make of comments and blanks, said without the functions that
do it. The code of a text stands before its first `//`, a trimmed text has no blank at its two
ends, and a row of words has a run of separators between each two of them. The functions give
exactly what these relations hold of.
-/

namespace HackBackend.Text

/-! ### Comments -/

def commentMark : List Char :=
  ['/', '/']

theorem commentMark_prefix_cons {c : Char} {cs : List Char} :
    commentMark <+: c :: cs ↔ c = '/' ∧ cs.head? = some '/' := by
  cases cs <;> simp [commentMark, eq_comm]

/-- All of a text without comment, or what stands before the first mark of one: an earlier mark
would begin in the code, and could end in the slash that follows it. -/
inductive IsCode : List Char → List Char → Prop
  | whole {cs : List Char} (h : ¬ commentMark <:+: cs) : IsCode cs cs
  | before {code comment : List Char} (h : ¬ commentMark <:+: code ++ ['/']) :
      IsCode (code ++ commentMark ++ comment) code

theorem isCode_uncommented (cs : List Char) : IsCode cs (uncommented cs) := by
  induction cs with
  | nil => exact .whole (by decide)
  | cons c cs ih =>
      rw [uncommented_cons]
      split
      case isTrue hmark =>
        obtain ⟨rfl, hhead⟩ := hmark
        obtain ⟨comment, rfl⟩ := List.head?_eq_some_iff.mp hhead
        exact @IsCode.before [] comment (by decide)
      case isFalse hmark =>
        generalize uncommented cs = code at ih
        cases ih with
        | whole h =>
            apply IsCode.whole
            rw [List.infix_cons_iff, commentMark_prefix_cons]
            exact not_or.mpr ⟨hmark, h⟩
        | @before _ comment h =>
            apply @IsCode.before (c :: code) comment
            rw [List.cons_append, List.infix_cons_iff, commentMark_prefix_cons]
            -- the slash after the code is the first of the mark
            have hhead : (code ++ ['/']).head? = (code ++ commentMark ++ comment).head? := by
              cases code <;> rfl
            exact not_or.mpr ⟨hhead ▸ hmark, h⟩

theorem uncommented_of_not_mark {cs : List Char} (h : ¬ commentMark <:+: cs) :
    uncommented cs = cs := by
  induction cs with
  | nil => rfl
  | cons c cs ih =>
      rw [List.infix_cons_iff, commentMark_prefix_cons, not_or] at h
      rw [uncommented_cons, if_neg h.1, ih h.2]

theorem not_mark_of_notMem {code : List Char} (h : '/' ∉ code) :
    ¬ commentMark <:+: code ++ ['/'] := by
  intro hmark
  have hcount : commentMark.count '/' ≤ (code ++ ['/']).count '/' := hmark.sublist.count_le '/'
  rw [List.count_append, List.count_eq_zero.mpr h] at hcount
  exact absurd hcount (by decide)

theorem uncommented_append_mark {code : List Char} (h : ¬ commentMark <:+: code ++ ['/'])
    (comment : List Char) : uncommented (code ++ commentMark ++ comment) = code := by
  induction code with
  | nil => simp [commentMark, uncommented_cons]
  | cons c code ih =>
      rw [List.cons_append, List.infix_cons_iff, commentMark_prefix_cons, not_or] at h
      have hhead : (code ++ ['/']).head? = (code ++ commentMark ++ comment).head? := by
        cases code <;> rfl
      rw [List.cons_append, List.cons_append, uncommented_cons, if_neg (hhead ▸ h.1), ih h.2]

/-- The code of a text is what is left when its comment is dropped. -/
theorem isCode_iff {cs code : List Char} : IsCode cs code ↔ code = uncommented cs := by
  constructor
  · intro h
    cases h with
    | whole h => exact (uncommented_of_not_mark h).symm
    | before h => exact (uncommented_append_mark h _).symm
  · rintro rfl
    exact isCode_uncommented cs

theorem IsCode.not_mark {cs code : List Char} (h : IsCode cs code) : ¬ commentMark <:+: code := by
  cases h with
  | whole h => exact h
  | before h => exact fun hmark => h (hmark.trans (List.prefix_append _ _).isInfix)

/-- A mark of a comment ends in a slash. -/
theorem not_mark_concat {cs : List Char} {c : Char} (hc : c ≠ '/')
    (h : ¬ commentMark <:+: cs) : ¬ commentMark <:+: cs ++ [c] := by
  rw [List.infix_concat_iff]
  rintro (hsuffix | hinfix)
  · have hlast := hsuffix.getLast (by simp [commentMark])
    simp [commentMark] at hlast
    exact hc hlast.symm
  · exact h hinfix

theorem IsCode.isPrefix {cs code : List Char} (h : IsCode cs code) : code <+: cs := by
  cases h with
  | whole => exact List.prefix_refl cs
  | before =>
      rw [List.append_assoc]
      exact List.prefix_append code _

/-! ### Blanks at the ends -/

/-- A text with its blanks at the two ends taken away. -/
structure IsTrimmed (cs t : List Char) : Prop where
  framed : ∃ left right, cs = left ++ t ++ right ∧ ∀ c ∈ left ++ right, isBlank c
  head : ∀ c ∈ t.head?, isBlank c = false
  last : ∀ c ∈ t.getLast?, isBlank c = false

theorem isTrimmed_trim (cs : List Char) : IsTrimmed cs (trim cs) := by
  have hfront := List.takeWhile_append_dropWhile (p := isBlank) (l := cs)
  set front := cs.dropWhile isBlank with hfront_def
  have hback := List.takeWhile_append_dropWhile (p := isBlank) (l := front.reverse)
  have hsplit : front = trim cs ++ (front.reverse.takeWhile isBlank).reverse := by
    rw [trim, ← hfront_def, ← List.reverse_append, hback, List.reverse_reverse]
  constructor
  case framed =>
    refine ⟨cs.takeWhile isBlank, (front.reverse.takeWhile isBlank).reverse, ?_, ?_⟩
    · rw [List.append_assoc, ← hsplit, hfront]
    · intro c hc
      rcases List.mem_append.mp hc with hc | hc
      · exact List.mem_takeWhile_imp hc
      · exact List.mem_takeWhile_imp (List.mem_reverse.mp hc)
  case head =>
    intro c hc
    have hhead : front.head? = some c := by
      rw [hsplit, List.head?_append, hc, Option.some_or]
    have := List.head?_dropWhile_not isBlank cs
    rw [← hfront_def, hhead] at this
    simpa using this
  case last =>
    intro c hc
    rw [trim, ← hfront_def, List.getLast?_reverse] at hc
    have := List.head?_dropWhile_not isBlank front.reverse
    rw [hc] at this
    simpa using this

theorem dropWhile_append_of_head {p : Char → Bool} {left t : List Char} (hleft : ∀ c ∈ left, p c)
    (head : ∀ c ∈ t.head?, p c = false) : (left ++ t).dropWhile p = t := by
  rw [List.dropWhile_append_of_pos hleft]
  cases t with
  | nil => rfl
  | cons c t => exact List.dropWhile_cons_of_neg (by simp [head c rfl])

/-- A trimmed text is what trimming gives. -/
theorem isTrimmed_iff {cs t : List Char} : IsTrimmed cs t ↔ t = trim cs := by
  constructor
  · rintro ⟨⟨left, right, rfl, hblank⟩, head, last⟩
    have hleft : ∀ c ∈ left, isBlank c := fun c hc => hblank c (List.mem_append_left _ hc)
    have hright : ∀ c ∈ right.reverse, isBlank c := fun c hc =>
      hblank c (List.mem_append_right _ (List.mem_reverse.mp hc))
    cases t with
    | nil =>
        have hall : ∀ c ∈ left ++ right, isBlank c := hblank
        have : (left ++ right).dropWhile isBlank = [] :=
          List.dropWhile_eq_nil_iff.mpr hall
        simp [trim, this]
    | cons c t =>
        have hlast : ∀ d ∈ (c :: t).reverse.head?, isBlank d = false := by
          rw [List.head?_reverse]
          exact last
        rw [trim, List.append_assoc, dropWhile_append_of_head hleft (by simpa using head),
          List.reverse_append, dropWhile_append_of_head hright hlast, List.reverse_reverse]
  · rintro rfl
    exact isTrimmed_trim cs

theorem IsTrimmed.isInfix {cs t : List Char} (h : IsTrimmed cs t) : t <:+: cs := by
  obtain ⟨left, right, rfl, -⟩ := h.framed
  exact ⟨left, right, rfl⟩

/-- Trimming twice is trimming once. -/
theorem IsTrimmed.trim_eq {cs t : List Char} (h : IsTrimmed cs t) : trim t = t :=
  (isTrimmed_iff.mp ⟨⟨[], [], by simp⟩, h.head, h.last⟩).symm

/-! ### Words -/

/-- Something without blanks. -/
def IsWord (w : List Char) : Prop :=
  w ≠ [] ∧ ∀ c ∈ w, isBlank c = false

/-- A text that is a row of words with separators between them. -/
inductive IsWords : List Char → List (List Char) → Prop
  | single {w : List Char} (hw : IsWord w) : IsWords w [w]
  | cons {w gap rest : List Char} {ws : List (List Char)} (hw : IsWord w) (hgap : gap ≠ [])
      (hsep : ∀ c ∈ gap, isSeparator c) (hrest : IsWords rest ws) :
      IsWords (w ++ gap ++ rest) (w :: ws)

theorem IsWord.not_separator {w : List Char} (h : IsWord w) : ∀ c ∈ w, isSeparator c = false := by
  intro c hc
  by_contra hsep
  have := isBlank_of_isSeparator (by simpa using hsep)
  simp [h.2 c hc] at this

/-- A row of words begins with a character that is no blank. -/
theorem IsWords.head {t : List Char} {ws : List (List Char)} (h : IsWords t ws) :
    ∃ c cs, t = c :: cs ∧ isBlank c = false := by
  rcases h with ⟨hw⟩ | ⟨hw, -, -, -⟩
  all_goals
    obtain ⟨c, cs, rfl⟩ := List.exists_cons_of_ne_nil hw.1
    exact ⟨c, _, rfl, hw.2 c (List.mem_cons_self ..)⟩

/-- The only blanks in a row of words are separators. -/
theorem IsWords.isSeparator_of_isBlank {t : List Char} {ws : List (List Char)} (h : IsWords t ws) :
    ∀ c ∈ t, isBlank c → isSeparator c := by
  induction h with
  | single hw => exact fun c hc hblank => absurd hblank (by simp [hw.2 c hc])
  | cons hw _ hsep _ ih =>
      intro c hc hblank
      rcases List.mem_append.mp hc with hc | hc
      · rcases List.mem_append.mp hc with hc | hc
        · exact absurd hblank (by simp [hw.2 c hc])
        · exact hsep c hc
      · exact ih c hc hblank

variable {α : Type} {p : α → Bool}

theorem eq_of_pieces_eq_singleton {xs w : List α} (h : pieces p xs = [w]) : xs = w := by
  have hcount : xs.countP p = 0 := by simpa [h] using length_pieces p xs
  have hnone : ∀ x ∈ xs, p x = false := by simpa using List.countP_eq_zero.mp hcount
  simpa [pieces_eq_singleton hnone] using h

/-- The first piece, if it is not the only one, ends at a separator. -/
theorem exists_of_pieces_eq_cons {xs w v : List α} {vs : List (List α)}
    (h : pieces p xs = w :: v :: vs) :
    ∃ s ys, p s ∧ xs = w ++ s :: ys ∧ pieces p ys = v :: vs := by
  induction xs generalizing w with
  | nil => simp at h
  | cons x xs ih =>
      by_cases hx : p x
      · rw [pieces_cons, if_pos hx] at h
        obtain ⟨rfl, hrest⟩ := List.cons.inj h
        exact ⟨x, xs, hx, rfl, hrest⟩
      · obtain ⟨u, us, hp⟩ := List.exists_cons_of_ne_nil (pieces_ne_nil p xs)
        rw [pieces_cons, if_neg hx, hp, List.modifyHead_cons] at h
        obtain ⟨rfl, rfl⟩ := List.cons.inj h
        obtain ⟨s, ys, hs, rfl, hrest⟩ := ih hp
        exact ⟨s, ys, hs, rfl, hrest⟩

/-- Separators before a list make no difference to its words. -/
theorem words_append_of_separators {gap : List α} (h : ∀ x ∈ gap, p x) (xs : List α) :
    words p (gap ++ xs) = words p xs := by
  induction gap with
  | nil => rfl
  | cons x gap ih =>
      rw [← ih fun y hy => h y (List.mem_cons_of_mem _ hy)]
      simp [words, pieces_cons, h x]

theorem words_of_not {w : List α} (hw : w ≠ []) (h : ∀ x ∈ w, p x = false) : words p w = [w] := by
  simp [words, pieces_eq_singleton h, hw]

theorem words_append_cons {w : List α} (hw : w ≠ []) (h : ∀ x ∈ w, p x = false) {s : α}
    (hs : p s) (xs : List α) : words p (w ++ s :: xs) = w :: words p xs := by
  simp [words, pieces_append_cons h hs, hw]

theorem IsWords.words_eq {t : List Char} {ws : List (List Char)} (h : IsWords t ws) :
    words isSeparator t = ws := by
  induction h with
  | single hw => exact words_of_not hw.1 hw.not_separator
  | @cons w gap rest ws hw hgap hsep _ ih =>
      obtain ⟨s, gap, rfl⟩ := List.exists_cons_of_ne_nil hgap
      have hs : isSeparator s := hsep s (List.mem_cons_self ..)
      have hmore : ∀ c ∈ gap, isSeparator c := fun c hc => hsep c (List.mem_cons_of_mem _ hc)
      rw [List.append_assoc, List.cons_append, words_append_cons hw.1 hw.not_separator hs,
        words_append_of_separators hmore, ih]

/-- A character that is no blank may be put before the first word. -/
theorem IsWords.cons_char {c : Char} {t : List Char} {ws : List (List Char)}
    (hc : isBlank c = false) (h : IsWords t ws) : ∃ ws, IsWords (c :: t) ws := by
  have longer {w : List Char} (hw : IsWord w) : IsWord (c :: w) :=
    ⟨List.cons_ne_nil _ _, List.forall_mem_cons.mpr ⟨hc, hw.2⟩⟩
  cases h with
  | single hw => exact ⟨_, .single (longer hw)⟩
  | cons hw hgap hsep hrest => exact ⟨_, .cons (longer hw) hgap hsep hrest⟩

/-- A text that ends in no blank, and whose blanks all are separators, is a row of words behind
some separators. The induction is on the text: a separator joins the run before the first word,
any other character the word itself or, if a separator follows, makes a new one. -/
theorem exists_isWords_append {t : List Char} (hne : t ≠ [])
    (last : ∀ c ∈ t.getLast?, isBlank c = false) (h : ∀ c ∈ t, isBlank c → isSeparator c) :
    ∃ gap rest ws, t = gap ++ rest ∧ (∀ c ∈ gap, isSeparator c) ∧ IsWords rest ws := by
  induction t with
  | nil => exact absurd rfl hne
  | cons c t ih =>
      have hword (hc : isBlank c = false) : IsWord [c] := ⟨by simp, by simpa using hc⟩
      cases t with
      | nil => exact ⟨[], [c], _, rfl, by simp, .single (hword (last c rfl))⟩
      | cons d t =>
          obtain ⟨gap, rest, ws, ht, hsep, hrest⟩ := ih (List.cons_ne_nil _ _)
            (by simpa using last) fun x hx => h x (List.mem_cons_of_mem _ hx)
          rw [ht]
          cases hc : isBlank c with
          | true =>
              have hcsep : isSeparator c := h c (List.mem_cons_self ..) hc
              exact ⟨c :: gap, rest, ws, rfl, List.forall_mem_cons.mpr ⟨hcsep, hsep⟩, hrest⟩
          | false =>
              cases gap with
              | nil =>
                  obtain ⟨ws, hmore⟩ := hrest.cons_char hc
                  exact ⟨[], c :: rest, ws, rfl, by simp, hmore⟩
              | cons s gap =>
                  have hrow := IsWords.cons (hword hc) (List.cons_ne_nil s gap) hsep hrest
                  exact ⟨[], _, _, rfl, by simp, hrow⟩

/-- A text without blanks at its ends is a row of words exactly if all its blanks separate, and
then its words are known. -/
theorem isWords_iff {t : List Char} {ws : List (List Char)} (hne : t ≠ [])
    (head : ∀ c ∈ t.head?, isBlank c = false) (last : ∀ c ∈ t.getLast?, isBlank c = false) :
    IsWords t ws ↔ (∀ c ∈ t, isBlank c → isSeparator c) ∧ ws = words isSeparator t := by
  constructor
  · exact fun h => ⟨h.isSeparator_of_isBlank, h.words_eq.symm⟩
  · rintro ⟨h, rfl⟩
    obtain ⟨gap, rest, ws, rfl, hsep, hrest⟩ := exists_isWords_append hne last h
    cases gap with
    | nil =>
        rw [List.nil_append, hrest.words_eq]
        exact hrest
    | cons s gap =>
        have hblank := isBlank_of_isSeparator (hsep s (List.mem_cons_self ..))
        simp [head s rfl] at hblank

end HackBackend.Text
