/-!
# Cutting a list at its separators

`pieces p xs` cuts `xs` at every element that satisfies `p`. There is always one piece more
than there are separators, so a list that ends in a separator has an empty last piece. The
statements below say that no piece holds a separator and that nothing else is lost.
-/

namespace HackBackend.Text

variable {α : Type}

/-- The runs between the separators of a list, the empty ones included. -/
def pieces (p : α → Bool) (xs : List α) : List (List α) :=
  xs.foldr (fun x rest => if p x then [] :: rest else rest.modifyHead (x :: ·)) [[]]

@[simp] theorem pieces_nil (p : α → Bool) : pieces p [] = [[]] := rfl

theorem pieces_cons (p : α → Bool) (x : α) (xs : List α) :
    pieces p (x :: xs) =
      if p x then [] :: pieces p xs else (pieces p xs).modifyHead (x :: ·) := rfl

@[simp] theorem length_pieces (p : α → Bool) (xs : List α) :
    (pieces p xs).length = xs.countP p + 1 := by
  induction xs with
  | nil => rfl
  | cons x xs ih => by_cases h : p x <;> simp [pieces_cons, h, ih]

theorem pieces_ne_nil (p : α → Bool) (xs : List α) : pieces p xs ≠ [] := by
  intro h
  have := length_pieces p xs
  simp [h] at this

/-- A piece holds no separator. -/
theorem not_of_mem_pieces {p : α → Bool} {xs w : List α} (hw : w ∈ pieces p xs) :
    ∀ x ∈ w, p x = false := by
  induction xs generalizing w with
  | nil => simp_all
  | cons x xs ih =>
      by_cases h : p x
      · simp only [pieces_cons, h, if_true, List.mem_cons] at hw
        rcases hw with rfl | hw
        · simp
        · exact ih hw
      · simp only [pieces_cons, h] at hw
        cases hp : pieces p xs with
        | nil => exact absurd hp (pieces_ne_nil p xs)
        | cons v vs =>
            simp only [hp, Bool.false_eq_true, if_false, List.modifyHead_cons,
              List.mem_cons] at hw
            rcases hw with rfl | hw
            · intro y hy
              rcases List.mem_cons.mp hy with rfl | hy
              · simpa using h
              · exact ih (by simp [hp]) y hy
            · exact ih (by simp [hp, hw])

/-- The pieces hold, in order, what is left of a list without its separators. -/
theorem flatten_pieces (p : α → Bool) (xs : List α) :
    (pieces p xs).flatten = xs.filter (fun x => !p x) := by
  induction xs with
  | nil => rfl
  | cons x xs ih =>
      by_cases h : p x
      · simp [pieces_cons, h, ih]
      · cases hp : pieces p xs with
        | nil => exact absurd hp (pieces_ne_nil p xs)
        | cons v vs => simp [pieces_cons, h, hp, ← ih]

/-- The first piece of a list ends at its first separator. -/
theorem pieces_append_cons {p : α → Bool} {xs : List α} (hxs : ∀ x ∈ xs, p x = false)
    {s : α} (hs : p s) (ys : List α) : pieces p (xs ++ s :: ys) = xs :: pieces p ys := by
  induction xs with
  | nil => simp [pieces_cons, hs]
  | cons x xs ih =>
      have hx : p x = false := hxs x (by simp)
      rw [List.cons_append, pieces_cons, ih fun y hy => hxs y (by simp [hy])]
      simp [hx]

theorem pieces_eq_singleton {p : α → Bool} {xs : List α}
    (hxs : ∀ x ∈ xs, p x = false) : pieces p xs = [xs] := by
  induction xs with
  | nil => rfl
  | cons x xs ih =>
      have hx : p x = false := hxs x (by simp)
      rw [pieces_cons, ih fun y hy => hxs y (by simp [hy])]
      simp [hx]

/-- The pieces that hold something. -/
def words (p : α → Bool) (xs : List α) : List (List α) :=
  (pieces p xs).filter fun w => !w.isEmpty

theorem ne_nil_of_mem_words {p : α → Bool} {xs w : List α} (hw : w ∈ words p xs) :
    w ≠ [] := by
  rintro rfl
  simp [words] at hw

theorem not_of_mem_words {p : α → Bool} {xs w : List α} (hw : w ∈ words p xs) :
    ∀ x ∈ w, p x = false :=
  not_of_mem_pieces (List.mem_filter.mp hw).1

end HackBackend.Text
