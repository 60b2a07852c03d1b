import HackBackend.Cli.FileTree
import Mathlib.Data.List.Basic
import Mathlib.Data.List.Induction

/-!
# What creating a file changes

A file is created where its path leads, unless there is a directory. The tree then holds the
content at that place and is the same at every other one. No path leads anywhere else than
before, since nothing could be followed through the place of a file.
-/

namespace HackBackend.Cli

namespace FileTree

variable {tree : FileTree} {l l' place : Location} {content : ByteArray}

/-! ### Entries -/

theorem lookup?_put_of_ne (tree : FileTree) (entry : Entry) (h : l ≠ place) :
    (tree.put place entry).lookup? l = tree.lookup? l := by
  have hkept : ∀ entries : List (Location × Entry),
      (entries.filter fun e => e.1 ≠ place).lookup l = entries.lookup l := by
    intro entries
    induction entries with
    | nil => rfl
    | cons e entries ih =>
        obtain ⟨at', entry⟩ := e
        rw [List.filter_cons]
        by_cases hat : at' = place
        · subst hat
          simpa [List.lookup_cons, beq_false_of_ne h] using ih
        · rw [if_pos (by simpa using hat), List.lookup_cons, List.lookup_cons, ih]
  rw [lookup?, lookup?, put, List.lookup_cons, beq_false_of_ne h, hkept]

theorem lookup?_put_self (h : tree.lookup? place ≠ some .directory) (entry : Entry) :
    (tree.put place entry).lookup? place = some entry := by
  have hinside : Location.isOutside place = false := by
    by_contra houtside
    exact h (if_pos (by simpa using houtside))
  rw [lookup?, hinside, put]
  simp

/-! ### Paths -/

theorem follow_eq_ok_iff {part : String} :
    tree.follow l part = .ok l' ↔ tree.lookup? l = some .directory ∧
      (if isIdle part then .ok l
      else if part = ".." then .ok (Location.parent l)
      else if nameLimit < part.utf8ByteSize then .error .nameTooLong
      else .ok (l ++ [part]) : Except FileError Location) = .ok l' := by
  rw [follow]
  rcases tree.lookup? l with _ | _ | _ <;> simp

/-- A name that is empty only leads on from a directory, and not away from it. -/
theorem follow_empty (h : tree.follow l "" = .ok l') :
    l' = l ∧ tree.lookup? l = some .directory := by
  obtain ⟨hdir, hstay⟩ := follow_eq_ok_iff.mp h
  exact ⟨(Except.ok.inj hstay).symm, hdir⟩

/-- The last part of a path is followed from where the others lead. -/
theorem walk_concat_eq_ok_iff {parts : List String} {part : String} :
    tree.walk l (parts ++ [part]) = .ok l' ↔
      ∃ next, tree.walk l parts = .ok next ∧ tree.follow next part = .ok l' := by
  induction parts generalizing l with
  | nil =>
      rw [List.nil_append, walk]
      cases hfollow : tree.follow l part <;> simp [walk, hfollow]
  | cons first parts ih =>
      rw [List.cons_append, walk, walk]
      cases tree.follow l first with
      | error e => simp
      | ok next => exact ih

/-- A path starts from a directory. -/
theorem lookup?_startOf {path : String} {parts : List String}
    (h : startOf path = .ok (l, parts)) : tree.lookup? l = some .directory := by
  have houtside : Location.isOutside l := by
    rw [startOf] at h
    split at h
    · cases h
    · split at h
      all_goals
        obtain ⟨rfl, -⟩ := Prod.mk.inj (Except.ok.inj h)
        decide
  exact if_pos houtside

section

variable (h : tree.lookup? place ≠ some .directory)

include h

theorem follow_put_iff {part : String} :
    (tree.put place (.file content)).follow l part = .ok l' ↔ tree.follow l part = .ok l' := by
  rw [follow_eq_ok_iff, follow_eq_ok_iff]
  by_cases hl : l = place
  · subst hl
    simp [h, lookup?_put_self h]
  · rw [lookup?_put_of_ne tree _ hl]

theorem walk_put_iff {parts : List String} :
    (tree.put place (.file content)).walk l parts = .ok l' ↔ tree.walk l parts = .ok l' := by
  induction parts using List.reverseRec generalizing l' with
  | nil => rfl
  | append_singleton parts part ih =>
      simp only [walk_concat_eq_ok_iff, ih, follow_put_iff h]

/-- The paths of a tree lead to the same places after a file has been put into it. -/
theorem locate_put_iff {path : String} :
    (tree.put place (.file content)).locate path = .ok l ↔ tree.locate path = .ok l := by
  rw [locate, locate]
  cases startOf path with
  | error e => rfl
  | ok start => exact walk_put_iff h

end

theorem find_eq_ok_iff {path : String} {entry : Entry} :
    tree.find path = .ok entry ↔ ∃ l, tree.locate path = .ok l ∧ tree.lookup? l = some entry := by
  rw [find]
  cases tree.locate path with
  | error e => simp
  | ok l => cases hentry : tree.lookup? l <;> simp [hentry]

/-! ### Creating -/

/-- A file can be created by a path that leads to a place where no directory is. -/
structure Writable (tree : FileTree) (path : String) (place : Location) : Prop where
  located : tree.locate path = .ok place
  free : tree.lookup? place ≠ some .directory

/-- A tree with a file at a place that a path leads to, and with no other change. -/
structure Written (tree changed : FileTree) (path : String) (place : Location)
    (content : ByteArray) : Prop where
  entry : changed.lookup? place = some (.file content)
  kept : ∀ l, l ≠ place → changed.lookup? l = tree.lookup? l
  found : changed.find path = .ok (.file content)
  others : ∀ other, tree.locate other ≠ .ok place →
    ∀ entry, changed.find other = .ok entry ↔ tree.find other = .ok entry

theorem written_put {path : String} (h : tree.Writable path place) (content : ByteArray) :
    Written tree (tree.put place (.file content)) path place content where
  entry := lookup?_put_self h.free _
  kept _ hl := lookup?_put_of_ne tree _ hl
  found := find_eq_ok_iff.mpr ⟨place, (locate_put_iff h.free).mpr h.located,
    lookup?_put_self h.free _⟩
  others other hother entry := by
    rw [find_eq_ok_iff, find_eq_ok_iff]
    refine exists_congr fun l => ?_
    rw [locate_put_iff h.free]
    apply and_congr_right
    intro hl
    have hne : l ≠ place := by
      rintro rfl
      exact hother hl
    rw [lookup?_put_of_ne tree _ hne]

section

variable {path : String} {start : Location} {parts : List String}
variable (hstart : startOf path = .ok (start, parts))

include hstart

theorem locate_of_startOf (tree : FileTree) : tree.locate path = tree.walk start parts := by
  rw [locate, hstart]

/-- Without a last name a path leads to a directory, if it leads anywhere. -/
theorem lookup?_locate_of_slash (hlast : parts.getLast?.getD "" = "")
    (hplace : tree.locate path = .ok place) : tree.lookup? place = some .directory := by
  rw [locate_of_startOf hstart] at hplace
  rcases List.eq_nil_or_concat' parts with rfl | ⟨before, last, rfl⟩
  · obtain rfl := Except.ok.inj hplace
    exact lookup?_startOf hstart
  · obtain rfl : last = "" := by simpa using hlast
    obtain ⟨next, -, hfollow⟩ := walk_concat_eq_ok_iff.mp hplace
    obtain ⟨rfl, hdir⟩ := follow_empty hfollow
    exact hdir

theorem create_ne_ok_of_slash (hlast : parts.getLast?.getD "" = "") {changed : FileTree} :
    tree.create path content ≠ .ok changed := by
  have hname : (if parts.getLast? = some "" then ""
      else (parts.reverse.dropWhile (· = "")).headD "") = "" := by
    split
    · rfl
    · have hnil : parts = [] := by
        rcases List.eq_nil_or_concat' parts with rfl | ⟨before, last, rfl⟩
        · rfl
        · simp_all
      rw [hnil]
      rfl
  intro h
  simp only [create, hstart, hname] at h
  split at h
  · cases h
  · next l _ =>
      split at h
      · cases h
      · next place hfollow =>
          obtain ⟨rfl, hdir⟩ := follow_empty hfollow
          rw [hdir] at h
          cases h

end

/-- The last name of a path is followed from the directory that the others lead to. -/
theorem create_of_startOf {path : String} {start : Location} {before : List String} {last : String}
    (hstart : startOf path = .ok (start, before ++ [last])) (hlast : last ≠ "")
    {changed : FileTree} :
    tree.create path content = .ok changed ↔
      ∃ place, tree.Writable path place ∧ changed = tree.put place (.file content) := by
  have hnamed : (before ++ [last]).reverse.dropWhile (· = "") = last :: before.reverse := by
    simp [hlast]
  have hname : (if (before ++ [last]).getLast? = some "" then "" else last) = last := by
    simp [hlast]
  have hlocate (place : Location) : tree.locate path = .ok place ↔
      ∃ next, tree.walk start before = .ok next ∧ tree.follow next last = .ok place := by
    rw [locate_of_startOf hstart, walk_concat_eq_ok_iff]
  simp only [create, hstart, hnamed, List.tail_cons, List.reverse_reverse, List.headD_cons, hname]
  constructor
  · intro h
    split at h
    · cases h
    · next next hwalk =>
        split at h
        · cases h
        · next place hfollow =>
            split at h
            · cases h
            · next hfree =>
                exact ⟨place, ⟨(hlocate place).mpr ⟨next, hwalk, hfollow⟩, hfree⟩,
                  (Except.ok.inj h).symm⟩
  · rintro ⟨place, ⟨hplace, hfree⟩, rfl⟩
    obtain ⟨next, hwalk, hfollow⟩ := (hlocate place).mp hplace
    simp only [hwalk, hfollow]

/-- A file is created exactly if its path can be written to. -/
theorem create_eq_ok_iff {path : String} {changed : FileTree} :
    tree.create path content = .ok changed ↔
      ∃ place, tree.Writable path place ∧ changed = tree.put place (.file content) := by
  cases hstart : startOf path with
  | error e =>
      constructor
      · intro h
        simp [create, hstart] at h
      · rintro ⟨place, ⟨hplace, -⟩, -⟩
        simp [locate, hstart] at hplace
  | ok begun =>
      obtain ⟨start, parts⟩ := begun
      by_cases hlast : parts.getLast?.getD "" = ""
      · constructor
        · exact fun h => absurd h (create_ne_ok_of_slash hstart hlast)
        · rintro ⟨place, hplace, -⟩
          exact absurd (lookup?_locate_of_slash hstart hlast hplace.located) hplace.free
      · rcases List.eq_nil_or_concat' parts with rfl | ⟨before, last, rfl⟩
        · exact absurd rfl hlast
        · exact create_of_startOf hstart (by simpa using hlast)

end FileTree

end HackBackend.Cli
