import HackBackend.Text.Lines
import HackBackend.Vm.Reader

/-!
# Streams of commands

A stream hands out the commands of a source one after another and skips the lines without
code. After an error it has nothing more to hand out.
-/

namespace HackBackend.Vm

/-- The lines still to be read, and the number of the line before them. -/
structure Stream where
  number : Nat
  rest : List (Except Text.ReadFault String)

namespace Stream

def ofSource (source : Text.Source) : Stream :=
  ⟨0, source.lines⟩

/-- The command on a line that a reader has handed over, if the line could be read. -/
def readItem (number : Nat) : Except Text.ReadFault String → Except Error (Option Command)
  | .ok raw => readLine number raw
  | .error .invalidUtf8 => .error (.located .invalidUtf8 ⟨number, "<invalid UTF-8>"⟩)
  | .error (.failed message) => .error (.input message)

/-- The next command or error of some lines, and what is left to be read after it. -/
def nextOf (number : Nat) :
    List (Except Text.ReadFault String) → Option (Except Error Command) × Stream
  | [] => (none, ⟨number, []⟩)
  | item :: rest =>
      match readItem (number + 1) item with
      | .error e => (some (.error e), ⟨number + 1, []⟩)
      | .ok (some command) => (some (.ok command), ⟨number + 1, rest⟩)
      | .ok none => nextOf (number + 1) rest

/-- The next command or error of a stream, if there is one, and the stream after it. -/
def next (s : Stream) : Option (Except Error Command) × Stream :=
  nextOf s.number s.rest

/-- All that is handed out when some lines are read to their end. -/
def itemsOf (number : Nat) :
    List (Except Text.ReadFault String) → List (Except Error Command)
  | [] => []
  | item :: rest =>
      match readItem (number + 1) item with
      | .error e => [.error e]
      | .ok (some command) => .ok command :: itemsOf (number + 1) rest
      | .ok none => itemsOf (number + 1) rest

def toList (s : Stream) : List (Except Error Command) :=
  itemsOf s.number s.rest

theorem toList_eq_nil_of_next {s s' : Stream} (h : s.next = (none, s')) : s.toList = [] := by
  obtain ⟨number, rest⟩ := s
  simp only [next, toList] at h ⊢
  induction rest generalizing number with
  | nil => rfl
  | cons item rest ih =>
      rw [nextOf] at h
      rw [itemsOf]
      rcases hitem : readItem (number + 1) item with e | _ | command
      · simp [hitem] at h
      · exact ih _ (by simpa [hitem] using h)
      · simp [hitem] at h

/-- A stream holds what it hands out next, and then what it holds afterwards. -/
theorem toList_of_next {s s' : Stream} {x : Except Error Command}
    (h : s.next = (some x, s')) : s.toList = x :: s'.toList := by
  obtain ⟨number, rest⟩ := s
  simp only [next, toList] at h ⊢
  induction rest generalizing number with
  | nil => simp [nextOf] at h
  | cons item rest ih =>
      rw [nextOf] at h
      rw [itemsOf]
      rcases hitem : readItem (number + 1) item with e | _ | command
      · obtain ⟨rfl, rfl⟩ : .error e = x ∧ (⟨number + 1, []⟩ : Stream) = s' := by
          simpa [hitem] using h
        rfl
      · exact ih _ (by simpa [hitem] using h)
      · obtain ⟨rfl, rfl⟩ : .ok command = x ∧ (⟨number + 1, rest⟩ : Stream) = s' := by
          simpa [hitem] using h
        rfl

/-- Nothing follows an error. -/
theorem next_of_next_error {s s' : Stream} {e : Error} (h : s.next = (some (.error e), s')) :
    s'.next = (none, s') := by
  obtain ⟨number, rest⟩ := s
  simp only [next] at h ⊢
  induction rest generalizing number with
  | nil => simp [nextOf] at h
  | cons item rest ih =>
      rw [nextOf] at h
      rcases hitem : readItem (number + 1) item with e' | _ | command
      · obtain ⟨-, rfl⟩ : e' = e ∧ (⟨number + 1, []⟩ : Stream) = s' := by
          simpa [hitem] using h
        rfl
      · exact ih _ (by simpa [hitem] using h)
      · simp [hitem] at h

/-- The commands of a source, or its first error. -/
def commands (source : Text.Source) : Except Error (List Command) :=
  (ofSource source).toList.mapM id

end Stream

end HackBackend.Vm
