import HackBackend.Proofs.Codegen.Requests
import HackBackend.Proofs.Text.Lines
import HackBackend.Proofs.Vm.Grammar
import Mathlib.Logic.Function.Iterate

/-!
# A unit is taken line by line

A unit is taken one physical line after another: a line is decoded and read, and the command on it,
if there is one, is taken before the next line is looked at. The first line that fails ends the
unit. What follows it makes no difference, and all commands before it have been taken.

Commands are read on demand. Taking them from a stream one after another comes to the same, and
after an error the stream has nothing more to hand out.
-/

namespace HackBackend

namespace Vm

namespace Stream

/-- A stream that hands out a command has read a line. -/
theorem length_rest_of_next {s s' : Stream} {c : Command} (h : s.next = (some (.ok c), s')) :
    s'.rest.length < s.rest.length := by
  obtain ⟨number, rest⟩ := s
  simp only [next] at h ⊢
  induction rest generalizing number with
  | nil => simp [nextOf] at h
  | cons item rest ih =>
      rw [nextOf] at h
      rcases hitem : readItem (number + 1) item with e | _ | command
      · simp [hitem] at h
      · have hshorter := ih (number + 1) (by simpa [hitem] using h)
        exact Nat.lt_succ_of_lt hshorter
      · obtain ⟨-, rfl⟩ : command = c ∧ (⟨number + 1, rest⟩ : Stream) = s' := by
          simpa [hitem] using h
        exact Nat.lt_succ_self rest.length

/-- After an error nothing is ever handed out. -/
theorem iterate_next_of_next_error {s s' : Stream} {e : Error}
    (h : s.next = (some (.error e), s')) (n : Nat) :
    ((fun s : Stream => s.next.2)^[n] s').next.1 = none := by
  have hend := next_of_next_error h
  have hfixed : (fun s : Stream => s.next.2) s' = s' := congrArg Prod.snd hend
  rw [Function.iterate_fixed hfixed, hend]

end Stream

end Vm

namespace Codegen.Generator

open Vm Text

/-- Takes the command on a physical line, if there is one. -/
def takeLine (g : Generator) (number : Nat) (line : List UInt8) : Except Error Unit × Generator :=
  match String.fromUTF8? ⟨line.toArray⟩ with
  | none => (.error (.located .invalidUtf8 ⟨number, "<invalid UTF-8>"⟩), g)
  | some raw =>
      match readLine number raw with
      | .error e => (.error e, g)
      | .ok none => (.ok (), g)
      | .ok (some c) => g.takeCommand c

/-- Goes on with a line and its number, unless there has been an error. -/
def goOn (outcome : Except Error Unit × Generator) (line : List UInt8 × Nat) :
    Except Error Unit × Generator :=
  match outcome with
  | (.error e, g) => (.error e, g)
  | (.ok (), g) => g.takeLine line.2 line.1

/-- Takes commands from a stream, up to the first error. -/
def takeStream (g : Generator) (s : Stream) : Except Error Unit × Generator :=
  match _hnext : s.next with
  | (none, _) => (.ok (), g)
  | (some (.error e), _) => (.error e, g)
  | (some (.ok c), s') =>
      match g.takeCommand c with
      | (.error e, g') => (.error e, g')
      | (.ok (), g') => takeStream g' s'
termination_by s.rest.length
decreasing_by exact Stream.length_rest_of_next _hnext

variable {g h : Generator}

/-! ### The fold over the lines -/

/-- A line is taken as it is read. -/
theorem takeLine_eq (g : Generator) (number : Nat) (line : List UInt8) :
    g.takeLine number line =
      match Stream.readItem number (decodeLine line) with
      | .error e => (.error e, g)
      | .ok none => (.ok (), g)
      | .ok (some c) => g.takeCommand c := by
  rw [takeLine, decodeLine]
  cases String.fromUTF8? ⟨line.toArray⟩ <;> rfl

theorem takeLines_cons (g : Generator) (number : Nat) (line : List UInt8)
    (rest : List (Except ReadFault String)) :
    g.takeLines number (decodeLine line :: rest) =
      match g.takeLine (number + 1) line with
      | (.error e, g') => (.error e, g')
      | (.ok (), g') => g'.takeLines (number + 1) rest := by
  rw [takeLines, takeLine_eq]
  rcases Stream.readItem (number + 1) (decodeLine line) with e | _ | c <;> rfl

/-- An error is the last word. -/
theorem foldl_goOn_error (e : Error) (g : Generator) (lines : List (List UInt8 × Nat)) :
    lines.foldl goOn (.error e, g) = (.error e, g) := by
  induction lines with
  | nil => rfl
  | cons line rest ih => exact ih

theorem takeLines_eq_foldl (g : Generator) (number : Nat) (lines : List (List UInt8)) :
    g.takeLines number (lines.map decodeLine) =
      (lines.zipIdx (number + 1)).foldl goOn (.ok (), g) := by
  induction lines generalizing g number with
  | nil => rfl
  | cons line rest ih =>
      rw [List.map_cons, takeLines_cons, List.zipIdx_cons, List.foldl_cons]
      have hfirst : goOn (.ok (), g) (line, number + 1) = g.takeLine (number + 1) line := rfl
      rw [hfirst]
      rcases g.takeLine (number + 1) line with ⟨e | ⟨⟩, next⟩
      · exact (foldl_goOn_error e next _).symm
      · exact ih next (number + 1)

/-! ### The loop over a stream -/

theorem takeStream_of_next_none {s s' : Stream} (hnext : s.next = (none, s')) :
    g.takeStream s = (.ok (), g) := by
  rw [takeStream]
  split <;> simp_all

theorem takeStream_of_next_error {s s' : Stream} {e : Error}
    (hnext : s.next = (some (.error e), s')) : g.takeStream s = (.error e, g) := by
  rw [takeStream]
  split <;> simp_all

theorem takeStream_of_next_ok {s s' : Stream} {c : Command}
    (hnext : s.next = (some (.ok c), s')) :
    g.takeStream s =
      match g.takeCommand c with
      | (.error e, g') => (.error e, g')
      | (.ok (), g') => g'.takeStream s' := by
  rw [takeStream]
  split <;> simp_all

/-- What is taken from a stream depends on what it hands out next, and nothing else. -/
theorem takeStream_congr {s t : Stream} (hsame : s.next = t.next) :
    g.takeStream s = g.takeStream t := by
  rcases hnext : t.next with ⟨_ | e | c, t'⟩
  · rw [takeStream_of_next_none hnext, takeStream_of_next_none (hsame.trans hnext)]
  · rw [takeStream_of_next_error hnext, takeStream_of_next_error (hsame.trans hnext)]
  · rw [takeStream_of_next_ok hnext, takeStream_of_next_ok (hsame.trans hnext)]

/-- Taking lines is taking what a stream hands out. -/
theorem takeLines_eq_takeStream (g : Generator) (number : Nat)
    (items : List (Except ReadFault String)) :
    g.takeLines number items = g.takeStream ⟨number, items⟩ := by
  induction items generalizing g number with
  | nil => exact (takeStream_of_next_none rfl).symm
  | cons item rest ih =>
      rw [takeLines]
      have hnext : (⟨number, item :: rest⟩ : Stream).next = Stream.nextOf number (item :: rest) :=
        rfl
      rw [Stream.nextOf] at hnext
      rcases hitem : Stream.readItem (number + 1) item with e | _ | c
      · simp only [hitem] at hnext ⊢
        rw [takeStream_of_next_error hnext]
      · -- Nothing is handed out for this line: the stream goes on to the next one by itself.
        simp only [hitem] at hnext ⊢
        rw [ih]
        exact (takeStream_congr hnext).symm
      · simp only [hitem] at hnext ⊢
        rw [takeStream_of_next_ok hnext]
        rcases g.takeCommand c with ⟨e | ⟨⟩, next⟩
        · rfl
        · exact ih next (number + 1)

/-! ### The first line that fails -/

/-- What comes after lines that are taken is taken by the generator that has taken them. -/
theorem takeLines_append {number : Nat} {before : List (List UInt8)}
    (hbefore : g.takeLines number (before.map decodeLine) = (.ok (), h))
    (rest : List (List UInt8)) :
    g.takeLines number ((before ++ rest).map decodeLine) =
      h.takeLines (number + before.length) (rest.map decodeLine) := by
  rw [takeLines_eq_foldl] at hbefore ⊢
  rw [List.zipIdx_append, List.foldl_append, hbefore, takeLines_eq_foldl]
  congr 2
  omega

/-- Lines that are not all taken have a first one that is not. -/
theorem exists_of_takeLines_error {number : Nat} {lines : List (List UInt8)} {e : Error}
    (herror : g.takeLines number (lines.map decodeLine) = (.error e, h)) :
    ∃ before line after taken, lines = before ++ line :: after ∧
      g.takeLines number (before.map decodeLine) = (.ok (), taken) ∧
      taken.takeLine (number + before.length + 1) line = (.error e, h) := by
  induction lines generalizing g number with
  | nil => simp [takeLines] at herror
  | cons line rest ih =>
      rw [List.map_cons, takeLines_cons] at herror
      rcases hline : g.takeLine (number + 1) line with ⟨e' | ⟨⟩, next⟩
      · rw [hline] at herror
        obtain ⟨rfl, rfl⟩ : e' = e ∧ next = h := by simpa using herror
        exact ⟨[], line, rest, g, rfl, rfl, hline⟩
      · rw [hline] at herror
        obtain ⟨before, bad, after, taken, rfl, htaken, hbad⟩ := ih herror
        refine ⟨line :: before, bad, after, taken, rfl, ?_, ?_⟩
        · rw [List.map_cons, takeLines_cons, hline]
          exact htaken
        · rw [List.length_cons, ← Nat.add_assoc, Nat.add_right_comm number]
          exact hbad

/-- Lines that are all taken hold commands that are accepted one after another. -/
theorem commands_of_takeLines {number : Nat} {items : List (Except ReadFault String)}
    (htaken : g.takeLines number items = (.ok (), h)) :
    ∃ commands : List Command, Stream.itemsOf number items = commands.map .ok ∧
      g.accepted (commands.map .command) = commands.map .command ∧
      h = g.after (commands.map .command) := by
  induction items generalizing g number with
  | nil =>
      obtain rfl : g = h := by simpa [takeLines] using htaken
      exact ⟨[], rfl, rfl, rfl⟩
  | cons item rest ih =>
      rw [takeLines] at htaken
      rw [Stream.itemsOf]
      rcases hread : Stream.readItem (number + 1) item with e | _ | c
      · simp [hread] at htaken
      · exact ih (by simpa [hread] using htaken)
      · rcases hc : g.takeCommand c with ⟨e | ⟨⟩, next⟩
        · simp [hread, hc] at htaken
        · obtain ⟨commands, hitems, haccepted, rfl⟩ := ih (by simpa [hread, hc] using htaken)
          have hhandle : g.handle (.command c) = (.ok (), next) := hc
          have hfirst : (g.answer (.command c)).accepted := by
            simp [answer, Answer.accepted, hhandle, Except.toOption]
          refine ⟨c :: commands, congrArg (.ok c :: ·) hitems, ?_, ?_⟩
          · rw [List.map_cons, accepted, if_pos hfirst, hhandle, haccepted]
          · rw [List.map_cons, after_cons, hhandle]

theorem line_of_takeCommand_error {c : Command} {e : Error}
    (herror : g.takeCommand c = (.error e, h)) : e.line? = some c.source := by
  rw [takeCommand] at herror
  cases hop : c.operation with
  | error cause =>
      obtain ⟨rfl, -⟩ : c.fail cause = e ∧ g = h := by simpa [hop] using herror
      rfl
  | ok op =>
      simp only [hop] at herror
      split at herror
      · obtain ⟨hsame, -⟩ := Prod.mk.inj herror
        rw [← Except.error.inj hsame]
        rfl
      · cases herror

/-- A line that fails leaves the lines that were written, and its error is at the line. -/
theorem of_takeLine_error {number : Nat} {line : List UInt8} {e : Error}
    (herror : g.takeLine number line = (.error e, h)) :
    h.listing.lines = g.listing.lines ∧
      ∃ source, e.line? = some source ∧ source.number = number := by
  rw [takeLine] at herror
  cases hdecoded : String.fromUTF8? ⟨line.toArray⟩ with
  | none =>
      obtain ⟨rfl, rfl⟩ : .located .invalidUtf8 ⟨number, "<invalid UTF-8>"⟩ = e ∧ g = h := by
        simpa [hdecoded] using herror
      exact ⟨rfl, _, rfl, rfl⟩
  | some raw =>
      obtain ⟨hcommand, hfault⟩ := @number_of_readLine number raw
      rcases hread : readLine number raw with e' | _ | c
      · obtain ⟨rfl, rfl⟩ : e' = e ∧ g = h := by simpa [hdecoded, hread] using herror
        exact ⟨rfl, hfault e' hread⟩
      · simp [hdecoded, hread] at herror
      · have hrefused : g.takeCommand c = (.error e, h) := by
          simpa [hdecoded, hread] using herror
        exact ⟨(alike_of_takeCommand_error hrefused).listing.lines, c.source,
          line_of_takeCommand_error hrefused, hcommand c hread⟩

/-- The lines of a run are those that its requests add, one after another. -/
theorem toList_lines_after (g : Generator) (requests : List Request) :
    (g.after requests).listing.lines.toList =
      g.listing.lines.toList ++ (g.answers requests).flatMap fun entry => entry.2.added := by
  induction requests generalizing g with
  | nil => simp [after, answers]
  | cons r rest ih =>
      rw [after_cons, ih, toList_lines_handle, answers, List.flatMap_cons, List.append_assoc]

/-- Some requests are all accepted, the line after them fails, and its error is at the line. What is
written by then is what the requests have added. -/
structure StopsAt (g : Generator) (requests : List Request) (number : Nat) (line : List UInt8)
    (e : Error) (g' : Generator) : Prop where
  accepted : g.accepted requests = requests
  failed : (g.after requests).takeLine number line = (.error e, g')
  number : ∃ source, e.line? = some source ∧ source.number = number
  written : g'.listing.lines.toList =
    g.listing.lines.toList ++ (g.answers requests).flatMap fun entry => entry.2.added

/-- Whatever bytes a unit has, they make up lines, and taking the unit is going on from line to line
up to the first error, which is also what taking commands from a stream comes to. If there is an
error, then the commands on the lines before it are all taken, it is at the line that fails, and
what follows that line makes no difference. After an error a stream hands out nothing any more. -/
theorem takeUnit_line_by_line (g : Generator) (name : String) (bytes : ByteArray) :
    ∃ lines, IsLines bytes.data.toList lines ∧
      g.takeUnit name ⟨bytes, none⟩ = (lines.zipIdx 1).foldl goOn (.ok (), g.beginUnit name) ∧
      g.takeUnit name ⟨bytes, none⟩ =
        (g.beginUnit name).takeStream (Stream.ofSource ⟨bytes, none⟩) ∧
      (∀ e g', g.takeUnit name ⟨bytes, none⟩ = (.error e, g') →
        ∃ before line after, ∃ commands : List Command, lines = before ++ line :: after ∧
          Stream.itemsOf 0 (before.map decodeLine) = commands.map .ok ∧
          StopsAt g (.beginUnit name :: commands.map .command) (before.length + 1) line e g' ∧
          ∀ other rest, IsLines other.data.toList (before ++ line :: rest) →
            g.takeUnit name ⟨other, none⟩ = (.error e, g')) ∧
      ∀ (s s' : Stream) e, s.next = (some (.error e), s') →
        ∀ n, ((fun s : Stream => s.next.2)^[n] s').next.1 = none := by
  obtain ⟨lines, hlines⟩ := exists_isLines bytes.data.toList
  have hunit : ∀ {other : ByteArray} {lines : List (List UInt8)},
      IsLines other.data.toList lines → g.takeUnit name ⟨other, none⟩ =
        (g.beginUnit name).takeLines 0 (lines.map decodeLine) := by
    intro other lines hother
    rw [takeUnit, hother.lines_source]
  refine ⟨lines, hlines, ?_, ?_, ?_, fun s s' e => Stream.iterate_next_of_next_error⟩
  · rw [hunit hlines, takeLines_eq_foldl]
  · exact takeLines_eq_takeStream (g.beginUnit name) 0 _
  · intro e g' herror
    rw [hunit hlines] at herror
    obtain ⟨before, line, after, taken, hsplit, hbefore, hline⟩ := exists_of_takeLines_error herror
    obtain ⟨commands, hcommands, haccepted, rfl⟩ := commands_of_takeLines hbefore
    obtain ⟨hkept, hnumber⟩ := of_takeLine_error hline
    rw [Nat.zero_add] at hline hnumber
    refine ⟨before, line, after, commands, hsplit, hcommands, ⟨?_, hline, hnumber, ?_⟩, ?_⟩
    · have hbegun : (g.answer (.beginUnit name)).accepted := rfl
      rw [accepted, if_pos hbegun]
      exact congrArg (_ :: ·) haccepted
    · rw [hkept, ← toList_lines_after]
      rfl
    · intro other rest hother
      rw [hunit hother, takeLines_append hbefore, List.map_cons, takeLines_cons, Nat.zero_add,
        hline]

/-- A command that does not fit is found before the bytes on the next line are decoded. -/
example : ((new {}).takeUnit "Main" ⟨"\npop constant 0\n".toUTF8.push 0xff, none⟩).1 =
    .error (.located .popConstant ⟨2, "pop constant 0"⟩) := by
  decide +kernel

end Codegen.Generator

end HackBackend
