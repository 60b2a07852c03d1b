import HackBackend.Proofs.Codegen.Emission

/-!
# Which commands are accepted

Whether a command is accepted depends on its arguments and, for a comparison by address, on the
number of instructions before it; nothing else about the state of the generator matters. The checks
are made at several places while the code of a command is put together. Here their outcome is
described without them, by the commands that are accepted and those that are refused, each with the
reason. Every command is one or the other, so it is enough that each description leads to its
outcome.
-/

namespace HackBackend

open Text Vm

namespace Vm

/-- A name that a symbol may have: its characters are letters, digits and four marks, and it does
not begin with a digit. -/
structure SymbolName (name : String) : Prop where
  nonempty : name.toList ≠ []
  chars : ∀ c ∈ name.toList, c.isAlphanum ∨ c ∈ ['_', '.', '$', ':']
  head : ∀ c ∈ name.toList.head?, ¬ c.isDigit

/-- The last part of a return address label: `ret.` and a numeral. -/
def ReturnLabel (name : String) : Prop :=
  ∃ digits : List Char, digits ≠ [] ∧ (∀ c ∈ digits, c.isDigit) ∧
    name.toList = "ret.".toList ++ digits

/-- The names of the segments, each with the largest offset that the segment reaches. -/
def segmentTable : List (String × Option Nat) :=
  [("constant", some 32767), ("local", some 32767), ("argument", some 32767),
    ("this", some 32767), ("that", some 32767), ("temp", some 7), ("pointer", some 1),
    ("static", none)]

/-- An offset lies in the segment of a name. -/
def InSegment (name : String) (offset : Nat) : Prop :=
  ∃ limit?, (name, limit?) ∈ segmentTable ∧ ∀ limit ∈ limit?, offset ≤ limit

/-- The arguments that are present are those that are demanded. -/
def Arity.Fits : Arity → Option String → Option Nat → Prop
  | .none, name?, number? => name?.isNone ∧ number?.isNone
  | .name, name?, number? => name?.isSome ∧ number?.isNone
  | .nameAndNumber, name?, number? => name?.isSome ∧ number?.isSome

theorem fits_none_iff {name? : Option String} {number? : Option Nat} :
    Arity.none.Fits name? number? ↔ name? = none ∧ number? = none := by
  rw [Arity.Fits, Option.isNone_iff_eq_none, Option.isNone_iff_eq_none]

theorem fits_name_iff {name? : Option String} {number? : Option Nat} :
    Arity.name.Fits name? number? ↔ ∃ name, name? = some name ∧ number? = none := by
  rw [Arity.Fits, Option.isSome_iff_exists, Option.isNone_iff_eq_none, exists_and_right]

theorem fits_nameAndNumber_iff {name? : Option String} {number? : Option Nat} :
    Arity.nameAndNumber.Fits name? number? ↔ ∃ name n, name? = some name ∧ number? = some n := by
  simp only [Arity.Fits, Option.isSome_iff_exists, exists_and_left, exists_and_right]

theorem isSymbol_iff_symbolName {name : String} : isSymbol name.toList ↔ SymbolName name := by
  have hchars {cs : List Char} : cs.all isSymbolChar ↔
      ∀ c ∈ cs, c.isAlphanum ∨ c ∈ ['_', '.', '$', ':'] := by
    simp [List.all_eq_true, isSymbolChar, or_assoc]
  constructor
  · intro h
    have hall := hchars.mp (List.all_eq_true.mpr (isSymbolChar_of_mem h))
    cases hname : name.toList with
    | nil => simp [hname] at h
    | cons c cs =>
        rw [hname, isSymbol_cons] at h
        refine ⟨by simp [hname], hall, ?_⟩
        rw [hname]
        rintro _ ⟨⟩
        simpa using (Bool.and_eq_true_iff.mp h).1
  · intro h
    have hall := hchars.mpr h.chars
    cases hname : name.toList with
    | nil => exact absurd hname h.nonempty
    | cons c cs =>
        have hhead := h.head c (by simp [hname])
        rw [hname] at hall
        simp [isSymbol_cons, hall, hhead]

theorem isReserved_iff_returnLabel {name : String} : isReserved name ↔ ReturnLabel name := by
  rw [isReserved, Option.any_eq_true]
  constructor
  · rintro ⟨digits, hprefix, hdigits⟩
    obtain ⟨hne, hall⟩ := Bool.and_eq_true_iff.mp hdigits
    refine ⟨digits, by simpa using hne, List.all_eq_true.mp hall, ?_⟩
    exact (List.isPrefixOf?_eq_some_iff_append_eq.mp hprefix).symm
  · rintro ⟨digits, hne, hall, hname⟩
    refine ⟨digits, List.isPrefixOf?_eq_some_iff_append_eq.mpr hname.symm, ?_⟩
    exact Bool.and_eq_true_iff.mpr ⟨by simpa using hne, List.all_eq_true.mpr hall⟩

/-- The table lists every segment with its largest offset, and nothing else. -/
theorem mem_segmentTable_iff {name : String} {limit? : Option Nat} :
    (name, limit?) ∈ segmentTable ↔ ∃ s : Segment, s.name = name ∧ s.limit? = limit? := by
  have hlisted (s : Segment) : (s.name, s.limit?) ∈ segmentTable := by
    rcases s with _ | b | _ | _ | _
    case based => cases b <;> decide
    all_goals decide
  have hsegment : ∀ entry ∈ segmentTable, ∃ s ∈ Segment.all, s.name = entry.1 ∧
      s.limit? = entry.2 := by decide
  constructor
  · intro h
    obtain ⟨s, -, hs⟩ := hsegment _ h
    exact ⟨s, hs⟩
  · rintro ⟨s, rfl, rfl⟩
    exact hlisted s

/-- An offset that does not lie in the segment of a name is too large for it. -/
theorem beyond_of_not_inSegment {name : String} {offset : Nat} (h : ¬ InSegment name offset)
    (hname : ∃ limit?, (name, limit?) ∈ segmentTable) :
    ∃ (s : Segment) (limit : Nat), s.name = name ∧ (s.name, some limit) ∈ segmentTable ∧
      limit < offset := by
  obtain ⟨limit?, hlisted⟩ := hname
  obtain ⟨s, rfl, -⟩ := mem_segmentTable_iff.mp hlisted
  cases limit? with
  | none => exact absurd ⟨none, hlisted, nofun⟩ h
  | some limit =>
      refine ⟨s, limit, rfl, hlisted, Nat.lt_of_not_le fun hle => h ⟨_, hlisted, ?_⟩⟩
      rintro _ ⟨⟩
      exact hle

theorem Segment.name_injective : Function.Injective Segment.name := by
  intro s s' h
  exact Option.some.inj (by rw [← ofName?_name s, h, ofName?_name])

theorem checkSegment_name (s : Segment) : checkSegment s.name = .ok s := by
  rw [checkSegment, Segment.ofName?_name]

theorem checkSegment_eq_error {name : String} (h : ∀ limit?, (name, limit?) ∉ segmentTable) :
    checkSegment name = .error (.unknownSegment name) := by
  have hnone : Segment.ofName? name = none := by
    refine List.find?_eq_none.mpr fun s _ hname => h s.limit? ?_
    exact mem_segmentTable_iff.mpr ⟨s, of_decide_eq_true hname, rfl⟩
  rw [checkSegment, hnone]

theorem checkSymbol_eq_ok {name : String} (h : SymbolName name) : checkSymbol name = .ok name :=
  if_pos (isSymbol_iff_symbolName.mpr h)

theorem checkSymbol_eq_error {name : String} (h : ¬ SymbolName name) :
    checkSymbol name = .error (.invalidSymbol name) :=
  if_neg fun hsymbol => h (isSymbol_iff_symbolName.mp hsymbol)

theorem checkLabel_eq_ok {name : String} (h : SymbolName name) (hfree : ¬ ReturnLabel name) :
    checkLabel name = .ok name := by
  rw [checkLabel, checkSymbol_eq_ok h, ok_bind]
  exact if_neg fun hreserved => hfree (isReserved_iff_returnLabel.mp hreserved)

theorem checkLabel_eq_reserved {name : String} (h : SymbolName name)
    (hreserved : ReturnLabel name) : checkLabel name = .error (.reservedLabel name) := by
  rw [checkLabel, checkSymbol_eq_ok h, ok_bind]
  exact if_pos (isReserved_iff_returnLabel.mpr hreserved)

theorem checkLabel_eq_error {name : String} (h : ¬ SymbolName name) :
    checkLabel name = .error (.invalidSymbol name) := by
  rw [checkLabel, checkSymbol_eq_error h]
  rfl

theorem Segment.resolve_eq_error {unit : String} {s : Segment} {offset limit : Nat}
    (hlimit : s.limit? = some limit) (h : limit < offset) :
    s.resolve unit offset = .error (.offsetOutOfRange s offset limit) := by
  rw [resolve, hlimit]
  exact if_neg (Nat.not_le_of_lt h)

/-- A name and an offset that lie in a segment are resolved in every unit. -/
theorem exists_segment_of_inSegment {name : String} {offset : Nat} (h : InSegment name offset)
    (unit : String) :
    ∃ s : Segment, s.name = name ∧ s.resolve unit offset = .ok (s.access unit offset) := by
  obtain ⟨limit?, hname, hoffset⟩ := h
  obtain ⟨s, hs, rfl⟩ := mem_segmentTable_iff.mp hname
  exact ⟨s, hs, Segment.resolve_eq_ok_iff.mpr ⟨hoffset, rfl⟩⟩

theorem Command.operation_eq_error {c : Command} (h : ¬ c.keyword.arity.Fits c.name c.number) :
    c.operation = .error (.wrongArguments c.keyword) := by
  obtain ⟨keyword, name?, number?, source⟩ := c
  cases keyword <;> cases name? <;> cases number? <;>
    simp_all [Command.operation, Keyword.arity, Arity.Fits]

end Vm

namespace Codegen

/-- The keywords of commands that name a place to branch to. -/
def branchKeywords : List Keyword := [.label, .goto, .ifGoto]

/-- The commands that a generator accepts, by keyword, name and number. -/
inductive Accepted (g : Generator) : Keyword → Option String → Option Nat → Prop where
  | unary (f : Unary) : Accepted g (.unary f) none none
  | binary (f : Binary) : Accepted g (.binary f) none none
  | compare (r : Relation)
      (hroom : g.options.compare = .absolute → g.listing.instructions + 11 ≤ 32767) :
      Accepted g (.compare r) none none
  | ret : Accepted g .ret none none
  | branch {keyword : Keyword} {name : String} (hkeyword : keyword ∈ branchKeywords)
      (hname : SymbolName name) (hfree : ¬ ReturnLabel name) :
      Accepted g keyword (some name) none
  | push {name : String} {n : Nat} (hplace : InSegment name n) :
      Accepted g .push (some name) (some n)
  | pop {name : String} {n : Nat} (hplace : InSegment name n) (hname : name ≠ "constant") :
      Accepted g .pop (some name) (some n)
  | function {name : String} {n : Nat} (hname : SymbolName name) :
      Accepted g .function (some name) (some n)
  | call {name : String} {n : Nat} (hname : SymbolName name) (hargs : n ≤ 32762) :
      Accepted g .call (some name) (some n)

/-- The commands that a generator refuses, with the kind of the error and its cause. -/
inductive Refused (g : Generator) :
    Keyword → Option String → Option Nat → ErrorKind → Cause → Prop where
  | arity {keyword : Keyword} {name? : Option String} {number? : Option Nat}
      (h : ¬ keyword.arity.Fits name? number?) :
      Refused g keyword name? number? .arity (.wrongArguments keyword)
  | segment {keyword : Keyword} {name : String} {n : Nat}
      (hkeyword : keyword = .push ∨ keyword = .pop) (h : ∀ limit?, (name, limit?) ∉ segmentTable) :
      Refused g keyword (some name) (some n) .invalidSegment (.unknownSegment name)
  | popConstant {n : Nat} (h : n ≤ 32767) :
      Refused g .pop (some "constant") (some n) .invalidSegment .popConstant
  | offset {keyword : Keyword} {s : Segment} {n limit : Nat}
      (hkeyword : keyword = .push ∨ keyword = .pop)
      (hlimit : (s.name, some limit) ∈ segmentTable) (h : limit < n) :
      Refused g keyword (some s.name) (some n) .range (.offsetOutOfRange s n limit)
  | branchSymbol {keyword : Keyword} {name : String} (hkeyword : keyword ∈ branchKeywords)
      (h : ¬ SymbolName name) :
      Refused g keyword (some name) none .parse (.invalidSymbol name)
  | reserved {keyword : Keyword} {name : String} (hkeyword : keyword ∈ branchKeywords)
      (hname : SymbolName name) (h : ReturnLabel name) :
      Refused g keyword (some name) none .parse (.reservedLabel name)
  | functionSymbol {keyword : Keyword} {name : String} {n : Nat}
      (hkeyword : keyword = .function ∨ keyword = .call) (h : ¬ SymbolName name) :
      Refused g keyword (some name) (some n) .parse (.invalidSymbol name)
  | arguments {name : String} {n : Nat} (hname : SymbolName name) (h : 32762 < n) :
      Refused g .call (some name) (some n) .range (.tooManyArguments n)
  | target {r : Relation} (hstyle : g.options.compare = .absolute)
      (h : 32767 < g.listing.instructions + 11) :
      Refused g (.compare r) none none .range (.targetBeyondRom (g.listing.instructions + 11))

/-- The checks of the arguments of a command, and of the place where it stands. -/
def Generator.check (g : Generator) (c : Command) : Except Cause (List Batch) :=
  c.operation >>= lower g.options g.listing.instructions g.site

theorem Generator.takeCommand_of_check_ok {g : Generator} {c : Command} {batches : List Batch}
    (h : g.check c = .ok batches) : (g.takeCommand c).1 = .ok () := by
  obtain ⟨op, hop, hlower⟩ := bind_eq_ok_iff.mp h
  rw [takeCommand_eq_ok_iff.mpr ⟨op, hop, batches, hlower, rfl⟩]

theorem Generator.takeCommand_of_check_error {g : Generator} {c : Command} {cause : Cause}
    (h : g.check c = .error cause) : (g.takeCommand c).1 = .error (.located cause c.source) := by
  rw [takeCommand]
  cases hop : c.operation with
  | error found =>
      rw [check, hop] at h
      obtain rfl := Except.error.inj h
      rfl
  | ok op =>
      rw [check, hop, ok_bind] at h
      simp [h, Command.fail]

theorem Accepted.exists_check {g : Generator} {c : Command}
    (h : Accepted g c.keyword c.name c.number) : ∃ batches, g.check c = .ok batches := by
  obtain ⟨keyword, name?, number?, source⟩ := c
  simp only at h
  cases h with
  | unary f => exact ⟨_, rfl⟩
  | binary f => exact ⟨_, rfl⟩
  | ret => exact ⟨_, rfl⟩
  | compare r hroom => exact ⟨_, lower_compare_eq_ok_iff.mpr ⟨hroom, rfl⟩⟩
  | branch hkeyword hname hfree =>
      simp only [branchKeywords, List.mem_cons, List.not_mem_nil, or_false] at hkeyword
      rcases hkeyword with rfl | rfl | rfl <;>
        simp [Generator.check, Command.operation, checkLabel_eq_ok hname hfree, Except.map, lower]
  | push hplace =>
      obtain ⟨s, rfl, hresolve⟩ := exists_segment_of_inSegment hplace g.site.unit
      simp [Generator.check, Command.operation, checkSegment_name, Except.map, lower, hresolve]
  | @pop name n hplace hname =>
      obtain ⟨s, rfl, hresolve⟩ := exists_segment_of_inSegment hplace g.site.unit
      obtain ⟨code, hcode⟩ : ∃ code, popCode (s.access g.site.unit n) = .ok code := by
        cases s with
        | constant => exact absurd rfl hname
        | _ => exact ⟨_, rfl⟩
      simp [Generator.check, Command.operation, checkSegment_name, Except.map, lower, hresolve,
        hcode]
  | function hname =>
      simp [Generator.check, Command.operation, checkSymbol_eq_ok hname, Except.map, lower]
  | call hname hargs =>
      have hroom : _ + frameSize ≤ maxLiteral := Nat.add_le_of_le_sub (by decide) hargs
      simp [Generator.check, Command.operation, checkSymbol_eq_ok hname, Except.map, lower, hroom]

theorem Refused.check_eq {g : Generator} {c : Command} {kind : ErrorKind} {cause : Cause}
    (h : Refused g c.keyword c.name c.number kind cause) :
    g.check c = .error cause ∧ cause.kind = kind := by
  obtain ⟨keyword, name?, number?, source⟩ := c
  simp only at h
  cases h with
  | arity h =>
      have hfit : ¬ (Command.mk keyword name? number? source).keyword.arity.Fits name? number? := h
      rw [Generator.check, Command.operation_eq_error hfit]
      exact ⟨rfl, rfl⟩
  | segment hkeyword h =>
      rcases hkeyword with rfl | rfl <;>
        simp [Generator.check, Command.operation, checkSegment_eq_error h, Except.map, Cause.kind]
  | @popConstant n h =>
      have hresolve : Segment.constant.resolve g.site.unit n = .ok (.constant n) := if_pos h
      have hsegment : checkSegment "constant" = .ok .constant := checkSegment_name .constant
      simp [Generator.check, Command.operation, hsegment, Except.map, lower, hresolve, popCode,
        Cause.kind]
  | offset hkeyword hlimit h =>
      obtain ⟨s', hname, hreach⟩ := mem_segmentTable_iff.mp hlimit
      obtain rfl := Segment.name_injective hname
      have hresolve := @Segment.resolve_eq_error g.site.unit _ _ _ hreach h
      rcases hkeyword with rfl | rfl <;>
        simp [Generator.check, Command.operation, checkSegment_name, Except.map, lower, hresolve,
          Cause.kind]
  | branchSymbol hkeyword h =>
      simp only [branchKeywords, List.mem_cons, List.not_mem_nil, or_false] at hkeyword
      rcases hkeyword with rfl | rfl | rfl <;>
        simp [Generator.check, Command.operation, checkLabel_eq_error h, Except.map, Cause.kind]
  | reserved hkeyword hname h =>
      simp only [branchKeywords, List.mem_cons, List.not_mem_nil, or_false] at hkeyword
      rcases hkeyword with rfl | rfl | rfl <;>
        simp [Generator.check, Command.operation, checkLabel_eq_reserved hname h, Except.map,
          Cause.kind]
  | functionSymbol hkeyword h =>
      rcases hkeyword with rfl | rfl <;>
        simp [Generator.check, Command.operation, checkSymbol_eq_error h, Except.map, Cause.kind]
  | @arguments name n hname h =>
      have hroom : ¬ n + frameSize ≤ maxLiteral := fun hle =>
        Nat.not_le_of_lt h (Nat.le_sub_of_add_le hle)
      simp [Generator.check, Command.operation, checkSymbol_eq_ok hname, Except.map, lower, hroom,
        Cause.kind]
  | target hstyle h =>
      have hroom : ¬ g.listing.instructions + compareLength ≤ maxLiteral := Nat.not_le_of_lt h
      simp only [Generator.check, Command.operation, ok_bind, lower, hstyle, if_neg hroom]
      exact ⟨rfl, rfl⟩

/-- A branch is accepted or refused for its name. -/
theorem accepted_or_refused_branch (g : Generator) {keyword : Keyword}
    (hkeyword : keyword ∈ branchKeywords) (name : String) :
    Accepted g keyword (some name) none ∨
      ∃ kind cause, Refused g keyword (some name) none kind cause := by
  by_cases hname : SymbolName name
  · by_cases hfree : ReturnLabel name
    · exact .inr ⟨_, _, .reserved hkeyword hname hfree⟩
    · exact .inl (.branch hkeyword hname hfree)
  · exact .inr ⟨_, _, .branchSymbol hkeyword hname⟩

/-- What is not the place of a value is refused by a push and by a pop. -/
theorem exists_refused_of_not_inSegment (g : Generator) {keyword : Keyword}
    (hkeyword : keyword = .push ∨ keyword = .pop) {name : String} {n : Nat}
    (h : ¬ InSegment name n) :
    ∃ kind cause, Refused g keyword (some name) (some n) kind cause := by
  by_cases hname : ∃ limit?, (name, limit?) ∈ segmentTable
  · obtain ⟨s, limit, rfl, hlimit, hbeyond⟩ := beyond_of_not_inSegment h hname
    exact ⟨_, _, .offset hkeyword hlimit hbeyond⟩
  · exact ⟨_, _, .segment hkeyword (not_exists.mp hname)⟩

/-- Every command is one that is accepted or one that is refused. -/
theorem accepted_or_refused (g : Generator) (keyword : Keyword) (name? : Option String)
    (number? : Option Nat) :
    Accepted g keyword name? number? ∨
      ∃ kind cause, Refused g keyword name? number? kind cause := by
  by_cases hfits : keyword.arity.Fits name? number?
  swap
  · exact .inr ⟨_, _, .arity hfits⟩
  cases keyword with
  | unary f =>
      obtain ⟨rfl, rfl⟩ := fits_none_iff.mp hfits
      exact .inl (.unary f)
  | binary f =>
      obtain ⟨rfl, rfl⟩ := fits_none_iff.mp hfits
      exact .inl (.binary f)
  | ret =>
      obtain ⟨rfl, rfl⟩ := fits_none_iff.mp hfits
      exact .inl .ret
  | compare r =>
      obtain ⟨rfl, rfl⟩ := fits_none_iff.mp hfits
      by_cases hroom : g.options.compare = .absolute → g.listing.instructions + 11 ≤ 32767
      · exact .inl (.compare r hroom)
      · obtain ⟨hstyle, hfull⟩ := Classical.not_imp.mp hroom
        exact .inr ⟨_, _, .target hstyle (Nat.lt_of_not_le hfull)⟩
  | label | goto | ifGoto =>
      obtain ⟨name, rfl, rfl⟩ := fits_name_iff.mp hfits
      exact accepted_or_refused_branch g (by decide) name
  | push =>
      obtain ⟨name, n, rfl, rfl⟩ := fits_nameAndNumber_iff.mp hfits
      by_cases hplace : InSegment name n
      · exact .inl (.push hplace)
      · exact .inr (exists_refused_of_not_inSegment g (.inl rfl) hplace)
  | pop =>
      obtain ⟨name, n, rfl, rfl⟩ := fits_nameAndNumber_iff.mp hfits
      by_cases hplace : InSegment name n
      · by_cases hname : name = "constant"
        · subst hname
          exact .inr ⟨_, _, .popConstant (by simpa [InSegment, segmentTable] using hplace)⟩
        · exact .inl (.pop hplace hname)
      · exact .inr (exists_refused_of_not_inSegment g (.inr rfl) hplace)
  | function =>
      obtain ⟨name, n, rfl, rfl⟩ := fits_nameAndNumber_iff.mp hfits
      by_cases hname : SymbolName name
      · exact .inl (.function hname)
      · exact .inr ⟨_, _, .functionSymbol (.inl rfl) hname⟩
  | call =>
      obtain ⟨name, n, rfl, rfl⟩ := fits_nameAndNumber_iff.mp hfits
      by_cases hname : SymbolName name
      · by_cases hargs : n ≤ 32762
        · exact .inl (.call hname hargs)
        · exact .inr ⟨_, _, .arguments hname (Nat.lt_of_not_le hargs)⟩
      · exact .inr ⟨_, _, .functionSymbol (.inr rfl) hname⟩

/-- A command is accepted exactly if it is one of the accepted ones. It fails exactly if it is one
of those that are refused, with an error of the kind and the cause given there, at its own line. -/
theorem takeCommand_verdict (g : Generator) (c : Command) :
    ((g.takeCommand c).1 = .ok () ↔ Accepted g c.keyword c.name c.number) ∧
      ∀ e, (g.takeCommand c).1 = .error e ↔
        ∃ kind cause, Refused g c.keyword c.name c.number kind cause ∧
          e = .located cause c.source ∧ e.kind = kind := by
  have hok (h : Accepted g c.keyword c.name c.number) : (g.takeCommand c).1 = .ok () := by
    obtain ⟨batches, hcheck⟩ := h.exists_check
    exact Generator.takeCommand_of_check_ok hcheck
  have herror {kind : ErrorKind} {cause : Cause}
      (h : Refused g c.keyword c.name c.number kind cause) :
      (g.takeCommand c).1 = .error (.located cause c.source) :=
    Generator.takeCommand_of_check_error h.check_eq.1
  have htotal := accepted_or_refused g c.keyword c.name c.number
  constructor
  · refine ⟨fun h => htotal.resolve_right ?_, hok⟩
    rintro ⟨kind, cause, hrefused⟩
    exact nomatch h.symm.trans (herror hrefused)
  · intro e
    constructor
    · intro h
      obtain haccepted | ⟨kind, cause, hrefused⟩ := htotal
      · exact nomatch h.symm.trans (hok haccepted)
      · obtain rfl := Except.error.inj (h.symm.trans (herror hrefused))
        exact ⟨kind, cause, hrefused, rfl, hrefused.check_eq.2⟩
    · rintro ⟨kind, cause, hrefused, rfl, -⟩
      exact herror hrefused

end Codegen

end HackBackend
