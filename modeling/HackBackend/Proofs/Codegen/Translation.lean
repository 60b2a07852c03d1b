import HackBackend.Proofs.Codegen.Emission

/-!
# Translating units

Units are translated without an error exactly if every command of them can be read, its
arguments fit, and there is code for its operation at its place. The text is then the code of
the bootstrap, of all operations in their order and of the halt loop.
-/

namespace HackBackend.Codegen

open Asm Vm StackMachine

/-- Every command of a source can be read and its arguments fit. -/
def Fits (source : Text.Source) : Prop :=
  ∀ item ∈ (Stream.ofSource source).toList, (operation? item).isSome

instance (source : Text.Source) : Decidable (Fits source) :=
  inferInstanceAs (Decidable (∀ item ∈ (Stream.ofSource source).toList, (operation? item).isSome))

namespace Generator

/-- The function that a generator is in is the one that its operations are placed in. -/
theorem place_emit (g : Generator) (text : String) (op : Operation) (batches : List Batch)
    (rest : List Operation) :
    placeOps g.site.unit g.site.function (op :: rest) = g.place op ::
      placeOps ({ g with listing := g.listing.stage text }.emit op batches).site.unit
        ({ g with listing := g.listing.stage text }.emit op batches).site.function rest := by
  simp only [placeOps, emit, unit_after, function_after, place]

theorem emits_of_takeLines {g g' : Generator} {number : Nat}
    {items : List (Except Text.ReadFault String)}
    (h : g.takeLines number items = (.ok (), g')) :
    (∀ item ∈ Stream.itemsOf number items, (operation? item).isSome) ∧
      ∃ chunks, Emits g (placeOps g.site.unit g.site.function
        ((Stream.itemsOf number items).filterMap operation?)) chunks g' := by
  induction items generalizing g number with
  | nil =>
      obtain rfl : g = g' := by simpa [takeLines] using h
      exact ⟨by simp [Stream.itemsOf], [], Emits.refl g⟩
  | cons item rest ih =>
      rw [takeLines] at h
      rw [Stream.itemsOf]
      rcases hread : Stream.readItem (number + 1) item with e | _ | c
      · simp [hread] at h
      · exact ih (by simpa [hread] using h)
      · cases htake : g.takeCommand c with
        | mk outcome next =>
            rcases outcome with e | ⟨⟩
            · simp [hread, htake] at h
            · obtain ⟨op, hop, batches, hlower, rfl⟩ := takeCommand_eq_ok_iff.mp htake
              obtain ⟨hfits, chunks, hemits⟩ := ih (by simpa [hread, htake] using h)
              have hsome : operation? (.ok c) = some op := by
                simp [operation?, hop, Except.toOption]
              refine ⟨?_, [Codegen.codeOf batches] ++ chunks, ?_⟩
              · simpa [hsome] using hfits
              · simp only [List.filterMap_cons, hsome]
                rw [place_emit g c.source.text op batches]
                exact (emits_emit hlower).trans hemits

theorem takeLines_of_lowerAll {g : Generator} {number : Nat}
    {items : List (Except Text.ReadFault String)} {chunks : List (List Line)}
    (hfits : ∀ item ∈ Stream.itemsOf number items, (operation? item).isSome)
    (hlowered : lowerAll g.options g.counters (placeOps g.site.unit g.site.function
      ((Stream.itemsOf number items).filterMap operation?)) = .ok chunks) :
    ∃ g', g.takeLines number items = (.ok (), g') := by
  induction items generalizing g number chunks with
  | nil => exact ⟨g, rfl⟩
  | cons item rest ih =>
      rw [takeLines]
      rw [Stream.itemsOf] at hfits hlowered
      rcases hread : Stream.readItem (number + 1) item with e | _ | c
      · simp [hread, operation?] at hfits
      · simp only [hread] at hfits hlowered
        exact ih hfits hlowered
      · simp only [hread, List.mem_cons, forall_eq_or_imp] at hfits
        obtain ⟨op, hsome⟩ := Option.isSome_iff_exists.mp hfits.1
        have hop : c.operation = .ok op := by
          cases hc : c.operation with
          | error cause => simp [operation?, hc, Except.toOption] at hsome
          | ok found => simpa [operation?, hc, Except.toOption] using hsome
        simp only [hread, List.filterMap_cons, hsome] at hlowered
        obtain ⟨batches, hlower, later, hlater, -⟩ := lowerAll_cons_eq_ok_iff.mp hlowered
        have hemits := @emits_emit g c.source.text op batches hlower
        have htake := takeCommand_eq_ok_iff.mpr ⟨op, hop, batches, hlower, rfl⟩
        simp only [htake]
        have hcounters := hemits.counters
        have hplace := place_emit g c.source.text op batches
          ((Stream.itemsOf (number + 1) rest).filterMap operation?)
        rw [placeOps] at hplace
        refine @ih _ (number + 1) later hfits.2 ?_
        rw [hemits.options, hcounters, ← (List.cons.inj hplace).2]
        exact hlater

theorem emits_of_takeUnit {g g' : Generator} {unit : String × Text.Source}
    (h : g.takeUnit unit.1 unit.2 = (.ok (), g')) :
    Fits unit.2 ∧ ∃ chunks, Emits g (codeOfUnit unit) chunks g' := by
  obtain ⟨hfits, chunks, hemits⟩ := emits_of_takeLines h
  exact ⟨hfits, chunks, hemits.lowered, hemits.text, hemits.options, hemits.counters⟩

theorem takeUnit_of_lowerAll {g : Generator} {unit : String × Text.Source}
    {chunks : List (List Line)} (hfits : Fits unit.2)
    (hlowered : lowerAll g.options g.counters (codeOfUnit unit) = .ok chunks) :
    ∃ g', g.takeUnit unit.1 unit.2 = (.ok (), g') :=
  takeLines_of_lowerAll (g := g.beginUnit unit.1) hfits hlowered

theorem emits_of_takeUnits {g g' : Generator} {units : List (String × Text.Source)}
    (h : g.takeUnits units = (.ok (), g')) :
    (∀ unit ∈ units, Fits unit.2) ∧ ∃ chunks, Emits g (codeOfUnits units) chunks g' := by
  induction units generalizing g with
  | nil =>
      obtain rfl : g = g' := by simpa [takeUnits] using h
      exact ⟨by simp, [], Emits.refl g⟩
  | cons unit rest ih =>
      obtain ⟨name, source⟩ := unit
      rw [takeUnits] at h
      cases htake : g.takeUnit name source with
      | mk outcome next =>
          rcases outcome with e | ⟨⟩
          · simp [htake] at h
          · obtain ⟨hfits, first, hfirst⟩ := @emits_of_takeUnit g next (name, source) htake
            obtain ⟨hrest, chunks, hemits⟩ := ih (by simpa [htake] using h)
            exact ⟨List.forall_mem_cons.mpr ⟨hfits, hrest⟩, _, hfirst.trans hemits⟩

theorem takeUnits_of_lowerAll {g : Generator} {units : List (String × Text.Source)}
    {chunks : List (List Line)} (hfits : ∀ unit ∈ units, Fits unit.2)
    (hlowered : lowerAll g.options g.counters (codeOfUnits units) = .ok chunks) :
    ∃ g', g.takeUnits units = (.ok (), g') := by
  induction units generalizing g chunks with
  | nil => exact ⟨g, rfl⟩
  | cons unit rest ih =>
      obtain ⟨hunit, hrest⟩ := List.forall_mem_cons.mp hfits
      rw [codeOfUnits, List.flatMap_cons, lowerAll_append_eq_ok_iff] at hlowered
      obtain ⟨first, hfirst, last, hlast, -⟩ := hlowered
      obtain ⟨next, hnext⟩ := takeUnit_of_lowerAll hunit hfirst
      obtain ⟨-, _, hemits⟩ := emits_of_takeUnit hnext
      rw [takeUnits, hnext]
      refine @ih next last hrest ?_
      rw [hemits.options, hemits.counters]
      exact hlast

end Generator

/-- The code before the first operation. -/
def bootCode (options : Options) : List Line :=
  if options.bootstrap then bootstrapBatch.code else []

/-- The code of a whole run, given that of its operations. -/
def runCode (options : Options) (chunks : List (List Line)) : List Line :=
  bootCode options ++ chunks.flatten ++ haltBatch.code

/-- The counters before the first operation. -/
def startCounters (options : Options) : Counters where
  rom := (bootCode options).countP Line.isInstruction
  calls := 0
  compares := 0

theorem counters_new (options : Options) :
    (Generator.new options).counters = startCounters options := by
  unfold Generator.new startCounters bootCode Generator.counters
  split
  · simp [Listing.instructions_add]
  · simp

theorem spells_new (options : Options) :
    List.Forall₂ Spells (Generator.new options).listing.lines.toList (bootCode options) := by
  unfold Generator.new bootCode
  split
  · obtain ⟨texts, htexts, hspells⟩ :=
      Listing.spells_add { comments := options.comments } bootstrapBatch
    simpa [htexts] using hspells
  · exact .nil

/-- The text that a run is finished with is that of its code. -/
theorem Generator.Emits.spells_finish {options : Options} {code : List Placed}
    {chunks : List (List Line)} {g : Generator} (h : Emits (new options) code chunks g) :
    List.Forall₂ Spells g.finish (runCode options chunks) := by
  obtain ⟨body, hbody, hspells⟩ := h.text
  obtain ⟨last, hlast, hhalt⟩ := g.listing.spells_add haltBatch
  rw [finish, hlast, hbody]
  exact List.rel_append (List.rel_append (spells_new options) (List.rel_flatten hspells)) hhalt

theorem generate_eq_ok_iff {options : Options} {units : List (String × Text.Source)}
    {texts : List String} :
    generate options units = .ok texts ↔
      ∃ g, (Generator.new options).takeUnits units = (.ok (), g) ∧ g.finish = texts := by
  rw [generate]
  rcases (Generator.new options).takeUnits units with ⟨e | ⟨⟩, g⟩ <;> simp

/-- What translating units without an error leads to. -/
theorem spells_of_generate {options : Options} {units : List (String × Text.Source)}
    {texts : List String} (h : generate options units = .ok texts) :
    (∀ unit ∈ units, Fits unit.2) ∧
      ∃ chunks, lowerAll options (startCounters options) (codeOfUnits units) = .ok chunks ∧
        List.Forall₂ Spells texts (runCode options chunks) := by
  obtain ⟨g, htake, rfl⟩ := generate_eq_ok_iff.mp h
  obtain ⟨hfits, chunks, hemits⟩ := Generator.emits_of_takeUnits htake
  have hlowered := hemits.lowered
  rw [counters_new] at hlowered
  exact ⟨hfits, chunks, hlowered, hemits.spells_finish⟩

theorem generate_of_lowerAll {options : Options} {units : List (String × Text.Source)}
    {chunks : List (List Line)} (hfits : ∀ unit ∈ units, Fits unit.2)
    (hlowered : lowerAll options (startCounters options) (codeOfUnits units) = .ok chunks) :
    ∃ texts, generate options units = .ok texts := by
  rw [← counters_new] at hlowered
  obtain ⟨g, hg⟩ := Generator.takeUnits_of_lowerAll (g := Generator.new options) hfits hlowered
  exact ⟨g.finish, generate_eq_ok_iff.mpr ⟨g, hg, rfl⟩⟩

end HackBackend.Codegen
