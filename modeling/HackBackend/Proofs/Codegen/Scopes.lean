import HackBackend.Proofs.Codegen.Translation

/-!
# Labels in the bodies of functions

The body of a function goes on up to the next `function` command. A label in it is scoped by the
function up to the first `return` of the body, and by the unit after that: the scope of a command
depends on what stands before it in the body and on nothing else. Branches find exactly the labels
in their own scope.
-/

namespace HackBackend

namespace StackMachine

open Vm

theorem getElem?_placeOps (unit : String) (function : Option String) (ops : List Operation)
    (i : Nat) :
    (placeOps unit function ops)[i]? =
      (ops[i]?).map fun op => ⟨unit, (ops.take i).foldl functionAfter function, op⟩ := by
  induction ops generalizing function i with
  | nil => rfl
  | cons op rest ih =>
      cases i with
      | zero => rfl
      | succ i => exact ih (functionAfter function op) i

theorem length_placeOps (unit : String) (function : Option String) (ops : List Operation) :
    (placeOps unit function ops).length = ops.length := by
  induction ops generalizing function with
  | nil => rfl
  | cons op rest ih => rw [placeOps, List.length_cons, List.length_cons, ih]

/-- The operations after a `function` operation, as long as there is no other one. -/
structure IsBody (ops : List Operation) (name : String) (start : Nat) (body : List Operation) :
    Prop where
  split : ∃ before locals after,
    ops = before ++ .function name locals :: (body ++ after) ∧ start = before.length + 1
  inside : ∀ op ∈ body, ∀ other locals, op ≠ .function other locals

/-- The name that scopes the labels at an index of a body. -/
def bodyScope (unit name : String) (body : List Operation) (i : Nat) : String :=
  if .ret ∈ body.take i then unit else name

/-- Within a body the function stays open until it is left by a `return`. -/
theorem foldl_functionAfter {name : String} {ops : List Operation}
    (h : ∀ op ∈ ops, ∀ other locals, op ≠ .function other locals) :
    ops.foldl functionAfter (some name) = if .ret ∈ ops then none else some name := by
  have hclosed {ops : List Operation}
      (h : ∀ op ∈ ops, ∀ other locals, op ≠ .function other locals) :
      ops.foldl functionAfter none = none := by
    induction ops with
    | nil => rfl
    | cons op rest ih =>
        obtain ⟨hop, hrest⟩ := List.forall_mem_cons.mp h
        cases op with
        | function other locals => exact absurd rfl (hop other locals)
        | _ => exact ih hrest
  induction ops with
  | nil => rfl
  | cons op rest ih =>
      obtain ⟨hop, hrest⟩ := List.forall_mem_cons.mp h
      cases op with
      | function other locals => exact absurd rfl (hop other locals)
      | ret =>
          rw [if_pos (List.mem_cons_self ..)]
          exact hclosed hrest
      | _ => simpa [functionAfter] using ih hrest

/-- An operation of a body is placed in the scope that the body has there. -/
theorem IsBody.getElem?_placeOps {ops body : List Operation} {name : String} {start : Nat}
    (h : IsBody ops name start body) {i : Nat} {op : Operation} (hop : body[i]? = some op)
    (unit : String) (function : Option String) :
    ∃ c, (placeOps unit function ops)[start + i]? = some c ∧ c.op = op ∧
      c.scope = bodyScope unit name body i := by
  obtain ⟨⟨before, locals, after, rfl, rfl⟩, hinside⟩ := h
  obtain ⟨hlt, -⟩ := List.getElem?_eq_some_iff.mp hop
  have hindex : before.length + 1 + i = before.length + (i + 1) := by omega
  have hget : (before ++ .function name locals :: (body ++ after))[before.length + 1 + i]? =
      some op := by
    rw [hindex, List.getElem?_append_right (Nat.le_add_right _ _), Nat.add_sub_cancel_left,
      List.getElem?_cons_succ, List.getElem?_append_left hlt, hop]
  have htake : (before ++ .function name locals :: (body ++ after)).take (before.length + 1 + i) =
      before ++ .function name locals :: body.take i := by
    rw [hindex, List.take_length_add_append, List.take_succ_cons,
      List.take_append_of_le_length (Nat.le_of_lt hlt)]
  have hfunction : (before ++ .function name locals :: body.take i).foldl functionAfter function =
      if .ret ∈ body.take i then none else some name := by
    rw [List.foldl_append, List.foldl_cons]
    exact foldl_functionAfter fun op hmem => hinside op (List.mem_of_mem_take hmem)
  refine ⟨⟨unit, if .ret ∈ body.take i then none else some name, op⟩, ?_, rfl, ?_⟩
  · rw [StackMachine.getElem?_placeOps, hget, htake, hfunction]
    rfl
  · rw [Placed.scope, bodyScope]
    split <;> rfl

end StackMachine

namespace Codegen

open Asm Vm StackMachine

section

variable {options : Options} {n : Counters} {unit name : String} {function : Option String}
variable {ops body : List Operation} {start i : Nat} {label : String} {chunks : List (List Line)}
variable (hlowered : lowerAll options n (placeOps unit function ops) = .ok chunks)
variable (hbody : IsBody ops name start body)

include hlowered hbody

/-- The code of an operation of a body is made in the scope that the body has there. -/
theorem getElem?_lowerAll_body {op : Operation} (hop : body[i]? = some op) :
    ∃ rom site batches, lower options rom site op = .ok batches ∧
      site.scope = bodyScope unit name body i ∧
      chunks[start + i]? = some (Codegen.codeOf batches) := by
  obtain ⟨c, hc, rfl, hscope⟩ := hbody.getElem?_placeOps hop unit function
  obtain ⟨batches, hlower, hchunk⟩ := getElem?_lowerAll hlowered hc
  exact ⟨_, _, batches, hlower, hscope, hchunk⟩

theorem label_of_body (hop : body[i]? = some (.label label)) :
    chunks[start + i]? = some [.label (bodyScope unit name body i ++ "$" ++ label)] := by
  obtain ⟨rom, site, batches, hlower, hscope, hchunk⟩ := getElem?_lowerAll_body hlowered hbody hop
  obtain rfl := Except.ok.inj hlower
  rw [hchunk, codeOf_single, Site.labelSymbol, hscope]

theorem goto_of_body (hop : body[i]? = some (.goto label)) :
    chunks[start + i]? = some (gotoCode (bodyScope unit name body i ++ "$" ++ label)) := by
  obtain ⟨rom, site, batches, hlower, hscope, hchunk⟩ := getElem?_lowerAll_body hlowered hbody hop
  obtain rfl := Except.ok.inj hlower
  rw [hchunk, codeOf_single, Site.labelSymbol, hscope]

theorem ifGoto_of_body (hop : body[i]? = some (.ifGoto label)) :
    chunks[start + i]? =
      some (ifGotoCode options.branch (bodyScope unit name body i ++ "$" ++ label)) := by
  obtain ⟨rom, site, batches, hlower, hscope, hchunk⟩ := getElem?_lowerAll_body hlowered hbody hop
  obtain rfl := Except.ok.inj hlower
  rw [hchunk, codeOf_single, Site.labelSymbol, hscope]

end

/-- A unit that is taken without an error has its commands spelled out one after another. In the
body of a function each label is defined by one line, and each branch to it that stands in the
same scope refers to exactly the symbol which that line defines. Labels in different scopes define
different symbols, even if their names are the same. -/
theorem branches_of_takeUnit {g g' : Generator} {unit : String × Text.Source}
    (h : g.takeUnit unit.1 unit.2 = (.ok (), g')) :
    ∃ chunks texts, chunks.length = (operationsOf unit.2).length ∧
      g'.listing.lines.toList = g.listing.lines.toList ++ List.flatten texts ∧
      List.Forall₂ (List.Forall₂ Spells) texts chunks ∧
      (∀ name start body, IsBody (operationsOf unit.2) name start body →
        ∀ i label, body[i]? = some (.label label) →
          ∃ symbol, chunks[start + i]? = some [.label symbol] ∧
            ∀ j, bodyScope unit.1 name body j = bodyScope unit.1 name body i →
              (body[j]? = some (.goto label) → chunks[start + j]? = some (gotoCode symbol)) ∧
              (body[j]? = some (.ifGoto label) →
                chunks[start + j]? = some (ifGotoCode g.options.branch symbol))) ∧
      ∀ name name' start start' body body', IsBody (operationsOf unit.2) name start body →
        IsBody (operationsOf unit.2) name' start' body' →
        ∀ i i' label symbol symbol', body[i]? = some (.label label) →
          body'[i']? = some (.label label) →
          bodyScope unit.1 name body i ≠ bodyScope unit.1 name' body' i' →
          chunks[start + i]? = some [.label symbol] →
          chunks[start' + i']? = some [.label symbol'] → symbol ≠ symbol' := by
  obtain ⟨-, chunks, hemits⟩ := Generator.emits_of_takeUnit h
  have hlowered : lowerAll g.options g.counters (placeOps unit.1 none (operationsOf unit.2)) =
      .ok chunks := hemits.lowered
  obtain ⟨texts, htexts, hspells⟩ := hemits.text
  refine ⟨chunks, texts, ?_, htexts, hspells, ?_, ?_⟩
  · rw [length_of_lowerAll hlowered, length_placeOps]
  · intro name start body hbody i label hlabel
    refine ⟨_, label_of_body hlowered hbody hlabel, fun j hscope => ?_⟩
    rw [← hscope]
    exact ⟨goto_of_body hlowered hbody, ifGoto_of_body hlowered hbody⟩
  · intro name name' start start' body body' hbody hbody' i i' label symbol symbol' hlabel hlabel'
      hscope hsymbol hsymbol' hsame
    rw [label_of_body hlowered hbody hlabel] at hsymbol
    rw [label_of_body hlowered hbody' hlabel'] at hsymbol'
    subst hsame
    have hequal : bodyScope unit.1 name body i ++ "$" ++ label =
        bodyScope unit.1 name' body' i' ++ "$" ++ label := by
      simpa using hsymbol.trans hsymbol'.symm
    apply hscope
    simpa using hequal

/-- Whether a unit is taken can be decided, though two generators cannot be compared. -/
theorem takeUnit_eq_ok_of_isSome {g : Generator} {name : String} {source : Text.Source}
    (h : (g.takeUnit name source).1.toOption.isSome) :
    g.takeUnit name source = (.ok (), (g.takeUnit name source).2) := by
  obtain ⟨done, hdone⟩ := exists_ok_of_isSome h
  exact Prod.ext hdone rfl

/-- Two functions with a label of the same name. -/
def loopTwice : Text.Source :=
  .ofString "function f 0\nlabel L\ngoto L\nreturn\nfunction g 0\nlabel L\nif-goto L\nreturn"

/-- Each of the two functions loops through a label of its own. -/
theorem branches_of_takeUnit_loopTwice :
    ∃ g', (Generator.new {}).takeUnit "Main" loopTwice = (.ok (), g') ∧
      ∃ chunks texts symbol symbol',
        g'.listing.lines.toList = (Generator.new {}).listing.lines.toList ++ List.flatten texts ∧
        List.Forall₂ (List.Forall₂ Spells) texts chunks ∧
        chunks[1]? = some [.label symbol] ∧ chunks[2]? = some (gotoCode symbol) ∧
        chunks[5]? = some [.label symbol'] ∧
        chunks[6]? = some (ifGotoCode .positive symbol') ∧ symbol ≠ symbol' := by
  have htake := @takeUnit_eq_ok_of_isSome (Generator.new {}) "Main" loopTwice (by decide +kernel)
  have hoperations : operationsOf loopTwice =
      [.function "f" 0, .label "L", .goto "L", .ret, .function "g" 0, .label "L", .ifGoto "L",
        .ret] := by decide +kernel
  have hf : IsBody (operationsOf loopTwice) "f" 1 [.label "L", .goto "L", .ret] :=
    ⟨⟨[], 0, _, hoperations, rfl⟩, by simp⟩
  have hg : IsBody (operationsOf loopTwice) "g" 5 [.label "L", .ifGoto "L", .ret] :=
    ⟨⟨[.function "f" 0, .label "L", .goto "L", .ret], 0, [], hoperations, rfl⟩, by simp⟩
  obtain ⟨chunks, texts, -, htexts, hspells, hbranches, hscopes⟩ :=
    @branches_of_takeUnit (Generator.new {}) _ ("Main", loopTwice) htake
  obtain ⟨symbol, hlabel, hgoto⟩ := hbranches "f" 1 _ hf 0 "L" rfl
  obtain ⟨symbol', hlabel', hifGoto⟩ := hbranches "g" 5 _ hg 0 "L" rfl
  refine ⟨_, htake, chunks, texts, symbol, symbol', htexts, hspells, hlabel,
    (hgoto 1 ?_).1 rfl, hlabel', (hifGoto 1 ?_).2 rfl, ?_⟩
  · decide +kernel
  · decide +kernel
  · exact hscopes "f" "g" 1 5 _ _ hf hg 0 0 "L" symbol symbol' rfl rfl (by decide +kernel) hlabel
      hlabel'

/-- A function with a label after a `return`. -/
def labelAfterReturn : Text.Source :=
  .ofString "function f 0\ngoto L\nreturn\nlabel L"

/-- The branch stands before the `return` and the label after it: the branch refers to a symbol of
the function, and the label defines one of the unit. -/
theorem labelAfterReturn_not_found :
    ∃ g', (Generator.new { comments := false }).takeUnit "Main" labelAfterReturn = (.ok (), g') ∧
      IsBody (operationsOf labelAfterReturn) "f" 1 [.goto "L", .ret, .label "L"] ∧
      g'.listing.lines.toList.take 3 = ["(f)", "@f$L", "0;JMP"] ∧
      g'.listing.lines.toList.drop 45 = ["(Main$L)"] ∧ "f$L" ≠ "Main$L" := by
  have htake := @takeUnit_eq_ok_of_isSome (Generator.new { comments := false }) "Main"
    labelAfterReturn (by decide +kernel)
  have hoperations : operationsOf labelAfterReturn =
      [.function "f" 0, .goto "L", .ret, .label "L"] := by decide +kernel
  have hlines : ((Generator.new { comments := false }).takeUnit "Main"
      labelAfterReturn).2.listing.lines.toList.take 3 = ["(f)", "@f$L", "0;JMP"] ∧
      ((Generator.new { comments := false }).takeUnit "Main"
        labelAfterReturn).2.listing.lines.toList.drop 45 = ["(Main$L)"] := by decide +kernel
  exact ⟨_, htake, ⟨⟨[], 0, [], hoperations, rfl⟩, by simp⟩, hlines.1, hlines.2, by decide⟩

end Codegen

end HackBackend
