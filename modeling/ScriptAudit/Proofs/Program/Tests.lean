import ScriptAudit.Program.Constraint
import ScriptAudit.Proofs.Scope.Lexical

/-!
# Constraints come from the nearest tests

The values that a name is compared with are kept under the scope of the test and looked up by name
along the scopes around a node.
-/

namespace ScriptAudit

open Build List Model

namespace Constraints

lemma noteNode_induction {P : Constraints → Prop} (add : ∀ c n name values source, P c → P (add c n name values source))
    {c : Constraints} (h : P c) (n : Node) : P (c.noteNode n) := by
  have several {c : Constraints} (h : P c) (name : String) (values : List Scalar) (source : String) :
      P (c.addSeveral n name values source) := by
    unfold addSeveral
    split
    · exact add c n name values source h
    · exact h
  have equality : P (c.noteEquality n) :=
    foldlRecOn _ _ h fun c hc e _ => several hc e.1 e.2 "equality_chain"
  unfold noteNode noteSwitch noteIncludes noteIn
  repeat' split
  all_goals first | exact h | exact several h _ _ _ | exact equality

/-- What is kept for a scope belongs to that scope. -/
def Keyed (m : Model) (c : Constraints) : Prop :=
  c.model = m ∧ ∀ s v x, c.table.get? (s, v) = some x → x.scope = s

lemma Keyed.add {m : Model} {c : Constraints} (h : Keyed m c) (n : Node) (name : String) (values : List Scalar)
    (source : String) : Keyed m (c.add n name values source) := by
  unfold Constraints.add
  dsimp only
  split
  · exact h
  · refine ⟨h.1, fun s v x hx => ?_⟩
    by_cases hkey : (s, v) = (c.model.scopeOf n, name)
    · rw [hkey, Table.get?_alter_self] at hx
      cases hx
      obtain ⟨rfl, rfl⟩ := Prod.mk.inj hkey
      cases hold : c.table.get? (c.model.scopeOf n, v) with
      | none => rfl
      | some y => exact h.2 _ v y hold
    · rw [Table.get?_alter_of_ne _ hkey] at hx
      exact h.2 s v x hx

lemma keyed_ofModel (m : Model) : Keyed m (ofModel m) :=
  foldlRecOn _ _ ⟨rfl, fun s v x hx => by cases hx⟩ fun _ hc n _ =>
    noteNode_induction (fun _ n name values source h => h.add n name values source) hc n

end Constraints

lemma Build.Scanned.outline_of_chain {root : Node} {size u s : Nat} {b : Build} (h : Scanned root size b) {o : Outline}
    (ho : b.outlines[u]? = some o) {inner outer : List Nat} (chain : o.chain = inner ++ s :: outer) :
    b.scopeChain s = s :: outer := by
  rw [scopeChain_eq]
  induction h generalizing u o inner with
  | start =>
    cases u with
    | zero =>
      obtain rfl : _ = o := by simpa [openScope, Build.start, outlines] using ho
      obtain ⟨rfl, rfl, rfl⟩ : inner = [] ∧ s = 0 ∧ outer = [] := by
        cases inner <;> simp_all [Scope.chain]
      rfl
    | succ u => simp [openScope, Build.start, outlines] at ho
  | @visit b n path scope h _ _ _ ih =>
    have kept {u : Nat} {o : Outline} (old : b.outlines[u]? = some o) {inner : List Nat}
        (chain : o.chain = inner ++ s :: outer) :
        (((b.scan n path scope).outlines[s]?).map (·.chain)).getD [] = s :: outer := by
      have hs := ih old chain
      cases found : b.outlines[s]? with
      | none => simp [found] at hs
      | some o' =>
        rw [outlines_scan_get?.mpr (.inl found)]
        simpa [found] using hs
    rcases outlines_scan_get?.mp ho with old | ⟨sort, opening, rfl, rfl⟩
    · exact kept old chain
    · cases inner with
      | nil =>
        obtain ⟨rfl, rfl⟩ := cons.inj chain
        rw [ho]
        rfl
      | cons v inner =>
        obtain ⟨-, chain⟩ := cons.inj chain
        rw [scopeChain_eq] at chain
        cases found : b.outlines[scope]? with
        | none => simp [found] at chain
        | some o' => exact kept found (by simpa [found] using chain)

/-- What is found for a name is what the nearest scope has that has anything for it. If no scope
nearer than that declares the name, it means the same variable there. -/
theorem Model.nearest_tests {root : Node} {source : String} {isModule : Bool} {m : Model} (numbered : root.WellNumbered)
    (tree : root.OneParent) (h : ofProgram root source isModule = .ok m) {v : String} {n : Node} {x : Constraint}
    (found : (Constraints.ofModel m).lookup? v n = some x) :
    ∃ inner outer, m.scopeChain n = inner ++ x.scope :: outer ∧
      (Constraints.ofModel m).table.get? (x.scope, v) = some x ∧
      (∀ u ∈ inner, (Constraints.ofModel m).table.get? (u, v) = none) ∧
      ((∀ u ∈ inner, ¬m.Declares u v) → ∀ k, m.scopeOf k = x.scope → m.lookup? v k = m.lookup? v n) := by
  obtain ⟨b, size, ok, scanned, built⟩ := exists_built numbered tree h
  obtain ⟨model, keyed⟩ := Constraints.keyed_ofModel m
  rw [Constraints.lookup?, model] at found
  obtain ⟨inner, s, outer, chain, stored, untested⟩ := findSome?_eq_some_iff.mp found
  obtain rfl := keyed s v x stored
  refine ⟨inner, outer, chain, stored, untested, fun undeclared k hk => ?_⟩
  have outlined : b.scopeChain x.scope = x.scope :: outer := by
    have chain' := chain
    rw [built.scopeChain_eq, scopeChain_eq] at chain'
    cases around : b.outlines[m.scopeOf n]? with
    | none => simp [around] at chain'
    | some o => exact scanned.outline_of_chain around (by simpa [around] using chain')
  have unnamed : (inner.findSome? fun u => (m.scopes[u]?).bind fun s => s.names.get? v) = none := by
    refine findSome?_eq_none_iff.mpr fun u hu => ?_
    have undeclared := undeclared u hu
    rw [built.declares_iff ok scanned] at undeclared
    rw [built.scopes]
    simpa [namesAt] using undeclared
  rw [lookup?, lookup?, chain, built.scopeChain_eq k, hk, outlined, findSome?_append, unnamed]
  rfl

namespace Shadowed

def use : Node := .identifier 13 "v"

def program : Node :=
  .script [.branch 1 .switchStatement [(.discriminant, some (.identifier 2 "v")),
    (.cases, some (.branch 3 .switchCase [(.test, some (.textLiteral 4 "a"))])),
    (.cases, some (.branch 5 .switchCase [(.test, some (.textLiteral 6 "b"))]))],
    .function 7 (.identifier 8 "f") [.identifier 9 "v"] (.block 10 [.statement 11 (.call 14
    (.identifier 12 "g") [use])])]

def found : Option (List Nat × Nat × List Scalar × Option Nat) :=
  match ofProgram program "" false with
  | .ok m => ((Constraints.ofModel m).lookup? "v" use).map fun x =>
      (m.scopeChain use, x.scope, x.values, (m.lookup? "v" use).map (·.scope))
  | .error _ => none

end Shadowed

open Shadowed

theorem Model.nearest_tests_shadowed : program.WellNumbered ∧ program.OneParent ∧
    ∃ m x inner outer, ofProgram program "" false = .ok m ∧
      (Constraints.ofModel m).lookup? "v" use = some x ∧
      m.scopeChain use = inner ++ x.scope :: outer ∧
      (Constraints.ofModel m).table.get? (x.scope, "v") = some x := by
  have wellFormed : program.WellFormed := Node.wellFormed_check (by decide)
  have numbered := wellFormed.toWellNumbered
  have tree : program.OneParent := Node.oneParent_of_check numbered (by decide)
  obtain ⟨m, hm⟩ := exists_ofProgram wellFormed.toWellNamed "" false
  have found : Shadowed.found.isSome = true := by decide +kernel
  simp only [Shadowed.found, hm, Option.isSome_map] at found
  obtain ⟨x, hx⟩ := Option.isSome_iff_exists.mp found
  obtain ⟨inner, outer, chain, kept, -⟩ := nearest_tests numbered tree hm hx
  exact ⟨numbered, tree, m, x, inner, outer, hm, hx, chain, kept⟩

/-- The values for a parameter are taken from tests of an outer variable of the same name. -/
theorem Shadowed.outer_tests_found : found = some ([2, 0], 0, [.text "a", .text "b"], some 2) := by
  decide +kernel

end ScriptAudit
