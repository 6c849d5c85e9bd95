import Mathlib.Logic.Relation
import ScriptAudit.Proofs.Program.Tests
import ScriptAudit.Proofs.Report.Tallies
import ScriptAudit.Proofs.Scope.Traversal

/-!
# What is mined from tests

Each test adds its values to what is kept for one name in one scope.
-/

namespace ScriptAudit

open List Node Option Relation Model

variable {root n k : Node} {m : Model} {source : String} {isModule : Bool}

lemma Node.exists_of_mem_logicalLeaves (hk : k ∈ n.logicalLeaves) :
    k = n ∨ n.kind = .logicalExpression ∧ ∃ f c, (f, some c) ∈ n.links ∧ k ∈ c.logicalLeaves := by
  obtain ⟨h, ls⟩ := n
  have found {f : Field} (hk : k ∈ logicalLeavesAt f ls) : ∃ f c, (f, some c) ∈ ls ∧ k ∈ c.logicalLeaves := by
    have child : logicalLeavesAt f ls = (((mk h ls).child? f).map logicalLeaves).getD [] :=
      eq_at_child? (mk h ls) (fun _ _ => rfl) fun _ _ _ => rfl
    cases hc : (mk h ls).child? f with
    | none => simp [child, hc] at hk
    | some c => exact ⟨f, c, child?_mem_links hc, by simpa [child, hc] using hk⟩
  rw [logicalLeaves] at hk
  split at hk
  next logical => exact .inr ⟨eq_of_beq logical, (mem_append.mp hk).elim found found⟩
  next => exact .inl (mem_singleton.mp hk)

/-- The values that the tests of a chain compare a name with. -/
def Node.comparedWith (n : Node) (v : String) : List Scalar :=
  ((n.logicalLeaves.filterMap comparison?).filter (·.1 == v)).map (·.2)

namespace Model

/-- A logical expression that is not part of a larger one. -/
def isChain (m : Model) (n : Node) : Bool :=
  n.kind == .logicalExpression && !(m.parent? n).any (·.kind == .logicalExpression)

/-- From a node to the logical expression that it is part of. -/
def Climbs (m : Model) (c p : Node) : Prop :=
  m.parent? c = some p ∧ p.kind = .logicalExpression

lemma climbs_of_mem_logicalLeaves (numbered : root.WellNumbered) (tree : root.OneParent)
    (h : ofProgram root source isModule = .ok m) (hn : root.Below n) (hk : k ∈ n.logicalLeaves) :
    ReflTransGen m.Climbs k n := by
  induction hsize : sizeOf n using Nat.strongRecOn generalizing n with
  | ind size ih =>
    rcases exists_of_mem_logicalLeaves hk with rfl | ⟨logical, f, c, hc, hk⟩
    · exact .refl
    · refine (ih _ (hsize ▸ sizeOf_link_lt hc) (hn.link hc) hk rfl).tail ⟨?_, logical⟩
      obtain ⟨g, rest, path, -⟩ := (way_path numbered h (hn.link hc)).eq_cons tree hn hc
      simp [parent?, path]

lemma eq_of_climbs (chain : m.isChain n = true) (h : ReflTransGen m.Climbs n k) : n = k := by
  rcases h.cases_head with rfl | ⟨p, ⟨up, logical⟩, -⟩
  · rfl
  · simp [isChain, up, logical] at chain

end Model

/-- The name that a `switch`, a membership test or an `in` test is about, the values that it
compares the name with, and what the test is called. -/
def Model.test? (m : Model) (n : Node) : Option (String × List Scalar × String) :=
  match n.kind with
  | .switchStatement => do
    let name ← (← n.child? .discriminant).testedName?
    return (name, (n.list .cases).filterMap fun k ↦ (k.child? .test).bind literalValue?, "switch")
  | .callExpression => do
    let callee ← n.child? .callee
    let name ← (← (n.list .arguments).head?).testedName?
    let object ← callee.child? .object
    if !callee.reads "includes" then none
    else if object.kind == .arrayExpression then
      return (name, object.literalElements, "includes_inline")
    else if object.kind == .identifier then
      let array ← (m.binding? object).bind Binding.initial
      if array.kind == .arrayExpression then return (name, array.literalElements, "includes_ref")
      else none
    else none
  | .binaryExpression => do
    let name ← n.child? .left
    let object ← n.child? .right
    if n.operator == "in" && name.kind == .identifier && object.kind == .identifier then
      let literal ← (m.binding? object).bind Binding.initial
      if literal.kind == .objectExpression then
        return (name.name.getD "", literal.literalKeys.map Scalar.text, "in_object")
      else none
    else none
  | _ => none

/-- The values that a node compares the name `v` with, and what the test is called. -/
def Model.tested (m : Model) (n : Node) (v : String) : List Scalar × String :=
  if m.isChain n then (n.comparedWith v, "equality_chain")
  else (((m.test? n).filter (·.1 == v)).map (·.2)).getD ([], "")

/-- The values among them that tell something. -/
def Model.telling (m : Model) (v : String) (n : Node) : List Scalar :=
  (m.tested n v).1.filter isTelling

/-- The node tells at least one of several values of the name `v` in the scope `s`. -/
def Model.tells (m : Model) (s : Nat) (v : String) (n : Node) : Bool :=
  s = m.scopeOf n ∧ 2 ≤ (m.tested n v).1.length ∧ v ≠ "" ∧
    (m.tested n v).1.filter isTelling ≠ []

/-- What is kept for a name in a scope: all that is told about it there, in the order of the
nodes. -/
def Model.keptFor (m : Model) (s : Nat) (v : String) : Option Constraint :=
  match m.nodes.filter (m.tells s v) with
  | [] => none
  | told => some {
      variable_ := v
      scope := s
      values := distinct (told.flatMap (m.telling v))
      sources := told.map fun n ↦ (m.tested n v).2 }

namespace Constraints

variable {c : Constraints} {s : Nat} {v name : String} {values : List Scalar}

/-- What is kept for a name in a scope after a test that compares the name with several values. -/
def gained (c : Constraints) (n : Node) (s : Nat) (v : String) (values : List Scalar) (source : String) :
    Option Constraint :=
  if s = c.model.scopeOf n ∧ 2 ≤ values.length ∧ v ≠ "" ∧ values.filter isTelling ≠ [] then
    some (((c.table.get? (s, v)).getD { variable_ := v, scope := s }).add (values.filter isTelling) [source])
  else c.table.get? (s, v)

lemma model_addSeveral : (c.addSeveral n name values source).model = c.model := by
  unfold addSeveral
  split
  · unfold add
    dsimp only
    split <;> rfl
  · rfl

lemma get?_addSeveral : (c.addSeveral n name values source).table.get? (s, v) =
    if v = name then c.gained n s v values source else c.table.get? (s, v) := by
  unfold addSeveral
  split
  next several =>
    unfold add
    simp only [Bool.or_eq_true, String.isEmpty_iff, List.isEmpty_iff]
    by_cases key : (s, v) = (c.model.scopeOf n, name)
    · obtain ⟨rfl, rfl⟩ := Prod.mk.inj key
      rw [if_pos rfl, gained]
      split
      next untold => rw [if_neg (by tauto)]
      next told =>
        rw [if_pos ⟨rfl, several, not_or.mp told⟩]
        exact Table.get?_alter_self _
    · have other : (if v = name then c.gained n s v values source else c.table.get? (s, v)) = c.table.get? (s, v) := by
        split
        next same => exact if_neg fun told => key (by rw [told.1, same])
        next => rfl
      rw [other]
      split
      · rfl
      · exact Table.get?_alter_of_ne _ key
  next few => simp [gained, few]

lemma get?_foldl_addSeveral {es : List (String × List Scalar)} (nodup : (es.map (·.1)).Nodup) (c : Constraints) :
    (es.foldl (fun c e => c.addSeveral n e.1 e.2 source) c).table.get? (s, v) =
      c.gained n s v ((es.lookup v).getD []) source := by
  induction es generalizing c with
  | nil => simp [gained]
  | cons e rest ih =>
    rw [map_cons, nodup_cons] at nodup
    rw [foldl_cons, ih nodup.2, gained, model_addSeveral, get?_addSeveral, lookup_cons]
    by_cases hv : v = e.1
    · have last : rest.lookup v = none :=
        lookup_eq_none_iff.mpr fun d hd => by simpa [hv] using fun same => nodup.1 (mem_map.mpr ⟨d, hd, same.symm⟩)
      simp [hv ▸ last, hv]
    · have other : (v == e.1) = false := by simpa using hv
      simp [hv, other, gained]

lemma getD_foldl_push (es : List (String × Scalar)) (t : Table String (List Scalar)) :
    (es.foldl (fun t e => t.push e.1 e.2) t).getD v [] = t.getD v [] ++ (es.filter (·.1 == v)).map (·.2) := by
  induction es generalizing t with
  | nil => simp
  | cons e rest ih =>
    rw [foldl_cons, ih, Table.getD_push, filter_cons]
    by_cases hv : e.1 = v <;> simp [hv]

lemma get?_noteEquality (c : Constraints) :
    (c.noteEquality n).table.get? (s, v) = c.gained n s v (n.comparedWith v) "equality_chain" := by
  unfold noteEquality comparedWith
  generalize n.logicalLeaves.filterMap comparison? = es
  have nodup : (es.foldl (fun (t : Table String (List Scalar)) e => t.push e.1 e.2) Table.empty).keys.Nodup :=
    List.foldlRecOn (motive := fun t : Table String (List Scalar) => t.keys.Nodup) _ _ nodup_nil fun t ht e _ =>
      Table.keys_alter (t := t) _ ▸ nodup_addNew ht
  have values := getD_foldl_push (v := v) es Table.empty
  simp only [Table.getD, Table.get?] at values
  rw [get?_foldl_addSeveral nodup, values]
  rfl

lemma noteNode_eq (c : Constraints) (hn : n.kind ≠ .logicalExpression) : c.noteNode n =
    ((c.model.test? n).map fun e ↦ c.addSeveral n e.1 e.2.1 e.2.2).getD c := by
  unfold noteNode Model.test?
  split
  next hk =>
    simp only [hk, noteSwitch]
    cases n.child? .discriminant with
    | none => rfl
    | some d => cases hd : d.testedName? <;> simp [hd]
  next => contradiction
  next hk =>
    simp only [hk, noteIn]
    cases n.child? .left with
    | none => simp
    | some l =>
      cases n.child? .right with
      | none => simp
      | some r =>
        simp only [Option.bind_eq_bind, Option.bind_some, Bool.and_assoc]
        cases hop : n.operator == "in" with
        | false => simp
        | true =>
          cases hkinds : l.kind == .identifier && r.kind == .identifier with
          | false => simp
          | true =>
            cases (c.model.binding? r).bind Binding.initial with
            | none => simp
            | some o => by_cases ho : o.kind = .objectExpression <;> simp [ho]
  next hk =>
    simp only [hk, noteIncludes]
    cases n.child? .callee with
    | none => simp
    | some callee =>
      cases n.list .arguments with
      | nil => simp
      | cons argument rest =>
        cases hreads : callee.reads "includes" <;> cases hname : argument.testedName? <;>
          cases hobject : callee.child? .object <;> simp [hreads, hname, hobject]
        split
        next ho => simp [ho]
        next object _ ho =>
          cases (c.model.binding? object).bind Binding.initial with
          | none => simp [ho]
          | some o => by_cases harray : o.kind = .arrayExpression <;> simp [ho, harray]
        next ho ho' =>
          rw [if_neg ho, if_neg ho']
          rfl
  next => split <;> first | contradiction | rfl

/-- A step: what is kept for a name in a scope gains what the node tests. -/
lemma get?_noteNode (c : Constraints) : (c.noteNode n).table.get? (s, v) =
    c.gained n s v (c.model.tested n v).1 (c.model.tested n v).2 := by
  unfold Model.tested
  by_cases hn : n.kind = .logicalExpression
  · have htest : c.model.test? n = none := by simp [Model.test?, hn]
    simp only [noteNode, hn, htest]
    cases hup : (c.model.parent? n).any (·.kind == .logicalExpression) with
    | true => simp [isChain, hup, gained]
    | false => simp [isChain, hup, hn, get?_noteEquality]
  · have hchain : c.model.isChain n = false := by simp [isChain, hn]
    rw [noteNode_eq c hn, hchain, if_neg Bool.false_ne_true]
    cases c.model.test? n with
    | none => simp [gained]
    | some e =>
      rw [Option.map_some, Option.getD_some, get?_addSeveral]
      by_cases hv : v = e.1
      · simp [Option.filter, hv]
      · have hv' : (e.1 == v) = false := by simpa using Ne.symm hv
        simp [Option.filter, hv, hv', gained]

end Constraints

structure Constraint.Mined (x : Constraint) : Prop where
  sources : x.sources ≠ []
  values : x.values ≠ []
  nodup : x.values.Nodup
  telling : ∀ v ∈ x.values, (∃ q, v = .number q) ∨ ∃ s, s ≠ "" ∧ v = .text s

lemma Constraint.mined_add {x : Constraint} {values : List Scalar} (h : x.values = [] ∨ x.Mined)
    (some : values.filter isTelling ≠ []) : (x.add (values.filter isTelling) [source]).Mined where
  sources := by simp [add]
  values := by
    obtain ⟨v, hv⟩ := exists_mem_of_ne_nil _ some
    exact ne_nil_of_mem (mem_addAllNew.mpr (.inr hv))
  nodup := nodup_addAllNew (h.elim (fun none => none ▸ nodup_nil) (·.nodup))
  telling v hv := by
    rcases mem_addAllNew.mp hv with hv | hv
    · exact (h.resolve_left (ne_nil_of_mem hv)).telling v hv
    · have told := (mem_filter.mp hv).2
      cases v with
      | text s => exact .inr ⟨s, by simpa [isTelling] using told, rfl⟩
      | number q => exact .inl ⟨q, rfl⟩
      | boolean => cases told

namespace Constraints

lemma mined_ofModel (m : Model) : (ofModel m).table.All Constraint.Mined := by
  refine List.foldlRecOn (motive := fun c : Constraints => c.table.All Constraint.Mined) _ _ Table.all_empty
    fun c hc n _ => noteNode_induction (P := fun c => c.table.All _) (fun c n name values source h => ?_) hc n
  unfold add
  dsimp only
  split
  next => exact h
  next kept =>
    have some : values.filter isTelling ≠ [] := fun none => kept (by simp [none])
    exact h.alter (Constraint.mined_add (.inl rfl) some) fun x hx => Constraint.mined_add (.inr hx) some

lemma foldl_add (x : Constraint) (ys : List Constraint) (default : Constraint → Constraint) :
    ys.foldl (fun o y => some ((o.getD (default y)).add y.values y.sources)) (some x) =
      some (x.add (ys.flatMap (·.values)) (ys.flatMap (·.sources))) := by
  induction ys generalizing x with
  | nil => simp [Constraint.add, addAllNew]
  | cons y rest ih =>
    rw [foldl_cons, ih]
    simp [Constraint.add, addAllNew]

/-- What is joined for a name: the values and the sources of all that is kept for it. -/
def joinedFor (c : Constraints) (v : String) : String × List Scalar × List String :=
  let kept := c.table.values.filter (·.variable_ == v)
  (v, distinct (kept.flatMap (·.values)), kept.flatMap (·.sources))

lemma joined_eq (c : Constraints) : c.joined.map (fun y => (y.variable_, y.values, y.sources)) =
    (distinct (c.table.values.map (·.variable_))).map c.joinedFor := by
  let names : Table String Constraint := .filled (·.variable_)
    (fun x o => (o.getD { variable_ := x.variable_, scope := x.scope }).add x.values x.sources) c.table.values
  have value : ∀ e ∈ names.entries, (e.2.variable_, e.2.values, e.2.sources) = c.joinedFor e.1 := by
    intro e he
    have found := (Table.get?_eq_some_iff Table.nodup_keys_filled).mpr he
    rw [Table.get?_filled] at found
    cases kept : c.table.values.filter (·.variable_ == e.1) with
    | nil => simp [kept] at found
    | cons x rest =>
      have name : x.variable_ = e.1 := eq_of_beq (mem_filter.mp (kept ▸ mem_cons_self : x ∈ filter _ _)).2
      rw [kept, foldl_cons, foldl_add] at found
      rw [← some.inj found]
      simp [joinedFor, kept, Constraint.add, ← addAllNew_nil, addAllNew, name]
  calc c.joined.map (fun y => (y.variable_, y.values, y.sources))
      = names.entries.map fun e => (e.2.variable_, e.2.values, e.2.sources) := map_map
    _ = names.keys.map c.joinedFor := by
      rw [Table.keys, List.map_map]
      exact map_congr_left value
    _ = _ := by rw [Table.keys_filled, addAllNew_nil]

lemma get?_foldl_noteNode (ns : List Node) (hc : c.model = m) :
    (ns.foldl noteNode c).table.get? (s, v) = (ns.filter (m.tells s v)).foldl (fun o n ↦
      some ((o.getD { variable_ := v, scope := s }).add (m.telling v n) [(m.tested n v).2]))
      (c.table.get? (s, v)) := by
  induction ns generalizing c with
  | nil => rfl
  | cons n rest ih =>
    have hmodel : (c.noteNode n).model = m :=
      noteNode_induction (P := fun c ↦ c.model = m) (fun c n name values source h ↦ by
        unfold add
        dsimp only
        split <;> exact h) hc n
    rw [foldl_cons, ih hmodel, get?_noteNode, hc, gained, hc, filter_cons]
    by_cases htells : m.tells s v n = true
    · rw [if_pos (of_decide_eq_true htells), if_pos htells]
      rfl
    · rw [if_neg fun told ↦ htells (decide_eq_true told), if_neg htells]

/-- A run: what is kept in the end is all that the nodes tell. -/
lemma get?_ofModel : (ofModel m).table.get? (s, v) = m.keptFor s v := by
  rw [ofModel, get?_foldl_noteNode _ rfl, Model.keptFor]
  cases m.nodes.filter (m.tells s v) with
  | nil => rfl
  | cons n rest =>
    have hfold := foldl_add ({ variable_ := v, scope := s : Constraint }.add (m.telling v n)
      [(m.tested n v).2]) (rest.map fun n ↦
        { variable_ := v, scope := s, values := m.telling v n, sources := [(m.tested n v).2] })
      fun _ ↦ { variable_ := v, scope := s }
    rw [foldl_map] at hfold
    refine hfold.trans ?_
    simp [Constraint.add, ← addAllNew_nil, addAllNew, flatMap_map]
    exact map_eq_flatMap.symm

/-- What is kept for a name in a scope comes from tests and has each value once. It is all that the
nodes of the scope tell about the name: a `switch`, a membership test, an `in` test, or a chain of
equality tests, which is looked at once and shares no test with another chain. What is joined has
one entry for each name, in the order in which names were first tested. -/
theorem mined_and_joined (numbered : root.WellNumbered) (tree : root.OneParent)
    (h : ofProgram root source isModule = .ok m) :
    (∀ x ∈ (ofModel m).table.values, x.Mined) ∧
    (∀ n n' k, root.Below n → root.Below n' → m.isChain n = true → m.isChain n' = true →
      k ∈ n.logicalLeaves → k ∈ n'.logicalLeaves → n = n') ∧
    (∀ (c : Constraints) n s v, c.model = m → (c.noteNode n).table.get? (s, v) =
      c.gained n s v (m.tested n v).1 (m.tested n v).2) ∧
    (∀ s v, (ofModel m).table.get? (s, v) = m.keptFor s v) ∧
    (ofModel m).joined.map (fun y ↦ (y.variable_, y.values, y.sources)) =
      (distinct ((ofModel m).table.values.map (·.variable_))).map (ofModel m).joinedFor := by
  refine ⟨fun x hx ↦ ?_, fun n n' k hn hn' chain chain' hk hk' ↦ ?_,
    fun c n s v model ↦ model ▸ get?_noteNode c, fun s v ↦ get?_ofModel, joined_eq _⟩
  · obtain ⟨e, he, rfl⟩ := mem_map.mp hx
    exact mined_ofModel m e he
  · have unique : Relator.RightUnique m.Climbs := fun _ _ _ up up' ↦ some.inj (up.1.symm.trans up'.1)
    rcases ReflTransGen.total_of_right_unique unique
      (climbs_of_mem_logicalLeaves numbered tree h hn hk)
      (climbs_of_mem_logicalLeaves numbered tree h hn' hk') with climbs | climbs
    · exact eq_of_climbs chain climbs
    · exact (eq_of_climbs chain' climbs).symm

def Chained.test (i : Nat) (text : String) : Node :=
  Node.binary i "===" (identifier (i + 1) "x") (textLiteral (i + 2) text)

/-- The statement `x === "a" || x === "b"`. -/
def Chained.program : Node :=
  script [statement 1 (branch 2 .logicalExpression [(.left, some (test 3 "a")),
    (.right, some (test 6 "b"))])]

theorem mined_and_joined_chained : Chained.program.WellNumbered ∧ Chained.program.OneParent ∧
    ∃ m, ofProgram Chained.program "" false = .ok m ∧ (∀ x ∈ (ofModel m).table.values, x.Mined) ∧
      (ofModel m).joined.map (·.values) = [[.text "a", .text "b"]] := by
  have wellFormed : Chained.program.WellFormed := wellFormed_check (by decide)
  have numbered := wellFormed.toWellNumbered
  have tree : Chained.program.OneParent := oneParent_of_check numbered (by decide)
  obtain ⟨m, hm⟩ := exists_ofProgram wellFormed.toWellNamed "" false
  have values : (ofProgram Chained.program "" false).toOption.map (fun m => (ofModel m).joined.map (·.values)) =
      some [[.text "a", .text "b"]] := by decide +kernel
  rw [hm] at values
  exact ⟨numbered, tree, m, hm, (mined_and_joined numbered tree hm).1, some.inj values⟩

end Constraints

end ScriptAudit
