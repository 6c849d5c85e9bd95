import ScriptAudit.Proofs.Program.Inside
import ScriptAudit.Proofs.Scope.Traversal

/-!
# Assigned members stand under the text of their path

What is assigned to a member of an object is looked up by the dotted text of the path, among the
assignments from the same root.
-/

namespace ScriptAudit

open List Node Option

namespace Node

lemma splitOn_intercalate_dot {ps : List String} (hps : ps ≠ [])
    (plain : ∀ p ∈ ps, '.' ∉ p.toList) :
    ((".".intercalate ps).toList.splitOn '.').map String.ofList = ps := by
  have parts : ∀ l ∈ ps.map String.toList, '.' ∉ l := by
    intro l hl
    obtain ⟨p, hp, rfl⟩ := mem_map.mp hl
    exact plain p hp
  rw [String.toList_intercalate, show ".".toList = ['.'] from rfl,
    splitOn_intercalate '.' parts (by simpa using hps)]
  simp

/-- Chains without dots in their names have the same text just if they have the same names. -/
lemma intercalate_dot_inj {ps qs : List String} (hps : ps ≠ []) (hqs : qs ≠ [])
    (plain : ∀ p ∈ ps ++ qs, '.' ∉ p.toList) (h : ".".intercalate ps = ".".intercalate qs) :
    ps = qs := by
  obtain ⟨plain, plain'⟩ := forall_mem_append.mp plain
  rw [← splitOn_intercalate_dot hps plain, h, splitOn_intercalate_dot hqs plain']

lemma chainNames?_ne_nil {n : Node} {ps : List String} (h : n.chainNames? = some ps) :
    ps ≠ [] := by
  rintro rfl
  obtain ⟨names, hnames, hempty⟩ := map_eq_some_iff.mp h
  rw [objectChain_eq, mapM_cons] at hnames
  obtain ⟨name, -, hrest⟩ := bind_eq_some_iff.mp hnames
  obtain ⟨rest, -, hcons⟩ := bind_eq_some_iff.mp hrest
  cases hcons
  simp at hempty

lemma intercalate_dot_concat {ps : List String} (hps : ps ≠ []) (p : String) :
    ".".intercalate ps ++ "." ++ p = ".".intercalate (ps ++ [p]) := by
  induction ps with
  | nil => contradiction
  | cons x rest ih =>
    cases rest with
    | nil => simp
    | cons y rest => simpa [String.append_assoc] using congrArg (x ++ "." ++ ·) (ih (by simp))

def spells (n : Node) (text : String) : Bool :=
  n.kind == .memberExpression && n.dotted? == some text

/-- An assignment of the program sets `t` to `v`. -/
def Sets (root t v : Node) : Prop :=
  ∃ a, root.Below a ∧ a.kind = .assignmentExpression ∧ a.operator = "=" ∧
    a.child? .left = some t ∧ a.child? .right = some v

end Node

namespace Build

/-- Under each text stand the member expressions with that text, in the order of the pass. -/
def ListsChains (b : Build) : Prop :=
  ∀ text, b.chains.getD text [] = b.nodes.reverse.filter (·.spells text)

lemma chains_declare (b : Build) (scope : Nat) (ident : Node) (d : Declaration) :
    (b.declare scope ident d).2.chains = b.chains := by
  unfold declare
  dsimp only
  repeat' split
  all_goals rfl

lemma getD_chains_enter (b : Build) (n : Node) (path : List (Node × Field)) (scope : Nat)
    (text : String) : (b.enter n path scope).2.chains.getD text [] =
      b.chains.getD text [] ++ [n].filter (·.spells text) := by
  by_cases hk : n.kind = .memberExpression
  · have entered : (b.enter n path scope).2 = b.noteNode n path scope := by
      simp [enter, hk, Kind.isFunction, Kind.opensBlock]
    rw [entered]
    simp only [noteNode, hk]
    cases hd : n.dotted? with
    | none => simp [spells, hd]
    | some chain =>
      dsimp only
      rw [Table.getD_push]
      by_cases eq : chain = text <;> simp [spells, hk, hd, eq]
  · have kept : (b.enter n path scope).2.chains = b.chains := by
      have change {c d : Build} (hcd : Change n n c d) (hc : c.chains = b.chains) :
          d.chains = b.chains := by
        cases hcd with
        | declares _ scope => exact (chains_declare c scope _ _).trans hc
        | chains _ _ member => exact absurd member hk
        | _ => exact hc
      exact enter_induction change rfl path scope .refl
    simp [kept, spells, hk]

lemma listsChains_ofProgram (root : Node) (size : Nat) : (ofProgram root size).ListsChains := by
  have kept : Kept root ListsChains := by
    intro b n path scope _ _ h text
    rw [getD_chains_enter, (sameNodes_enter _ n path scope).2]
    change b.chains.getD text [] ++ _ = (n :: b.nodes).reverse.filter _
    rw [h text, reverse_cons, filter_append]
  have passed : (pass root size).ListsChains := kept.visit 0 .refl (by simp) fun _ => rfl
  rw [ofProgram_eq]
  intro text
  rw [(resolves_foldl _ _).nodes.2, ← passed text]
  refine foldlRecOn (motive := fun c : Build ↦ c.chains.getD text [] = _) _ _ rfl fun c hc e _ ↦ ?_
  rw [← hc]
  cases e <;> simp only [resolve, resolveRead, resolveWrite] <;> repeat' split
  all_goals rfl

end Build

lemma forall₂_filter_filterMap {α β : Type} {R : α → β → Prop} {f : α → Option β} {xs : List α}
    (h : ∀ x ∈ xs, ∀ y, f x = some y → R x y) :
    Forall₂ R (xs.filter fun x ↦ (f x).isSome) (xs.filterMap f) := by
  induction xs with
  | nil => exact .nil
  | cons x rest ih =>
    obtain ⟨hx, hrest⟩ := forall_mem_cons.mp h
    cases hf : f x with
    | none => simpa [hf] using ih hrest
    | some y => simpa [hf] using ⟨hx y hf, ih hrest⟩

namespace Model

variable {root object t v r s : Node} {source : String} {isModule : Bool} {m : Model}

/-- Two roots of chains are one variable, one name that nothing declares, or `this` of one
function. -/
def SameRoot (m : Model) (r s : Node) : Prop :=
  (s.kind = .identifier → r.kind = .identifier ∧ m.binding? s = m.binding? r) ∧
    (s.kind = .thisExpression → r.kind = .thisExpression ∧ m.thisFunction? s = m.thisFunction? r)

lemma sameBinding_iff (h : ofProgram root source isModule = .ok m) :
    sameBinding (m.binding? s) (m.binding? r) = true ↔ m.binding? s = m.binding? r := by
  rw [sameBinding, beq_iff_eq]
  refine ⟨fun same ↦ ?_, fun same ↦ by rw [same]⟩
  cases hs : m.binding? s with
  | none => cases hr : m.binding? r <;> simp [hs, hr] at same ⊢
  | some b =>
    cases hr : m.binding? r with
    | none => simp [hs, hr] at same
    | some c =>
      obtain ⟨i, -, hi⟩ := bind_eq_some_iff.mp hs
      obtain ⟨j, -, hj⟩ := bind_eq_some_iff.mp hr
      have uids : b.uid = c.uid := by simpa [hs, hr] using same
      rw [uid_of_getElem?_bindings h hi, uid_of_getElem?_bindings h hj] at uids
      rw [← hi, uids, hj]

section Assigned

variable (numbered : root.WellNumbered) (h : ofProgram root source isModule = .ok m)
include numbered h

lemma sameNode_iff : sameNode (m.thisFunction? s) (m.thisFunction? r) = true ↔
    m.thisFunction? s = m.thisFunction? r := by
  have inside := inside_ofProgram h
  have below {n f : Node} (hf : m.thisFunction? n = some f) : root.Below f :=
    (eq_of_ofProgram h).1 ▸ inside.thisFunction? hf
  rw [sameNode, beq_iff_eq]
  refine ⟨fun same ↦ ?_, fun same ↦ by rw [same]⟩
  cases hs : m.thisFunction? s <;> cases hr : m.thisFunction? r <;> simp [hs, hr] at same ⊢
  exact numbered.unique _ _ (below hs) (below hr) same

lemma sameRoot_iff : m.sameRoot r s = true ↔ m.SameRoot r s := by
  unfold sameRoot SameRoot
  split
  next hk =>
    by_cases hr : r.kind = .identifier <;> simp [hk, hr, rootBinding?, sameBinding_iff h]
  next hk => simp [hk, sameNode_iff numbered h]
  next hk hk' => exact iff_of_true rfl ⟨fun k ↦ (hk k).elim, fun k ↦ (hk' k).elim⟩

lemma assignmentTo?_eq_some_iff (tree : root.OneParent) (ht : root.Below t) {a : Node} :
    m.assignmentTo? t = some a ↔
      root.Below a ∧ a.kind = .assignmentExpression ∧ a.child? .left = some t := by
  have inside := inside_ofProgram h
  have hroot := (eq_of_ofProgram h).1
  have holds := inside.holder?_eq_some_iff (p := a) (by rw [hroot]; exact numbered.unique)
    (hroot ▸ ht) .assignmentExpression .left
  refine holds.trans (and_congr_left ?_)
  rintro ⟨-, left⟩
  refine ⟨fun up ↦ hroot ▸ inside.parent? up, fun ha ↦ ?_⟩
  obtain ⟨g, rest, path, -⟩ := (way_path numbered h ht).eq_cons tree ha (child?_mem_links left)
  simp [parent?, path]

omit numbered in
lemma getD_chains (text : String) : m.chains.getD text [] = m.nodes.filter (·.spells text) := by
  have lists := Build.listsChains_ofProgram root (nodeBound root.walk) text
  rw [(eq_of_ofProgram h).2.1, ← lists]
  unfold ofProgram at h
  dsimp only at h
  split at h <;> cases h
  rfl

end Assigned

/-- What the assignment to `member` sets it to, if it has the same root as the object. -/
def assigned? (m : Model) (object member : Node) : Option Node :=
  if member == object then none
  else
    (m.assignmentTo? member).bind fun assign ↦
      if assign.operator == "=" && m.sameRoot object.chainRoot member.chainRoot then
        assign.child? .right
      else none

lemma assigned?_eq_some_iff (numbered : root.WellNumbered) (tree : root.OneParent)
    (h : ofProgram root source isModule = .ok m) (ho : root.Below object) (ht : root.Below t)
    (hne : t ≠ object) :
    m.assigned? object t = some v ↔ root.Sets t v ∧ m.SameRoot object.chainRoot t.chainRoot := by
  have other : (t == object) = false := by
    rw [Bool.eq_false_iff, Ne, beq_iff_ident]
    exact fun same ↦ hne (numbered.unique t object ht ho same)
  rw [assigned?, other, if_neg Bool.false_ne_true, bind_eq_some_iff, ← sameRoot_iff numbered h]
  simp only [assignmentTo?_eq_some_iff numbered h tree ht, Sets]
  constructor
  · rintro ⟨a, ⟨ha, kind, left⟩, hv⟩
    split at hv
    next both =>
      rw [Bool.and_eq_true, beq_iff_eq] at both
      exact ⟨⟨a, ha, kind, both.1, left, hv⟩, both.2⟩
    next => cases hv
  · rintro ⟨⟨a, ha, kind, sets, left, right⟩, same⟩
    exact ⟨a, ⟨ha, kind, left⟩, by simp [sets, same, right]⟩

/-- What is found for the member `p` of an object is what the program assigns, in the order in
which it does, to the members of that text from the same root. The text tells the path as long as
no name has a dot in it. -/
theorem assignedMembers_of_text (numbered : root.WellNumbered) (tree : root.OneParent)
    (h : ofProgram root source isModule = .ok m) (ho : root.Below object) {names : List String}
    (hnames : object.chainNames? = some names) (p : String) :
    (∃ targets : List Node, targets.Sublist (distinct root.walk) ∧
      Forall₂ root.Sets targets (m.assignedMembers object p) ∧
      ∀ t, t ∈ targets ↔ (∃ v, root.Sets t v) ∧ m.SameRoot object.chainRoot t.chainRoot ∧
        t.kind = .memberExpression ∧ t.dotted? = some (".".intercalate (names ++ [p]))) ∧
    ∀ (t : Node) qs, t.chainNames? = some qs → (∀ q ∈ qs ++ (names ++ [p]), '.' ∉ q.toList) →
      (t.dotted? = some (".".intercalate (names ++ [p])) ↔ qs = names ++ [p]) := by
  have some_names := chainNames?_ne_nil hnames
  have text := intercalate_dot_concat some_names p
  have hobject : object.dotted? = some (".".intercalate names) := by rw [dotted?, hnames]; rfl
  have other {t : Node} (ht : t.dotted? = some (".".intercalate (names ++ [p]))) : t ≠ object := by
    rintro rfl
    have longer := congrArg String.length (some.inj (ht.symm.trans hobject))
    rw [← text, String.length_append, String.length_append, show ".".length = 1 from rfl] at longer
    omega
  have spells_iff {t : Node} : t.spells (".".intercalate (names ++ [p])) = true ↔
      t.kind = .memberExpression ∧ t.dotted? = some (".".intercalate (names ++ [p])) := by
    simp [spells]
  have found : m.assignedMembers object p = (m.nodes.filter
      (·.spells (".".intercalate (names ++ [p])))).filterMap (m.assigned? object) := by
    rw [assignedMembers, hobject]
    simp only [text, getD_chains h]
    rfl
  have below {t : Node} (ht : t ∈ m.nodes) : root.Below t :=
    (eq_of_ofProgram h).1 ▸ (inside_ofProgram h).nodes t ht
  have value {t : Node} (ht : root.Below t) (hd : t.dotted? = some (".".intercalate (names ++ [p])))
      (v : Node) := assigned?_eq_some_iff (v := v) numbered tree h ho ht (other hd)
  refine ⟨⟨(m.nodes.filter (·.spells (".".intercalate (names ++ [p])))).filter
    fun t ↦ (m.assigned? object t).isSome, ?_, ?_, fun t ↦ ?_⟩, fun t qs hqs plain ↦ ?_⟩
  · obtain ⟨-, -, -, -, walk⟩ := exists_traced numbered h
    exact walk ▸ filter_sublist.trans filter_sublist
  · rw [found]
    refine forall₂_filter_filterMap fun t ht v hv ↦ ?_
    obtain ⟨listed, spelled⟩ := mem_filter.mp ht
    exact ((value (below listed) (spells_iff.mp spelled).2 v).mp hv).1
  · rw [mem_filter, mem_filter, spells_iff, isSome_iff_exists]
    constructor
    · rintro ⟨⟨listed, kind, hd⟩, v, hv⟩
      obtain ⟨sets, same⟩ := (value (below listed) hd v).mp hv
      exact ⟨⟨v, sets⟩, same, kind, hd⟩
    · rintro ⟨⟨v, sets⟩, same, kind, hd⟩
      have ht : root.Below t := sets.choose_spec.1.child? sets.choose_spec.2.2.2.1
      exact ⟨⟨mem_nodes numbered h ht, kind, hd⟩, v, (value ht hd v).mpr ⟨sets, same⟩⟩
  · rw [Node.dotted?, hqs, map_some, some.injEq]
    exact ⟨intercalate_dot_inj (chainNames?_ne_nil hqs) (by simp) plain, fun eq ↦ by rw [eq]⟩

end Model

namespace Dotted

def keyed : Node := .keyed 3 (.identifier 4 "a") (.textLiteral 5 "b.c")

def plain : Node := .member 9 (.member 11 (.identifier 13 "a") "b") "c"

def object : Node := .member 18 (.identifier 20 "a") "b"

def program : Node :=
  .script [.statement 1 (.assign 2 keyed (.textLiteral 6 "x")),
    .statement 7 (.assign 8 plain (.textLiteral 14 "y")),
    .statement 15 (.call 16 (.identifier 17 "f") [object])]

def found? : Option (List NodeId) :=
  match Model.ofProgram program "" false with
  | .ok m => some ((m.assignedMembers object "c").map (·.ident))
  | .error _ => none

end Dotted

theorem Model.assignedMembers_of_text_dotted : Dotted.program.WellNumbered ∧
    Dotted.program.OneParent ∧ Dotted.object.chainNames? = some ["a", "b"] ∧
    ∃ m, ofProgram Dotted.program "" false = .ok m ∧ ∃ targets : List Node,
      targets.Sublist (distinct Dotted.program.walk) ∧
      Forall₂ Dotted.program.Sets targets (m.assignedMembers Dotted.object "c") := by
  have wellFormed : Dotted.program.WellFormed := wellFormed_check (by decide)
  have numbered := wellFormed.toWellNumbered
  have tree : Dotted.program.OneParent := oneParent_of_check numbered (by decide)
  have names : Dotted.object.chainNames? = some ["a", "b"] := by decide
  obtain ⟨m, hm⟩ := exists_ofProgram wellFormed.toWellNamed "" false
  have ho : Dotted.program.Below Dotted.object :=
    Below.refl.mem_walk (mem_of_getElem? (i := 18) rfl)
  obtain ⟨targets, order, sets, -⟩ := (assignedMembers_of_text numbered tree hm ho names "c").1
  exact ⟨numbered, tree, names, m, hm, targets, order, sets⟩

/-- What is assigned to `a["b.c"]` is found for the property `c` of `a.b`. -/
theorem Dotted.dotted_key_confused : found? = some [.listed 6, .listed 14] ∧
    keyed.chainNames? = some ["a", "b.c"] ∧ object.chainNames? = some ["a", "b"] ∧
    keyed.dotted? = plain.dotted? := by
  decide +kernel

end ScriptAudit
