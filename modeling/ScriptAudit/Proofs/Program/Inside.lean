import ScriptAudit.Proofs.Scope.Listed
import ScriptAudit.Resolve.Owner

/-!
# Facts speak of their program

All that can be read off a model or off the index of globals stands below the root of the program.
-/

namespace ScriptAudit

open List Node Option

namespace Model

/-- A model that speaks only of nodes of its program. -/
structure Inside (m : Model) : Prop where
  nodes : NodesBelow m.root m.nodes
  paths : ∀ n p, m.paths.get? n = some p → ∀ e ∈ p, m.root.Below e.1
  bindings : ∀ (i : Nat) (b : Binding), m.bindings[i]? = some b → b.Inside m.root
  chains : m.chains.All (NodesBelow m.root)
  calls : NodesBelow m.root m.calls
  globals : m.globals.All (NodesBelow m.root)

lemma inside_ofProgram {root : Node} {source : String} {isModule : Bool} {m : Model}
    (h : ofProgram root source isModule = .ok m) : m.Inside := by
  have hbuild := Build.inside_ofProgram root (nodeBound root.walk)
  unfold ofProgram at h
  dsimp only at h
  split at h <;> cases h
  exact {
    nodes := fun n hn => hbuild.nodes n (mem_reverse.mp hn)
    paths := hbuild.paths
    bindings := hbuild.bindings
    chains := hbuild.chains
    calls := fun n hn => hbuild.calls n (mem_reverse.mp hn)
    globals := hbuild.globals }

variable {m : Model} {n p : Node}

section

variable (h : m.Inside)
include h

lemma Inside.path {e : Node × Field} (he : e ∈ m.path n) : m.root.Below e.1 := by
  unfold Model.path at he
  cases hpath : m.paths.get? n with
  | none => simp [hpath] at he
  | some path =>
    rw [hpath] at he
    exact h.paths n path hpath e he

lemma Inside.parent? (hp : m.parent? n = some p) : m.root.Below p := by
  obtain ⟨e, he, rfl⟩ := map_eq_some_iff.mp hp
  exact h.path (mem_of_mem_head? he)

lemma Inside.grandparent? (hp : m.grandparent? n = some p) : m.root.Below p := by
  obtain ⟨e, he, rfl⟩ := map_eq_some_iff.mp hp
  exact h.path (mem_of_getElem? he)

lemma Inside.ancestors (hp : p ∈ m.ancestors n) : m.root.Below p := by
  obtain ⟨e, he, rfl⟩ := mem_map.mp hp
  exact h.path he

lemma Inside.enclosingFunction? (hp : m.enclosingFunction? n = some p) : m.root.Below p :=
  h.ancestors (mem_of_find?_eq_some hp)

lemma Inside.thisFunction? (hp : m.thisFunction? n = some p) : m.root.Below p := h.ancestors (mem_of_find?_eq_some hp)

lemma Inside.holder? {kind : Kind} {field : Field} (hp : ((m.parent? n).bind fun q =>
    if q.kind == kind && q.holds field n then some q else none) = some p) : m.root.Below p := by
  obtain ⟨q, hq, hp⟩ := bind_eq_some_iff.mp hp
  split at hp <;> cases hp
  exact h.parent? hq

lemma Inside.assignmentTo? (hp : m.assignmentTo? n = some p) : m.root.Below p := h.holder? hp

lemma Inside.memberOf? (hp : m.memberOf? n = some p) : m.root.Below p := h.holder? hp

lemma Inside.calledBy? (hp : m.calledBy? n = some p) : m.root.Below p := h.holder? hp

lemma Inside.holder?_eq_some_iff (unique : ∀ k l, m.root.Below k → m.root.Below l → k.ident = l.ident → k = l)
    (hn : m.root.Below n) (kind : Kind) (field : Field) :
    ((m.parent? n).bind fun q => if q.kind == kind && q.holds field n then some q else none) = some p ↔
      m.parent? n = some p ∧ p.kind = kind ∧ p.child? field = some n := by
  have hholds (q : Node) (hq : m.parent? n = some q) : q.holds field n = true ↔ q.child? field = some n := by
    unfold holds
    cases hd : q.child? field with
    | none => simp
    | some d =>
      rw [beq_iff_ident, some.injEq]
      exact ⟨unique d n ((h.parent? hq).child? hd) hn, fun h => h ▸ rfl⟩
  rw [bind_eq_some_iff]
  constructor
  · rintro ⟨q, hq, hp⟩
    split at hp
    next hkind =>
      cases hp
      rw [Bool.and_eq_true, beq_iff_eq, hholds p hq] at hkind
      exact ⟨hq, hkind⟩
    · cases hp
  · rintro ⟨hp, hkind, hchild⟩
    refine ⟨p, hp, if_pos ?_⟩
    rw [Bool.and_eq_true, beq_iff_eq, hholds p hp]
    exact ⟨hkind, hchild⟩

lemma Inside.memberAssignment? {a : Node} (hp : m.memberAssignment? n = some (p, a)) :
    m.root.Below p ∧ m.root.Below a := by
  obtain ⟨q, hq, hp⟩ := bind_eq_some_iff.mp hp
  obtain ⟨a', ha, heq⟩ := map_eq_some_iff.mp hp
  cases heq
  exact ⟨h.memberOf? hq, h.assignmentTo? ha⟩

end

variable {b : Binding}

lemma Inside.binding? (h : m.Inside) (hb : m.binding? n = some b) : b.Inside m.root := by
  obtain ⟨i, -, hb⟩ := bind_eq_some_iff.mp hb
  exact h.bindings i b hb

lemma Inside.rootBinding? (h : m.Inside) (hb : m.rootBinding? n = some b) : b.Inside m.root := by
  unfold Model.rootBinding? at hb
  split at hb
  · exact h.binding? hb
  · cases hb

lemma Inside.paramsOf (h : m.Inside) (hb : b ∈ m.paramsOf n) : b.Inside m.root := by
  obtain ⟨i, -, hb⟩ := mem_filterMap.mp hb
  exact h.bindings i b hb

lemma Inside.scopeBindings (h : m.Inside) {s : Scope} (hb : b ∈ m.scopeBindings s) : b.Inside m.root := by
  obtain ⟨i, -, hb⟩ := mem_filterMap.mp hb
  exact h.bindings i b hb

lemma Inside.mem_globals (h : m.Inside) {name : String} (hn : n ∈ m.globals.getD name []) : m.root.Below n :=
  h.globals.mem_getD hn

lemma below_of_mem_returnsOf {root f : Node} (hf : root.Below f) (hn : n ∈ returnsOf f) : root.Below n := by
  unfold returnsOf at hn
  split at hn
  · cases hn
  next body hbody =>
    have hbody := hf.bodyNode? hbody
    split at hn
    · obtain ⟨r, hr, hn⟩ := mem_filterMap.mp hn
      split at hn
      · exact (hbody.mem_walkOwn hr).child? hn
      · cases hn
    · obtain rfl := mem_singleton.mp hn
      exact hbody

lemma Inside.mem_assignedMembers (h : m.Inside) {object : Node} {property : String}
    (hn : n ∈ m.assignedMembers object property) : m.root.Below n := by
  unfold Model.assignedMembers at hn
  split at hn
  · cases hn
  · obtain ⟨member, hmem, hn⟩ := mem_filterMap.mp hn
    split at hn
    · cases hn
    · obtain ⟨assign, hassigned, hn⟩ := bind_eq_some_iff.mp hn
      split at hn
      · exact (h.assignmentTo? hassigned).child? hn
      · cases hn

lemma Inside.memberAssignments (h : m.Inside) : (m.memberAssignments b).All m.root.Below := by
  refine List.foldlRecOn _ _ Table.all_empty fun t ht ref _ => ?_
  split
  · exact ht
  · split
    next hassigned =>
      split
      · split
        next hval => exact ht.insertNew ((h.assignmentTo? hassigned).child? hval)
        · exact ht
      · exact ht
    · exact ht

end Model

namespace Globals

/-- An index of the globals of a model whose definitions and reads are nodes of the program. -/
structure Inside (m : Model) (g : Globals) : Prop where
  model : g.model = m
  entries : g.entries.All fun es => ∀ e ∈ es, m.root.Below e.definition
  memberReads : g.memberReads.All (NodesBelow m.root)

variable {m : Model} {n : Node} {g : Globals} {name : String}

lemma Inside.define (h : g.Inside m) (name : String) (hn : m.root.Below n) (via : Via) :
    (g.define name n via).Inside m := by
  unfold Globals.define
  split
  · exact h
  · exact { h with entries := h.entries.push hn }

lemma Inside.export_ (h : g.Inside m) (name : String) (n : Node) : (g.export_ name n).Inside m := by
  unfold Globals.export_
  split
  · exact h
  · exact { h with }

/-! Noting a node comes down to definitions by what stands below it, exports and reads. -/

section Noting

variable {P : Globals → Prop} (exports : ∀ {g : Globals} name n, P g → P (g.export_ name n))
include exports

lemma noteExport_induction (h : P g) : P (g.noteExport n) := by
  unfold Globals.noteExport
  dsimp only
  split
  · split
    · exact exports _ _ h
    · exact h
  · refine List.foldlRecOn _ _ ?_ fun g hg spec _ => ?_
    · split
      · split
        iterate 2 split <;> first | exact h | exact exports _ _ h
        · refine List.foldlRecOn _ _ h fun g hg declarator _ => ?_
          repeat' split
          all_goals first | exact hg | exact exports _ _ hg
        · exact h
      · exact h
    · split
      · split
        · exact exports _ _ hg
        · exact hg
      · exact hg

lemma noteNode_induction (defines : ∀ {g : Globals} {k} name via, n.Below k → P g → P (g.define name k via))
    (reads : ∀ {g : Globals} name, P g → P { g with memberReads := g.memberReads.push name n }) (h : P g) :
    P (g.noteNode n) := by
  unfold Globals.noteNode
  split
  · split
    · unfold noteAssignment
      split
      next left right _ hright =>
        have below := Node.Below.refl.child? hright
        repeat' split
        all_goals first | exact h | exact defines _ _ below h | exact exports _ _ h
      · exact h
    · exact h
  iterate 2 exact noteExport_induction exports h
  · split
    · exact reads _ h
    · exact h
  · exact h

end Noting

lemma Inside.noteNode (h : g.Inside m) (hn : m.root.Below n) : (g.noteNode n).Inside m :=
  noteNode_induction (fun name n h => h.export_ name n) (fun name via hk h => h.define name (hn.trans hk) via)
    (fun _ h => { h with memberReads := h.memberReads.push hn }) h

lemma Inside.noteDeclarations (h : g.Inside m) (hm : m.Inside) : (g.noteDeclarations).Inside m := by
  unfold Globals.noteDeclarations
  split
  · refine List.foldlRecOn _ _ h fun g' hg' b hb => ?_
    rw [h.model] at hb
    have hb := hm.scopeBindings hb
    split
    next hval => exact hg'.define _ (hb.initial _ hval) _
    next hval => exact hg'.define _ (hb.initial _ hval) _
    · exact hg'
  · exact h

lemma inside_ofModel (hm : m.Inside) : (ofModel m).Inside m := by
  have hstart : Inside m { model := m, aliases := m.globalAliases } := ⟨rfl, Table.all_empty, Table.all_empty⟩
  have hnodes : (m.nodes.foldl noteNode { model := m, aliases := m.globalAliases }).Inside m :=
    List.foldlRecOn _ _ hstart fun g hg n hn => hg.noteNode (hm.nodes n hn)
  exact hnodes.noteDeclarations hm

lemma Inside.mem_lookup (h : g.Inside m) {e : GlobalEntry} (he : e ∈ g.lookup name) : m.root.Below e.definition :=
  h.entries.mem_getD he

lemma Inside.mem_memberReads (h : g.Inside m) (hn : n ∈ g.memberReads.getD name []) : m.root.Below n :=
  h.memberReads.mem_getD hn

lemma Inside.mem_reads (h : g.Inside m) (hm : m.Inside) (hn : n ∈ g.reads name) : m.root.Below n := by
  obtain hn | hn := mem_append.mp hn
  · rw [h.model] at hn
    exact hm.mem_globals hn
  · exact h.mem_memberReads hn

end Globals

end ScriptAudit
