import ScriptAudit.Proofs.Scope.Entering

/-!
# A model speaks of its program

Every node that the scope model of a program holds stands below the root of the program.
-/

namespace ScriptAudit

open List Node

/-- A binding all of whose nodes stand below `root`. -/
structure Binding.Inside (root : Node) (b : Binding) : Prop where
  identifier : root.Below b.identifier
  declarator : MaybeBelow root b.declarator
  initial : MaybeBelow root b.initial
  function : MaybeBelow root b.function
  fallback : MaybeBelow root b.fallback
  source : MaybeBelow root b.source
  references : NodesBelow root b.references
  violations : NodesBelow root b.violations

namespace Build

/-- What has been gathered speaks only of nodes below `root`. -/
structure Inside (root : Node) (b : Build) : Prop where
  nodes : NodesBelow root b.nodes
  paths : ∀ n p, b.paths.get? n = some p → ∀ e ∈ p, root.Below e.1
  bindings : ∀ (i : Nat) (x : Binding), b.bindings[i]? = some x → x.Inside root
  chains : b.chains.All (NodesBelow root)
  calls : NodesBelow root b.calls
  functions : NodesBelow root b.functions
  reads : ∀ r ∈ b.reads, root.Below r.1
  writes : ∀ w ∈ b.writes, root.Below w.1 ∧ root.Below w.2.1
  globals : b.globals.All (NodesBelow root)
  implicitGlobals : b.implicitGlobals.All (NodesBelow root)

variable {root n ident : Node} {b : Build} {d : Declaration}

lemma inside_start (root : Node) (size : Nat) : (start size).Inside root where
  nodes := by simp [start, NodesBelow]
  paths n p h := by simp [start, NodeMap.get?_empty] at h
  bindings i x h := by simp [start] at h
  chains := Table.all_empty
  calls := by simp [start, NodesBelow]
  functions := by simp [start, NodesBelow]
  reads := by simp [start]
  writes := by simp [start]
  globals := Table.all_empty
  implicitGlobals := Table.all_empty

lemma Declaration.Inside.binding (hd : d.Inside root) (hid : root.Below ident) (uid scope : Nat)
    (name : String) : (d.binding uid scope ident name).Inside root where
  identifier := hid
  declarator := hd.declarator
  initial := by
    unfold Declaration.binding
    split
    · exact hd.initial
    · exact maybeBelow_none
  function := hd.function
  fallback := hd.fallback
  source := by
    unfold Declaration.binding
    split
    · exact maybeBelow_none
    · exact hd.initial
  references := by simp [Declaration.binding, NodesBelow]
  violations := by simp [Declaration.binding, NodesBelow]

lemma inside_modify {xs : Array Binding} {uid : Nat} {f : Binding → Binding}
    (hxs : ∀ (i : Nat) (x : Binding), xs[i]? = some x → x.Inside root)
    (hf : ∀ x : Binding, x.Inside root → (f x).Inside root) :
    ∀ (i : Nat) (x : Binding), (xs.modify uid f)[i]? = some x → x.Inside root := by
  intro i x hx
  rw [Array.getElem?_modify] at hx
  split at hx
  · obtain ⟨y, hy, rfl⟩ := Option.map_eq_some_iff.mp hx
    exact hf y (hxs i y hy)
  · exact hxs i x hx

lemma nodesBelow_append_singleton {ns : List Node} (hns : NodesBelow root ns)
    (hn : root.Below n) : NodesBelow root (ns ++ [n]) := by
  intro m hm
  obtain hm | hm := mem_append.mp hm
  · exact hns m hm
  · obtain rfl := mem_singleton.mp hm
    exact hn

lemma Inside.addViolation (h : b.Inside root) (uid : Nat) (hn : root.Below n) : (b.addViolation uid n).Inside root :=
  { h with
    bindings := inside_modify h.bindings fun _ hx =>
      { hx with violations := nodesBelow_append_singleton hx.violations hn } }

lemma Inside.addReference (h : b.Inside root) (uid : Nat) (hn : root.Below n) : (b.addReference uid n).Inside root :=
  { h with
    bindings := inside_modify h.bindings fun _ hx =>
      { hx with references := nodesBelow_append_singleton hx.references hn } }

lemma Inside.declare (h : b.Inside root) (scope : Nat) (hid : root.Below ident)
    (hd : d.Inside root) : (b.declare scope ident d).2.Inside root := by
  unfold Build.declare
  cases hname : ident.name with
  | none => exact { h with }
  | some name =>
    dsimp only
    split
    · have hwriter : root.Below (d.declarator.getD ident) := by
        cases hdecl : d.declarator with
        | none => exact hid
        | some n => exact hd.declarator n hdecl
      split
      · have hb : Inside root { b with declared := b.declared.insert ident () } := { h with }
        exact { hb.addViolation _ hwriter with }
      · exact { h with }
    · refine { h with bindings := fun i x hx => ?_ }
      rw [Array.getElem?_push] at hx
      split at hx
      · cases hx
        exact hd.binding hid _ _ _
      · exact h.bindings i x hx

lemma Inside.change {c : Build} (hbc : Change root n b c) (hn : root.Below n) (h : b.Inside root) : c.Inside root := by
  cases hbc with
  | declares _ scope _ hid hd => exact h.declare scope hid hd
  | writes _ scope _ htgt => exact { h with writes := forall_mem_cons.mpr ⟨⟨htgt, hn⟩, h.writes⟩ }
  | reads => exact { h with reads := forall_mem_cons.mpr ⟨hn, h.reads⟩ }
  | chains => exact { h with chains := h.chains.push hn }
  | calls => exact { h with calls := forall_mem_cons.mpr ⟨hn, h.calls⟩ }
  | functions => exact { h with functions := forall_mem_cons.mpr ⟨hn, h.functions⟩ }
  | _ => exact { h with }

lemma Inside.place (h : b.Inside root) {path : List (Node × Field)} (scope : Nat) (hn : root.Below n)
    (hpath : ∀ e ∈ path, root.Below e.1) : (b.place n path scope).Inside root := by
  refine { h with nodes := forall_mem_cons.mpr ⟨hn, h.nodes⟩, paths := fun m p hp => ?_ }
  obtain rfl | hp := NodeMap.eq_or_get?_of_get?_insert hp
  · exact hpath
  · exact h.paths m p hp

lemma Inside.resolveRead (h : b.Inside root) {read : Node × Nat} (hr : root.Below read.1) :
    (b.resolveRead read).Inside root := by
  unfold Build.resolveRead
  dsimp only
  split
  · exact { h with }
  · split
    · exact { h.addReference _ hr with }
    · exact { h with globals := h.globals.push hr }

lemma Inside.resolveWrite (h : b.Inside root) {write : Node × Node × Nat}
    (hw : root.Below write.2.1) : (b.resolveWrite write).Inside root := by
  unfold Build.resolveWrite
  dsimp only
  split
  · exact { h with }
  · split
    · exact { h.addViolation _ hw with }
    · exact { h with implicitGlobals := h.implicitGlobals.push hw }

lemma inside_ofProgram (root : Node) (size : Nat) : (ofProgram root size).Inside root := by
  have visited : (Build.visit [] 0 root ((start size).openScope .program root []).2).Inside root :=
    have kept : Kept root (Inside root) := fun b n path scope hn hpath h =>
      enter_induction (fun hbc hb => hb.change hbc hn) (h.place scope hn hpath) path scope hn
    kept.visit 0 .refl (by simp) { inside_start root size with }
  unfold ofProgram
  dsimp only
  generalize Build.visit [] 0 root _ = b at visited
  have reads : (b.reads.reverse.foldl Build.resolveRead b).Inside root :=
    List.foldlRecOn _ _ visited fun c hc r hr => hc.resolveRead (visited.reads r (mem_reverse.mp hr))
  exact List.foldlRecOn _ _ reads fun c hc w hw => hc.resolveWrite (reads.writes w (mem_reverse.mp hw)).2

end Build

end ScriptAudit
