import ScriptAudit.Proofs.Tables
import ScriptAudit.Proofs.Tree.Below

/-!
# What entering a node can do

What the few kinds of changes keep that entering a node makes is kept by the pass over the tree.
-/

namespace ScriptAudit

open Node List

abbrev NodesBelow (root : Node) (ns : List Node) : Prop := ∀ n ∈ ns, root.Below n

def MaybeBelow (root : Node) (n : Option Node) : Prop :=
  ∀ m, n = some m → root.Below m

lemma maybeBelow_none {root : Node} : MaybeBelow root none := by
  intro m hm
  cases hm

lemma maybeBelow_some {root n : Node} : MaybeBelow root (some n) ↔ root.Below n := by
  simp [MaybeBelow]

def Node.Names (n ident : Node) : Prop :=
  ident.kind = .identifier ∨
    ((n.kind.isFunction = true ∨ n.kind = .classDeclaration) ∧ n.child? .id = some ident) ∨
    n.kind = .importDeclaration ∧ ∃ spec ∈ n.list .specifiers, spec.child? .localName = some ident

namespace Build

/-- A declaration all of whose nodes stand below `root`. -/
structure Declaration.Inside (root : Node) (d : Declaration) : Prop where
  declarator : MaybeBelow root d.declarator
  initial : MaybeBelow root d.initial
  function : MaybeBelow root d.function
  fallback : MaybeBelow root d.place.fallback

/-- One change that entering the node `n` of a program can make. -/
inductive Change (root n : Node) : Build → Build → Prop
  | opens (b : Build) (sort : ScopeSort) (node : Node) (outer : List Nat) :
      Change root n b (b.openScope sort node outer).2
  | declares (b : Build) (scope : Nat) {ident : Node} {d : Declaration} : n.Names ident → root.Below ident →
      d.Inside root → Change root n b (b.declare scope ident d).2
  | shares (b : Build) (body : Node) : Change root n b (b.shareBody body)
  | writes (b : Build) (scope : Nat) {target : Node} : target.kind = .identifier → root.Below target →
      Change root n b (b.noteWrite scope n target)
  | reads (b : Build) (scope : Nat) : n.kind = .identifier → Change root n b { b with reads := (n, scope) :: b.reads }
  | chains (b : Build) (chain : String) : n.kind = .memberExpression →
      Change root n b { b with chains := b.chains.push chain n }
  | calls (b : Build) : Change root n b { b with calls := n :: b.calls }
  | functions (b : Build) : Change root n b (b.noteFunction n)
  | functionScopes (b : Build) (scope : Nat) : Change root n b (b.noteFunctionScope n scope)
  | params (b : Build) (scope : Nat) : Change root n (b.declareParams scope n).2
      ((b.declareParams scope n).2.noteParams n (b.declareParams scope n).1)

variable {root n : Node} {b : Build}

section Entering

variable {I : Build → Prop} (hI : ∀ {b c : Build}, Change root n b c → I b → I c)
include hI

lemma declarePattern_ind (h : I b) (scope : Nat) {pattern : Node} (hpat : root.Below pattern)
    {d : Declaration} (hd : d.Inside root) : I (b.declarePattern scope pattern d).2 := by
  refine foldlRecOn (motive := fun acc : List Nat × Build => I acc.2) _ _ h fun acc hacc t ht => ?_
  obtain ⟨⟨hident, hplace⟩, hkind⟩ := hpat.mem_targets (fun _ he => by cases he) ht
  exact hI (.declares acc.2 scope (.inl hkind) hident ⟨hd.declarator, hd.initial, hd.function, hplace⟩) hacc

lemma declareParams_induction (h : I b) (scope : Nat) (hn : root.Below n) : I (b.declareParams scope n).2 := by
  refine foldlRecOn (motive := fun acc : List Nat × Build => I acc.2) _ _ h fun acc hacc p hp => ?_
  refine declarePattern_ind hI hacc scope (hn.mem_list (fst_mem_of_mem_zipIdx hp)) ?_
  exact ⟨maybeBelow_some.mpr hn, maybeBelow_none, maybeBelow_some.mpr hn, maybeBelow_none⟩

lemma declare_induction (h : I b) (scope : Nat) (hn : root.Below n) {ident : Node} (hid : n.child? .id = some ident)
    (hkind : n.kind.isFunction = true ∨ n.kind = .classDeclaration) (sort : BindingSort) :
    I (b.declare scope ident { sort := sort, declarator := n, initial := n }).2 :=
  hI (.declares b scope (.inr (.inl ⟨hkind, hid⟩)) (hn.child? hid)
    ⟨maybeBelow_some.mpr hn, maybeBelow_some.mpr hn, maybeBelow_none, maybeBelow_none⟩) h

lemma declareFunctionName_ind (h : I b) (kind : Kind) (scope : Nat) (hn : root.Below n)
    (hfun : n.kind.isFunction = true) : I (b.declareFunctionName n kind scope) := by
  unfold declareFunctionName
  split
  next ident hid =>
    split
    · exact declare_induction hI h scope hn hid (.inl hfun) _
    · exact h
  · exact h

lemma enterFunction_induction (h : I b) (scope : Nat) (hn : root.Below n) (hfun : n.kind.isFunction = true) :
    I (b.enterFunction n scope).2 := by
  have hshared (c : Build) (hc : I c) : I (c.shareFunctionBody n) := by
    unfold shareFunctionBody
    split
    · split
      · exact hI (.shares c _) hc
      · exact hc
    · exact hc
  refine hshared _ (hI (.params _ _) (declareParams_induction hI ?_ _ hn))
  refine declareFunctionName_ind hI ?_ _ _ hn hfun
  refine hI (.functionScopes _ _) (hI (.opens _ _ _ _) ?_)
  exact declareFunctionName_ind hI (hI (.functions b) h) _ _ hn hfun

lemma enterCatch_induction (h : I b) (scope : Nat) (hn : root.Below n) : I (b.enterCatch n scope).2 := by
  have hopen := hI (.opens b .caught n (b.scopeChain scope)) h
  unfold enterCatch
  cases hp : n.child? .param with
  | none =>
    cases n.child? .body with
    | none => exact hopen
    | some body => exact hI (.shares _ body) hopen
  | some p =>
    have hdecl := declarePattern_ind hI hopen (b.openScope .caught n (b.scopeChain scope)).1
      (hn.child? hp) (d := { sort := .caught, declarator := n })
      ⟨maybeBelow_some.mpr hn, maybeBelow_none, maybeBelow_none, maybeBelow_none⟩
    cases n.child? .body with
    | none => exact hdecl
    | some body => exact hI (.shares _ body) hdecl

lemma noteLeft_induction (h : I b) (scope : Nat) (hn : root.Below n) : I (b.noteLeft n scope) := by
  unfold noteLeft
  split
  next left hleft =>
    refine foldlRecOn _ _ h fun c hc target ht => ?_
    obtain ⟨hbelow, hkind⟩ := (hn.child? hleft).mem_writtenNames ht
    exact hI (.writes c scope hkind hbelow) hc
  · exact h

lemma noteNode_induction (h : I b) (path : List (Node × Field)) (scope : Nat) (hn : root.Below n) :
    I (b.noteNode n path scope) := by
  unfold noteNode
  split
  · refine foldlRecOn _ _ h fun c hc d hd => ?_
    have hd := hn.mem_list hd
    split
    next pattern hid =>
      refine declarePattern_ind hI hc _ (hd.child? hid) ?_
      exact ⟨maybeBelow_some.mpr hd, fun v hv => hd.child? hv, maybeBelow_none, maybeBelow_none⟩
    · exact hc
  next hkind =>
    split
    next ident hid => exact declare_induction hI h scope hn hid (.inr hkind) _
    · exact h
  next hkind =>
    refine foldlRecOn _ _ h fun c hc spec hspec => ?_
    split
    next ident hid =>
      have hbelow := hn.mem_list hspec
      refine hI (.declares c 0 (.inr (.inr ⟨hkind, spec, hspec, hid⟩)) (hbelow.child? hid) ?_) hc
      exact ⟨maybeBelow_some.mpr hbelow, maybeBelow_none, maybeBelow_none, maybeBelow_none⟩
    · exact hc
  iterate 3 exact noteLeft_induction hI h scope hn
  · split
    next a ha =>
      split
      next hkind => exact hI (.writes b scope (by simpa using hkind) (hn.child? ha)) h
      · exact h
    · exact h
  next hkind =>
    split
    · exact hI (.reads b scope hkind) h
    · exact h
  next hkind =>
    split
    · exact hI (.chains b _ hkind) h
    · exact h
  iterate 2 exact hI (.calls b) h
  · exact h

lemma enter_induction (h : I b) (path : List (Node × Field)) (scope : Nat) (hn : root.Below n) :
    I (b.enter n path scope).2 := by
  unfold enter
  split
  next hfun => exact enterFunction_induction hI h scope hn hfun
  · split
    · exact hI (.opens b _ n _) h
    · split
      · exact enterCatch_induction hI h scope hn
      · exact noteNode_induction hI h path scope hn

end Entering

def Kept (root : Node) (I : Build → Prop) : Prop :=
  ∀ (b : Build) (n : Node) (path : List (Node × Field)) (scope : Nat), root.Below n → (∀ e ∈ path, root.Below e.1) →
    I b → I ((b.place n path scope).enter n path scope).2

lemma visitLinks_eq (parent : Node) (path : List (Node × Field)) (dropKey : Bool) (scope : Nat) (ls : List Link)
    (b : Build) : visitLinks parent path dropKey scope ls b =
      (followed dropKey ls).foldl (fun b e => visit ((parent, e.1) :: path) scope e.2 b) b := by
  fun_induction followed dropKey ls generalizing b with
  | case1 => rw [visitLinks, foldl_nil]
  | case2 rest f c hdrop ih => rw [visitLinks, if_pos hdrop, ih]
  | case3 rest f c hkept ih => rw [visitLinks, if_neg hkept, ih, foldl_cons]
  | case4 rest f ih => rw [visitLinks, ih]

lemma visit_eq (path : List (Node × Field)) (scope : Nat) (n : Node) (b : Build) : visit path scope n b =
    if b.places.contains n then b else (followed n.sharesKey n.links).foldl
      (fun c e => visit ((n, e.1) :: path) ((b.place n path scope).enter n path scope).1 e.2 c)
      ((b.place n path scope).enter n path scope).2 := by
  cases n
  simp only [visit, visitLinks_eq]
  rfl

lemma Kept.visit {I : Build → Prop} (hI : Kept root I) {path : List (Node × Field)} (scope : Nat) {b : Build}
    (hn : root.Below n) (hpath : ∀ e ∈ path, root.Below e.1) (hb : I b) : I (visit path scope n b) := by
  induction hsize : sizeOf n using Nat.strongRecOn generalizing n path scope b with
  | ind size ih =>
    rw [visit_eq]
    split
    · exact hb
    · refine foldlRecOn _ _ (hI b n path scope hn hpath hb) fun b hb e he => ?_
      have hc := (mem_followed.mp he).1
      exact ih _ (hsize ▸ sizeOf_link_lt hc) _ (hn.link hc) (forall_mem_cons.mpr ⟨hn, hpath⟩) hb rfl

end Build

end ScriptAudit
