import ScriptAudit.Proofs.Scope.Inside

/-!
# A model lists its program

The pass over a tree skips a node that it has seen, and with it all that stands below.
-/

namespace ScriptAudit

open Node NodeMap
/-- Each node has a number, no two have the same one, and none has two keys. A node may stand in
several places. -/
structure Node.WellNumbered (root : Node) : Prop where
  numbered : ∀ n, root.Below n → ∃ i, n.number? = some i
  unique : ∀ m n, root.Below m → root.Below n → m.ident = n.ident → m = n
  oneKey : ∀ n, root.Below n → ∀ c d, (.key, some c) ∈ n.links → (.key, some d) ∈ n.links → c = d

namespace Node

variable {n c k : Node} {f : Field}

lemma beq_iff_ident (n k : Node) : (n == k) = true ↔ n.ident = k.ident := by
  simp [BEq.beq, same]

lemma Below.eq_or_link (h : n.Below k) : k = n ∨ ∃ f c, (f, some c) ∈ n.links ∧ c.Below k := by
  induction h with
  | refl => exact .inl rfl
  | link _ hc ih =>
    obtain rfl | ⟨f, d, hd, hk⟩ := ih
    · exact .inr ⟨_, _, hc, .refl⟩
    · exact .inr ⟨f, d, hd, hk.link hc⟩

lemma ident_eq_of_number?_eq {m : Node} {i : Nat} (hm : m.number? = some i) (hn : n.number? = some i) :
    m.ident = n.ident := by
  unfold number? at hm hn
  cases hi : m.ident <;> cases hj : n.ident <;> simp_all

lemma exists_kept_link {root : Node} (hroot : root.WellNumbered) (hn : root.Below n) (hc : (f, some c) ∈ n.links) :
    ∃ g, (g, some c) ∈ n.links ∧ (n.sharesKey && g == .key) = false := by
  cases hdrop : n.sharesKey && f == .key with
  | false => exact ⟨f, hc, hdrop⟩
  | true =>
    simp only [Bool.and_eq_true, beq_iff_eq] at hdrop
    obtain ⟨hshares, rfl⟩ := hdrop
    simp only [sharesKey, Bool.and_eq_true] at hshares
    obtain ⟨-, hsame⟩ := hshares
    split at hsame
    next k v hk hv =>
      have hkey := child?_mem_links hk
      have hval := child?_mem_links hv
      obtain rfl := hroot.oneKey n hn c k hc hkey
      have hid := (beq_iff_ident c v).mp hsame
      obtain rfl := hroot.unique c v (hn.link hkey) (hn.link hval) hid
      exact ⟨.value, hval, by simp⟩
    · cases hsame

lemma Below.walk_sublist {root : Node} (hroot : root.WellNumbered) (hn : root.Below n) (hk : n.Below k) :
    k.walk.Sublist n.walk := by
  induction hk with
  | refl => exact .refl _
  | @link p c f hp hc ih =>
    obtain ⟨g, kept⟩ := exists_kept_link hroot (hn.trans hp) hc
    rw [walk_eq p] at ih
    have listed := List.mem_map_of_mem (f := fun e => e.2.walk) (mem_followed (e := (g, c)).mpr kept)
    exact ((List.sublist_flatten_of_mem listed).cons p).trans ih

lemma mem_walk_of_below {root : Node} (hroot : root.WellNumbered) (hn : root.Below n) (hk : n.Below k) :
    k ∈ n.walk :=
  (hn.walk_sublist hroot hk).mem (mem_walk_iff.mpr (.inl rfl))

end Node

lemma lt_nodeBound {n : Node} {i : Nat} {nodes : List Node} (hn : n ∈ nodes)
    (hi : n.number? = some i) : i < nodeBound nodes := by
  have grows : ∀ (ns : List Node) (start : Nat),
      start ≤ ns.foldl (fun bound n => max bound ((n.number?.getD 0) + 1)) start := by
    intro ns
    induction ns with
    | nil => exact fun start => Nat.le_refl start
    | cons m rest ih => exact fun start => Nat.le_trans (Nat.le_max_left _ _) (ih _)
  have bounded : ∀ (ns : List Node) (start : Nat), n ∈ ns →
      i < ns.foldl (fun bound n => max bound ((n.number?.getD 0) + 1)) start := by
    intro ns
    induction ns with
    | nil => exact fun _ h => by cases h
    | cons m rest ih =>
      intro start hmem
      obtain rfl | hmem := List.mem_cons.mp hmem
      · refine Nat.lt_of_lt_of_le ?_ (grows rest _)
        simp only [hi, Option.getD_some]
        omega
      · exact ih _ hmem
  exact bounded nodes 0 hn

namespace Build

variable {root n : Node} {b c : Build}

def SameNodes (b c : Build) : Prop :=
  c.places = b.places ∧ c.nodes = b.nodes

lemma SameNodes.refl (b : Build) : SameNodes b b := ⟨rfl, rfl⟩

lemma SameNodes.trans {a : Build} (hab : SameNodes a b) (hbc : SameNodes b c) : SameNodes a c :=
  ⟨hbc.1.trans hab.1, hbc.2.trans hab.2⟩

lemma declare_keeps (b : Build) (scope : Nat) (ident : Node) (d : Declaration) :
    (b.declare scope ident d).2.paths = b.paths ∧
      (b.declare scope ident d).2.sharedBodies = b.sharedBodies ∧
      (b.declare scope ident d).2.written = b.written ∧
      (b.declare scope ident d).2.reads = b.reads ∧
      (b.declare scope ident d).2.writes = b.writes ∧
      (b.declare scope ident d).2.globals = b.globals ∧
      (b.declare scope ident d).2.implicitGlobals = b.implicitGlobals ∧
      (b.declare scope ident d).2.declared = b.declared.insert ident () ∧
      (b.declare scope ident d).2.params = b.params ∧
      SameNodes b (b.declare scope ident d).2 := by
  unfold declare
  dsimp only
  split
  · simp [SameNodes]
  · split
    · split <;> simp [SameNodes, addViolation]
    · simp [SameNodes]

lemma sameNodes_declare (b : Build) (scope : Nat) (ident : Node) (d : Declaration) :
    SameNodes b (b.declare scope ident d).2 := by simp [declare_keeps b scope ident d]

lemma sameNodes_enter (b : Build) (n : Node) (path : List (Node × Field)) (scope : Nat) :
    SameNodes b (b.enter n path scope).2 := by
  have hchange {c d : Build} (hcd : Change n n c d) (hc : SameNodes b c) : SameNodes b d := by
    refine hc.trans ?_
    cases hcd with
    | declares _ scope => exact sameNodes_declare c scope _ _
    | _ => exact ⟨rfl, rfl⟩
  exact enter_induction hchange (.refl b) path scope .refl

def Fits {α : Type} (root : Node) (m : NodeMap α) : Prop :=
  ∀ n i, root.Below n → n.number? = some i → i < m.slots.size

section Fits

variable {α : Type} {m : NodeMap α} {a : α} {k : Node}

lemma Fits.insert (h : Fits root m) (n : Node) (a : α) : Fits root (m.insert n a) := by
  intro k i hk hi
  rw [NodeMap.size_insert]
  exact h k i hk hi

lemma Fits.get?_insert_self (h : Fits root m) (numbered : root.WellNumbered) (hn : root.Below n) :
    (m.insert n a).get? n = some a := by
  obtain ⟨i, hi⟩ := numbered.numbered n hn
  exact NodeMap.get?_insert_self hi (h n i hn hi)

lemma get?_insert_of_ne (numbered : root.WellNumbered) (hn : root.Below n) (hk : root.Below k)
    (ne : k ≠ n) : (m.insert n a).get? k = m.get? k := by
  apply NodeMap.get?_insert_of_ne
  intro same
  obtain ⟨i, hi⟩ := numbered.numbered n hn
  exact ne (numbered.unique k n hk hn (ident_eq_of_number?_eq (same.trans hi) hi))

lemma Fits.contains_insert (h : Fits root m) (numbered : root.WellNumbered) (hn : root.Below n)
    (hk : root.Below k) : (m.insert n a).contains k = true ↔ k = n ∨ m.contains k = true := by
  unfold NodeMap.contains
  by_cases eq : k = n
  · subst eq
    simp [h.get?_insert_self numbered hn]
  · simp [get?_insert_of_ne numbered hn hk eq, eq]

end Fits

variable {k : Node} {path : List (Node × Field)} {scope : Nat}

def LeadsUp (root : Node) (b : Build) (nodes : List Node) (n : Node) : List (Node × Field) → Prop
  | [] => n = root
  | (p, f) :: rest => p ∈ nodes ∧ (f, n) ∈ p.children ∧ b.paths.get? p = some rest

/-- What is placed is what is listed, and the path of a node leads up through a node that was listed
before it. -/
structure Traced (root : Node) (b : Build) : Prop where
  places : Fits root b.places
  paths : Fits root b.paths
  below : ∀ n ∈ b.nodes, root.Below n
  placed : ∀ n, root.Below n → (b.places.contains n = true ↔ n ∈ b.nodes)
  leadsUp : ∀ newer n older, b.nodes = newer ++ n :: older →
    ∃ path, b.paths.get? n = some path ∧ b.LeadsUp root older n path

/-- Of the nodes `ns`, those that are new are listed, and what is known of the others is kept. -/
structure Adds (ns : List Node) (b c : Build) : Prop where
  nodes : c.nodes.reverse = addAllNew b.nodes.reverse ns
  paths : ∀ k ∈ b.nodes, c.paths.get? k = b.paths.get? k

lemma LeadsUp.keeps {ns ks : List Node} (h : b.LeadsUp root ns n path) (sub : ∀ k ∈ ns, k ∈ ks)
    (paths : ∀ k ∈ ns, c.paths.get? k = b.paths.get? k) : c.LeadsUp root ks n path := by
  cases path with
  | nil => exact h
  | cons e rest => exact ⟨sub _ h.1, h.2.1, (paths _ h.1).trans h.2.2⟩

lemma Adds.mem {ns : List Node} (h : Adds ns b c) (hk : k ∈ b.nodes) : k ∈ c.nodes := by
  rw [← List.mem_reverse, h.nodes]
  exact mem_addAllNew_of_mem (List.mem_reverse.mpr hk)

lemma Adds.trans {a : Build} {ns ks : List Node} (h : Adds ns a b) (h' : Adds ks b c) : Adds (ns ++ ks) a c := by
  refine ⟨?_, fun k hk => (h'.paths k (h.mem hk)).trans (h.paths k hk)⟩
  rw [h'.nodes, h.nodes, addAllNew, addAllNew, addAllNew, List.foldl_append]

lemma Adds.mem_of_mem {ns : List Node} (h : Adds ns b c) (numbered : root.WellNumbered) (traced : Traced root c)
    (hk : root.Below k) (mem : k ∈ ns) : k ∈ c.nodes := by
  have listed : (addAllNew b.nodes.reverse ns).contains k = true := by
    refine contains_addAllNew (fun k l m hkl hlm => ?_)
      (List.contains_iff_exists_mem_beq.mpr ⟨k, mem, by simp [BEq.beq, same]⟩)
    rw [beq_iff_ident] at hkl hlm ⊢
    exact hkl.trans hlm
  rw [← h.nodes, List.contains_iff_exists_mem_beq] at listed
  obtain ⟨l, hl, same⟩ := listed
  have hl := List.mem_reverse.mp hl
  obtain rfl := numbered.unique k l hk (traced.below l hl) ((beq_iff_ident k l).mp same)
  exact hl

lemma paths_enter (b : Build) (n : Node) (path : List (Node × Field)) (scope : Nat) :
    (b.enter n path scope).2.paths = b.paths := by
  have change {c d : Build} (hcd : Change n n c d) (hc : c.paths = b.paths) : d.paths = b.paths := by
    rw [← hc]
    cases hcd with
    | declares _ scope => exact (declare_keeps c scope _ _).1
    | _ => rfl
  exact enter_induction change rfl path scope .refl

lemma Traced.enter (scope : Nat) (h : Traced root b) (numbered : root.WellNumbered) (hn : root.Below n)
    (fresh : b.places.contains n = false) (leads : b.LeadsUp root b.nodes n path) :
    Traced root ((b.place n path scope).enter n path scope).2 ∧
      Adds [n] b ((b.place n path scope).enter n path scope).2 := by
  obtain ⟨places, nodes⟩ := sameNodes_enter (b.place n path scope) n path scope
  have paths := paths_enter (b.place n path scope) n path scope
  generalize ((b.place n path scope).enter n path scope).2 = c at *
  replace places : c.places = b.places.insert n scope := places
  replace nodes : c.nodes = n :: b.nodes := nodes
  replace paths : c.paths = b.paths.insert n path := paths
  have unlisted : n ∉ b.nodes := fun hmem => by
    rw [(h.placed n hn).mpr hmem] at fresh
    cases fresh
  have kept : ∀ k ∈ b.nodes, c.paths.get? k = b.paths.get? k := by
    intro k hk
    rw [paths, get?_insert_of_ne numbered hn (h.below k hk) fun eq => unlisted (eq ▸ hk)]
  have new : (b.nodes.reverse.contains n) = false := by
    rw [List.contains_eq_any_beq, List.any_eq_false]
    intro k hk same
    have hk := List.mem_reverse.mp hk
    exact unlisted (numbered.unique n k hn (h.below k hk) ((beq_iff_ident n k).mp same) ▸ hk)
  refine ⟨⟨places ▸ h.places.insert n scope, paths ▸ h.paths.insert n path, ?_, ?_, ?_⟩, ?_, kept⟩
  · exact nodes ▸ List.forall_mem_cons.mpr ⟨hn, h.below⟩
  · intro k hk
    rw [places, h.places.contains_insert numbered hn hk, h.placed k hk, nodes, List.mem_cons]
  · intro newer k older hsplit
    rw [nodes] at hsplit
    cases newer with
    | nil =>
      obtain ⟨rfl, rfl⟩ := List.cons.inj hsplit
      exact ⟨path, paths ▸ h.paths.get?_insert_self numbered hn, leads.keeps (fun _ hk => hk) kept⟩
    | cons _ newer =>
      have old := (List.cons.inj hsplit).2
      obtain ⟨path, hpath, leads⟩ := h.leadsUp newer k older old
      refine ⟨path, (kept k (by simp [old])).trans hpath, leads.keeps (fun _ hl => hl) fun l hl => ?_⟩
      exact kept l (by simp [old, hl])
  · rw [nodes, List.reverse_cons]
    simp [addAllNew, addNew, new]

def ClosedBelow (b : Build) (size : Nat) : Prop :=
  ∀ m ∈ b.nodes, sizeOf m < size → ∀ k ∈ m.walk, k ∈ b.nodes

lemma ClosedBelow.adds {size : Nat} (h : b.ClosedBelow size) (numbered : root.WellNumbered) (traced : Traced root c)
    (hn : root.Below n) (adds : Adds n.walk b c) : c.ClosedBelow size := by
  intro m hm hlt k hk
  rw [← List.mem_reverse, adds.nodes] at hm
  rcases mem_or_mem_of_mem_addAllNew hm with hm | hm
  · exact adds.mem (h m (List.mem_reverse.mp hm) hlt k hk)
  · have hbelow : n.Below k := (Node.Below.refl.mem_walk hm).mem_walk hk
    exact adds.mem_of_mem numbered traced (hn.trans hbelow) (mem_walk_of_below numbered hn hbelow)

lemma adds_still {ns : List Node} (h : ∀ k ∈ ns, k ∈ b.nodes) : Adds ns b b := by
  refine ⟨?_, fun _ _ => rfl⟩
  have known : ∀ k ∈ ns, addNew b.nodes.reverse k = b.nodes.reverse := fun k hk =>
    if_pos (List.contains_iff_exists_mem_beq.mpr ⟨k, List.mem_reverse.mpr (h k hk), by simp [BEq.beq, same]⟩)
  exact (List.foldlRecOn (motive := (· = b.nodes.reverse)) ns addNew rfl fun acc hacc k hk => hacc ▸ known k hk).symm

/-- A visit lists what stands below a node in the order of the walk. A node that was listed is
larger than what is visited, or all that stands below it was listed too. -/
lemma Traced.visit (scope : Nat) (h : Traced root b) (numbered : root.WellNumbered) (hn : root.Below n)
    (leads : b.LeadsUp root b.nodes n path) (closed : b.ClosedBelow (sizeOf n + 1)) :
    Traced root (visit path scope n b) ∧ Adds n.walk b (visit path scope n b) := by
  induction hsize : sizeOf n using Nat.strongRecOn generalizing n path scope b with
  | ind size ih =>
    subst hsize
    rw [visit_eq]
    split
    next placed =>
      exact ⟨h, adds_still (closed n ((h.placed n hn).mp placed) (Nat.lt_succ_self _))⟩
    next fresh =>
      obtain ⟨entered, first⟩ := h.enter scope numbered hn (Bool.eq_false_iff.mpr fresh) leads
      generalize ((b.place n path scope).enter n path scope).1 = inner
      have up : ((b.place n path scope).enter n path scope).2.paths.get? n = some path := by
        rw [paths_enter]
        exact h.paths.get?_insert_self numbered hn
      have smaller : ((b.place n path scope).enter n path scope).2.ClosedBelow (sizeOf n) := by
        intro m hm hlt k hk
        rw [(sameNodes_enter (b.place n path scope) n path scope).2] at hm
        rcases List.mem_cons.mp hm with rfl | hm
        · exact absurd hlt (Nat.lt_irrefl _)
        · exact first.mem (closed m hm (Nat.lt_succ_of_lt hlt) k hk)
      have own : n ∈ ((b.place n path scope).enter n path scope).2.nodes := by
        rw [(sameNodes_enter (b.place n path scope) n path scope).2]
        exact List.mem_cons_self
      have children {es : List (Field × Node)} (hes : ∀ e ∈ es, e ∈ followed n.sharesKey n.links) {c : Build}
          (hc : Traced root c) (own : n ∈ c.nodes) (up : c.paths.get? n = some path)
            (smaller : c.ClosedBelow (sizeOf n)) :
          Traced root (es.foldl (fun c e => Build.visit ((n, e.1) :: path) inner e.2 c) c) ∧
            Adds (es.flatMap fun e => e.2.walk) c
              (es.foldl (fun c e => Build.visit ((n, e.1) :: path) inner e.2 c) c) := by
        induction es generalizing c with
        | nil => exact ⟨hc, adds_still (by simp)⟩
        | cons e rest ihes =>
          obtain ⟨he, hrest⟩ := List.forall_mem_cons.mp hes
          have link := mem_followed.mp he
          have hlt := sizeOf_link_lt link.1
          have child : c.LeadsUp root c.nodes e.2 ((n, e.1) :: path) := by
            refine ⟨own, ?_, up⟩
            exact List.mem_filterMap.mpr ⟨_, link.1, by simp [link.2]⟩
          obtain ⟨hd, adds⟩ := ih _ hlt inner hc (hn.link link.1) child (fun m hm hle => smaller m hm (by omega)) rfl
          obtain ⟨last, more⟩ := ihes hrest hd (adds.mem own) ((adds.paths n own).trans up)
            (smaller.adds numbered hd (hn.link link.1) adds)
          exact ⟨last, adds.trans more⟩
      obtain ⟨last, more⟩ := children (fun _ he => he) entered own up smaller
      rw [walk_eq]
      exact ⟨last, first.trans more⟩

lemma traced_visit_root (numbered : root.WellNumbered) :
    Traced root (visit [] 0 root ((start (nodeBound root.walk)).openScope .program root []).2) ∧
      Adds root.walk ((start (nodeBound root.walk)).openScope .program root []).2
        (visit [] 0 root ((start (nodeBound root.walk)).openScope .program root []).2) := by
  have fits {α : Type} : Fits root (NodeMap.empty (nodeBound root.walk) : NodeMap α) := by
    intro m i hm hi
    simp only [NodeMap.empty, Array.size_replicate]
    exact lt_nodeBound (mem_walk_of_below numbered .refl hm) hi
  have traced : Traced root ((start (nodeBound root.walk)).openScope .program root []).2 :=
    ⟨fits, fits, by simp [openScope, start], by simp [openScope, start, contains,
      get?_empty], by simp [openScope, start]⟩
  exact traced.visit 0 numbered .refl rfl (by simp [ClosedBelow, openScope, start])

end Build

namespace Model

variable {root : Node} {source : String} {isModule : Bool} {m : Model}

lemma eq_of_ofProgram (h : ofProgram root source isModule = .ok m) :
    m.root = root ∧ m.nodes = (Build.ofProgram root (nodeBound root.walk)).nodes.reverse ∧
      m.paths = (Build.ofProgram root (nodeBound root.walk)).paths ∧
      m.bindings = (Build.ofProgram root (nodeBound root.walk)).bindings ∧
      m.params = (Build.ofProgram root (nodeBound root.walk)).params := by
  unfold ofProgram at h
  dsimp only at h
  split at h <;> cases h
  exact ⟨rfl, rfl, rfl, rfl, rfl⟩

variable {n : Node}

lemma isUnbound_of_binding? {b : Binding} (h : m.binding? n = some b) : m.isUnbound n = false := by
  obtain ⟨u, hu, -⟩ := Option.bind_eq_some_iff.mp h
  simp [Model.isUnbound, contains, hu]

lemma binding?_of_isUnbound (h : m.isUnbound n = true) : m.binding? n = none := by
  cases hb : m.binding? n with
  | none => rfl
  | some b =>
    rw [isUnbound_of_binding? hb] at h
    cases h

lemma kind_of_isUnbound (h : m.isUnbound n = true) : n.kind = .identifier := by
  simp only [Model.isUnbound, Bool.and_eq_true, beq_iff_eq] at h
  exact h.1.1

end Model

/-! ## Member chains

The chain of a member expression goes on with the chain of its object; any other node is a chain of its own. -/

namespace Node

variable {n o : Node}

lemma objectChain_eq (n : Node) : n.objectChain =
    n :: if n.kind == .memberExpression then ((n.child? .object).map objectChain).getD [] else [] := by
  have object : objectChainAt n.links = ((n.child? .object).map objectChain).getD [] :=
    eq_at_child? n (fun _ _ => rfl) fun _ _ _ => rfl
  rw [← object]
  cases n
  rw [objectChain]
  rfl

lemma objectChain_of_kind_ne (h : n.kind ≠ .memberExpression) : n.objectChain = [n] := by
  rw [objectChain_eq, if_neg (by simpa using h)]

lemma objectChain_member (h : n.kind = .memberExpression) (ho : n.child? .object = some o) :
    n.objectChain = n :: o.objectChain := by
  rw [objectChain_eq, if_pos (by simpa using h), ho]
  rfl

lemma objectChain_bare (h : n.kind = .memberExpression) (ho : n.child? .object = none) : n.objectChain = [n] := by
  rw [objectChain_eq, if_pos (by simpa using h), ho]
  rfl

lemma chain_induction {P : Node → Prop} (root : ∀ n, n.kind ≠ .memberExpression → P n)
    (bare : ∀ n, n.kind = .memberExpression → n.child? .object = none → P n)
    (member : ∀ n o, n.kind = .memberExpression → n.child? .object = some o → P o → P n) (n : Node) : P n := by
  induction hsize : sizeOf n using Nat.strongRecOn generalizing n with
  | ind size ih =>
    by_cases hk : n.kind = .memberExpression
    · cases ho : n.child? .object with
      | none => exact bare n hk ho
      | some o =>
        have smaller : sizeOf o < size := hsize ▸ sizeOf_link_lt (child?_mem_links ho)
        exact member n o hk ho (ih _ smaller o rfl)
    · exact root n hk

end Node

end ScriptAudit
