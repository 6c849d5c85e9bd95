import ScriptAudit.Proofs.Scope.Effects

/-!
# The pass over a program, visit by visit

`Scanned` is what has been gathered after some visits, each on the way from a node up to the root.
-/

namespace ScriptAudit.Build

open Node NodeMap

variable {root n p k : Node} {b c : Build} {path : List (Node × Field)} {scope size : Nat}

def Located (b : Build) : List (Node × Field) → Nat → Prop
  | [], scope => scope = 0
  | (p, _) :: rest, scope => ∃ around o, b.paths.get? p = some rest ∧ b.places.get? p = some around ∧
      b.outlines[around]? = some o ∧
      match p.opened? (rest.head?.map (·.1)) with
      | some sort => 0 < scope ∧ b.outlines[scope]? = some ⟨sort, p, scope :: o.chain⟩
      | none => scope = around

def scan (b : Build) (n : Node) (path : List (Node × Field)) (scope : Nat) : Build :=
  ((b.place n path scope).effects n path scope).foldl apply (b.place n path scope)

/-- What can be gathered by visits, each of a node that was not visited before. -/
inductive Scanned (root : Node) (size : Nat) : Build → Prop
  | start : Scanned root size ((start size).openScope .program root []).2
  | visit {b : Build} {n : Node} {path : List (Node × Field)} {scope : Nat} : Scanned root size b → root.Way path n →
      b.Located path scope → b.places.contains n = false → Scanned root size (b.scan n path scope)

@[simp] lemma nodes_scan : (b.scan n path scope).nodes = n :: b.nodes := nodes_foldl _ _

@[simp] lemma places_scan : (b.scan n path scope).places = b.places.insert n scope :=
  (foldl_apply_keeps _ _).2.1

@[simp] lemma paths_scan : (b.scan n path scope).paths = b.paths.insert n path :=
  (foldl_apply_keeps _ _).2.2.1

lemma outlines_scan : (b.scan n path scope).outlines =
    b.outlines ++ (b.opening? n).toList.map fun sort => ⟨sort, n, b.scopes.size :: b.scopeChain scope⟩ :=
  outlines_foldl_effects (b.place n path scope) n path scope

lemma outlines_scan_get? {u : Nat} {o : Outline} :
    (b.scan n path scope).outlines[u]? = some o ↔ b.outlines[u]? = some o ∨
      ∃ sort, b.opening? n = some sort ∧ u = b.scopes.size ∧ o = ⟨sort, n, u :: b.scopeChain scope⟩ := by
  rw [outlines_scan]
  cases opening : b.opening? n with
  | none => simp
  | some sort =>
    rw [Option.toList_some, List.map_singleton, List.getElem?_append, length_outlines]
    split
    next old => simp [Nat.ne_of_lt old]
    next new =>
      have none : b.outlines[u]? = none := List.getElem?_eq_none (by simpa using new)
      rw [none, List.getElem?_singleton]
      by_cases eq : u = b.scopes.size
      · simp [eq, eq_comm]
      · have : u - b.scopes.size ≠ 0 := by omega
        simp [eq, this]

/-- A program whose nodes have numbers below a bound and stand in one place each. -/
structure Scannable (root : Node) (size : Nat) : Prop where
  numbered : root.WellNumbered
  tree : root.OneParent
  room : ∀ n i, root.Below n → n.number? = some i → i < size

def sizes (b : Build) : List Nat :=
  [b.places.slots.size, b.paths.slots.size, b.declared.slots.size, b.written.slots.size,
    b.sharedBodies.slots.size, b.bound.slots.size]

lemma sizes_apply (b : Build) (e : Effect) : (b.apply e).sizes = b.sizes := by
  cases e with
  | declares scope ident d =>
    have bound : (b.declare scope ident d).2.bound.slots.size = b.bound.slots.size := by
      unfold declare
      dsimp only
      split
      · rfl
      · split
        · split <;> exact size_insert
        · exact size_insert
    have keeps := declare_keeps b scope ident d
    simp [sizes, apply, keeps, bound, (sameNodes_declare b scope ident d).1, size_insert]
  | _ => simp [sizes, apply, openScope, shareBody, noteWrite, size_insert]

lemma Scanned.sizes (h : Scanned root size b) : b.sizes = List.replicate 6 size := by
  induction h with
  | start => simp [Build.sizes, openScope, Build.start, empty]
  | visit _ _ _ _ ih =>
    rw [scan, foldl_apply_of_keeps Build.sizes sizes_apply, ← ih]
    simp [Build.sizes, place, size_insert]

/-- There is room for every node of the program. -/
structure Roomy (root : Node) (b : Build) : Prop where
  places : Fits root b.places
  paths : Fits root b.paths
  declared : Fits root b.declared
  written : Fits root b.written
  sharedBodies : Fits root b.sharedBodies
  bound : Fits root b.bound

lemma Scanned.roomy (ok : Scannable root size) (h : Scanned root size b) : Roomy root b := by
  have sizes := h.sizes
  simp only [Build.sizes, List.replicate, List.cons.injEq] at sizes
  obtain ⟨places, paths, declared, written, shared, bound, -⟩ := sizes
  constructor <;> intro n i hn hi
  · exact places ▸ ok.room n i hn hi
  · exact paths ▸ ok.room n i hn hi
  · exact declared ▸ ok.room n i hn hi
  · exact written ▸ ok.room n i hn hi
  · exact shared ▸ ok.room n i hn hi
  · exact bound ▸ ok.room n i hn hi

lemma Scanned.below_of_mem (h : Scanned root size b) (hk : k ∈ b.nodes) : root.Below k := by
  induction h with
  | start => cases hk
  | visit _ way _ _ ih =>
    rw [nodes_scan] at hk
    rcases List.mem_cons.mp hk with rfl | hk
    · exact way.below_root
    · exact ih hk

lemma Scanned.placed_iff (ok : Scannable root size) (h : Scanned root size b) (hk : root.Below k) :
    b.places.contains k = true ↔ k ∈ b.nodes := by
  induction h with
  | start => simp [openScope, Build.start, contains, get?_empty]
  | visit h way _ _ ih =>
    rw [places_scan, (h.roomy ok).places.contains_insert ok.numbered way.below_root hk, ih, nodes_scan, List.mem_cons]

/-- What has been placed stays where it is, and scopes that are open stay as they are. -/
structure Keeps (b c : Build) : Prop where
  places : ∀ k, b.places.contains k = true → c.places.get? k = b.places.get? k
  paths : ∀ k, b.places.contains k = true → c.paths.get? k = b.paths.get? k
  outlines : b.outlines <+: c.outlines

lemma Keeps.refl (b : Build) : Keeps b b := ⟨fun _ _ => rfl, fun _ _ => rfl, List.prefix_refl _⟩

lemma Keeps.contains (h : Keeps b c) (hk : b.places.contains k = true) : c.places.contains k = true := by
  unfold NodeMap.contains
  rwa [h.places k hk]

lemma Keeps.trans {a : Build} (h : Keeps a b) (h' : Keeps b c) : Keeps a c where
  places k hk := (h'.places k (h.contains hk)).trans (h.places k hk)
  paths k hk := (h'.paths k (h.contains hk)).trans (h.paths k hk)
  outlines := h.outlines.trans h'.outlines

lemma keeps_scan (fresh : b.places.contains n = false) : Keeps b (b.scan n path scope) := by
  have other : ∀ k, b.places.contains k = true → k.number? ≠ n.number? := by
    intro k hk same
    have : b.places.contains k = b.places.contains n := by
      unfold contains get?
      rw [same]
    rw [this, fresh] at hk
    cases hk
  refine ⟨fun k hk => ?_, fun k hk => ?_, ?_⟩
  · rw [places_scan, NodeMap.get?_insert_of_ne (other k hk)]
  · rw [paths_scan, NodeMap.get?_insert_of_ne (other k hk)]
  · rw [outlines_scan]
    exact List.prefix_append _ _

lemma getElem?_mono {α : Type} {xs ys : List α} (h : xs <+: ys) {i : Nat} {a : α}
    (hi : xs[i]? = some a) : ys[i]? = some a := by
  obtain ⟨more, rfl⟩ := h
  rw [List.getElem?_append_left (List.getElem?_eq_some_iff.mp hi).1]
  exact hi

lemma Located.keeps (h : b.Located path scope) (hbc : Keeps b c) : c.Located path scope := by
  cases path with
  | nil => exact h
  | cons e rest =>
    obtain ⟨around, o, up, place, outline, opened⟩ := h
    have placed : b.places.contains e.1 = true := by simp [contains, place]
    refine ⟨around, o, ?_, ?_, getElem?_mono hbc.outlines outline, ?_⟩
    · rw [hbc.paths _ placed, up]
    · rw [hbc.places _ placed, place]
    · split at opened
      next sort => exact ⟨opened.1, getElem?_mono hbc.outlines opened.2⟩
      next => exact opened

lemma Scanned.shared_iff (ok : Scannable root size) (h : Scanned root size b) (hk : root.Below k) :
    b.sharedBodies.contains k = true ↔ ∃ p ∈ b.nodes, p.sharedBody? = some k := by
  induction h with
  | start => simp [openScope, Build.start, contains, get?_empty]
  | @visit b n path scope h way _ _ ih =>
    have below : ∀ e ∈ (b.place n path scope).effects n path scope, ∀ c, e.shared? = some c → root.Below c := by
      intro e he c hc
      have body := exists_effect_shared.mp ⟨e, he, hc⟩
      exact way.below_root.link (mem_links_of_sharedBody? body)
    have fits : Fits root (b.place n path scope).sharedBodies := (h.roomy ok).sharedBodies
    rw [scan, (contains_foldl_apply sharedBodies_apply ok.numbered below fits).2 k hk, exists_effect_shared]
    simp only [nodes_foldl, place, List.mem_cons, exists_eq_or_imp]
    rw [ih, or_comm]

lemma Located.mem_nodes (ok : Scannable root size) (h : Scanned root size b) {e : Node × Field}
    {rest : List (Node × Field)} (way : root.Way (e :: rest) n) (located : b.Located (e :: rest) scope) :
    e.1 ∈ b.nodes := by
  obtain ⟨around, o, -, place, -⟩ := located
  have below := (way.below_of_mem (q := e.1) (by simp)).1
  exact (h.placed_iff ok below).mp (by simp [contains, place])

lemma sharedBodies_place (b : Build) (n : Node) (path : List (Node × Field)) (scope : Nat) :
    (b.place n path scope).sharedBodies = b.sharedBodies := rfl

section

variable (ok : Scannable root size) (h : Scanned root size b) (way : root.Way path n) (located : b.Located path scope)
include ok h way located

lemma Scanned.sharedBodies_eq : b.sharedBodies.contains n = n.isSharedBody (path.head?.map (·.1)) := by
  have hn := way.below_root
  unfold isSharedBody
  rw [Bool.eq_iff_iff, h.shared_iff ok hn]
  constructor
  · rintro ⟨p, hp, body⟩
    obtain ⟨g, rest, rfl, -⟩ := way.eq_cons ok.tree (h.below_of_mem hp) (mem_links_of_sharedBody? body)
    simp [body, BEq.beq, same]
  · intro same
    cases path with
    | nil => cases same
    | cons e rest =>
      have parent := located.mem_nodes ok h way
      cases body : e.1.sharedBody? with
      | none => simp [body] at same
      | some c =>
        have hc := (h.below_of_mem parent).link (mem_links_of_sharedBody? body)
        have ident : c.ident = n.ident := by simpa [body, BEq.beq, Node.same] using same
        obtain rfl := ok.numbered.unique c n hc hn ident
        exact ⟨e.1, parent, body⟩

lemma Scanned.opening?_eq : b.opening? n = n.opened? (path.head?.map (·.1)) := by
  unfold opening? opened?
  rw [h.sharedBodies_eq ok way located]

end

lemma Scanned.outline_of_located (h : Scanned root size b) (located : b.Located path scope) :
    ∃ o, b.outlines[scope]? = some o := by
  cases path with
  | nil =>
    obtain rfl : scope = 0 := located
    induction h with
    | start => exact ⟨_, rfl⟩
    | visit _ _ _ fresh ih =>
      obtain ⟨o, ho⟩ := ih
      exact ⟨o, getElem?_mono (keeps_scan fresh).outlines ho⟩
  | cons e rest =>
    obtain ⟨around, o, -, -, outline, opened⟩ := located
    split at opened
    next => exact ⟨_, opened.2⟩
    next => exact ⟨o, opened ▸ outline⟩

lemma Scanned.located_child (ok : Scannable root size) (h : Scanned root size b) (way : root.Way path n)
    (located : b.Located path scope) (f : Field) :
    (b.scan n path scope).Located ((n, f) :: path) (if (b.opening? n).isSome then b.scopes.size else scope) := by
  obtain ⟨o, outline⟩ := h.outline_of_located located
  have room := h.roomy ok
  have chain : b.scopeChain scope = o.chain := by simp [scopeChain_eq, outline]
  refine ⟨scope, o, ?_, ?_, ?_, ?_⟩
  · rw [paths_scan, room.paths.get?_insert_self ok.numbered way.below_root]
  · rw [places_scan, room.places.get?_insert_self ok.numbered way.below_root]
  · rw [outlines_scan]
    exact getElem?_mono (List.prefix_append _ _) outline
  · rw [← h.opening?_eq ok way located]
    cases opening : b.opening? n with
    | none => simp
    | some sort =>
      have positive : 0 < b.scopes.size := by
        rw [← length_outlines]
        exact Nat.lt_of_le_of_lt (Nat.zero_le _) (List.getElem?_eq_some_iff.mp outline).1
      refine ⟨positive, ?_⟩
      simp [outlines_scan, opening, chain]

lemma core_enter_place : ((b.place n path scope).enter n path scope).2.core = b.core.scan n path scope :=
  (core_enter (b.place n path scope) n path scope).1

lemma scanned_visit (ok : Scannable root size) (scanned : Scanned root size b.core) (way : root.Way path n)
    (located : b.core.Located path scope) :
    Scanned root size (visit path scope n b).core ∧ Keeps b.core (visit path scope n b).core := by
  induction hsize : sizeOf n using Nat.strongRecOn generalizing n path scope b with
  | ind total ih =>
    rw [visit_eq]
    split
    next => exact ⟨scanned, .refl _⟩
    next fresh =>
      have fresh : b.core.places.contains n = false := Bool.eq_false_iff.mpr fresh
      have entered : ((b.place n path scope).enter n path scope).2.core = b.core.scan n path scope := core_enter_place
      have next : Scanned root size ((b.place n path scope).enter n path scope).2.core := by
        rw [entered]
        exact scanned.visit way located fresh
      have keeps : Keeps b.core ((b.place n path scope).enter n path scope).2.core := by
        rw [entered]
        exact keeps_scan fresh
      have children (f : Field) : ((b.place n path scope).enter n path scope).2.core.Located ((n, f) :: path)
          ((b.place n path scope).enter n path scope).1 := by
        rw [entered, (core_enter (b.place n path scope) n path scope).2]
        exact scanned.located_child ok way located f
      have visited := List.foldlRecOn (motive := fun c : Build => Scanned root size c.core ∧
        Keeps ((b.place n path scope).enter n path scope).2.core c.core) (followed n.sharesKey n.links)
        (fun c e => visit ((n, e.1) :: path) ((b.place n path scope).enter n path scope).1 e.2 c) ⟨next, .refl _⟩
        fun c hc e he => ?_
      · exact ⟨visited.1, keeps.trans visited.2⟩
      · have link := (mem_followed.mp he).1
        obtain ⟨first, keeps'⟩ := ih _ (hsize ▸ sizeOf_link_lt link) hc.1 (way.link link)
          ((children e.1).keeps hc.2) rfl
        exact ⟨first, hc.2.trans keeps'⟩

end ScriptAudit.Build
