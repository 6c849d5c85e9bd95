import ScriptAudit.Proofs.Scope.Scanned

/-!
# What the pass gathers

After some visits the scopes around a node are those that are opened on its way up, and the
identifiers that were declared, written to and read are those that the tree says are.
-/

namespace ScriptAudit.Build

open Node NodeMap

variable {root n p k : Node} {b c : Build} {path : List (Node × Field)} {scope size : Nat}

lemma Scanned.unseen (ok : Scannable root size) (h : Scanned root size b) (hn : root.Below n)
    (fresh : b.places.contains n = false) : n ∉ b.nodes := by
  intro seen
  rw [(h.placed_iff ok hn).mpr seen] at fresh
  cases fresh

/-- A node was visited on a way up and in a scope. -/
structure VisitedAt (b : Build) (k : Node) (path : List (Node × Field)) (scope : Nat) : Prop where
  mem : k ∈ b.nodes
  up : b.paths.get? k = some path
  place : b.places.get? k = some scope

lemma VisitedAt.unique {path' : List (Node × Field)} {scope' : Nat} (h : b.VisitedAt k path scope)
    (h' : b.VisitedAt k path' scope') : path = path' ∧ scope = scope' :=
  ⟨by simpa [h.up] using h'.up, by simpa [h.place] using h'.place⟩

section

variable (ok : Scannable root size) (h : Scanned root size b)
include ok h

lemma Scanned.visitedAt_scan (hn : root.Below n) (fresh : b.places.contains n = false) {up : List (Node × Field)}
    {s : Nat} : (b.scan n path scope).VisitedAt k up s ↔ (k = n ∧ up = path ∧ s = scope) ∨ b.VisitedAt k up s := by
  have room := h.roomy ok
  have keeps : Keeps b (b.scan n path scope) := keeps_scan fresh
  have here : (b.scan n path scope).VisitedAt n path scope := by
    refine ⟨by simp, ?_, ?_⟩
    · rw [paths_scan, room.paths.get?_insert_self ok.numbered hn]
    · rw [places_scan, room.places.get?_insert_self ok.numbered hn]
  constructor
  · intro visited
    have mem := visited.mem
    rw [nodes_scan] at mem
    rcases List.mem_cons.mp mem with rfl | old
    · obtain ⟨rfl, rfl⟩ := visited.unique here
      exact .inl ⟨rfl, rfl, rfl⟩
    · have placed := (h.placed_iff ok (h.below_of_mem old)).mpr old
      exact .inr ⟨old, by rw [← keeps.paths k placed, visited.up], by rw [← keeps.places k placed, visited.place]⟩
  · rintro (⟨rfl, rfl, rfl⟩ | old)
    · exact here
    · have placed := (h.placed_iff ok (h.below_of_mem old.mem)).mpr old.mem
      exact ⟨by simp [old.mem], by rw [keeps.paths k placed, old.up], by rw [keeps.places k placed, old.place]⟩

lemma Scanned.exists_visitedAt (hk : k ∈ b.nodes) : ∃ path scope, b.VisitedAt k path scope := by
  induction h with
  | start => cases hk
  | visit h way _ fresh ih =>
    simp only [h.visitedAt_scan ok way.below_root fresh]
    rw [nodes_scan] at hk
    rcases List.mem_cons.mp hk with rfl | hk
    · exact ⟨_, _, .inl ⟨rfl, rfl, rfl⟩⟩
    · obtain ⟨path, scope, old⟩ := ih hk
      exact ⟨path, scope, .inr old⟩

lemma Scanned.located (visited : b.VisitedAt k path scope) : root.Way path k ∧ b.Located path scope := by
  induction h with
  | start => cases visited.mem
  | visit h way located fresh ih =>
    rcases (h.visitedAt_scan ok way.below_root fresh).mp visited with ⟨rfl, rfl, rfl⟩ | old
    · exact ⟨way, located.keeps (keeps_scan fresh)⟩
    · exact ⟨(ih old).1, (ih old).2.keeps (keeps_scan fresh)⟩

lemma Scanned.mem_nodes_of_mem {e : Node × Field} (way : root.Way path n) (located : b.Located path scope)
    (he : e ∈ path) : e.1 ∈ b.nodes := by
  induction path generalizing n scope with
  | nil => cases he
  | cons d rest ih =>
    have parent := located.mem_nodes ok h way
    rcases List.mem_cons.mp he with rfl | he
    · exact parent
    · obtain ⟨around, _, up, place, _⟩ := located
      obtain ⟨way, located⟩ := h.located ok ⟨parent, up, place⟩
      exact ih way located he

lemma Scanned.mem_nodes_of_below (way : root.Way path n) (located : b.Located path scope) (hp : root.Below p)
    (below : p.Below n) : p = n ∨ p ∈ b.nodes := by
  rcases way.mem_of_below ok.tree hp below with rfl | above
  · exact .inl rfl
  · obtain ⟨e, he, rfl⟩ := List.mem_map.mp above
    exact .inr (h.mem_nodes_of_mem ok way located he)

end

lemma Scanned.outline_zero (h : Scanned root size b) : b.outlines[0]? = some ⟨.program, root, [0]⟩ := by
  induction h with
  | start => rfl
  | visit _ _ _ fresh ih => exact getElem?_mono (keeps_scan fresh).outlines ih

lemma outlines_start {u : Nat} (hu : 0 < u) :
    ((Build.start size).openScope .program root []).2.outlines[u]? = none := by
  obtain ⟨u, rfl⟩ := Nat.exists_eq_succ_of_ne_zero (Nat.ne_of_gt hu)
  simp [openScope, Build.start, outlines]

lemma Scanned.mem_nodes_of_outline (h : Scanned root size b) {u : Nat} {o : Outline}
    (hu : 0 < u) (ho : b.outlines[u]? = some o) : o.node ∈ b.nodes := by
  induction h with
  | start => simp [outlines_start hu] at ho
  | @visit b n path scope h _ _ _ ih =>
    rw [nodes_scan]
    rcases outlines_scan_get?.mp ho with old | ⟨_, _, _, rfl⟩
    · exact List.mem_cons_of_mem _ (ih old)
    · exact List.mem_cons_self

lemma Scanned.eq_of_outline (ok : Scannable root size) (h : Scanned root size b) {u v : Nat} {o o' : Outline}
    (hu : 0 < u) (hv : 0 < v) (ho : b.outlines[u]? = some o) (ho' : b.outlines[v]? = some o')
    (same : o.node = o'.node) : u = v := by
  induction h with
  | start => simp [outlines_start hu] at ho
  | @visit b n path scope h way _ fresh ih =>
    have unseen := h.unseen ok way.below_root fresh
    rcases outlines_scan_get?.mp ho with old | ⟨_, _, rfl, rfl⟩ <;>
      rcases outlines_scan_get?.mp ho' with old' | ⟨_, _, rfl, rfl⟩
    · exact ih old old'
    · exact absurd (by simpa [same] using h.mem_nodes_of_outline hu old) unseen
    · exact absurd (by simpa [← same] using h.mem_nodes_of_outline hv old') unseen
    · rfl

def opener? (b : Build) (u : Nat) : Option (ScopeSort × Node) := (b.outlines[u]?).map fun o => (o.sort, o.node)

section

variable (ok : Scannable root size) (h : Scanned root size b)
include ok h

lemma Scanned.chain_of_located (way : root.Way path n) (located : b.Located path scope) :
    (b.scopeChain scope).map b.opener? = (scopesOn path ++ [(ScopeSort.program, root)]).map some := by
  induction path generalizing n scope with
  | nil =>
    obtain rfl : scope = 0 := located
    simp [scopeChain_eq, opener?, h.outline_zero, scopesOn]
  | cons e rest ih =>
    have parent := located.mem_nodes ok h way
    obtain ⟨around, o, up, place, outline, opened⟩ := located
    obtain ⟨way, located⟩ := h.located ok ⟨parent, up, place⟩
    have outer := ih way located
    rw [scopesOn]
    cases opening : e.1.opened? (rest.head?.map (·.1)) with
    | none =>
      rw [opening] at opened
      obtain rfl : scope = around := opened
      simpa using outer
    | some sort =>
      rw [opening] at opened
      have chain : b.scopeChain scope = scope :: b.scopeChain around := by simp [scopeChain_eq, opened.2, outline]
      simp [chain, outer, opener?, opened.2]

lemma Scanned.declared_iff (hk : root.Below k) :
    b.declared.contains k = true ↔ ∃ p ∈ b.nodes, ∃ d ∈ p.names, d.ident = k := by
  induction h with
  | start => simp [openScope, Build.start, contains, get?_empty]
  | @visit b n path scope h way _ _ ih =>
    have below : ∀ e ∈ (b.place n path scope).effects n path scope, ∀ c, e.declared? = some c → root.Below c := by
      intro e he c hc
      obtain ⟨d, hd, rfl⟩ := exists_effect_declared.mp ⟨e, he, hc⟩
      exact way.below_root.trans (below_of_mem_names hd)
    have fits : Fits root (b.place n path scope).declared := (h.roomy ok).declared
    rw [scan, (contains_foldl_apply declared_apply ok.numbered below fits).2 k hk, exists_effect_declared]
    simp only [nodes_foldl, place, List.mem_cons, exists_eq_or_imp]
    rw [ih, or_comm]

/-- What a build has from the visit of certain nodes on, it has just if one of them was visited. -/
lemma Scanned.noted_iff (P : Build → Prop) (Q : Node → List (Node × Field) → Nat → Prop)
    (none_ : ¬P ((Build.start size).openScope .program root []).2)
    (step : ∀ {b n path scope}, Scanned root size b → root.Way path n → b.Located path scope →
      b.places.contains n = false → (P (b.scan n path scope) ↔ P b ∨ Q n path scope)) :
    P b ↔ ∃ p path scope, b.VisitedAt p path scope ∧ Q p path scope := by
  induction h with
  | start =>
    refine iff_of_false none_ ?_
    rintro ⟨p, path, scope, visited, -⟩
    cases visited.mem
  | @visit b n path scope h way located fresh ih =>
    simp only [step h way located fresh, ih, h.visitedAt_scan ok way.below_root fresh]
    constructor
    · rintro (⟨p, up, s, old, hw⟩ | hw)
      · exact ⟨p, up, s, .inr old, hw⟩
      · exact ⟨n, path, scope, .inl ⟨rfl, rfl, rfl⟩, hw⟩
    · rintro ⟨p, up, s, ⟨rfl, rfl, rfl⟩ | old, hw⟩
      · exact .inr hw
      · exact .inl ⟨p, up, s, old, hw⟩

lemma Scanned.written_iff (hk : root.Below k) :
    b.written.contains k = true ↔ ∃ p path scope, b.VisitedAt p path scope ∧ k ∈ p.assigned (path.head?.map (·.1)) := by
  refine h.noted_iff ok (fun b => b.written.contains k = true) _
    (by simp [openScope, Build.start, contains, get?_empty])
    fun {b n path scope} h way located _ => ?_
  have below : ∀ e ∈ (b.place n path scope).effects n path scope, ∀ c, e.written? = some c → root.Below c := by
    intro e he c hc
    exact way.below_root.trans (below_of_mem_writtenBy (exists_effect_written.mp ⟨e, he, hc⟩))
  have fits : Fits root (b.place n path scope).written := (h.roomy ok).written
  have shared := h.sharedBodies_eq ok way located
  rw [← sharedBodies_place b n path scope] at shared
  rw [scan, (contains_foldl_apply written_apply ok.numbered below fits).2 k hk, exists_effect_written, shared]
  rfl

lemma Scanned.isRead_iff (way : root.Way path n) (located : b.Located path scope) :
    (n.kind == .identifier && (b.place n path scope).isRead n path) = true ↔ root.IsUse path n := by
  have split : (b.place n path scope).isRead n path =
      (!b.declared.contains n && !b.written.contains n && usesName path) := rfl
  rw [split]
  have hn := way.below_root
  simp only [Bool.and_eq_true, Bool.not_eq_true', beq_iff_eq]
  constructor
  · rintro ⟨ident, ⟨undeclared, unwritten⟩, used⟩
    refine ⟨ident, used, ?_, ?_⟩
    · rintro ⟨p, hp, d, hd, rfl⟩
      rcases h.mem_nodes_of_below ok way located hp (below_of_mem_names hd) with rfl | seen
      · simp [names, outerNames, innerNames, ident] at hd
      · rw [(h.declared_iff ok hn).mpr ⟨p, seen, d, hd, rfl⟩] at undeclared
        cases undeclared
    · rintro ⟨p, up, above, hw⟩
      rcases h.mem_nodes_of_below ok way located above.below_root (below_of_mem_writtenBy hw) with rfl | seen
      · simp [assigned, writtenBy, ident] at hw
      · obtain ⟨up', s, visited⟩ := h.exists_visitedAt ok seen
        rw [← List.head?_map, above.nodes_eq ok.tree (h.located ok visited).1, List.head?_map] at hw
        rw [(h.written_iff ok hn).mpr ⟨p, up', s, visited, hw⟩] at unwritten
        cases unwritten
  · intro use
    refine ⟨use.identifier, ⟨?_, ?_⟩, use.used⟩
    · apply Bool.eq_false_iff.mpr
      intro declared
      obtain ⟨p, hp, hd⟩ := (h.declared_iff ok hn).mp declared
      exact use.undeclared ⟨p, h.below_of_mem hp, hd⟩
    · apply Bool.eq_false_iff.mpr
      intro written
      obtain ⟨p, up, s, visited, hw⟩ := (h.written_iff ok hn).mp written
      exact use.unassigned ⟨p, up, (h.located ok visited).1, hw⟩

lemma Scanned.reads_scan (way : root.Way path n) (located : b.Located path scope) :
    (root.IsUse path n ∧ (b.scan n path scope).reads = (n, scope) :: b.reads) ∨
      (¬root.IsUse path n ∧ (b.scan n path scope).reads = b.reads) := by
  rw [← h.isRead_iff ok way located, scan, reads_foldl_effects]
  by_cases read : (n.kind == .identifier && (b.place n path scope).isRead n path) = true
  · exact .inl ⟨read, by rw [if_pos read]; rfl⟩
  · exact .inr ⟨read, by rw [if_neg read]; rfl⟩

lemma Scanned.reads_iff {s : Nat} : (k, s) ∈ b.reads ↔ ∃ path, b.VisitedAt k path s ∧ root.IsUse path k := by
  rw [h.noted_iff ok (fun b => (k, s) ∈ b.reads) (fun n path scope => (k, s) = (n, scope) ∧ root.IsUse path n)
    List.not_mem_nil]
  · constructor
    · rintro ⟨_, path, _, visited, ⟨⟩, use⟩
      exact ⟨path, visited, use⟩
    · rintro ⟨path, visited, use⟩
      exact ⟨k, path, s, visited, rfl, use⟩
  · intro b n path scope h way located _
    rcases h.reads_scan ok way located with ⟨use, reads⟩ | ⟨unused, reads⟩
    · simp [reads, use, or_comm]
    · simp [reads, unused]

lemma Scanned.writes_iff {t w : Node} {s : Nat} :
    (t, w, s) ∈ b.writes ↔ ∃ path, b.VisitedAt w path s ∧ t ∈ w.assigned (path.head?.map (·.1)) := by
  rw [h.noted_iff ok (fun b => (t, w, s) ∈ b.writes)
    (fun n path scope => t ∈ n.assigned (path.head?.map (·.1)) ∧ w = n ∧ s = scope) List.not_mem_nil]
  · constructor
    · rintro ⟨_, path, _, visited, ht, rfl, rfl⟩
      exact ⟨path, visited, ht⟩
    · rintro ⟨path, visited, ht⟩
      exact ⟨w, path, s, visited, ht, rfl, rfl⟩
  · intro b n path scope h way located _
    have shared := h.sharedBodies_eq ok way located
    rw [← sharedBodies_place b n path scope] at shared
    rw [scan, mem_writes_foldl_effects, shared]
    rfl

lemma Scanned.nodup_reads : (b.reads.map (·.1)).Nodup := by
  induction h with
  | start => simp [openScope, Build.start]
  | @visit b n path scope h way located fresh ih =>
    rcases h.reads_scan ok way located with ⟨-, reads⟩ | ⟨-, reads⟩
    · rw [reads, List.map_cons, List.nodup_cons]
      refine ⟨?_, ih⟩
      intro seen
      obtain ⟨⟨k, s⟩, hk, rfl⟩ := List.mem_map.mp seen
      obtain ⟨path, visited, -⟩ := (h.reads_iff ok).mp hk
      simp [contains, visited.place] at fresh
    · rwa [reads]

end

end ScriptAudit.Build
