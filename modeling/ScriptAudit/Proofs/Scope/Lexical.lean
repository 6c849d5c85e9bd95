import ScriptAudit.Proofs.Scope.WellFormed

/-!
# Lexical name resolution

A name that is used refers to the binding of that name in the nearest scope around it that declares
the name, wherever in that scope the declaration stands.
-/

namespace ScriptAudit

open List Option

namespace Build

open Node

variable {root p k : Node} {b : Build} {path : List (Node × Field)} {scope size u v : Nat} {x : String}
  {e : ScopeSort × Node}

lemma Scanned.head_chain (h : Scanned root size b) {o : Outline} (ho : b.outlines[u]? = some o) :
    ∃ rest, o.chain = u :: rest := by
  induction h with
  | start =>
    cases u with
    | zero =>
      obtain rfl : _ = o := by simpa [openScope, Build.start, outlines] using ho
      exact ⟨[], rfl⟩
    | succ u => simp [openScope, Build.start, outlines] at ho
  | visit _ _ _ _ ih =>
    rcases outlines_scan_get?.mp ho with old | ⟨sort, -, -, rfl⟩
    · exact ih old
    · exact ⟨_, rfl⟩

lemma Scanned.opened?_of_outline (ok : Scannable root size) (h : Scanned root size b) {o : Outline}
    (hu : 0 < u) (ho : b.outlines[u]? = some o) :
    ∃ path scope, b.VisitedAt o.node path scope ∧ o.node.opened? (path.head?.map (·.1)) = some o.sort := by
  induction h with
  | start => simp [outlines_start hu] at ho
  | @visit b n path scope h way located fresh ih =>
    simp only [h.visitedAt_scan ok way.below_root fresh]
    rcases outlines_scan_get?.mp ho with old | ⟨sort, opening, rfl, rfl⟩
    · obtain ⟨path, scope, visited, opened⟩ := ih old
      exact ⟨path, scope, .inr visited, opened⟩
    · rw [h.opening?_eq ok way located] at opening
      exact ⟨path, scope, .inl ⟨rfl, rfl, rfl⟩, opening⟩

lemma opened?_ne_program (parent : Option Node) (n : Node) : n.opened? parent ≠ some .program := by
  unfold opened?
  split
  · simp
  · split
    · simp
    · split <;> simp

lemma opener?_eq_some : b.opener? u = some e ↔ ∃ o, b.outlines[u]? = some o ∧ (o.sort, o.node) = e := map_eq_some_iff

lemma Scanned.opener?_zero (h : Scanned root size b) : b.opener? 0 = some (.program, root) := by
  simp [opener?, h.outline_zero]

lemma Scanned.opener?_program_iff (ok : Scannable root size) (h : Scanned root size b) {n : Node}
    (hu : b.opener? u = some (.program, n)) : u = 0 := by
  obtain ⟨o, ho, eq⟩ := opener?_eq_some.mp hu
  by_contra ne
  obtain ⟨path, -, -, opened⟩ := h.opened?_of_outline ok (Nat.pos_of_ne_zero ne) ho
  rw [(Prod.mk.inj eq).1] at opened
  exact opened?_ne_program _ _ opened

lemma Scanned.opener?_injective (ok : Scannable root size) (h : Scanned root size b) (hu : b.opener? u = some e)
    (hv : b.opener? v = some e) : u = v := by
  by_cases program : e.1 = .program
  · obtain ⟨sort, n⟩ := e
    obtain rfl : sort = .program := program
    rw [h.opener?_program_iff ok hu, h.opener?_program_iff ok hv]
  · have positive : ∀ {w}, b.opener? w = some e → 0 < w := by
      intro w hw
      apply Nat.pos_of_ne_zero
      rintro rfl
      rw [h.opener?_zero] at hw
      exact program (congrArg Prod.fst (some.inj hw)).symm
    obtain ⟨o, ho, eq⟩ := opener?_eq_some.mp hu
    obtain ⟨o', ho', eq'⟩ := opener?_eq_some.mp hv
    apply h.eq_of_outline ok (positive hu) (positive hv) ho ho'
    exact congrArg Prod.snd (eq.trans eq'.symm)

lemma find?_of_map_eq {ys : List (ScopeSort × Node)} {us : List Nat} {f : Nat → Option (ScopeSort × Node)}
    (h : us.map f = ys.map some) (Q : ScopeSort × Node → Bool) :
    (us.find? fun v => (f v).any Q).bind f = ys.find? Q := by
  induction us generalizing ys with
  | nil =>
    obtain rfl : ys = [] := by simpa using h.symm
    rfl
  | cons v rest ih =>
    cases ys with
    | nil => cases h
    | cons y ys =>
      simp only [map_cons, List.cons.injEq] at h
      by_cases hy : Q y = true
      · simp [h.1, hy]
      · simp [h.1, hy, ih h.2]

lemma varScope_eq_find? (b : Build) (u : Nat) : b.varScope u = ((b.scopeChain u).find? fun v =>
      (b.opener? v).any fun e => e.1 == .function || e.1 == .program).getD u := by
  rw [varScope_eq, scopeChain_eq]
  congr 2
  funext v
  rw [opener?]
  cases b.outlines[v]? <;> rfl

section Landing

variable (ok : Scannable root size) (h : Scanned root size b) (visited : b.VisitedAt p path scope)
include ok h visited

lemma Scanned.opener?_around : ∃ e, b.opener? scope = some e ∧ (root.scopesAround path).head? = some e := by
  obtain ⟨way, located⟩ := h.located ok visited
  obtain ⟨o, ho⟩ := h.outline_of_located located
  obtain ⟨rest, ochain⟩ := h.head_chain ho
  have headed : b.scopeChain scope = scope :: rest := by simp [scopeChain_eq, ho, ochain]
  have chain : (b.scopeChain scope).map b.opener? = (root.scopesAround path).map some :=
    h.chain_of_located ok way located
  rw [headed] at chain
  cases around : root.scopesAround path with
  | nil => simp [around] at chain
  | cons e es =>
    simp only [around, map_cons, List.cons.injEq] at chain
    exact ⟨e, chain.1, rfl⟩

lemma Scanned.opener?_hoisted : ∃ e, b.opener? (b.varScope scope) = some e ∧
    ((root.scopesAround path).find? fun e => e.1 == .function || e.1 == .program) = some e := by
  obtain ⟨way, located⟩ := h.located ok visited
  have found := find?_of_map_eq (h.chain_of_located ok way located) fun e => e.1 == .function || e.1 == .program
  have some : ((root.scopesAround path).find? fun e => e.1 == .function || e.1 == .program).isSome = true := by
    simp [scopesAround]
  obtain ⟨e, he⟩ := Option.isSome_iff_exists.mp some
  rw [← scopesAround, he] at found
  obtain ⟨t, ht, opener⟩ := Option.bind_eq_some_iff.mp found
  refine ⟨e, ?_, he⟩
  rw [varScope_eq_find?, ht]
  exact opener

lemma Scanned.target_inside_iff :
    b.Target p .inside u ↔ ∃ e, b.opener? u = some e ∧ root.landing? path p .inside = some e := by
  constructor
  · rintro ⟨path', scope', -, positive, o, ho, rfl⟩
    obtain ⟨path'', scope'', visited'', opened⟩ := h.opened?_of_outline ok positive ho
    obtain ⟨rfl, -⟩ := visited.unique visited''
    exact ⟨(o.sort, o.node), opener?_eq_some.mpr ⟨o, ho, rfl⟩, by simp [landing?, opened]⟩
  · rintro ⟨e, opener, lands⟩
    obtain ⟨sort, opened, rfl⟩ := Option.map_eq_some_iff.mp lands
    obtain ⟨o, ho, eq⟩ := opener?_eq_some.mp opener
    refine ⟨path, scope, visited, Nat.pos_of_ne_zero ?_, o, ho, (Prod.mk.inj eq).2⟩
    rintro rfl
    rw [h.opener?_zero] at opener
    obtain rfl := (Prod.mk.inj (some.inj opener)).1
    exact opened?_ne_program _ _ opened

lemma Scanned.target_iff (reach : Reach) :
    b.Target p reach u ↔ ∃ e, b.opener? u = some e ∧ root.landing? path p reach = some e := by
  -- Outside of the node it suffices that the one scope it reaches is where the declaration lands.
  have one : ∀ t : Nat → Nat, (∃ e, b.opener? (t scope) = some e ∧ root.landing? path p reach = some e) →
      ((∃ path scope, b.VisitedAt p path scope ∧ u = t scope) ↔
        ∃ e, b.opener? u = some e ∧ root.landing? path p reach = some e) := by
    rintro t ⟨e, opener, lands⟩
    constructor
    · rintro ⟨_, _, visited', rfl⟩
      obtain ⟨-, rfl⟩ := visited.unique visited'
      exact ⟨e, opener, lands⟩
    · rintro ⟨e', opener', lands'⟩
      obtain rfl : e = e' := by simpa [lands] using lands'
      exact ⟨path, scope, visited, h.opener?_injective ok opener' opener⟩
  cases reach with
  | around => exact one id (h.opener?_around ok visited)
  | hoisted => exact one b.varScope (h.opener?_hoisted ok visited)
  | inside => exact h.target_inside_iff ok visited
  | program => exact one (fun _ => 0) ⟨_, h.opener?_zero, rfl⟩

end Landing

lemma Scanned.declares_iff (ok : Scannable root size) (h : Scanned root size b) (all : ∀ n, root.Below n → n ∈ b.nodes)
    {d : NameDeclaration} : b.Declares u d ↔ ∃ e, b.opener? u = some e ∧ root.DeclaresIn e d := by
  constructor
  · rintro ⟨p, hd, target⟩
    obtain ⟨path, scope, visited, -⟩ := id target
    obtain ⟨e, opener, lands⟩ := (h.target_iff ok visited d.reach).mp target
    exact ⟨e, opener, p, path, (h.located ok visited).1, hd, lands⟩
  · rintro ⟨e, opener, p, path, way, hd, lands⟩
    obtain ⟨path', scope, visited⟩ := h.exists_visitedAt ok (all p way.below_root)
    refine ⟨p, hd, (h.target_iff ok visited d.reach).mpr ⟨e, opener, ?_⟩⟩
    rw [← lands]
    exact landing?_congr ((h.located ok visited).1.nodes_eq ok.tree way) d.reach

end Build

namespace Model

open Node Build

def opener? (m : Model) (u : Nat) : Option (ScopeSort × Node) := (m.scopes[u]?).map fun s => (s.sort, s.node)

def Declares (m : Model) (u : Nat) (x : String) : Prop :=
  ∃ e d, m.opener? u = some e ∧ m.root.DeclaresIn e d ∧ d.ident.name = some x

def bindingIn? (m : Model) (u : Nat) (x : String) : Option Binding :=
  ((m.scopes[u]?).bind fun s => s.names.get? x).bind (m.bindings[·]?)

def IsReference (m : Model) (k : Node) : Prop := m.root.Below k ∧ m.root.IsUse (m.path k) k

section Built

variable {root n k : Node} {b : Build} {m : Model} {size u i : Nat} {x : String}

lemma Built.visitedAt (ok : Scannable root size) (h : Scanned root size b) (built : Built root b m)
    (hn : root.Below n) : b.VisitedAt n (m.path n) (m.scopeOf n) := by
  obtain ⟨path, scope, visited⟩ := h.exists_visitedAt ok (built.visited n hn)
  have path_eq : m.path n = path := by simp [Model.path, built.paths, visited.up]
  have scope_eq : m.scopeOf n = scope := by simp [scopeOf, built.places, visited.place]
  rwa [path_eq, scope_eq]

lemma Built.scopeChain_eq (built : Built root b m) (n : Node) : m.scopeChain n = b.scopeChain (m.scopeOf n) := by
  cases found : b.scopes[m.scopeOf n]? <;> simp [Model.scopeChain, Build.scopeChain, built.scopes, found]

lemma Built.opener?_eq (built : Built root b m) : m.opener? = b.opener? := by
  funext u
  rw [Model.opener?, Build.opener?, getElem?_outlines, built.scopes, Option.map_map]
  rfl

section

variable (ok : Scannable root size) (h : Scanned root size b) (built : Built root b m)
include ok h built

lemma Built.declares_iff : m.Declares u x ↔ (b.namesAt u x).isSome = true := by
  rw [(h.entered ok).names]
  simp only [h.declares_iff ok built.visited, Declares, built.opener?_eq, built.program]
  constructor
  · rintro ⟨e, d, opener, declares, name⟩
    exact ⟨d, ⟨e, opener, declares⟩, name⟩
  · rintro ⟨d, ⟨e, opener, declares⟩, name⟩
    exact ⟨e, d, opener, declares, name⟩

lemma Built.bindingIn?_of_namesAt (hi : b.namesAt u x = some i) :
    ∃ y, m.bindings[i]? = some y ∧ m.bindingIn? u x = some y ∧ y.name = x ∧ y.scope = u ∧ y.uid = i := by
  obtain ⟨y, hy, name, scope⟩ := (h.entered ok).stored u x i hi
  have uid := ((h.entered ok).unused i y hy).1
  have found := built.bindings i
  rw [hy, map_some] at found
  refine ⟨_, found, ?_, name, scope, uid⟩
  have names : ((m.scopes[u]?).bind fun s => s.names.get? x) = some i := by
    rw [built.scopes]
    exact hi
  rw [bindingIn?, names, bind_some, found]

lemma Built.mention_of_reference (hk : m.IsReference k) {e : Mention} :
    e ∈ b.mentions ∧ e.ident = k ↔ e = .read k (m.scopeOf k) := by
  obtain ⟨below, use⟩ := hk
  rw [built.program] at below use
  have visited := built.visitedAt ok h below
  constructor
  · rintro ⟨he, rfl⟩
    cases e with
    | read k s =>
      obtain ⟨path, visited', -⟩ := (h.reads_iff ok).mp (mem_mentions_read.mp he)
      rw [(visited'.unique visited).2]
      rfl
    | write t w s =>
      obtain ⟨path, visited', ht⟩ := (h.writes_iff ok).mp (mem_mentions_write.mp he)
      exact absurd ⟨w, path, (h.located ok visited').1, ht⟩ use.unassigned
  · rintro rfl
    exact ⟨mem_mentions_read.mpr ((h.reads_iff ok).mpr ⟨_, visited, use⟩), rfl⟩

lemma Built.bound_of_mention (below : root.Below k) (undeclared : ¬root.Declared k) {d : Mention}
    (mention : ∀ e, e ∈ b.mentions ∧ e.ident = k ↔ e = d) : m.bound.get? k = b.referent? d := by
  cases found : b.referent? d with
  | none =>
    rw [built.missed k below]
    · have unbound : ¬b.bound.contains k = true := by
        intro bound
        obtain ⟨u, d, ⟨p, hd, path, scope, visited, -⟩, eq⟩ := (h.entered ok).bound k below bound
        exact undeclared ⟨p, h.below_of_mem visited.mem, d, hd, eq⟩
      simpa [NodeMap.contains] using unbound
    · intro e he eq
      rw [(mention e).mp ⟨he, eq⟩, found]
  | some i =>
    apply built.found k i below
    · intro e he eq
      rw [(mention e).mp ⟨he, eq⟩, found]
    · exact ⟨d, (mention d).mpr rfl⟩

lemma Built.bound_of_reference (hk : m.IsReference k) : m.bound.get? k = b.referent? (.read k (m.scopeOf k)) := by
  have undeclared := hk.2.undeclared
  rw [built.program] at undeclared
  exact built.bound_of_mention ok h (built.program ▸ hk.1) undeclared fun e => built.mention_of_reference ok h hk

end

lemma Built.lookup_eq (built : Built root b m) (n : Node) (x : String) :
    b.lookup (m.scopeOf n) x = (m.scopeChain n).findSome? (b.namesAt · x) := by
  rw [built.scopeChain_eq]
  rfl

lemma Built.lookup?_eq (built : Built root b m) (n : Node) (x : String) :
    m.lookup? x n = (b.lookup (m.scopeOf n) x).bind (m.bindings[·]?) := by
  rw [built.lookup_eq, lookup?, built.scopes]
  rfl

section

variable (ok : Scannable root size) (h : Scanned root size b) (built : Built root b m)
include ok h built

lemma Built.lookup_eq_some (found : b.lookup (m.scopeOf n) x = some i) :
    ∃ before u after y, m.scopeChain n = before ++ u :: after ∧ (∀ v ∈ before, ¬m.Declares v x) ∧ m.Declares u x ∧
      m.bindings[i]? = some y ∧ m.bindingIn? u x = some y ∧ y.name = x ∧ y.scope = u := by
  rw [built.lookup_eq] at found
  obtain ⟨before, u, after, chain, hu, none⟩ := List.findSome?_eq_some_iff.mp found
  obtain ⟨y, hy, stored, name, scope, -⟩ := built.bindingIn?_of_namesAt ok h hu
  refine ⟨before, u, after, y, chain, ?_, ?_, hy, stored, name, scope⟩
  · intro v hv declares
    rw [built.declares_iff ok h, none v hv] at declares
    cases declares
  · rw [built.declares_iff ok h, hu]
    rfl

lemma Built.isUnbound_of_reference (hk : m.IsReference k) (name : k.name = some x) :
    m.isUnbound k = (b.lookup (m.scopeOf k) x).isNone := by
  have bound := built.bound_of_reference ok h hk
  have referent : b.referent? (.read k (m.scopeOf k)) = b.lookup (m.scopeOf k) x := by
    simp [referent?, Mention.ident, Mention.scope, name]
  rw [referent] at bound
  simp only [isUnbound, hk.2.identifier, NodeMap.contains, bound, name, built.lookup?_eq]
  cases b.lookup (m.scopeOf k) x <;> rfl

lemma Built.flatMap_references (P : Mention → Bool) :
    ((b.mentions.filter P).flatMap (·.references)).Nodup ∧ ∀ k, k ∈ (b.mentions.filter P).flatMap (·.references) ↔
      m.IsReference k ∧ P (.read k (m.scopeOf k)) = true := by
  constructor
  · exact (nodup_reverse.mpr (h.nodup_reads ok)).sublist (references_sublist_reads b P)
  · intro k
    simp only [mem_flatMap, mem_filter]
    constructor
    · rintro ⟨e, ⟨he, holds⟩, hk⟩
      cases e with
      | write t w s => cases hk
      | read k' s =>
        obtain rfl := mem_singleton.mp hk
        obtain ⟨path, visited, use⟩ := (h.reads_iff ok).mp (mem_mentions_read.mp he)
        have below := h.below_of_mem visited.mem
        obtain ⟨rfl, rfl⟩ := visited.unique (built.visitedAt ok h below)
        exact ⟨⟨built.program ▸ below, built.program ▸ use⟩, holds⟩
    · rintro ⟨hk, holds⟩
      have mentioned := ((built.mention_of_reference ok h hk).mpr rfl).1
      exact ⟨_, ⟨mentioned, holds⟩, mem_singleton.mpr rfl⟩

lemma Built.getElem?_bindings {y : Binding} (hy : m.bindings[i]? = some y) :
    y.uid = i ∧ y.references = (b.hits i b.mentions).flatMap (·.references) := by
  rw [built.bindings] at hy
  obtain ⟨z, hz, rfl⟩ := Option.map_eq_some_iff.mp hy
  obtain ⟨uid, unused⟩ := (h.entered ok).unused i z hz
  exact ⟨uid, by simp [Binding.refer, Binding.write, unused]⟩

lemma Built.references {y : Binding} (hy : m.bindings[i]? = some y) :
    y.references.Nodup ∧ ∀ k, k ∈ y.references ↔ m.IsReference k ∧ m.binding? k = some y := by
  obtain ⟨uid, eq⟩ := built.getElem?_bindings ok h hy
  obtain ⟨nodup, mem⟩ := built.flatMap_references ok h (b.referent? · == some i)
  rw [eq]
  refine ⟨nodup, fun k => ?_⟩
  rw [hits, mem]
  apply and_congr_right
  intro hk
  rw [binding?, built.bound_of_reference ok h hk, beq_iff_eq]
  constructor
  · intro found
    rw [found, bind_some, hy]
  · intro found
    obtain ⟨j, hj, hy'⟩ := Option.bind_eq_some_iff.mp found
    rw [hj, ← (built.getElem?_bindings ok h hy').1, uid]

end

end Built

/-- The scopes of a node are those opened on its way up, innermost first, and a name refers to its
binding in the first of them that declares it. A name that none declares is unbound. A reference is
listed once, with its binding or among the globals. -/
theorem resolved_lexically {root : Node} {source : String} {isModule : Bool} {m : Model}
    (numbered : root.WellNumbered) (tree : root.OneParent) (h : ofProgram root source isModule = .ok m) :
    (∀ n, root.Below n → root.Way (m.path n) n ∧
      (m.scopeChain n).map m.opener? = (root.scopesAround (m.path n)).map some) ∧
    (∀ u v e, m.opener? u = some e → m.opener? v = some e → u = v) ∧
    (∀ k, m.IsReference k → ∃ x, k.name = some x ∧
      ((∃ before u after y, m.scopeChain k = before ++ u :: after ∧ (∀ v ∈ before, ¬m.Declares v x) ∧
          m.Declares u x ∧ m.bindingIn? u x = some y ∧ y.name = x ∧ y.scope = u ∧ m.binding? k = some y ∧
          m.isUnbound k = false) ∨
        ((∀ v ∈ m.scopeChain k, ¬m.Declares v x) ∧ m.binding? k = none ∧ m.isUnbound k = true))) ∧
    (∀ (i : Nat) y, m.bindings[i]? = some y →
      y.references.Nodup ∧ ∀ k, k ∈ y.references ↔ m.IsReference k ∧ m.binding? k = some y) ∧
    (∀ x, (m.globals.getD x []).Nodup ∧
      ∀ k, k ∈ m.globals.getD x [] ↔ m.IsReference k ∧ k.name = some x ∧ m.isUnbound k = true) := by
  obtain ⟨b, size, ok, scanned, built⟩ := exists_built numbered tree h
  refine ⟨?_, ?_, ?_, fun i y hy => built.references ok scanned hy, ?_⟩
  · intro n hn
    obtain ⟨way, located⟩ := scanned.located ok (built.visitedAt ok scanned hn)
    rw [built.scopeChain_eq, built.opener?_eq]
    exact ⟨way, scanned.chain_of_located ok way located⟩
  · intro u v e hu hv
    rw [built.opener?_eq] at hu hv
    exact scanned.opener?_injective ok hu hv
  · intro k hk
    obtain ⟨x, name⟩ := built.named _ ((built.mention_of_reference ok scanned hk).mpr rfl).1
    have name : k.name = some x := name
    have bound := built.bound_of_reference ok scanned hk
    have referent : b.referent? (.read k (m.scopeOf k)) = b.lookup (m.scopeOf k) x := by
      simp [referent?, Mention.ident, Mention.scope, name]
    have unbound := built.isUnbound_of_reference ok scanned hk name
    rw [referent] at bound
    refine ⟨x, name, ?_⟩
    cases found : b.lookup (m.scopeOf k) x with
    | some i =>
      obtain ⟨before, u, after, y, chain, none, declares, hy, stored, named, scope⟩ :=
        built.lookup_eq_some ok scanned found
      refine .inl ⟨before, u, after, y, chain, none, declares, stored, named, scope, ?_, ?_⟩
      · rw [binding?, bound, found, bind_some, hy]
      · rw [unbound, found]
        rfl
    | none =>
      refine .inr ⟨?_, ?_, ?_⟩
      · rw [built.lookup_eq, List.findSome?_eq_none_iff] at found
        simpa only [built.declares_iff ok scanned, Option.not_isSome_iff_eq_none] using found
      · rw [binding?, bound, found, bind_none]
      · rw [unbound, found]
        rfl
  · intro x
    obtain ⟨nodup, mem⟩ := built.flatMap_references ok scanned (b.misses x)
    rw [built.globals]
    refine ⟨nodup, fun k => ?_⟩
    rw [mem]
    apply and_congr_right
    intro hk
    simp only [misses, Mention.ident, Mention.scope, Bool.and_eq_true, beq_iff_eq]
    apply and_congr_right
    intro name
    rw [built.isUnbound_of_reference ok scanned hk name]

end Model

namespace Hoisted

def use : Node := .identifier 4 "a"

def caller : Node := .call 2 (.identifier 3 "g") [use]

def declared : Node := .declaration 5 "a" (.textLiteral 8 "x")

def program : Node :=
  .script [.statement 1 caller, declared]

lemma wellFormed : program.WellFormed := Node.wellFormed_check (by decide)

lemma oneParent : program.OneParent := Node.oneParent_of_check wellFormed.toWellNumbered (by decide)

lemma isUse {path : List (Node × Field)} (way : program.Way path use) : program.IsUse path use := by
  have below : program.Below caller := (Node.Below.refl.link mem_cons_self).link mem_cons_self
  have argument : (.arguments, some use) ∈ caller.links := mem_cons_of_mem _ mem_cons_self
  obtain ⟨g, rest, rfl, -⟩ := way.eq_cons oneParent below argument
  exact Node.isUse_of_check wellFormed.toWellNumbered (by decide) rfl

lemma declaresIn : ∃ d, program.DeclaresIn (.program, program) d ∧ d.ident.name = some "a" := by
  have way : program.Way [(program, .body)] declared := .link .root (mem_cons_of_mem _ mem_cons_self)
  exact ⟨_, ⟨declared, _, way, mem_cons_self, rfl⟩, rfl⟩

end Hoisted

open Hoisted

/-- A name is declared by a declaration that comes later. -/
theorem resolved_lexically_hoisted : ∃ m u y, Model.ofProgram program "" false = .ok m ∧
    m.bindingIn? u "a" = some y ∧ m.binding? use = some y ∧ use ∈ y.references := by
  obtain ⟨m, hm⟩ := Model.exists_ofProgram wellFormed.toWellNamed "" false
  obtain ⟨ways, -, references, listed, -⟩ :=
    Model.resolved_lexically wellFormed.toWellNumbered oneParent hm
  have root : m.root = program := (Model.eq_of_ofProgram hm).1
  have below : program.Below use :=
    ((Node.Below.refl.link mem_cons_self).link mem_cons_self).link
      (mem_cons_of_mem _ mem_cons_self)
  obtain ⟨way, chain⟩ := ways _ below
  have reference : m.IsReference use := ⟨root ▸ below, root ▸ isUse way⟩
  obtain ⟨x, name, ⟨_, u, _, y, -, -, -, stored, -, -, bound, -⟩ | ⟨none, -, -⟩⟩ := references _ reference
  · obtain rfl : "a" = x := some.inj name
    obtain ⟨i, -, hy⟩ := Option.bind_eq_some_iff.mp bound
    exact ⟨m, u, y, hm, stored, bound, ((listed i y hy).2 _).mpr ⟨reference, bound⟩⟩
  · obtain rfl : "a" = x := some.inj name
    have last : some (ScopeSort.program, program) ∈ (m.scopeChain use).map m.opener? := by
      rw [chain]
      simp [Node.scopesAround]
    obtain ⟨u, hu, opener⟩ := mem_map.mp last
    obtain ⟨d, declares, named⟩ := declaresIn
    exact absurd ⟨_, d, opener, root ▸ declares, named⟩ (none u hu)

/-! ## References stand in source order

A use is noted when its node is listed, so the references of each binding stand in the order of the walk. -/

namespace Build

open Node

def ReadsListed (b : Build) : Prop :=
  (b.reads.map (·.1)).Sublist b.nodes

lemma kept_readsListed (root : Node) : Kept root ReadsListed := by
  intro b n path scope _ _ h
  have reads : ((b.place n path scope).enter n path scope).2.reads = _ :=
    (congrArg Build.reads core_enter_place).trans (reads_foldl_effects (b.core.place n path scope) n path scope)
  unfold ReadsListed
  rw [reads, (sameNodes_enter (b.place n path scope) n path scope).2, map_append]
  split
  · exact h.cons_cons n
  · exact h.cons n

lemma reads_pass_sublist {root : Node} (numbered : root.WellNumbered) :
    ((pass root (nodeBound root.walk)).reads.map (·.1)).reverse.Sublist root.walk := by
  have listed : ReadsListed (pass root (nodeBound root.walk)) :=
    (kept_readsListed root).visit 0 .refl (by simp) (nil_sublist _)
  refine listed.reverse.trans ?_
  rw [nodes_pass numbered]
  exact freshBy_sublist id [] root.walk

end Build

namespace Model

open Build

variable {root : Node} {source : String} {isModule : Bool} {m : Model}

lemma references_sublist_walk (numbered : root.WellNumbered) (tree : root.OneParent)
    (h : ofProgram root source isModule = .ok m) {i : Nat} {y : Binding} (hy : m.bindings[i]? = some y) :
    y.references.Sublist root.walk := by
  have ok := scannable_nodeBound numbered tree
  have built := built_pass numbered tree h
  rw [(built.getElem?_bindings ok (scanned_pass ok) hy).2]
  exact (references_sublist_reads _ _).trans (reads_pass_sublist numbered)

end Model

end ScriptAudit
