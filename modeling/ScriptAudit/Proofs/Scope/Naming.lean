import Mathlib.Data.List.Find
import ScriptAudit.Proofs.Scope.Gathered

/-!
# Which names the scopes declare

The names in the tables of the scopes are those that the tree declares there, each stored with a
binding of that name.
-/

namespace ScriptAudit

open List

def Binding.write (y : Binding) (writers : List Node) : Binding :=
  { y with violations := y.violations ++ writers }

@[simp] lemma Binding.write_nil (y : Binding) : y.write [] = y := by
  simp [write]

namespace Build

open Node

variable {root n p k ident : Node} {b c : Build} {path : List (Node × Field)} {scope size u : Nat} {x : String}
  {d : Declaration}

def namesAt (b : Build) (u : Nat) (x : String) : Option Nat :=
  (b.scopes[u]?).bind fun s => s.names.get? x

lemma getElem?_addViolation (b : Build) (uid i : Nat) (w : Node) :
    (b.addViolation uid w).bindings[i]? = (b.bindings[i]?).map fun y => y.write (if uid = i then [w] else []) := by
  simp only [addViolation, Array.getElem?_modify]
  split
  · rfl
  · simp

def Declaration.rewrites (d : Declaration) : Bool :=
  d.place.depth == 0 && d.initial.isSome && d.sort != .function

/-- Without a name nothing is declared. A name that the scope has keeps its binding, which may be
written to, and any other name, or a parameter, gets a new one. -/
lemma declare_cases (b : Build) (scope : Nat) (ident : Node) (d : Declaration) : ∃ c,
    (b.declare scope ident d = (none, c) ∧ ident.name = none ∧ c.bindings = b.bindings ∧ c.bound = b.bound ∧
      c.namesAt = b.namesAt) ∨
    (∃ x u, b.declare scope ident d = (some u, c) ∧ ident.name = some x ∧ b.namesAt scope x = some u ∧
      d.sort ≠ .param ∧ (∀ i : Nat, c.bindings[i]? = (b.bindings[i]?).map fun y =>
        y.write (if d.rewrites = true ∧ u = i then [d.declarator.getD ident] else [])) ∧
      c.bound = b.bound.insert ident u ∧ c.namesAt = b.namesAt) ∨
    ∃ x, b.declare scope ident d = (some b.bindings.size, c) ∧ ident.name = some x ∧
      (b.namesAt scope x = none ∨ d.sort = .param) ∧
      c.bindings = b.bindings.push (d.binding b.bindings.size scope ident x) ∧
      c.bound = b.bound.insert ident b.bindings.size ∧ ∀ u y, c.namesAt u y =
        if u = scope ∧ y = x ∧ scope < b.scopes.size then some b.bindings.size else b.namesAt u y := by
  refine ⟨(b.declare scope ident d).2, ?_⟩
  unfold declare
  cases hname : ident.name with
  | none => exact .inl ⟨rfl, rfl, rfl, rfl, rfl⟩
  | some x =>
    dsimp only
    split
    next uid known sort =>
      refine .inr (.inl ⟨x, uid, rfl, rfl, known, by simpa using sort, ?_⟩)
      split
      next rewritten =>
        have rewrites : d.rewrites = true := rewritten
        exact ⟨fun i => by simp [getElem?_addViolation, rewrites], rfl, rfl⟩
      next rewritten =>
        have rewrites : ¬d.rewrites = true := rewritten
        exact ⟨fun i => by simp [rewrites], rfl, rfl⟩
    next unknown =>
      refine .inr (.inr ⟨x, rfl, rfl, ?_, rfl, rfl, fun u y => ?_⟩)
      · by_cases param : d.sort = .param
        · exact .inr param
        · refine .inl (Option.eq_none_iff_forall_ne_some.mpr fun uid known => ?_)
          exact unknown uid known (by simpa using param)
      · simp only [namesAt, Array.getElem?_modify]
        by_cases hu : u = scope
        · subst hu
          by_cases hy : y = x
          · subst hy
            by_cases inside : u < b.scopes.size <;> simp [inside, Table.get?_insert_self]
          · cases b.scopes[u]? <;> simp [hy, Table.get?_insert_of_ne hy]
        · simp [hu, Ne.symm hu]

lemma namesAt_opens {sort : ScopeSort} {node : Node} {outer : List Nat} :
    (b.apply (.opens sort node outer)).namesAt = b.namesAt := by
  funext u x
  simp only [apply, openScope, namesAt, Array.getElem?_push]
  split
  next eq =>
    subst eq
    simp [Table.empty, Table.get?]
  next => rfl

lemma apply_of_not_declares (e : Effect) (h : e.declared? = none) :
    (b.apply e).namesAt = b.namesAt ∧ (b.apply e).bindings = b.bindings ∧ (b.apply e).bound = b.bound := by
  cases e with
  | opens sort node outer => exact ⟨namesAt_opens, rfl, rfl⟩
  | declares scope ident d => cases h
  | _ => exact ⟨rfl, rfl, rfl⟩

def Target (b : Build) (p : Node) (reach : Reach) (u : Nat) : Prop :=
  ∃ path scope, b.VisitedAt p path scope ∧
    match reach with
    | .around => u = scope
    | .hoisted => u = b.varScope scope
    | .inside => 0 < u ∧ ∃ o, b.outlines[u]? = some o ∧ o.node = p
    | .program => u = 0

def Declares (b : Build) (u : Nat) (d : NameDeclaration) : Prop := ∃ p, d ∈ p.names ∧ b.Target p d.reach u

section

variable (ok : Scannable root size) (h : Scanned root size b) (way : root.Way path k) (located : b.Located path scope)
include ok h way located

lemma Scanned.valid_of_mem_chain {v : Nat} (hv : v ∈ b.scopeChain scope) : ∃ o, b.outlines[v]? = some o := by
  have chain := h.chain_of_located ok way located
  have mem : b.opener? v ∈ (b.scopeChain scope).map b.opener? := mem_map_of_mem hv
  rw [chain] at mem
  obtain ⟨e, -, he⟩ := mem_map.mp mem
  obtain ⟨o, ho, -⟩ := Option.map_eq_some_iff.mp he.symm
  exact ⟨o, ho⟩

lemma Scanned.varScope_eq (keeps : Keeps b c) :
    c.scopeChain scope = b.scopeChain scope ∧ c.varScope scope = b.varScope scope := by
  obtain ⟨o, ho⟩ := h.outline_of_located located
  have chain : c.scopeChain scope = b.scopeChain scope := by
    rw [scopeChain_eq, scopeChain_eq, ho, getElem?_mono keeps.outlines ho]
  refine ⟨chain, ?_⟩
  rw [Build.varScope_eq, Build.varScope_eq, ← scopeChain_eq, ← scopeChain_eq, chain]
  congr 1
  apply List.find?_congr
  intro v hv
  obtain ⟨o', ho'⟩ := h.valid_of_mem_chain ok way located hv
  rw [ho', getElem?_mono keeps.outlines ho']

lemma Scanned.reached_lt {reach : Reach} (outer : reach ≠ .inside) : b.reached scope reach < b.scopes.size := by
  have lt : ∀ {v o}, b.outlines[v]? = some o → v < b.scopes.size := by
    intro v o ho
    rw [← length_outlines]
    exact (List.getElem?_eq_some_iff.mp ho).1
  obtain ⟨o, ho⟩ := h.outline_of_located located
  cases reach with
  | around => exact lt ho
  | hoisted =>
    unfold reached varScope
    cases found : List.find? _ (b.scopeChain scope) with
    | none => exact lt ho
    | some v =>
      obtain ⟨o', ho'⟩ := h.valid_of_mem_chain ok way located (mem_of_find?_eq_some found)
      exact lt ho'
  | inside => exact absurd rfl outer
  | program => exact lt h.outline_zero

end

lemma opening?_of_innerNames {d : NameDeclaration} (hd : d ∈ n.innerNames) : ∃ sort, b.opening? n = some sort := by
  unfold innerNames at hd
  unfold opening?
  split at hd
  iterate 3 simp [*, Kind.isFunction]
  · simp [*, Kind.isFunction, Kind.opensBlock]
  · cases hd

section

variable (ok : Scannable root size) (h : Scanned root size b) (way : root.Way path n)
include ok h way

lemma Scanned.target_scan_of_mem (fresh : b.places.contains n = false) (seen : p ∈ b.nodes) {reach : Reach} :
    (b.scan n path scope).Target p reach u ↔ b.Target p reach u := by
  have keeps : Keeps b (b.scan n path scope) := keeps_scan fresh
  have unseen := h.unseen ok way.below_root fresh
  have visited : ∀ up s, (b.scan n path scope).VisitedAt p up s ↔ b.VisitedAt p up s := by
    intro up s
    rw [h.visitedAt_scan ok way.below_root fresh]
    refine ⟨?_, .inr⟩
    rintro (⟨rfl, -⟩ | old)
    · exact absurd seen unseen
    · exact old
  unfold Target
  simp only [visited]
  refine exists_congr fun up => exists_congr fun s => and_congr_right fun old => ?_
  obtain ⟨way', located'⟩ := h.located ok old
  cases reach with
  | hoisted => rw [(h.varScope_eq ok way' located' keeps).2]
  | inside =>
    refine and_congr_right fun _ => ?_
    constructor
    · rintro ⟨o, ho, rfl⟩
      rcases outlines_scan_get?.mp ho with older | ⟨_, _, -, rfl⟩
      · exact ⟨o, older, rfl⟩
      · exact absurd seen unseen
    · rintro ⟨o, ho, rfl⟩
      exact ⟨o, getElem?_mono keeps.outlines ho, rfl⟩
  | _ => exact Iff.rfl

lemma Scanned.target_scan_outer (located : b.Located path scope) (fresh : b.places.contains n = false)
    {reach : Reach} (outer : reach ≠ .inside) : (b.scan n path scope).Target n reach u ↔ b.reached scope reach = u := by
  have here : (b.scan n path scope).VisitedAt n path scope :=
    (h.visitedAt_scan ok way.below_root fresh).mpr (.inl ⟨rfl, rfl, rfl⟩)
  have keeps : Keeps b (b.scan n path scope) := keeps_scan fresh
  have hoist := (h.varScope_eq ok way located keeps).2
  constructor
  · rintro ⟨up, s, there, target⟩
    obtain ⟨rfl, rfl⟩ := there.unique here
    cases reach <;> simp_all [reached]
  · rintro rfl
    refine ⟨path, scope, here, ?_⟩
    cases reach <;> simp_all [reached]

lemma Scanned.target_scan_inside (fresh : b.places.contains n = false) {sort : ScopeSort}
    (opening : b.opening? n = some sort) : (b.scan n path scope).Target n .inside u ↔ b.scopes.size = u := by
  have here : (b.scan n path scope).VisitedAt n path scope :=
    (h.visitedAt_scan ok way.below_root fresh).mpr (.inl ⟨rfl, rfl, rfl⟩)
  constructor
  · rintro ⟨up, s, -, positive, o, ho, rfl⟩
    rcases outlines_scan_get?.mp ho with old | ⟨_, _, rfl, -⟩
    · exact absurd (h.mem_nodes_of_outline positive old) (h.unseen ok way.below_root fresh)
    · rfl
  · rintro rfl
    refine ⟨path, scope, here, ?_, _, outlines_scan_get?.mpr (.inr ⟨sort, opening, rfl, rfl⟩), rfl⟩
    rw [← length_outlines]
    exact Nat.lt_of_le_of_lt (Nat.zero_le _) (List.getElem?_eq_some_iff.mp h.outline_zero).1

lemma Scanned.declares_scan (located : b.Located path scope) (fresh : b.places.contains n = false)
    {d : NameDeclaration} : (b.scan n path scope).Declares u d ↔ b.Declares u d ∨
      (d ∈ n.outerNames ∧ b.reached scope d.reach = u) ∨ (d ∈ n.innerNames ∧ b.scopes.size = u) := by
  have old : ∀ {q}, q ∈ b.nodes → ((b.scan n path scope).Target q d.reach u ↔ b.Target q d.reach u) :=
    fun seen => h.target_scan_of_mem ok way fresh seen
  have outer : d ∈ n.outerNames → ((b.scan n path scope).Target n d.reach u ↔ b.reached scope d.reach = u) :=
    fun hd => h.target_scan_outer ok way located fresh (outerNames_apart hd).1
  have inner : d ∈ n.innerNames → ((b.scan n path scope).Target n d.reach u ↔ b.scopes.size = u) := by
    intro hd
    obtain ⟨sort, opening⟩ := opening?_of_innerNames (b := b) hd
    rw [(innerNames_inside hd).1]
    exact h.target_scan_inside ok way fresh opening
  constructor
  · rintro ⟨q, hd, target⟩
    obtain ⟨up, s, visited, -⟩ := id target
    rcases (h.visitedAt_scan ok way.below_root fresh).mp visited with ⟨rfl, -, -⟩ | seen
    · rcases mem_append.mp hd with hd | hd
      · exact .inr (.inl ⟨hd, (outer hd).mp target⟩)
      · exact .inr (.inr ⟨hd, (inner hd).mp target⟩)
    · exact .inl ⟨q, hd, (old seen.mem).mp target⟩
  · rintro (⟨q, hd, target⟩ | ⟨hd, reached⟩ | ⟨hd, reached⟩)
    · obtain ⟨up, s, visited, -⟩ := id target
      exact ⟨q, hd, (old visited.mem).mpr target⟩
    · exact ⟨n, mem_append_left _ hd, (outer hd).mpr reached⟩
    · exact ⟨n, mem_append_right _ hd, (inner hd).mpr reached⟩

end

lemma Scanned.lt_of_declares (ok : Scannable root size) (h : Scanned root size b) {d : NameDeclaration}
    (declares : b.Declares u d) : u < b.scopes.size := by
  obtain ⟨q, hd, path, scope, visited, target⟩ := declares
  obtain ⟨way, located⟩ := h.located ok visited
  cases hr : d.reach with
  | inside =>
    rw [hr] at target
    obtain ⟨-, o, ho, -⟩ := target
    rw [← length_outlines]
    exact (List.getElem?_eq_some_iff.mp ho).1
  | _ =>
    have outer : d.reach ≠ .inside := by simp [hr]
    have lt := h.reached_lt ok way located outer
    rw [hr] at target lt
    exact target ▸ lt

/-- What is known about names once some declarations were entered, each in its scope. -/
structure Entered (root : Node) (D : Nat → NameDeclaration → Prop) (b : Build) : Prop where
  names : ∀ u x, (b.namesAt u x).isSome = true ↔ ∃ d, D u d ∧ d.ident.name = some x
  stored : ∀ u x i, b.namesAt u x = some i → ∃ y, b.bindings[i]? = some y ∧ y.name = x ∧ y.scope = u
  unused : ∀ (i : Nat) y, b.bindings[i]? = some y → y.uid = i ∧ y.references = []
  bound : ∀ k, root.Below k → b.bound.contains k = true → ∃ u d, D u d ∧ d.ident = k
  violations : ∀ (i : Nat) y w, b.bindings[i]? = some y → w ∈ y.violations →
    ∃ d, D y.scope d ∧ d.ident.name = some y.name ∧ d.entry.rewrites = true ∧ w = d.writer
  recorded : ∀ u d x, D u d → d.reach ≠ .inside → d.ident.name = some x → d.entry.rewrites = true →
    ∃ i y, b.namesAt u x = some i ∧ b.bindings[i]? = some y ∧ (y.identifier = d.ident ∨ d.writer ∈ y.violations)

variable {D : Nat → NameDeclaration → Prop}

lemma Entered.congr {E : Nat → NameDeclaration → Prop} (h : Entered root D b) (eq : ∀ u d, D u d ↔ E u d) :
    Entered root E b := by
  obtain rfl : D = E := by
    funext u d
    exact propext (eq u d)
  exact h

lemma Entered.apply (h : Entered root D b) {e : Effect} (he : e.declared? = none) : Entered root D (b.apply e) := by
  obtain ⟨names, bindings, bound⟩ := apply_of_not_declares (b := b) e he
  constructor
  · rw [names]
    exact h.names
  · rw [names, bindings]
    exact h.stored
  · rw [bindings]
    exact h.unused
  · rw [bound]
    exact h.bound
  · rw [bindings]
    exact h.violations
  · rw [names, bindings]
    exact h.recorded

lemma Entered.foldl_apply {es : List Effect} (h : Entered root D b) (he : ∀ e ∈ es, e.declared? = none) :
    Entered root D (es.foldl Build.apply b) := by
  induction es generalizing b with
  | nil => exact h
  | cons e rest ih => exact ih (h.apply (he e mem_cons_self)) fun e' he' => he e' (mem_cons_of_mem _ he')

def plus (D : Nat → NameDeclaration → Prop) (scope : Nat) (d : NameDeclaration) : Nat → NameDeclaration → Prop :=
  fun u d' => D u d' ∨ scope = u ∧ d' = d

section Declaring

variable {d : NameDeclaration}

lemma Entered.nameless (h : Entered root D b) (nameless : d.ident.name = none) (bindings : c.bindings = b.bindings)
    (bound : c.bound = b.bound) (names : c.namesAt = b.namesAt) : Entered root (plus D scope d) c := by
  have old : ∀ {u d' x}, plus D scope d u d' → d'.ident.name = some x → D u d' := by
    rintro u d' x (old | ⟨rfl, rfl⟩) hx
    · exact old
    · rw [nameless] at hx
      cases hx
  constructor
  · intro u x
    rw [names, h.names]
    constructor
    · rintro ⟨d', hd', hx⟩
      exact ⟨d', .inl hd', hx⟩
    · rintro ⟨d', hd', hx⟩
      exact ⟨d', old hd' hx, hx⟩
  · rw [names, bindings]
    exact h.stored
  · rw [bindings]
    exact h.unused
  · rw [bound]
    intro k hk contained
    obtain ⟨u, d', hd', eq⟩ := h.bound k hk contained
    exact ⟨u, d', .inl hd', eq⟩
  · rw [bindings]
    intro i y w hy hw
    obtain ⟨d', hd', rest⟩ := h.violations i y w hy hw
    exact ⟨d', .inl hd', rest⟩
  · rw [names, bindings]
    intro u d' x hd' outer hx
    exact h.recorded u d' x (old hd' hx) outer hx

lemma Entered.bound_plus (h : Entered root D b) (fits : Fits root b.bound) (numbered : root.WellNumbered)
    (below : root.Below d.ident) {i : Nat} (bound : c.bound = b.bound.insert d.ident i) (hk : root.Below k)
    (contained : c.bound.contains k = true) : ∃ u d', plus D scope d u d' ∧ d'.ident = k := by
  rw [bound] at contained
  rcases (fits.contains_insert numbered below hk).mp contained with rfl | old
  · exact ⟨scope, d, .inr ⟨rfl, rfl⟩, rfl⟩
  · obtain ⟨u, d', hd', rfl⟩ := h.bound k hk old
    exact ⟨u, d', .inl hd', rfl⟩

lemma Entered.known (h : Entered root D b) {i : Nat} (name : d.ident.name = some x) (known : b.namesAt scope x = some i)
    (bindings : ∀ j : Nat, c.bindings[j]? = (b.bindings[j]?).map fun y =>
      y.write (if d.entry.rewrites = true ∧ i = j then [d.writer] else []))
    (bound : ∀ k, root.Below k → c.bound.contains k = true → ∃ u d', plus D scope d u d' ∧ d'.ident = k)
    (names : c.namesAt = b.namesAt) : Entered root (plus D scope d) c := by
  refine ⟨?_, ?_, ?_, bound, ?_, ?_⟩
  · intro u x'
    rw [names, h.names]
    constructor
    · rintro ⟨d', hd', hx⟩
      exact ⟨d', .inl hd', hx⟩
    · rintro ⟨d', hd' | ⟨rfl, rfl⟩, hx⟩
      · exact ⟨d', hd', hx⟩
      · obtain rfl : x = x' := by simpa [name] using hx
        exact (h.names _ _).mp (by simp [known])
  · rw [names]
    intro u x' j found
    obtain ⟨y, hy, hname, hscope⟩ := h.stored u x' j found
    exact ⟨y.write _, by rw [bindings, hy]; rfl, hname, hscope⟩
  · intro j y hy
    rw [bindings] at hy
    obtain ⟨z, hz, rfl⟩ := Option.map_eq_some_iff.mp hy
    exact ⟨(h.unused j z hz).1, (h.unused j z hz).2⟩
  · intro j y w hy hw
    rw [bindings] at hy
    obtain ⟨z, hz, rfl⟩ := Option.map_eq_some_iff.mp hy
    rcases mem_append.mp hw with old | new
    · obtain ⟨d', hd', rest⟩ := h.violations j z w hz old
      exact ⟨d', .inl hd', rest⟩
    · split at new
      next here =>
        obtain ⟨rewrites, rfl⟩ := here
        obtain ⟨z', hz', hname, hscope⟩ := h.stored _ _ _ known
        obtain rfl : z' = z := by simpa [hz'] using hz
        exact ⟨d, .inr ⟨hscope.symm, rfl⟩, by rw [name, ← hname]; rfl, rewrites, mem_singleton.mp new⟩
      next => cases new
  · rintro u d' x' (old | ⟨rfl, rfl⟩) outer hx rewrites
    · obtain ⟨j, y, found, hy, made⟩ := h.recorded u d' x' old outer hx rewrites
      refine ⟨j, y.write _, by rw [names, found], by rw [bindings, hy]; rfl, ?_⟩
      exact made.imp id (mem_append_left _)
    · obtain rfl : x = x' := by simpa [name] using hx
      obtain ⟨y, hy, -, -⟩ := h.stored _ _ _ known
      refine ⟨i, y.write _, by rw [names, known], by rw [bindings, hy]; rfl, .inr ?_⟩
      simp [Binding.write, rewrites]

lemma Entered.anew (h : Entered root D b) (name : d.ident.name = some x)
    (unknown : b.namesAt scope x = none ∨ d.entry.sort = .param)
    (apart : d.entry.sort = .param → ∀ d', D scope d' → d'.reach = .inside)
    (bindings : c.bindings = b.bindings.push (d.entry.binding b.bindings.size scope d.ident x))
    (bound : ∀ k, root.Below k → c.bound.contains k = true → ∃ u d', plus D scope d u d' ∧ d'.ident = k)
    (names : ∀ u y, c.namesAt u y = if u = scope ∧ y = x then some b.bindings.size else b.namesAt u y) :
    Entered root (plus D scope d) c := by
  have keeps : ∀ {j : Nat} {y : Binding}, b.bindings[j]? = some y → c.bindings[j]? = some y := by
    intro j y hy
    have lt : j < b.bindings.size := (Array.getElem?_eq_some_iff.mp hy).1
    rw [bindings, Array.getElem?_push, if_neg (Nat.ne_of_lt lt), hy]
  have pushed : ∀ {j : Nat} {y : Binding}, c.bindings[j]? = some y →
      (j = b.bindings.size ∧ y = d.entry.binding b.bindings.size scope d.ident x) ∨ b.bindings[j]? = some y := by
    intro j y hy
    rw [bindings, Array.getElem?_push] at hy
    split at hy
    next eq => exact .inl ⟨eq, (Option.some.inj hy).symm⟩
    next => exact .inr hy
  have last : c.bindings[b.bindings.size]? = some (d.entry.binding b.bindings.size scope d.ident x) := by
    rw [bindings, Array.getElem?_push, if_pos rfl]
  refine ⟨?_, ?_, ?_, bound, ?_, ?_⟩
  · intro u x'
    rw [names]
    split
    next here =>
      obtain ⟨rfl, rfl⟩ := here
      exact ⟨fun _ => ⟨d, .inr ⟨rfl, rfl⟩, name⟩, fun _ => rfl⟩
    next other =>
      rw [h.names]
      constructor
      · rintro ⟨d', hd', hx⟩
        exact ⟨d', .inl hd', hx⟩
      · rintro ⟨d', hd' | ⟨rfl, rfl⟩, hx⟩
        · exact ⟨d', hd', hx⟩
        · rw [name, Option.some.injEq] at hx
          exact absurd ⟨rfl, hx.symm⟩ other
  · intro u x' j found
    rw [names] at found
    split at found
    next here =>
      obtain ⟨rfl, rfl⟩ := here
      obtain rfl := Option.some.inj found
      exact ⟨_, last, rfl, rfl⟩
    next =>
      obtain ⟨y, hy, rest⟩ := h.stored u x' j found
      exact ⟨y, keeps hy, rest⟩
  · intro j y hy
    rcases pushed hy with ⟨rfl, rfl⟩ | old
    · exact ⟨rfl, rfl⟩
    · exact h.unused j y old
  · intro j y w hy hw
    rcases pushed hy with ⟨rfl, rfl⟩ | old
    · cases hw
    · obtain ⟨d', hd', rest⟩ := h.violations j y w old hw
      exact ⟨d', .inl hd', rest⟩
  · intro u d' x' hd' outer hx rewrites
    rw [names]
    split
    next here =>
      obtain ⟨rfl, rfl⟩ := here
      refine ⟨_, _, rfl, last, .inl ?_⟩
      rcases hd' with old | ⟨-, rfl⟩
      · rcases unknown with free | param
        · have taken := (h.names u x').mpr ⟨d', old, hx⟩
          rw [free] at taken
          cases taken
        · exact absurd (apart param d' old) outer
      · rfl
    next other =>
      rcases hd' with old | ⟨rfl, rfl⟩
      · obtain ⟨j, y, found, hy, made⟩ := h.recorded u d' x' old outer hx rewrites
        exact ⟨j, y, found, keeps hy, made⟩
      · rw [name, Option.some.injEq] at hx
        exact absurd ⟨rfl, hx.symm⟩ other

lemma Entered.declare (h : Entered root D b) (fits : Fits root b.bound) (numbered : root.WellNumbered)
    (inside : scope < b.scopes.size) (below : root.Below d.ident)
    (apart : d.entry.sort = .param → ∀ d', D scope d' → d'.reach = .inside) :
    Entered root (plus D scope d) (b.apply (declaring scope d)) := by
  change Entered root (plus D scope d) (b.declare scope d.ident d.entry).2
  obtain ⟨c, ⟨eq, nameless, bindings, bound, names⟩ | ⟨x, i, eq, name, known, -, bindings, bound, names⟩ |
    ⟨x, eq, name, unknown, bindings, bound, names⟩⟩ := b.declare_cases scope d.ident d.entry <;> rw [eq]
  · exact h.nameless nameless bindings bound names
  · exact h.known name known bindings (fun k => h.bound_plus fits numbered below bound) names
  · simp only [inside, and_true] at names
    exact h.anew name unknown apart bindings (fun k => h.bound_plus fits numbered below bound) names

end Declaring

lemma fits_bound_foldl (es : List Effect) (fits : Fits root b.bound) : Fits root (es.foldl apply b).bound := by
  intro n i hn hi
  have same := foldl_apply_of_keeps sizes sizes_apply b es
  simp only [sizes, List.cons.injEq] at same
  rw [same.2.2.2.2.2.1]
  exact fits n i hn hi

lemma Entered.foldl_declaring (target : NameDeclaration → Nat) (ds : List NameDeclaration) (h : Entered root D b)
    (fits : Fits root b.bound) (numbered : root.WellNumbered) (inside : ∀ d ∈ ds, target d < b.scopes.size)
    (below : ∀ d ∈ ds, root.Below d.ident)
    (apart : ∀ d ∈ ds, d.entry.sort = .param → ∀ d', D (target d) d' ∨ d' ∈ ds → d'.reach = .inside) :
    Entered root (fun u d => D u d ∨ d ∈ ds ∧ target d = u)
      ((ds.map fun d => declaring (target d) d).foldl Build.apply b) := by
  induction ds generalizing b D with
  | nil => exact h.congr (by simp)
  | cons d rest ih =>
    have first := h.declare fits numbered (inside d mem_cons_self) (below d mem_cons_self)
      fun param d' hd' => apart d mem_cons_self param d' (.inl hd')
    have size : (b.apply (declaring (target d) d)).scopes.size = b.scopes.size :=
      size_eq_of_outlines (outlines_declare b _ _ _)
    have all := ih first (fits_bound_foldl [declaring (target d) d] fits)
      (fun d' hd' => size ▸ inside d' (mem_cons_of_mem _ hd'))
      (fun d' hd' => below d' (mem_cons_of_mem _ hd')) ?_
    · refine all.congr fun u d' => ?_
      simp only [plus, mem_cons]
      grind
    · intro d' hd' param d'' hd''
      apply apart d' (mem_cons_of_mem _ hd') param
      rcases hd'' with (old | ⟨-, rfl⟩) | new
      · exact .inl old
      · exact .inr mem_cons_self
      · exact .inr (mem_cons_of_mem _ new)

lemma Entered.effects (h : Entered root D b) (path : List (Node × Field)) (fits : Fits root b.bound)
    (numbered : root.WellNumbered) (hn : root.Below n) (open_ : ∀ u d, D u d → u < b.scopes.size)
    (outside : ∀ d ∈ n.outerNames, b.reached scope d.reach < b.scopes.size) :
    Entered root (fun u d => (D u d ∨ d ∈ n.outerNames ∧ b.reached scope d.reach = u) ∨
        d ∈ n.innerNames ∧ b.scopes.size = u) ((b.effects n path scope).foldl Build.apply b) := by
  have outer := h.foldl_declaring (fun d => b.reached scope d.reach) n.outerNames fits numbered outside
    (fun d hd => hn.trans (below_of_mem_outerNames hd))
    (fun d hd param => absurd param (outerNames_apart hd).2)
  have size := size_eq_of_outlines (outlines_foldl_declaring b (fun d => b.reached scope d.reach) n.outerNames)
  unfold Build.effects
  rw [foldl_append, foldl_append, foldl_append]
  apply Entered.foldl_apply
  · apply Entered.foldl_declaring
    · apply outer.foldl_apply
      simp [Effect.declared?]
    · exact fits_bound_foldl _ (fits_bound_foldl _ fits)
    · exact numbered
    · intro d hd
      obtain ⟨sort, opening⟩ := opening?_of_innerNames (b := b) hd
      simp [opening, Build.apply, openScope, size]
    · exact fun d hd => hn.trans (below_of_mem_innerNames hd)
    · rintro d hd - d' ((old | ⟨hd', eq⟩) | hd')
      · exact absurd (open_ _ _ old) (Nat.lt_irrefl _)
      · exact absurd (eq ▸ outside d' hd') (Nat.lt_irrefl _)
      · exact (innerNames_inside hd').1
  · intro e he
    simp only [mem_append, mem_map, Option.mem_toList] at he
    rcases he with ⟨body, -, rfl⟩ | ⟨t, -, rfl⟩ | he
    · rfl
    · rfl
    · split at he
      · obtain rfl := mem_singleton.mp he
        rfl
      · cases he

lemma entered_start : Entered root (((start size).openScope .program root []).2.Declares)
    ((start size).openScope .program root []).2 := by
  have none : ∀ u x, ((start size).openScope .program root []).2.namesAt u x = none := by
    intro u x
    have fresh : (start size).namesAt u x = none := rfl
    exact congrFun (congrFun namesAt_opens u) x
  have undeclared : ∀ u d, ¬((start size).openScope .program root []).2.Declares u d := by
    rintro u d ⟨p, -, path, scope, visited, -⟩
    cases visited.mem
  constructor
  · simp [none, undeclared]
  · simp [none]
  · simp [openScope, start]
  · intro k _ contained
    simp [openScope, start, NodeMap.contains, NodeMap.get?_empty] at contained
  · simp [openScope, start]
  · simp [undeclared]

lemma Scanned.entered (ok : Scannable root size) (h : Scanned root size b) : Entered root b.Declares b := by
  induction h with
  | start => exact entered_start
  | @visit b n path scope h way located fresh ih =>
    have placed : Entered root b.Declares (b.place n path scope) :=
      ⟨ih.names, ih.stored, ih.unused, ih.bound, ih.violations, ih.recorded⟩
    have fits : Fits root (b.place n path scope).bound := (h.roomy ok).bound
    have outside : ∀ d ∈ n.outerNames,
        (b.place n path scope).reached scope d.reach < (b.place n path scope).scopes.size := by
      intro d hd
      exact h.reached_lt ok way located (outerNames_apart hd).1
    have next := placed.effects path fits ok.numbered way.below_root (fun u d => h.lt_of_declares ok) outside
    refine next.congr fun u d => ?_
    rw [h.declares_scan ok way located fresh, or_assoc]
    rfl

end Build

end ScriptAudit
