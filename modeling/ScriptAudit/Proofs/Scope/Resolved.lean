import ScriptAudit.Proofs.Scope.Naming

/-!
# Resolving names

After the pass the scopes do not change any more.
-/

namespace ScriptAudit

open List

def Binding.refer (y : Binding) (idents : List Node) : Binding :=
  { y with references := y.references ++ idents }

namespace Build

open Binding Node

variable {root k : Node} {b c : Build} {x : String} {i s size : Nat} {es : List Mention} {e : Mention}

/-- An identifier to be looked up from a scope. A write also has the node that writes. -/
inductive Mention where
  | read (ident : Node) (scope : Nat)
  | write (ident writer : Node) (scope : Nat)

namespace Mention

def ident : Mention → Node
  | read ident _ => ident
  | write ident _ _ => ident

def scope : Mention → Nat
  | read _ scope => scope
  | write _ _ scope => scope

def references : Mention → List Node
  | read ident _ => [ident]
  | write _ _ _ => []

def writers : Mention → List Node
  | read _ _ => []
  | write _ writer _ => [writer]

end Mention

def resolve (b : Build) : Mention → Build
  | .read ident scope => b.resolveRead (ident, scope)
  | .write ident writer scope => b.resolveWrite (ident, writer, scope)

def mentions (b : Build) : List Mention :=
  b.reads.reverse.map (fun r => .read r.1 r.2) ++ b.writes.reverse.map fun w => .write w.1 w.2.1 w.2.2

def referent? (b : Build) (e : Mention) : Option Nat := e.ident.name.bind (b.lookup e.scope)

def misses (b : Build) (x : String) (e : Mention) : Bool :=
  e.ident.name == some x && (b.lookup e.scope x).isNone

def hits (b : Build) (i : Nat) (es : List Mention) : List Mention := es.filter (b.referent? · == some i)

/-- What some lookups change. -/
structure Resolves (b c : Build) (es : List Mention) : Prop where
  nodes : SameNodes b c
  paths : c.paths = b.paths
  params : c.params = b.params
  scopes : c.scopes = b.scopes
  size : c.bound.slots.size = b.bound.slots.size
  bindings : ∀ i : Nat, c.bindings[i]? = (b.bindings[i]?).map fun y =>
    (y.refer ((b.hits i es).flatMap (·.references))).write ((b.hits i es).flatMap (·.writers))
  globals : ∀ x, c.globals.getD x [] = b.globals.getD x [] ++ (es.filter (b.misses x)).flatMap (·.references)
  implicitGlobals : ∀ x, c.implicitGlobals.getD x [] =
    b.implicitGlobals.getD x [] ++ (es.filter (b.misses x)).flatMap (·.writers)
  nameless : c.nameless = (b.nameless || es.any (·.ident.name.isNone))

lemma Resolves.lookup_eq (h : Resolves b c es) : c.lookup = b.lookup := by
  funext s x
  unfold lookup scopeChain
  rw [h.scopes]

section Outcomes

lemma misses_eq (name : e.ident.name = some x) (y : String) :
    b.misses y e = (decide (x = y) && (b.lookup e.scope x).isNone) := by
  by_cases eq : x = y
  · simp [misses, name, ← eq]
  · simp [misses, name, eq]

lemma hits_eq (name : e.ident.name = some x) (i : Nat) :
    b.hits i [e] = if b.lookup e.scope x = some i then [e] else [] := by
  by_cases eq : b.lookup e.scope x = some i <;> simp [hits, referent?, name, eq]

lemma resolves_nameless (name : e.ident.name = none) : Resolves b { b with nameless := true } [e] := by
  have missed : ∀ x, b.misses x e = false := fun x => by simp [misses, name]
  have hit : ∀ i, b.hits i [e] = [] := fun i => by simp [hits, referent?, name]
  refine ⟨⟨rfl, rfl⟩, rfl, rfl, rfl, rfl, ?_, ?_, ?_, ?_⟩
  · simp [hit, refer]
  · simp [missed]
  · simp [missed]
  · simp [name]

lemma resolves_missed {globals implicitGlobals : Table String (List Node)} (name : e.ident.name = some x)
    (missed : b.lookup e.scope x = none)
    (reads : ∀ y, globals.getD y [] = b.globals.getD y [] ++ if x = y then e.references else [])
    (writes : ∀ y, implicitGlobals.getD y [] = b.implicitGlobals.getD y [] ++ if x = y then e.writers else []) :
    Resolves b { b with globals, implicitGlobals } [e] := by
  have filter : ∀ y, [e].filter (b.misses y) = if x = y then [e] else [] := by
    simp [filter_cons, misses_eq name, missed]
  refine ⟨⟨rfl, rfl⟩, rfl, rfl, rfl, rfl, ?_, ?_, ?_, ?_⟩
  · simp [hits_eq name, missed, refer]
  · intro y
    rw [reads, filter]
    split <;> simp
  · intro y
    rw [writes, filter]
    split <;> simp
  · simp [name]

lemma resolves_found {bindings : Array Binding} (name : e.ident.name = some x) (found : b.lookup e.scope x = some i)
    (changed : ∀ j : Nat, bindings[j]? = (b.bindings[j]?).map fun y =>
      if i = j then (y.refer e.references).write e.writers else y) :
    Resolves b { b with bindings, bound := b.bound.insert e.ident i } [e] := by
  refine ⟨⟨rfl, rfl⟩, rfl, rfl, rfl, NodeMap.size_insert, ?_, ?_, ?_, ?_⟩
  · intro j
    by_cases eq : i = j <;> simp [changed, hits_eq name, found, eq, refer, write]
  iterate 2 simp [misses_eq name, found]
  · simp [name]

end Outcomes

lemma resolves_resolve (b : Build) (e : Mention) :
    Resolves b (b.resolve e) [e] ∧ (b.resolve e).bound = (b.referent? e).elim b.bound (b.bound.insert e.ident) := by
  cases name : e.ident.name with
  | none =>
    have eq : b.resolve e = { b with nameless := true } := by
      cases e <;> simp_all [resolve, resolveRead, resolveWrite, Mention.ident]
    rw [eq]
    exact ⟨resolves_nameless name, by simp [referent?, name]⟩
  | some x =>
    cases found : b.lookup e.scope x with
    | none =>
      refine ⟨?_, ?_⟩
      · cases e with
        | read ident scope =>
          have eq : b.resolve (.read ident scope) = { b with globals := b.globals.push x ident } := by
            simp_all [resolve, resolveRead, Mention.ident, Mention.scope]
          rw [eq]
          exact resolves_missed name found (fun y => Table.getD_push) fun y => by simp [Mention.writers]
        | write ident writer scope =>
          have eq : b.resolve (.write ident writer scope) =
              { b with implicitGlobals := b.implicitGlobals.push x writer } := by
            simp_all [resolve, resolveWrite, Mention.ident, Mention.scope]
          rw [eq]
          exact resolves_missed name found (fun y => by simp [Mention.references]) fun y => Table.getD_push
      · cases e <;> simp_all [resolve, resolveRead, resolveWrite, Mention.ident, Mention.scope, referent?]
    | some i =>
      refine ⟨?_, ?_⟩
      · cases e with
        | read ident scope =>
          have eq : b.resolve (.read ident scope) =
              { b with bindings := (b.addReference i ident).bindings, bound := b.bound.insert ident i } := by
            simp_all [resolve, resolveRead, Mention.ident, Mention.scope, addReference]
          rw [eq]
          refine resolves_found name found fun j => ?_
          rw [addReference, Array.getElem?_modify]
          split <;> simp [Mention.references, Mention.writers, refer]
        | write ident writer scope =>
          have eq : b.resolve (.write ident writer scope) =
              { b with bindings := (b.addViolation i writer).bindings, bound := b.bound.insert ident i } := by
            simp_all [resolve, resolveWrite, Mention.ident, Mention.scope, addViolation]
          rw [eq]
          refine resolves_found name found fun j => ?_
          rw [addViolation, Array.getElem?_modify]
          split <;> simp [Mention.references, Mention.writers, refer, write]
      · cases e <;> simp_all [resolve, resolveRead, resolveWrite, Mention.ident, Mention.scope, referent?]

lemma Resolves.referent?_eq (h : Resolves b c es) : c.referent? = b.referent? := by
  unfold referent?
  rw [h.lookup_eq]

lemma Resolves.append {a : Build} {ds : List Mention} (h : Resolves a b ds) (h' : Resolves b c es) :
    Resolves a c (ds ++ es) := by
  have hits : ∀ i, a.hits i (ds ++ es) = a.hits i ds ++ b.hits i es := by
    intro i
    simp [Build.hits, h.referent?_eq]
  have misses : ∀ x, (ds ++ es).filter (a.misses x) = ds.filter (a.misses x) ++ es.filter (b.misses x) := by
    intro x
    unfold Build.misses
    simp [h.lookup_eq]
  constructor
  · exact h.nodes.trans h'.nodes
  · rw [h'.paths, h.paths]
  · rw [h'.params, h.params]
  · rw [h'.scopes, h.scopes]
  · rw [h'.size, h.size]
  · intro i
    rw [h'.bindings, h.bindings, hits]
    simp [Function.comp_def, refer, write]
  · intro x
    rw [h'.globals, h.globals, misses]
    simp
  · intro x
    rw [h'.implicitGlobals, h.implicitGlobals, misses]
    simp
  · rw [h'.nameless, h.nameless]
    simp [Bool.or_assoc]

lemma resolves_foldl (es : List Mention) (b : Build) : Resolves b (es.foldl resolve b) es := by
  induction es generalizing b with
  | nil => refine ⟨.refl b, rfl, rfl, rfl, rfl, ?_, ?_, ?_, ?_⟩ <;> simp [hits, refer, write]
  | cons e rest ih => exact (resolves_resolve b e).1.append (ih (b.resolve e))

section Bound

lemma fits_bound_resolve (fits : Fits root b.bound) (e : Mention) : Fits root (b.resolve e).bound := by
  intro n i hn hi
  rw [(resolves_resolve b e).1.size]
  exact fits n i hn hi

lemma get?_bound_resolve_self (numbered : root.WellNumbered) (fits : Fits root b.bound) (he : root.Below e.ident) :
    (b.resolve e).bound.get? e.ident = (b.referent? e).or (b.bound.get? e.ident) := by
  rw [(resolves_resolve b e).2]
  cases b.referent? e with
  | none => rfl
  | some i => exact fits.get?_insert_self numbered he

lemma get?_bound_resolve_of_ne (numbered : root.WellNumbered) (he : root.Below e.ident) (hk : root.Below k)
    (ne : k ≠ e.ident) : (b.resolve e).bound.get? k = b.bound.get? k := by
  rw [(resolves_resolve b e).2]
  cases b.referent? e with
  | none => rfl
  | some i => exact get?_insert_of_ne numbered he hk ne

section

variable (numbered : root.WellNumbered) (fits : Fits root b.bound) (below : ∀ e ∈ es, root.Below e.ident)
  (hk : root.Below k)
include numbered fits below hk

/-- If all mentions of an identifier have one referent, this is what it is bound to, once it is
mentioned. -/
lemma get?_bound_foldl {r : Option Nat} (same : ∀ e ∈ es, e.ident = k → b.referent? e = r) :
    (es.foldl resolve b).bound.get? k = r.or (b.bound.get? k) ∨
      (es.foldl resolve b).bound.get? k = b.bound.get? k ∧ ∀ e ∈ es, e.ident ≠ k := by
  induction es generalizing b with
  | nil => exact .inr ⟨rfl, by simp⟩
  | cons e rest ih =>
    have he := below e mem_cons_self
    have later := ih (fits_bound_resolve fits e) (fun d hd => below d (mem_cons_of_mem _ hd)) fun d hd eq => by
      rw [(resolves_resolve b e).1.referent?_eq]
      exact same d (mem_cons_of_mem _ hd) eq
    rw [foldl_cons]
    by_cases eq : e.ident = k
    · subst eq
      rw [get?_bound_resolve_self numbered fits he, same e mem_cons_self rfl] at later
      rcases later with bound | ⟨bound, -⟩
      · exact .inl (bound.trans (by cases r <;> rfl))
      · exact .inl bound
    · rw [get?_bound_resolve_of_ne numbered he hk (Ne.symm eq)] at later
      exact later.imp_right fun h => ⟨h.1, forall_mem_cons.mpr ⟨eq, h.2⟩⟩

end

end Bound

def pass (root : Node) (size : Nat) : Build := visit [] 0 root ((start size).openScope .program root []).2

lemma ofProgram_eq (root : Node) (size : Nat) :
    ofProgram root size = (pass root size).mentions.foldl resolve (pass root size) := by
  have keeps : ∀ (rs : List (Node × Nat)) (b : Build), (rs.foldl resolveRead b).writes = b.writes := by
    intro rs
    induction rs with
    | nil => exact fun _ => rfl
    | cons r rest ih =>
      intro b
      rw [foldl_cons, ih]
      unfold resolveRead
      dsimp only
      split
      · rfl
      · split <;> rfl
  unfold ofProgram mentions
  dsimp only
  rw [keeps, foldl_append, foldl_map, foldl_map]
  rfl

/-- The pass lists what stands in a program in the order in which a walk first comes to it. -/
lemma nodes_pass (numbered : root.WellNumbered) :
    (pass root (nodeBound root.walk)).nodes.reverse = distinct root.walk := by
  rw [pass, (traced_visit_root numbered).2.nodes]
  exact addAllNew_nil root.walk

lemma mem_nodes_pass (numbered : root.WellNumbered) (hn : root.Below n) :
    n ∈ (pass root (nodeBound root.walk)).nodes := by
  obtain ⟨traced, adds⟩ := traced_visit_root numbered
  exact adds.mem_of_mem numbered traced hn (mem_walk_of_below numbered .refl hn)

lemma Scanned.globals_empty (h : Scanned root size b) : b.globals = .empty ∧ b.implicitGlobals = .empty := by
  induction h with
  | start => exact ⟨rfl, rfl⟩
  | visit _ _ _ _ ih =>
    obtain ⟨-, -, -, globals, implicitGlobals⟩ := foldl_apply_keeps _ _
    exact ⟨globals.trans ih.1, implicitGlobals.trans ih.2⟩

lemma references_sublist_reads (b : Build) (P : Mention → Bool) :
    ((b.mentions.filter P).flatMap (·.references)).Sublist (b.reads.map (·.1)).reverse := by
  have eq : (b.mentions.filter P).flatMap (·.references) =
      (b.reads.reverse.filter fun r => P (.read r.1 r.2)).map (·.1) := by
    rw [map_eq_flatMap]
    simp only [mentions, filter_append, filter_map, flatMap_append, flatMap_map, Mention.references, Function.comp_def]
    simp
  rw [eq, ← map_reverse]
  exact filter_sublist.map _

lemma mem_mentions_read : .read k s ∈ b.mentions ↔ (k, s) ∈ b.reads := by
  simp [mentions]

lemma mem_mentions_write {t w : Node} : .write t w s ∈ b.mentions ↔ (t, w, s) ∈ b.writes := by
  simp [mentions]

lemma Scanned.below_of_mem_mentions (ok : Scannable root size) (h : Scanned root size b) (he : e ∈ b.mentions) :
    root.Below e.ident := by
  cases e with
  | read k s =>
    obtain ⟨path, visited, -⟩ := (h.reads_iff ok).mp (mem_mentions_read.mp he)
    exact h.below_of_mem visited.mem
  | write t w s =>
    obtain ⟨path, visited, ht⟩ := (h.writes_iff ok).mp (mem_mentions_write.mp he)
    exact (h.below_of_mem visited.mem).trans (below_of_mem_writtenBy ht)

lemma scanned_pass (ok : Scannable root size) : Scanned root size (pass root size).core :=
  (scanned_visit ok .start .root rfl).1

lemma scannable_nodeBound (numbered : root.WellNumbered) (tree : root.OneParent) :
    Scannable root (nodeBound root.walk) :=
  ⟨numbered, tree, fun _ _ hn => lt_nodeBound (Node.mem_walk_of_below numbered .refl hn)⟩

end Build

/-- A model is what the pass over its program has gathered, with the names looked up. -/
structure Model.Built (root : Node) (b : Build) (m : Model) : Prop where
  visited : ∀ n, root.Below n → n ∈ b.nodes
  program : m.root = root
  paths : m.paths = b.paths
  places : m.places = b.places
  scopes : m.scopes = b.scopes
  bindings : ∀ i : Nat, m.bindings[i]? = (b.bindings[i]?).map fun y =>
    (y.refer ((b.hits i b.mentions).flatMap (·.references))).write ((b.hits i b.mentions).flatMap (·.writers))
  globals : ∀ x, m.globals.getD x [] = (b.mentions.filter (b.misses x)).flatMap (·.references)
  implicitGlobals : ∀ x, m.implicitGlobals.getD x [] = (b.mentions.filter (b.misses x)).flatMap (·.writers)
  named : ∀ e ∈ b.mentions, ∃ x, e.ident.name = some x
  missed : ∀ k, root.Below k → (∀ e ∈ b.mentions, e.ident = k → b.referent? e = none) → m.bound.get? k = b.bound.get? k
  found : ∀ k i, root.Below k → (∀ e ∈ b.mentions, e.ident = k → b.referent? e = some i) →
    (∃ e ∈ b.mentions, e.ident = k) → m.bound.get? k = some i

namespace Model

open Build

variable {root : Node} {source : String} {isModule : Bool} {m : Model}

lemma mem_nodes (numbered : root.WellNumbered) (h : ofProgram root source isModule = .ok m) {n : Node}
    (hn : root.Below n) : n ∈ m.nodes := by
  rw [(eq_of_ofProgram h).2.1, ofProgram_eq, (resolves_foldl _ _).nodes.2]
  exact mem_reverse.mpr (mem_nodes_pass numbered hn)

lemma built_pass (numbered : root.WellNumbered) (tree : root.OneParent) (h : ofProgram root source isModule = .ok m) :
    Built root (pass root (nodeBound root.walk)).core m := by
  have ok := scannable_nodeBound numbered tree
  have scanned := scanned_pass ok
  have resolves := resolves_foldl (pass root (nodeBound root.walk)).mentions (pass root (nodeBound root.walk))
  have below : ∀ e ∈ (pass root (nodeBound root.walk)).mentions, root.Below e.ident :=
    fun e he => scanned.below_of_mem_mentions ok he
  have fits : Fits root (pass root (nodeBound root.walk)).bound := (scanned.roomy ok).bound
  unfold ofProgram at h
  rw [ofProgram_eq] at h
  dsimp only at h
  split at h
  next => cases h
  next named =>
    obtain rfl := Except.ok.inj h
    refine ⟨fun n => mem_nodes_pass numbered, rfl, resolves.paths, resolves.nodes.1, resolves.scopes, resolves.bindings,
      ?_, ?_, ?_, ?_, ?_⟩
    · intro x
      have empty : (pass root (nodeBound root.walk)).globals = .empty := scanned.globals_empty.1
      have all := resolves.globals x
      rwa [empty] at all
    · intro x
      have empty : (pass root (nodeBound root.walk)).implicitGlobals = .empty := scanned.globals_empty.2
      have all := resolves.implicitGlobals x
      rwa [empty] at all
    · intro e he
      rw [resolves.nameless, Bool.not_eq_true, Bool.or_eq_false_iff, any_eq_false] at named
      have some := named.2 e he
      rw [Bool.not_eq_true, Option.isNone_eq_false_iff, Option.isSome_iff_exists] at some
      exact some
    · exact fun k hk missed => (get?_bound_foldl numbered fits below hk missed).elim id (·.1)
    · rintro k i hk found ⟨e, he, eq⟩
      exact (get?_bound_foldl numbered fits below hk found).elim id fun h => absurd eq (h.2 e he)

lemma exists_built (numbered : root.WellNumbered) (tree : root.OneParent) (h : ofProgram root source isModule = .ok m) :
    ∃ b size, Scannable root size ∧ Scanned root size b ∧ Built root b m :=
  have ok := scannable_nodeBound numbered tree
  ⟨_, _, ok, scanned_pass ok, built_pass numbered tree h⟩

end Model

namespace Build

variable {b c : Build}

def Indexed (b : Build) : Prop :=
  ∀ (i : Nat) (y : Binding), b.bindings[i]? = some y → y.uid = i

lemma Indexed.declare (h : b.Indexed) (scope : Nat) (ident : Node) (d : Declaration) :
    (b.declare scope ident d).2.Indexed := by
  unfold Build.declare
  cases ident.name with
  | none => exact h
  | some name =>
    dsimp only
    split
    · split
      · intro i y hy
        rw [getElem?_addViolation] at hy
        obtain ⟨z, hz, rfl⟩ := Option.map_eq_some_iff.mp hy
        exact h i z hz
      · exact h
    · intro i y hy
      rw [Array.getElem?_push] at hy
      split at hy
      next last =>
        cases hy
        exact last.symm
      next => exact h i y hy

lemma kept_indexed (root : Node) : Kept root Indexed := by
  intro b n path scope hn _ h
  refine enter_induction (fun {c d} hcd hc => ?_) (b := b.place n path scope) h path scope hn
  cases hcd with
  | declares _ scope => exact hc.declare scope _ _
  | _ => exact hc

lemma indexed_ofProgram (root : Node) (size : Nat) : (ofProgram root size).Indexed := by
  have passed : (pass root size).Indexed := by
    refine (kept_indexed root).visit 0 .refl (by simp) ?_
    rintro i y hy
    cases hy
  rw [ofProgram_eq]
  intro i y hy
  rw [(resolves_foldl _ _).bindings] at hy
  obtain ⟨z, hz, rfl⟩ := Option.map_eq_some_iff.mp hy
  exact passed i z hz

end Build

lemma Model.uid_of_getElem?_bindings {root : Node} {source : String} {isModule : Bool} {m : Model}
    (h : ofProgram root source isModule = .ok m) {i : Nat} {y : Binding} (hy : m.bindings[i]? = some y) :
    y.uid = i := by
  rw [(eq_of_ofProgram h).2.2.2.1] at hy
  exact Build.indexed_ofProgram _ _ i y hy

end ScriptAudit
