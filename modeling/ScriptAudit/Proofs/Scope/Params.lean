import Mathlib.Data.List.Forall2
import Mathlib.Data.List.Induction
import ScriptAudit.Proofs.Scope.WellFormed

/-!
# Parameters

A function is listed with the bindings of its parameters, each with the position of its pattern and
its own place in it.
-/

namespace ScriptAudit

open List Node Option

/-- A binding that is declared by the parameter at position `i` of a function, by the target `t` of
its pattern. -/
structure Binding.DeclaredBy (y : Binding) (f : Node) (i : Nat) (t : PatternTarget) : Prop where
  pattern : ∃ p, (f.list .params)[i]? = some p ∧ t ∈ p.targets {}
  sort : y.sort = .param
  identifier : y.identifier = t.identifier
  function : y.function = some f
  paramIndex : y.paramIndex = some i
  key : y.key = t.place.key
  rest : y.rest = t.place.rest

/-- The names that a pattern declares, as they are written. -/
def Node.declared (pattern : Node) : List Node :=
  (pattern.targets {}).map (·.identifier)

/-- What the parameters of a function declare, in the order in which they are listed. -/
def Node.paramTargets (f : Node) : List (Nat × PatternTarget) :=
  (f.list .params).zipIdx.flatMap fun p => (p.1.targets {}).reverse.map (p.2, ·)

section Lists

variable {α β γ : Type}

lemma foldl_induction {step : β → α → β} {init : β} (P : β → List α → Prop) (nil : P init []) (xs : List α)
    (snoc : ∀ acc pre x, x ∈ xs → P acc pre → P (step acc x) (pre ++ [x])) : P (xs.foldl step init) xs := by
  induction xs using reverseRecOn with
  | nil => exact nil
  | append_singleton xs x ih =>
    rw [foldl_append]
    exact snoc _ _ x (by simp) (ih fun acc pre y hy => snoc acc pre y (by simp [hy]))

lemma forall₂_filterMap {g : α → Option β} {R : β → γ → Prop} {us : List α} {es : List γ}
    (h : Forall₂ (fun u e => ∃ y, g u = some y ∧ R y e) us es) : Forall₂ R (us.filterMap g) es := by
  induction h with
  | nil => exact .nil
  | cons found _ ih =>
    obtain ⟨y, hy, hR⟩ := found
    rw [filterMap_cons_some hy]
    exact .cons hR ih

end Lists

section Written

variable {n c : Node} {f : Field}

lemma list_cons (h : Head) (e : Field) (c : Option Node) (rest : List Link) :
    (mk h ((e, c) :: rest)).list f = (if e = f then c.toList else []) ++ (mk h rest).list f := by
  cases c <;> by_cases eq : e = f <;> simp [list, slots, links, eq]

lemma flatMap_list_sublist_walk {g : Node → List Node} (hf : f ≠ .key) (h : ∀ c ∈ n.list f, (g c).Sublist c.walk) :
    ((n.list f).flatMap g).Sublist n.walk := by
  obtain ⟨head, ls⟩ := n
  rw [walk, walkLinks_eq]
  refine .cons _ ?_
  generalize (mk head ls).sharesKey = dropKey
  fun_induction followed dropKey ls with
  | case1 => exact .slnil
  | case2 e c rest hdrop ih =>
    have other : e ≠ f := by
      rintro rfl
      simp_all
    simp only [list_cons, if_neg other, nil_append] at h ⊢
    exact ih h
  | case3 e c rest hkept ih =>
    rw [list_cons] at h ⊢
    simp only [forall_mem_append] at h
    rw [flatMap_append, flatMap_cons]
    refine Sublist.append ?_ (ih h.2)
    split
    next own => simpa [own] using h.1
    next => exact nil_sublist _
  | case4 e rest ih =>
    simp only [list_cons, toList_none, ite_self, nil_append] at h ⊢
    exact ih h

lemma walk_sublist_of_mem_list (hf : f ≠ .key) (hc : c ∈ n.list f) : c.walk.Sublist n.walk := by
  refine Sublist.trans ?_ (flatMap_list_sublist_walk hf fun _ _ => Sublist.refl _)
  rw [flatMap_def]
  exact sublist_flatten_of_mem (mem_map_of_mem hc)

lemma targets_sublist_walk (n : Node) (p : PatternPlace) : ((n.targets p).map (·.identifier)).Sublist n.walk := by
  induction hsize : sizeOf n using Nat.strongRecOn generalizing n p with
  | ind size ih =>
    subst hsize
    have child {k : Node} {f : Field} (p : PatternPlace) (hf : f ≠ .key) (le : sizeOf k ≤ sizeOf n) :
        ((targetsAt f p k.links).map (·.identifier)).Sublist k.walk := by
      rw [targetsAt_eq]
      cases hc : k.child? f with
      | none => exact nil_sublist _
      | some c =>
        have link := child?_mem_links hc
        exact (ih _ (Nat.lt_of_lt_of_le (sizeOf_link_lt link) le) c p rfl).trans
          (walk_sublist_of_mem_list hf (mem_list_iff.mpr link))
    obtain ⟨h, ls⟩ := n
    rw [targets]
    split
    · simp [walk]
    iterate 2 exact child (k := mk h ls) _ (by decide) (Nat.le_refl _)
    · rw [propertyTargets_eq, map_flatMap]
      refine flatMap_list_sublist_walk (by decide) fun e he => ?_
      have le := Nat.le_of_lt (sizeOf_link_lt (mem_list_iff.mp he))
      obtain ⟨k, ks⟩ := e
      rw [targetsOfProperty]
      split
      iterate 2 exact child (k := mk k ks) _ (by decide) le
    · rw [elementTargets_eq, map_flatMap]
      refine flatMap_list_sublist_walk (by decide) fun e he => ?_
      exact ih _ (sizeOf_link_lt (mem_list_iff.mp he)) e _ rfl
    · exact nil_sublist _

end Written

variable {y : Binding} {f : Node}

lemma Binding.DeclaredBy.change {i : Nat} {t : PatternTarget} (h : y.DeclaredBy f i t)
    (references violations : List Node) : { y with references, violations }.DeclaredBy f i t :=
  ⟨h.pattern, h.sort, h.identifier, h.function, h.paramIndex, h.key, h.rest⟩

namespace Build

variable {root n p : Node} {b c : Build} {i : Nat} {t : PatternTarget} {d : Declaration}

def KeepsBindings (b c : Build) : Prop :=
  ∀ (u : Nat) y, b.bindings[u]? = some y → ∃ writers, c.bindings[u]? = some (y.write writers)

lemma KeepsBindings.refl (b : Build) : KeepsBindings b b := fun _ y hy => ⟨[], by simpa using hy⟩

lemma KeepsBindings.trans {a : Build} (h : KeepsBindings a b) (h' : KeepsBindings b c) : KeepsBindings a c := by
  intro u y hy
  obtain ⟨writers, hb⟩ := h u y hy
  obtain ⟨more, hc⟩ := h' u _ hb
  exact ⟨writers ++ more, by simpa [Binding.write] using hc⟩

lemma keepsBindings_push (y : Binding) (h : c.bindings = b.bindings.push y) : KeepsBindings b c := by
  intro u z hz
  refine ⟨[], ?_⟩
  rw [h, Array.getElem?_push, if_neg, hz, Binding.write_nil]
  rintro rfl
  simp at hz

lemma keepsBindings_declare (b : Build) (scope : Nat) (ident : Node) (d : Declaration) :
    KeepsBindings b (b.declare scope ident d).2 := by
  obtain ⟨c, ⟨eq, -, same, -⟩ | ⟨x, v, eq, -, -, -, written, -⟩ | ⟨x, eq, -, -, pushed, -⟩⟩ :=
    b.declare_cases scope ident d <;> rw [eq]
  · exact fun _ _ hy => ⟨[], by simpa [same] using hy⟩
  · exact fun u y hy => ⟨_, (written u).trans (by rw [hy]; rfl)⟩
  · exact keepsBindings_push _ pushed

lemma keepsBindings_foldl (es : List Effect) (b : Build) : KeepsBindings b (es.foldl apply b) := by
  induction es generalizing b with
  | nil => exact .refl b
  | cons e rest ih =>
    refine KeepsBindings.trans ?_ (ih _)
    cases e with
    | declares scope ident d => exact keepsBindings_declare b scope ident d
    | _ => exact .refl b

/-- The numbers `us` are those of the bindings that the targets `es` of the parameters get. One
without a name gets none. -/
def Params (b : Build) (f : Node) (us : List Nat) (es : List (Nat × PatternTarget)) : Prop :=
  Forall₂ (fun u e => ∃ y, b.bindings[u]? = some y ∧ y.DeclaredBy f e.1 e.2) us
    (es.filter (·.2.identifier.name.isSome))

lemma Params.keeps {us : List Nat} {es : List (Nat × PatternTarget)} (h : b.Params f us es)
    (hbc : KeepsBindings b c) : c.Params f us es := by
  refine Forall₂.imp (fun u e found => ?_) h
  obtain ⟨y, hy, declared⟩ := found
  obtain ⟨writers, hc⟩ := hbc u y hy
  exact ⟨_, hc, declared.change _ _⟩

lemma Params.append {us vs : List Nat} {es ds : List (Nat × PatternTarget)} (h : b.Params f us es)
    (h' : b.Params f vs ds) : b.Params f (us ++ vs) (es ++ ds) := by
  unfold Params
  rw [filter_append]
  exact rel_append h h'

lemma params_declare (b : Build) (scope : Nat) (hp : (f.list .params)[i]? = some p) (ht : t ∈ p.targets {})
    (sort : d.sort = .param) (function : d.function = some f) (index : d.paramIndex = some i)
    (place : d.place = t.place) :
    (b.declare scope t.identifier d).2.Params f (b.declare scope t.identifier d).1.toList [(i, t)] := by
  unfold Params
  obtain ⟨c, ⟨eq, name, -⟩ | ⟨x, v, -, -, -, param, -⟩ | ⟨x, eq, name, -, pushed, -⟩⟩ :=
    b.declare_cases scope t.identifier d
  · simp [eq, name]
  · exact absurd sort param
  · rw [eq, filter_cons_of_pos (by simp [name])]
    exact .cons ⟨_, pushed ▸ Array.getElem?_push_size, ⟨p, hp, ht⟩, sort, rfl, function, index,
      congrArg PatternPlace.key place, congrArg PatternPlace.rest place⟩ .nil

lemma params_declarePattern (b : Build) (scope : Nat) (hp : (f.list .params)[i]? = some p)
    (sort : d.sort = .param) (function : d.function = some f) (index : d.paramIndex = some i) :
    (b.declarePattern scope p d).2.Params f (b.declarePattern scope p d).1 ((p.targets {}).reverse.map (i, ·)) := by
  apply foldl_induction (fun (acc : List Nat × Build) ts => acc.2.Params f acc.1 (ts.reverse.map (i, ·)))
  · exact .nil
  · intro acc ts t ht ih
    have kept := keepsBindings_declare acc.2 scope t.identifier { d with place := t.place }
    have own := params_declare (d := { d with place := t.place }) acc.2 scope hp ht sort function index rfl
    rw [reverse_append]
    exact own.append (ih.keeps kept)

lemma keepsBindings_declarePattern (b : Build) (scope : Nat) (pattern : Node) (d : Declaration) :
    KeepsBindings b (b.declarePattern scope pattern d).2 := by
  rw [declarePattern_snd b scope .around]
  exact keepsBindings_foldl _ b

lemma params_declareParams (b : Build) (scope : Nat) (f : Node) :
    (b.declareParams scope f).2.Params f (b.declareParams scope f).1 f.paramTargets := by
  apply foldl_induction (fun (acc : List Nat × Build) (ps : List (Node × Nat)) => acc.2.Params f acc.1
    (ps.flatMap fun p => (p.1.targets {}).reverse.map (p.2, ·)))
  · exact .nil
  · intro acc ps p hp ih
    have position : (f.list .params)[p.2]? = some p.1 := mem_zipIdx_iff_getElem?.mp hp
    rw [flatMap_append, flatMap_singleton]
    exact (ih.keeps (keepsBindings_declarePattern acc.2 scope p.1 _)).append
      (params_declarePattern acc.2 scope position rfl rfl rfl)

def ListsParams (root : Node) (b : Build) : Prop :=
  ∀ e ∈ b.params, ∃ f, root.Below f ∧ f.ident = e.1 ∧ b.Params f e.2 f.paramTargets

lemma ListsParams.change (hn : root.Below n) (hbc : Change root n b c) (h : b.ListsParams root) :
    c.ListsParams root := by
  cases hbc with
  | declares _ scope =>
    intro e he
    rw [(declare_keeps b scope _ _).2.2.2.2.2.2.2.2.1] at he
    obtain ⟨f, hf, ident, listed⟩ := h e he
    exact ⟨f, hf, ident, listed.keeps (keepsBindings_declare b scope _ _)⟩
  | params b scope => exact forall_mem_cons.mpr ⟨⟨n, hn, rfl, params_declareParams b scope n⟩, h⟩
  | _ => exact h

lemma listsParams_ofProgram (root : Node) (size : Nat) : (ofProgram root size).ListsParams root := by
  have passed : (pass root size).ListsParams root := by
    have kept : Kept root (ListsParams root) := fun b n path scope hn _ h =>
      enter_induction (.change hn) (b := b.place n path scope) h path scope hn
    exact kept.visit 0 .refl (by simp) fun e he => by cases he
  have resolves := resolves_foldl (pass root size).mentions (pass root size)
  rw [ofProgram_eq]
  intro e he
  rw [resolves.params] at he
  obtain ⟨f, hf, ident, listed⟩ := passed e he
  refine ⟨f, hf, ident, Forall₂.imp (fun u e found => ?_) listed⟩
  obtain ⟨y, hy, declared⟩ := found
  have found := resolves.bindings u
  rw [hy, map_some] at found
  exact ⟨_, found, declared.change _ _⟩

/-- Every function that was visited is listed with its parameters. -/
def FunctionsListed (b : Build) : Prop :=
  ∀ f ∈ b.nodes, f.kind.isFunction = true → f.ident ∈ b.params.map (·.1)

lemma kept_functionsListed (root : Node) : Kept root FunctionsListed := by
  intro b n path scope hn _ h f hf function
  rw [(sameNodes_enter (b.place n path scope) n path scope).2] at hf
  rcases mem_cons.mp hf with rfl | hf
  · rw [enter, if_pos function]
    unfold enterFunction shareFunctionBody
    split
    · split <;> simp [noteParams, shareBody]
    · simp [noteParams]
  · refine enter_induction (I := fun c => f.ident ∈ c.params.map (·.1)) (fun {c d} hcd hc => ?_)
      (b := b.place n path scope) (h f hf function) path scope hn
    cases hcd with
    | declares _ scope => rwa [(declare_keeps c scope _ _).2.2.2.2.2.2.2.2.1]
    | params => exact mem_cons_of_mem _ hc
    | _ => exact hc

end Build

namespace Model

variable {root p : Node} {source : String} {isModule : Bool} {m : Model} {i : Nat}

lemma declaredBy_of_lookup (numbered : root.WellNumbered) (h : ofProgram root source isModule = .ok m)
    (hf : root.Below f) {us : List Nat} (lookup : m.params.lookup f.ident = some us) :
    Forall₂ (fun y e => y.DeclaredBy f e.1 e.2) (m.paramsOf f)
      (f.paramTargets.filter (·.2.identifier.name.isSome)) := by
  obtain ⟨-, -, -, bindings, built⟩ := eq_of_ofProgram h
  obtain ⟨l₁, l₂, split, -⟩ := lookup_eq_some_iff.mp lookup
  have listed : (f.ident, us) ∈ m.params := by simp [split]
  rw [built] at listed
  obtain ⟨g, hg, ident, params⟩ := Build.listsParams_ofProgram root _ _ listed
  obtain rfl := numbered.unique g f hg hf ident
  rw [paramsOf, lookup, getD_some, bindings]
  exact forall₂_filterMap params

lemma declaredBy_params (numbered : root.WellNumbered) (h : ofProgram root source isModule = .ok m)
    (hf : root.Below f) (hy : y ∈ m.paramsOf f) : ∃ i t, y.DeclaredBy f i t := by
  cases lookup : m.params.lookup f.ident with
  | none => simp [paramsOf, lookup] at hy
  | some us =>
    have listed := declaredBy_of_lookup numbered h hf lookup
    have both : Forall₂ (fun y (e : Nat × PatternTarget) => (∃ i t, y.DeclaredBy f i t) ∧ y.DeclaredBy f e.1 e.2)
        (m.paramsOf f) _ :=
      listed.imp fun y e declared => ⟨⟨_, _, declared⟩, declared⟩
    exact ((forall₂_and_left _ _).mp both).1 y hy

lemma declaredBy_name (numbered : root.WellNumbered) (h : ofProgram root source isModule = .ok m) (hf : root.Below f)
    (hy : y ∈ m.paramsOf f) (index : y.paramIndex = some i) (hp : (f.list .params)[i]? = some p)
    (targets : p.targets {} = [⟨p, {}⟩]) : y.DeclaredBy f i ⟨p, {}⟩ := by
  obtain ⟨j, t, declared⟩ := declaredBy_params numbered h hf hy
  obtain rfl : j = i := some.inj (declared.paramIndex.symm.trans index)
  obtain ⟨k, hk, ht⟩ := declared.pattern
  obtain rfl : k = p := some.inj (hk.symm.trans hp)
  obtain rfl : t = ⟨k, {}⟩ := by simpa [targets] using ht
  exact declared

lemma exists_lookup_params (numbered : root.WellNumbered) (h : ofProgram root source isModule = .ok m)
    (hf : root.Below f) (function : f.kind.isFunction = true) : ∃ us, m.params.lookup f.ident = some us := by
  have all : Build.FunctionsListed (Build.pass root (nodeBound root.walk)) :=
    (Build.kept_functionsListed root).visit 0 .refl (by simp)
      (by simp [Build.FunctionsListed, Build.openScope, Build.start])
  have listed := all f (Build.mem_nodes_pass numbered hf) function
  rw [← (Build.resolves_foldl _ _).params, ← Build.ofProgram_eq, ← (eq_of_ofProgram h).2.2.2.2] at listed
  obtain ⟨e, he, ident⟩ := mem_map.mp listed
  cases lookup : m.params.lookup f.ident with
  | some us => exact ⟨us, rfl⟩
  | none =>
    have missing := lookup_eq_none_iff.mp lookup e he
    simp [ident] at missing

/-- The parameters of a function are listed pattern by pattern, one binding for each name. The names
of one pattern stand in it from left to right, and their bindings are listed from right to left. -/
theorem params_right_to_left (formed : root.WellFormed) (h : ofProgram root source isModule = .ok m)
    (hf : root.Below f) (function : f.kind.isFunction = true) :
    (m.paramsOf f).map (·.identifier) = (f.list .params).flatMap (·.declared.reverse) ∧
      ∀ p ∈ f.list .params, p.declared.Sublist p.walk := by
  refine ⟨?_, fun p _ => targets_sublist_walk p {}⟩
  obtain ⟨us, lookup⟩ := exists_lookup_params formed.toWellNumbered h hf function
  have listed := declaredBy_of_lookup formed.toWellNumbered h hf lookup
  have named : ∀ e ∈ f.paramTargets, e.2.identifier.name.isSome = true := by
    intro e he
    obtain ⟨p, hp, ht⟩ := mem_flatMap.mp he
    obtain ⟨t, written, rfl⟩ := mem_map.mp ht
    have below := hf.mem_list (fst_mem_of_mem_zipIdx hp)
    obtain ⟨⟨hid, -⟩, kind⟩ := below.mem_targets (p := {}) (fun _ he => by cases he) (mem_reverse.mp written)
    exact formed.identifiers _ hid kind
  rw [filter_eq_self.mpr named] at listed
  have identifiers : (m.paramsOf f).map (·.identifier) = f.paramTargets.map (·.2.identifier) := by
    rw [← forall₂_eq_eq_eq, forall₂_map_left_iff, forall₂_map_right_iff]
    exact listed.imp fun y e declared => declared.identifier
  have patterns : f.list .params = (f.list .params).zipIdx.map (·.1) := by simp
  rw [identifiers, patterns, paramTargets, map_flatMap, flatMap_map]
  simp [declared, Function.comp_def]

def Destructured.function : Node :=
  .function 1 (identifier 2 "f") [branch 3 .arrayPattern [(.elements, some (identifier 4 "a")),
    (.elements, some (identifier 5 "b"))], identifier 6 "c"] (block 7 [])

def Destructured.program : Node := script [Destructured.function]

/-- The names of a pattern are written in one order and listed in the other. -/
theorem params_destructured :
    (ofProgram Destructured.program "" false).toOption.map
        (fun m => (m.paramsOf Destructured.function).map (·.identifier.name)) = some [some "b", some "a", some "c"] ∧
      ((Destructured.function.list .params).flatMap declared).map name = [some "a", some "b", some "c"] := by
  decide +kernel

theorem params_right_to_left_destructured : ∃ m, ofProgram Destructured.program "" false = .ok m ∧
    (m.paramsOf Destructured.function).map (·.identifier) =
      (Destructured.function.list .params).flatMap (·.declared.reverse) := by
  have formed : Destructured.program.WellFormed := wellFormed_check (by decide)
  obtain ⟨m, hm⟩ := exists_ofProgram formed.toWellNamed "" false
  refine ⟨m, hm, (params_right_to_left formed hm ?_ rfl).1⟩
  exact Below.refl.link (f := .body) (by simp [Destructured.program, script, branch, links])

end Model

end ScriptAudit
