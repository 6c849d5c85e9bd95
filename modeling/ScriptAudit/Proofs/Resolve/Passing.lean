import ScriptAudit.Proofs.Request.Found
import ScriptAudit.Proofs.Resolve.DirectCalls

/-!
# What a call passes for a parameter

Looked for from a parameter back, a spread element hides its own position and all that follow.
-/

namespace ScriptAudit

open Ask Engine List Model ScriptAudit.Frame

variable {F : Facts} {root c a f : Node} {b : Binding} {i offset index : Nat} {s t : Session} {site : CallSite}

/-- The call passes the argument at a position: the argument stands there, and no spread element
stands there or before. -/
structure Node.Passes (call : Node) (position : Nat) (a : Node) : Prop where
  stands : (call.list .arguments)[position]? = some a
  certain : ∀ k ∈ (call.list .arguments).take (position + 1), k.kind ≠ .spreadElement

lemma Frame.hidesPosition_eq_false {arguments : List Node} {position : Nat} :
    hidesPosition arguments position = false ↔ ∀ k ∈ arguments.take (position + 1), k.kind ≠ .spreadElement := by
  simp [hidesPosition]

lemma Frame.passed?_eq_some_iff {passed : Passed} (hrest : b.rest = false) (hidx : b.paramIndex = some index) :
    passed? (c.list .arguments) offset b = some passed ↔
      c.Passes (index + offset) passed.argument ∧ passed.key = b.key := by
  simp only [passed?, hrest, Bool.false_eq_true, if_false, hidx, Option.bind_some]
  constructor
  · intro h
    split at h
    next => cases h
    next hshown =>
      obtain ⟨a, ha, rfl⟩ := Option.map_eq_some_iff.mp h
      exact ⟨⟨ha, hidesPosition_eq_false.mp (by simpa using hshown)⟩, rfl⟩
  · rintro ⟨⟨ha, hcertain⟩, hkey⟩
    rw [if_neg (by simp [hidesPosition_eq_false.mpr hcertain]), ha, Option.map_some, ← hkey]

lemma mem_pathsAt_iff {wants : Bool} {path : ArgumentPath} :
    path ∈ pathsAt index wants site ∧ path.overloaded = false ↔
      site.call.Passes (index + site.offset) path.argument ∧ path.call = site.call ∧ path.index = index + site.offset ∧
        path.route = site.route ∧ path.overloaded = false := by
  unfold pathsAt
  dsimp only
  split
  next hhidden =>
    refine ⟨fun h => absurd h.1 (by simp), fun h => ?_⟩
    simp [hidesPosition_eq_false.mpr h.1.certain] at hhidden
  next hshown =>
    have hcertain := hidesPosition_eq_false.mp (by simpa using hshown)
    split
    next d hd =>
      constructor
      · rintro ⟨hpath, -⟩
        obtain rfl := mem_singleton.mp hpath
        exact ⟨⟨hd, hcertain⟩, rfl, rfl, rfl, rfl⟩
      · rintro ⟨⟨ha, -⟩, hcall, hidx, hroute, hplain⟩
        obtain rfl : path.argument = d := Option.some.inj (ha.symm.trans hd)
        refine ⟨mem_singleton.mpr ?_, hplain⟩
        cases path
        simp_all
    next hnone =>
      refine ⟨fun h => ?_, fun h => ?_⟩
      · obtain ⟨hpath, hplain⟩ := h
        split at hpath
        next =>
          obtain ⟨e, -, rfl⟩ := mem_map.mp hpath
          cases hplain
        next => cases hpath
      · simp [h.1.stands] at hnone

lemma mem_pathsAt_of_passes (passes : site.call.Passes (index + site.offset) a) (wants : Bool) :
    ⟨a, site.call, index + site.offset, site.route, false⟩ ∈ pathsAt index wants site := by
  have hpath : ⟨a, site.call, index + site.offset, site.route, false⟩ ∈ pathsAt index wants site ∧ false = false :=
    mem_pathsAt_iff.mpr ⟨passes, rfl, rfl, rfl, rfl⟩
  exact hpath.1

lemma nodup_callSites {sites : List CallSite} (hm : s.toMemory.Informed F) (hf : F.Has f)
    (h : (callSites f).run F s = .ok sites t) : (sites.map (·.call)).Nodup := by
  have among : ∀ as, ((F.sitesAmong f as).map (·.call)).Nodup := fun as =>
    (nodup_calls_distinctBy _).sublist ((take_sublist _ _).map _)
  unfold run at h
  cases hknown : s.callSites.get? f.ident with
  | some known =>
    rw [runWith_callSites_known hknown] at h
    cases h
    obtain ⟨as, -, rfl⟩ := hm.2.sites f sites hf hknown
    exact among as
  | none =>
    rw [runWith_callSites_missed (balanced_answer _) hknown] at h
    by_cases hopen : (⟨.callers, f.ident, none⟩ : Key) ∈ s.visited
    · rw [runOnce, if_pos hopen] at h
      cases h
      exact nodup_nil
    · obtain ⟨u, hrun⟩ := exists_of_runOnce_eq_ok hopen h
      obtain ⟨as, v, -, hrun⟩ := runWith_bind_ok hrun
      cases hrun
      exact among as

lemma exists_of_run_argumentPaths {property : Option String} {paths : List ArgumentPath}
    (hfun : b.function = some f) (hidx : b.paramIndex = some index) (hrest : b.rest = false)
    (h : (argumentPaths b property).run F s = .ok paths t) : ∃ sites, (callSites f).run F s = .ok sites t ∧
      paths = sites.flatMap (pathsAt index (property.isSome || b.key.isSome)) := by
  simp only [argumentPaths, hfun, hidx, hrest, Bool.false_eq_true, if_false] at h
  obtain ⟨sites, u, hsites, h⟩ := run_bind_ok h
  cases h
  exact ⟨sites, hsites, rfl⟩

/-- The parameters of a target that receive the argument at a position. -/
def Model.receivers (m : Model) (position : Nat) (target : Node × Nat) : List Binding :=
  if position < target.2 then []
  else (m.paramsOf target.1).filter fun b => b.paramIndex == some (position - target.2) && b.key.isNone && !b.rest

lemma Model.mem_receivers_iff {m : Model} (hb : b ∈ m.paramsOf f) (hkey : b.key = none) (hrest : b.rest = false) :
    b ∈ m.receivers i (f, offset) ↔ ∃ index, b.paramIndex = some index ∧ index + offset = i := by
  unfold receivers
  split
  next hbefore =>
    refine ⟨fun h => absurd h not_mem_nil, ?_⟩
    rintro ⟨index, -, rfl⟩
    omega
  next hafter =>
    simp only [mem_filter, hb, hkey, hrest, true_and, Option.isNone_none, Bool.not_false, Bool.and_true, beq_iff_eq]
    constructor
    · exact fun h => ⟨_, h, by omega⟩
    · rintro ⟨index, h, rfl⟩
      rw [h]
      congr 1
      omega

/-- What is found for a parameter on a route: its reads and the items of containers that it is
stored in. -/
def Facts.ReadsOf (F : Facts) (route : Route) (b : Binding) (reads : List Alias) : Prop :=
  ∃ items u v, (containerReads b route).run F u = .ok items v ∧ reads = bindingReads F b route ++ items

lemma Engine.forall₂_of_run_mapM {α β : Type} {f : β → Engine α} {xs : List β} {as : List α}
    (h : (xs.mapM f).run F s = .ok as t) : List.Forall₂ (fun x a => ∃ u v, (f x).run F u = .ok a v) xs as := by
  induction xs generalizing s as with
  | nil =>
    cases h
    exact .nil
  | cons x rest ih =>
    obtain ⟨a, found, u, rfl, hx, hrest⟩ := run_mapM_cons_ok h
    exact .cons ⟨s, u, hx⟩ (ih hrest)

lemma exists_of_run_callbackReads {route : Route} {reads : List Alias}
    (ha : (c.list .arguments).findIdx? (· == a) = some i) (h : (callbackReads a c route).run F s = .ok reads t) :
    ∃ targets u groups, (callTargets c 0).run F s = .ok targets u ∧
      List.Forall₂ (F.ReadsOf (route.andThen .callbackArgument)) (targets.flatMap (F.model.receivers i)) groups ∧
      reads = groups.flatten := by
  obtain ⟨_, _, hfacts, h⟩ := run_bind_ok h
  cases hfacts
  rw [ha] at h
  obtain ⟨targets, u, htargets, h⟩ := run_bind_ok h
  obtain ⟨groups, v, hgroups, h⟩ := run_bind_ok h
  cases h
  refine ⟨targets, u, groups, htargets, ?_, rfl⟩
  refine (forall₂_of_run_mapM hgroups).imp fun b group => ?_
  rintro ⟨u, v, hrun⟩
  obtain ⟨items, w, hitems, hrun⟩ := run_bind_ok hrun
  cases hrun
  exact ⟨items, u, v, hitems, rfl⟩

section

variable (distinct : ((c.list .arguments).map (·.ident)).Nodup) (hi : (c.list .arguments)[i]? = some a)
include distinct hi

lemma eq_of_getElem?_arguments {j : Nat} {k : Node} (hj : (c.list .arguments)[j]? = some k)
    (same : k.ident = a.ident) : j = i := by
  have hlt : j < ((c.list .arguments).map (·.ident)).length := by simpa using (List.getElem?_eq_some_iff.mp hj).1
  exact (List.getElem?_inj hlt distinct).mp (by simp [hi, hj, same])

lemma findIdx?_argument : (c.list .arguments).findIdx? (· == a) = some i := by
  obtain ⟨hlt, hget⟩ := List.getElem?_eq_some_iff.mp hi
  refine List.findIdx?_eq_some_iff_getElem.mpr ⟨hlt, by simp [hget, BEq.beq, Node.same], fun j hj same => ?_⟩
  have eq := eq_of_getElem?_arguments distinct hi (List.getElem?_eq_getElem (Nat.lt_trans hj hlt))
    (by simpa [BEq.beq, Node.same] using same)
  omega

lemma Model.passes_iff_receivers {m : Model} (hb : b ∈ m.paramsOf f) (hkey : b.key = none)
    (hrest : b.rest = false) (hidx : b.paramIndex = some index) :
    c.Passes (index + offset) a ↔ b ∈ m.receivers i (f, offset) ∧
      ∀ k ∈ (c.list .arguments).take (i + 1), k.kind ≠ .spreadElement := by
  rw [mem_receivers_iff hb hkey hrest, hidx]
  constructor
  · rintro ⟨stands, certain⟩
    obtain rfl := eq_of_getElem?_arguments distinct hi stands rfl
    exact ⟨⟨index, rfl, rfl⟩, certain⟩
  · rintro ⟨⟨_, ⟨⟩, rfl⟩, certain⟩
    exact ⟨hi, certain⟩

end

lemma exists_path_iff {sites : List CallSite} (hsites : (sites.map (·.call)).Nodup) (hsite : site ∈ sites)
    {wants : Bool} : (∃ path ∈ sites.flatMap (pathsAt index wants),
      path.call = site.call ∧ path.argument = a ∧ path.overloaded = false) ↔
      site.call.Passes (index + site.offset) a := by
  constructor
  · rintro ⟨path, hpath, hcall, rfl, hplain⟩
    obtain ⟨other, hother, hpath⟩ := mem_flatMap.mp hpath
    obtain ⟨passes, hcall', -⟩ := mem_pathsAt_iff.mp ⟨hpath, hplain⟩
    obtain rfl := inj_on_of_nodup_map hsites hother hsite (hcall'.symm.trans hcall)
    exact passes
  · intro passes
    exact ⟨_, mem_flatMap.mpr ⟨site, hsite, mem_pathsAt_of_passes passes wants⟩, rfl, rfl, rfl⟩

/-- Going backwards, a parameter gets the argument at its position if no spread element stands there
or before, by the frame of a call as by what its callers are found to pass. Going forwards, an
argument flows into the parameters at its position. The two agree exactly if no spread element
stands at the argument or before. -/
theorem passing_agrees_before_spread (hroot : root.WellNumbered) (hF : F.Describes root) (hs : s.Arises F)
    (hc : F.Has c) (distinct : ((c.list .arguments).map (·.ident)).Nodup) (ha : (c.list .arguments)[i]? = some a)
    {route : Route} {reads : List Alias} (hreads : (callbackReads a c route).run F s = .ok reads t) :
    ∃ targets u groups, (callTargets c 0).run F s = .ok targets u ∧
      List.Forall₂ (F.ReadsOf (route.andThen .callbackArgument)) (targets.flatMap (F.model.receivers i)) groups ∧
      reads = groups.flatten ∧
      ∀ f offset b, (f, offset) ∈ targets → b ∈ F.model.paramsOf f → b.key = none → b.rest = false →
        (b ∈ F.model.receivers i (f, offset) ↔ ∃ index, b.paramIndex = some index ∧ index + offset = i) ∧
        ((ofCall F.model f c offset).arguments.lookup b.uid = some ⟨a, none⟩ ↔
          b ∈ F.model.receivers i (f, offset) ∧ ∀ k ∈ (c.list .arguments).take (i + 1), k.kind ≠ .spreadElement) ∧
        ∀ s' t' u' property sites paths, s'.Arises F → (callSites f).run F s' = .ok sites t' →
          (argumentPaths b property).run F s' = .ok paths u' → (∃ site ∈ sites, site.call = c ∧ site.offset = offset) →
          ((∃ path ∈ paths, path.call = c ∧ path.argument = a ∧ path.overloaded = false) ↔
            (ofCall F.model f c offset).arguments.lookup b.uid = some ⟨a, none⟩) := by
  have hsound := hF.sound hroot
  obtain ⟨targets, u, groups, htargets, hgroups, hflatten⟩ :=
    exists_of_run_callbackReads (findIdx?_argument distinct ha) hreads
  have htargetHas : ∀ target ∈ targets, F.Has target.1 := by
    have hmeets : (callTargets c 0).Meets F (some 0) fun ts => ∀ t ∈ ts, F.Has t.1 := meets_callTargets hc 0
    have hgood := hmeets.run_good hsound (hs.reachable.within hsound) (Nat.le_refl _)
    change Outcome.Good F _ ((callTargets c 0).run F s) at hgood
    rw [htargets] at hgood
    exact hgood.2
  refine ⟨targets, u, groups, htargets, hgroups, hflatten, fun f offset b htgt hb hkey hrest => ?_⟩
  have hf := htargetHas _ htgt
  obtain ⟨source, isModule, hmodel⟩ := hF.model
  obtain ⟨index, place, declared⟩ := declaredBy_params hroot hmodel (hF.root_eq ▸ hf) hb
  have hbinds : (ofCall F.model f c offset).arguments.lookup b.uid = some ⟨a, none⟩ ↔ c.Passes (index + offset) a := by
    rw [hF.lookup_ofCall_iff hb, passed?_eq_some_iff hrest declared.paramIndex, hkey]
    simp
  refine ⟨mem_receivers_iff hb hkey hrest,
    hbinds.trans (passes_iff_receivers distinct ha hb hkey hrest declared.paramIndex), ?_⟩
  intro s' t' u' property sites paths hs' hsites hpaths hsite
  obtain ⟨sites', hsites', rfl⟩ := exists_of_run_argumentPaths declared.function declared.paramIndex hrest hpaths
  obtain ⟨rfl, -⟩ : sites = sites' ∧ t' = u' := by simpa using hsites.symm.trans hsites'
  obtain ⟨site, hsite, rfl, rfl⟩ := hsite
  rw [hbinds]
  exact exists_path_iff (nodup_callSites (hs'.informed hroot hF) hf hsites) hsite

namespace Behind

def function : Node :=
  .function 4 (.identifier 5 "f") [.identifier 6 "a", .identifier 7 "b"]
    (.block 8 [.statement 9 (.call 10 (.identifier 11 "b") [])])

def argument : Node := .identifier 17 "g"

def call : Node :=
  .call 13 (.identifier 14 "f") [.branch 15 .spreadElement [(.argument, some (.identifier 16 "xs"))], argument]

def program : Node :=
  .script [.function 1 (.identifier 2 "g") [] (.block 3 []), function, .statement 12 call]

def targets (F : Facts) : List (NodeId × Nat) :=
  match (callTargets call 0).run F {} with
  | .ok targets _ => targets.map fun target => (target.1.ident, target.2)
  | .error _ _ => []

def sites (F : Facts) : List (NodeId × Nat) :=
  match (callSites function).run F {} with
  | .ok sites _ => sites.map fun site => (site.call.ident, site.offset)
  | .error _ _ => []

def reads? (F : Facts) : Option (List NodeId) :=
  match (callbackReads argument call .directName).run F {} with
  | .ok reads _ => some (reads.map (·.node.ident))
  | .error _ _ => none

def unpassed (F : Facts) (b : Binding) : Bool :=
  b.paramIndex == some 1 && b.key.isNone && !b.rest && b.references.map (·.ident) == [.listed 11] &&
    ((ofCall F.model function call 0).arguments.lookup b.uid).isNone &&
    match (argumentPaths b none).run F {} with
    | .ok paths _ => paths.isEmpty
    | .error _ _ => false

def check : Bool :=
  match ofProgram program "" false with
  | .ok m =>
    targets (.ofModel m {}) == [(.listed 4, 0)] && sites (.ofModel m {}) == [(.listed 13, 0)] &&
      reads? (.ofModel m {}) == some [.listed 11] && (m.paramsOf function).any (unpassed (.ofModel m {}))
  | .error _ => false

lemma checked : check = true := by decide +kernel

end Behind

open Behind

theorem passing_agrees_before_spread_behind : ∃ F : Facts, F.Describes program ∧ F.Has call ∧
    ((call.list .arguments).map (·.ident)).Nodup ∧ (call.list .arguments)[1]? = some argument ∧
    ∃ reads t, (callbackReads argument call .directName).run F {} = .ok reads t ∧
      ∃ targets u groups, (callTargets call 0).run F {} = .ok targets u ∧
        List.Forall₂ (F.ReadsOf .callbackArgument) (targets.flatMap (F.model.receivers 1)) groups ∧
        reads = groups.flatten ∧
        ∀ f offset b, (f, offset) ∈ targets → b ∈ F.model.paramsOf f → b.key = none → b.rest = false →
          ((ofCall F.model f call offset).arguments.lookup b.uid = some ⟨argument, none⟩ ↔
            b ∈ F.model.receivers 1 (f, offset) ∧
              ∀ k ∈ (call.list .arguments).take 2, k.kind ≠ .spreadElement) := by
  obtain ⟨hroot, m, hm, hF⟩ := program.exists_described (by decide)
  have numbered := hroot.toWellNumbered
  have hcall : (Facts.ofModel m {}).Has call := hF.has_walk 13 rfl
  have distinct : ((call.list .arguments).map (·.ident)).Nodup := by decide
  have checked := checked
  simp only [check, hm, Bool.and_eq_true, beq_iff_eq] at checked
  obtain ⟨⟨-, hreads⟩, -⟩ := checked
  unfold reads? at hreads
  split at hreads
  next reads t hrun =>
    obtain ⟨targets, u, groups, htargets, hgroups, hflatten, hmatch⟩ :=
      passing_agrees_before_spread numbered hF .start hcall distinct (i := 1) rfl hrun
    exact ⟨_, hF, hcall, distinct, rfl, reads, t, hrun, targets, u, groups, htargets, hgroups, hflatten,
      fun f offset b htgt hb hkey hrest => (hmatch f offset b htgt hb hkey hrest).2.1⟩
  next => cases hreads

/-- An argument behind a spread element flows on into a parameter for which no call passes anything.
-/
theorem Behind.flows_on_unpassed : ∃ (F : Facts) (b : Binding), F.Describes program ∧
    targets F = [(function.ident, 0)] ∧
    sites F = [(call.ident, 0)] ∧ b ∈ F.model.paramsOf function ∧ b.key = none ∧ b.rest = false ∧
    b.references ≠ [] ∧ reads? F = some (b.references.map (·.ident)) ∧
    (ofCall F.model function call 0).arguments.lookup b.uid = none ∧
    ∃ t, (argumentPaths b none).run F {} = .ok [] t := by
  obtain ⟨-, m, hm, hF⟩ := program.exists_described (by decide)
  have checked := checked
  simp only [check, hm, Bool.and_eq_true, beq_iff_eq, any_eq_true] at checked
  obtain ⟨⟨⟨htargets, hsites⟩, hreads⟩, b, hb, hunpassed⟩ := checked
  simp only [unpassed, Bool.and_eq_true, beq_iff_eq, Option.isNone_iff_eq_none, Bool.not_eq_true'] at hunpassed
  obtain ⟨⟨⟨⟨⟨-, hkey⟩, hrest⟩, hreferences⟩, hlook⟩, hpaths⟩ := hunpassed
  refine ⟨_, b, hF, htargets, hsites, hb, hkey, hrest, ?_, ?_, hlook, ?_⟩
  · intro none
    simp [none] at hreferences
  · rw [hreads, hreferences]
  · split at hpaths
    next paths t hrun =>
      obtain rfl := List.isEmpty_iff.mp hpaths
      exact ⟨t, hrun⟩
    next => cases hpaths

end ScriptAudit
