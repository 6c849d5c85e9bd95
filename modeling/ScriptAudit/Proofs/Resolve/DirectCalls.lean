import ScriptAudit.Proofs.Arising
import ScriptAudit.Proofs.Report.Faults
import ScriptAudit.Proofs.Scope.Lexical

/-!
# Direct calls are found first

All calls of a function declaration by its name are listed before any others, or as many as may be
listed.
-/

namespace ScriptAudit

open Ask Engine Facts List Question

/-- The call invokes what the name `r` stands for: it calls `r`, or the `call` method of `r`, whose
first argument is for no parameter. -/
inductive Model.Invokes (m : Model) (r : Node) : Node → Nat → Prop
  | called {call} : m.CalledBy r call → Invokes m r call 0
  | method {member call} : m.parent? r = some member → member.kind = .memberExpression →
      member.child? .object = some r → member.reads "call" = true → m.parent? member = some call →
      call.kind = .callExpression → call.child? .callee = some member → Invokes m r call 1

/-- The calls that invoke what a name stands for, each once and in the order in which the name is
used. -/
structure Facts.DirectCalls (F : Facts) (b : Binding) (direct : List CallSite) : Prop where
  distinct : (direct.map (·.call)).Nodup
  ordered : ∃ rs : List Node, rs.Sublist b.references ∧
    List.Forall₂ (fun r site => F.model.Invokes r site.call site.offset) rs direct
  byName : ∀ site ∈ direct, site.route = .directName
  complete : ∀ r ∈ b.references, ∀ call offset, F.model.Invokes r call offset → call ∈ direct.map (·.call)

variable {F : Facts} {s t : Session} {f r : Node} {b : Binding} {root : Node} {sites : List CallSite} {fuel : Nat}

lemma Facts.Describes.references (hroot : root.WellNumbered) (tree : root.OneParent) (hF : F.Describes root)
    (hb : F.Indexes b) : b.references.Nodup ∧ ∀ k ∈ b.references, F.Has k ∧ k.kind = .identifier := by
  obtain ⟨source, isModule, hmodel⟩ := hF.model
  obtain ⟨i, hi⟩ := hb
  obtain ⟨c, size, ok, scanned, built⟩ := Model.exists_built hroot tree hmodel
  obtain ⟨hnodup, hmem⟩ := built.references ok scanned hi
  refine ⟨hnodup, fun k hk => ?_⟩
  obtain ⟨⟨hbelow, huse⟩, -⟩ := (hmem k).mp hk
  exact ⟨hbelow, huse.identifier⟩

lemma Facts.DeclaresFunction.indexes (h : F.DeclaresFunction f b) : F.Indexes b := by
  obtain ⟨ident, -, hid⟩ := Option.bind_eq_some_iff.mp h.named
  obtain ⟨i, -, hi⟩ := Option.bind_eq_some_iff.mp hid
  exact ⟨i, hi⟩

lemma Facts.DeclaresFunction.apart (h : F.DeclaresFunction f b) (hroot : root.WellNumbered) (tree : root.OneParent)
    (hF : F.Describes root) (hf : F.Has f) : b.Apart f := by
  obtain ⟨hnodup, hplain⟩ := hF.references hroot tree h.indexes
  have huniq := hF.unique hroot
  refine ⟨nodup_cons.mpr ⟨fun hid => ?_, ?_⟩, fun r hr => (hplain r hr).2⟩
  · obtain ⟨r, hr, hid⟩ := mem_map.mp hid
    obtain rfl := huniq r f (hplain r hr).1 hf hid
    cases h.kind.symm.trans (hplain r hr).2
  · exact hnodup.map_on fun r hr k hk hid => huniq r k (hplain r hr).1 (hplain k hk).1 hid

section Invocations

variable (hF : F.Sound) (huniq : F.Unique)
include hF huniq

lemma invocation?_eq_some_iff (hr : F.Has r) {route : Route} {site : CallSite} :
    invocation? F.model ⟨r, route⟩ = some site ↔ F.model.Invokes r site.call site.offset ∧ site.route = route := by
  have hmember (member : Node) : F.model.memberOf? r = some member ↔ _ :=
    hF.model.holder?_eq_some_iff huniq hr .memberExpression .object
  have hcall (member call : Node) (h : F.model.parent? r = some member) : F.model.calledBy? member = some call ↔ _ :=
    hF.model.holder?_eq_some_iff huniq (hF.model.parent? h) .callExpression .callee
  constructor
  · intro h
    unfold invocation? at h
    split at h
    · cases h
    next p hp =>
      split at h
      next hcalled =>
        simp only [Bool.and_eq_true, beq_iff_eq] at hcalled
        cases h
        exact ⟨.called ⟨hp, hcalled.2, hcalled.1⟩, rfl⟩
      · obtain ⟨member, hobj, h⟩ := Option.bind_eq_some_iff.mp h
        split at h
        next hreads =>
          obtain ⟨call, hcal, rfl⟩ := Option.map_eq_some_iff.mp h
          obtain ⟨hpar, hkind, hchild⟩ := (hmember member).mp hobj
          obtain ⟨hparent', hkind', hchild'⟩ := (hcall member call hpar).mp hcal
          exact ⟨.method hpar hkind hchild hreads hparent' hkind' hchild', rfl⟩
        · cases h
  · obtain ⟨call, offset, _⟩ := site
    rintro ⟨h, rfl⟩
    unfold invocation?
    cases h with
    | called h => simp [h.1, h.2.1, h.2.2]
    | @method member _ hpar hkind hchild hreads hparent' hkind' hchild' =>
      have hobj := (hmember member).mpr ⟨hpar, hkind, hchild⟩
      have hcal := (hcall member call hpar).mpr ⟨hparent', hkind', hchild'⟩
      simp [hpar, hkind, Kind.isCall, hobj, hreads, hcal]

end Invocations

lemma nodup_calls_distinctBy (sites : List CallSite) : ((distinctBy (·.call) sites).map (·.call)).Nodup := by
  refine List.Nodup.of_map Node.ident ?_
  rw [map_map]
  exact (marks_freshBy Node.beq_iff_ident CallSite.call [] sites).1

lemma exists_forall₂_of_sublist {α β : Type} {R : α → β → Prop} {g : α → Option β} {xs : List α} {ys : List β}
    (hR : ∀ a ∈ xs, ∀ c, g a = some c → R a c) (h : ys.Sublist (xs.filterMap g)) :
    ∃ zs : List α, zs.Sublist xs ∧ List.Forall₂ R zs ys := by
  induction xs generalizing ys with
  | nil =>
    obtain rfl := sublist_nil.mp h
    exact ⟨[], .slnil, .nil⟩
  | cons x xs ih =>
    obtain ⟨hx, hrest⟩ := forall_mem_cons.mp hR
    have hskip (h : ys.Sublist (xs.filterMap g)) : ∃ zs : List α, zs.Sublist (x :: xs) ∧ List.Forall₂ R zs ys := by
      obtain ⟨zs, hzs, hrel⟩ := ih hrest h
      exact ⟨zs, hzs.cons x, hrel⟩
    cases hc : g x with
    | none => exact hskip (by rwa [filterMap_cons_none hc] at h)
    | some c =>
      rw [filterMap_cons_some hc] at h
      cases h with
      | cons _ h => exact hskip h
      | cons_cons _ h =>
        obtain ⟨zs, hzs, hrel⟩ := ih hrest h
        exact ⟨x :: zs, hzs.cons_cons x, .cons (hx c hc) hrel⟩

def Facts.sitesOf (F : Facts) (rs : List Node) : List CallSite :=
  rs.filterMap fun r => invocation? F.model ⟨r, .directName⟩

lemma Facts.DeclaresFunction.sitesAmong_append (h : F.DeclaresFunction f b) (more : List Alias) :
    F.sitesAmong f (b.references.map (⟨·, bindingRoute F f⟩) ++ more) =
      distinctSites F.limits.maxCallers (F.sitesOf b.references ++ more.filterMap (invocation? F.model)) := by
  unfold sitesAmong
  rw [filterMap_cons_none (h.invocation?_eq _), h.bindingRoute_eq, filterMap_append, filterMap_map]
  rfl

section Calls

variable (hF : F.Sound) (huniq : F.Unique) (hhas : F.HasAll b.references)
include hF huniq hhas

lemma Facts.directCalls_sitesOf : F.DirectCalls b (distinctBy (·.call) (F.sitesOf b.references)) := by
  have hinvokes {r : Node} {site : CallSite} (hr : r ∈ b.references) :
      invocation? F.model ⟨r, .directName⟩ = some site ↔ _ := invocation?_eq_some_iff hF huniq (hhas r hr)
  refine ⟨nodup_calls_distinctBy _, ?_, fun site hsite => ?_, fun r hr call offset h => ?_⟩
  · exact exists_forall₂_of_sublist (fun r hr site hsite => ((hinvokes hr).mp hsite).1) (freshBy_sublist ..)
  · obtain ⟨r, hr, hsite⟩ := mem_filterMap.mp (mem_distinctBy_mem hsite)
    exact ((hinvokes hr).mp hsite).2
  · have hsite := (hinvokes hr).mpr ⟨h, (rfl : (⟨call, offset, .directName⟩ : CallSite).route = .directName)⟩
    obtain ⟨-, -, hall⟩ := marks_freshBy Node.beq_iff_ident CallSite.call [] (F.sitesOf b.references)
    rcases hall _ (mem_filterMap.mpr ⟨r, hr, hsite⟩) with hnone | hmem
    · cases hnone
    · obtain ⟨other, hother, hid⟩ := mem_map.mp hmem
      obtain ⟨k, -, hk⟩ := mem_filterMap.mp (mem_distinctBy_mem hother)
      obtain rfl := huniq other.call call (has_invocation? hF hk) (has_invocation? hF hsite) hid
      exact mem_map_of_mem hother

lemma Facts.Calls.starts (hcalls : F.Calls f sites) (h : F.DeclaresFunction f b) (hapart : b.Apart f)
    (hfew : b.references.length ≤ F.limits.maxCallers * 4) :
    (sites.map (·.call)).Nodup ∧ sites.length ≤ F.limits.maxCallers ∧ ∃ direct others, F.DirectCalls b direct ∧
      sites = direct.take F.limits.maxCallers ++ others := by
  obtain ⟨as, has, rfl⟩ := hcalls
  obtain ⟨more, rfl⟩ := has.begins b h hapart hfew
  rw [h.sitesAmong_append]
  refine ⟨?_, length_take_le _ _, distinctBy (·.call) (F.sitesOf b.references), ?_⟩
  · exact (nodup_calls_distinctBy _).sublist ((take_sublist _ _).map _)
  · obtain ⟨rest, hrest⟩ := freshBy_prefix_append CallSite.call [] (F.sitesOf b.references)
      (more.filterMap (invocation? F.model))
    have htake (cap : Nat) : distinctSites cap (F.sitesOf b.references ++ more.filterMap (invocation? F.model)) =
        (distinctBy (·.call) (F.sitesOf b.references)).take cap ++ rest.take
          (cap - (distinctBy (·.call) (F.sitesOf b.references)).length) := by
      unfold distinctSites distinctBy
      rw [← hrest, take_append]
    exact ⟨_, directCalls_sitesOf hF huniq hhas, htake _⟩

end Calls

lemma answer_aliases_known {as : List Alias} (h : s.aliases.get? f.ident = some as) :
    answerWithin (fuel + 1) _ (.aliases f) F s = .ok as s := by
  refine (runWith_rule (balanced_answer fuel) (.aliases f)).trans ?_
  simp [handle, plain?, depth, body?, recalled, h]

lemma answer_aliases_missed (h : s.aliases.get? f.ident = none) : answerWithin (fuel + 1) _ (.aliases f) F s =
      runOnce (answerWithin fuel) F s (aliases f).key [] (aliases f).remember (return (← F.searchFrom f).found) := by
  refine (runWith_rule (balanced_answer fuel) (.aliases f)).trans ?_
  simp [handle, plain?, depth, body?, recalled, h, nothing]

lemma exists_of_runOnce_eq_ok {α : Type} {reply : Reply} {k : Key} {nothing a : α} {keep : α → Memory → Memory}
    {x : Engine α} (hopen : k ∉ s.visited) (h : runOnce reply F s k nothing keep x = .ok a t) :
    ∃ u, x.runWith reply F { s with visited := k :: s.visited } = .ok a u := by
  rw [runOnce, if_neg hopen] at h
  cases hx : x.runWith reply F { s with visited := k :: s.visited } with
  | error e u =>
    rw [hx] at h
    cases h
  | ok c u =>
    rw [hx] at h
    cases h
    exact ⟨u, rfl⟩

lemma aliasesOf_of_answer (hm : s.toMemory.Faithful F) (hf : F.Has f) (hopen : (aliases f).key ∉ s.visited)
    {as : List Alias} (h : answerWithin fuel _ (.aliases f) F s = .ok as t) : F.AliasesOf f as := by
  cases fuel with
  | zero => cases h
  | succ fuel =>
    cases hknown : s.aliases.get? f.ident with
    | some known =>
      rw [answer_aliases_known hknown] at h
      cases h
      exact hm _ (.aliases f) as hf hknown
    | none =>
      rw [answer_aliases_missed hknown] at h
      obtain ⟨u, hrun⟩ := exists_of_runOnce_eq_ok hopen h
      obtain ⟨fl, v, hsearch, hrun⟩ := runWith_bind_ok hrun
      cases hrun
      exact aliasesOf_searchFrom hsearch

lemma calls_of_callSites (hm : s.toMemory.Informed F) (hf : F.Has f) (hcallers : ⟨.callers, f.ident, none⟩ ∉ s.visited)
    (hopen : (aliases f).key ∉ s.visited) (h : (callSites f).runWith (answerWithin fuel) F s = .ok
      sites t) : F.Calls f sites := by
  cases hknown : s.callSites.get? f.ident with
  | some known =>
    rw [runWith_callSites_known hknown] at h
    cases h
    exact hm.2.sites f sites hf hknown
  | none =>
    rw [runWith_callSites_missed (balanced_answer fuel) hknown] at h
    obtain ⟨u, hrun⟩ := exists_of_runOnce_eq_ok hcallers h
    obtain ⟨as, v, hask, hrun⟩ := runWith_bind_ok hrun
    cases hrun
    have hopen : (aliases f).key ∉ (⟨.callers, f.ident, none⟩ : Key) :: s.visited := by
      simpa [key] using hopen
    exact ⟨as, aliasesOf_of_answer (s := { s with visited := _ :: s.visited }) hm.1 hf hopen hask, rfl⟩

/-- In every state that queries can leave, the calls that are found for a function declaration begin
with those that invoke it by its name, in source order, and all of them are found if there is room.
No call is found twice, and there is no answer only where the search fails. -/
theorem direct_calls_first (hroot : root.WellFormed) (tree : root.OneParent) (hF : F.Describes root) (hf : F.Has f)
    (h : F.DeclaresFunction f b) (hfew : b.references.length ≤ 4 * F.limits.maxCallers) (hs : s.Arises F)
    (hvisited : s.visited = []) : b.references.Sublist root.walk ∧
      ((∃ sites t, (callSites f).run F s = .ok sites t ∧ (sites.map (·.call)).Nodup ∧
        sites.length ≤ F.limits.maxCallers ∧ ∃ direct others, F.DirectCalls b direct ∧
          sites = direct.take F.limits.maxCallers ++ others) ∨
        ∃ e t, (callSites f).run F s = .error e t) := by
  have hnum := hroot.toWellNumbered
  have hsound := hF.sound hnum
  have huniq := hF.unique hnum
  refine ⟨?_, ?_⟩
  · obtain ⟨source, isModule, hmodel⟩ := hF.model
    obtain ⟨i, hi⟩ := h.indexes
    exact Model.references_sublist_walk hnum tree hmodel hi
  · cases hrun : (callSites f).run F s with
    | error e t => exact .inr ⟨e, t, rfl⟩
    | ok sites t =>
      have hcalls := calls_of_callSites (hs.informed hnum hF) hf (by simp [hvisited])
        (by simp [hvisited]) hrun
      obtain ⟨hnodup, hlen, hdirect⟩ := hcalls.starts hsound huniq
        (fun r hr => ((hF.references hnum tree h.indexes).2 r hr).1) h
        (h.apart hnum tree hF hf) (by omega)
      exact .inl ⟨sites, t, rfl, hnodup, hlen, hdirect⟩

namespace SeveralRoutes

def function : Node :=
  .function 1 (.identifier 2 "f") [] (.block 3 [])

def program : Node :=
  .script [function, .statement 4 (.assign 5 (.member 6 (.identifier 8 "o") "g")
    (.identifier 9 "f")), .statement 10 (.call 11 (.member 12 (.identifier 14 "o") "g") []),
    .statement 15 (.call 16 (.member 17 (.identifier 19 "f") "call") [.identifier 20 "o"]),
    .statement 21 (.branch 22 .newExpression [(.callee, some (.identifier 23 "f"))])]

def followed (F : Facts) : Session :=
  Outcome.session ((Query.ask (.aliases function)).engine.run F {})

def declares (m : Model) : Bool :=
  (m.parent? function).all (·.kind.holdsDeclarations) &&
    ((function.child? .id).bind m.binding?).any (·.references.length ≤ 4)

def found (F : Facts) : List (NodeId × Nat × Route) :=
  match (callSites function).run F (followed F) with
  | .ok sites _ => sites.map fun site => (site.call.ident, site.offset, site.route)
  | .error _ _ => []

def check : Bool :=
  match Model.ofProgram program "" false with
  | .ok m => declares m && found (.ofModel m {}) ==
      [(.listed 16, 1, .directName), (.listed 22, 0, .directName), (.listed 11, 0, .assignedMember)]
  | .error _ => false

end SeveralRoutes

open SeveralRoutes

/-- The calls by name come first, although the call on another route stands before them. -/
theorem direct_calls_first_severalRoutes :
    program.WellFormed ∧ program.OneParent ∧ ∃ F : Facts, F.Describes program ∧
      ∃ b, F.DeclaresFunction function b ∧ b.references.length ≤ 4 * F.limits.maxCallers ∧
        (followed F).Arises F ∧ (followed F).visited = [] ∧
        found F =
          [(.listed 16, 1, .directName), (.listed 22, 0, .directName), (.listed 11, 0, .assignedMember)] ∧
        ∃ sites t, (callSites function).run F (followed F) = .ok sites t ∧
          ∃ direct others, F.DirectCalls b direct ∧ sites = direct.take F.limits.maxCallers ++ others := by
  obtain ⟨hroot, m, hm, hF⟩ := program.exists_described (by decide)
  have tree : program.OneParent := Node.oneParent_of_check hroot.toWellNumbered (by decide)
  have hhas : (ofModel m {}).Has function := hF.has_walk 1 rfl
  have hcheck : check = true := by decide +kernel
  simp only [check, hm, declares, Bool.and_eq_true, beq_iff_eq] at hcheck
  obtain ⟨⟨hpar, hnamed⟩, hfound⟩ := hcheck
  obtain ⟨b, hb, hfew⟩ := (Option.any_eq_true _ _).mp hnamed
  have hfew : b.references.length ≤ 4 * (ofModel m {}).limits.maxCallers :=
    Nat.le_trans (of_decide_eq_true hfew) (show 4 ≤ 4 * 50 by decide)
  have hdecls : (ofModel m {}).DeclaresFunction function b :=
    ⟨rfl, hb, fun p hp => (Option.all_eq_true _ _).mp hpar p hp⟩
  have harises : (followed (ofModel m {})).Arises (ofModel m {}) :=
    .query .start hhas trivial
  have hvisited : (followed (ofModel m {})).visited = [] :=
    (session_runWith _ (balanced_answer _) _ _).1
  refine ⟨hroot, tree, _, hF, b, hdecls, hfew, harises, hvisited, hfound, ?_⟩
  rcases (direct_calls_first hroot tree hF hhas hdecls hfew harises hvisited).2 with
    ⟨sites, t, hrun, -, -, hdirect⟩ | ⟨e, t, hrun⟩
  · exact ⟨sites, t, hrun, hdirect⟩
  · simp [found, hrun] at hfound

def Unreadable.program : Node :=
  .script [function, .statement 4 (.call 5 (.identifier 6 "f") []),
    .statement 7 (.assign 8 (.keyed 9 (.identifier 10 "o") (.keyed 11 (.array 12 [.textLiteral 13
    "k"]) (.textLiteral 14 "²"))) (.identifier 15 "f"))]

def Unreadable.failure : Option Fault :=
  match Model.ofProgram program "" false with
  | .ok m =>
    match (callSites function).run (.ofModel m {}) {} with
    | .ok _ _ => none
    | .error e _ => some e
  | .error _ => none

/-- A position that is no number on another route leaves the direct call unfound. -/
theorem Unreadable.direct_call_unfound : failure = some (.position "²" .malformed) := by
  decide +kernel

end ScriptAudit
