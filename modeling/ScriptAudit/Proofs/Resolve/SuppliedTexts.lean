import ScriptAudit.Proofs.Resolve.DirectCalls
import ScriptAudit.Proofs.Resolve.StringResolution

/-!
# The texts of a parameter are united over its callers

If a function declaration is used only by calling it, and each call passes a string expression for a
parameter, the parameter has the texts of these expressions, in the order of the calls.
-/

namespace ScriptAudit

open Ask Engine Facts List Node Question

/-- A call passes the string expression `e` for the parameter at position `i`, with nothing spread
at or before it, and it can be resolved from the given depth. -/
def Facts.PassesText (F : Facts) (i depth : Nat) (call : Node) (e : StringExpr) : Prop :=
  ∃ a, Frame.hidesPosition (call.list .arguments) i = false ∧ (call.list .arguments)[i]? = some a ∧
    F.model.Expresses a e ∧ depth + e.levels false ≤ F.limits.maxDepth

def sitesByName (calls : List Node) : List CallSite :=
  calls.map (⟨·, 0, .directName⟩)

variable {F : Facts} {s t : Session} {f : Node} {b p : Binding} {root : Node} {calls : List Node} {es : List StringExpr}
  {i depth fuel : Nat}

lemma Facts.sitesOf_eq {rs : List Node} (h : List.Forall₂ F.model.CalledBy rs calls) :
    F.sitesOf rs = sitesByName calls := by
  induction h with
  | nil => rfl
  | @cons r call _ _ hcall _ ih =>
    have hsite : invocation? F.model ⟨r, .directName⟩ = some ⟨call, 0, .directName⟩ := by
      simp [invocation?, hcall.1, hcall.2.1, hcall.2.2]
    simp only [sitesOf, filterMap_cons, hsite]
    exact congrArg _ ih

namespace Facts.OnlyCalled

lemma has_call (h : F.OnlyCalled f b calls) (hF : F.Sound) : F.HasAll calls := by
  intro call hcall
  obtain ⟨i, hi, rfl⟩ := mem_iff_getElem.mp hcall
  obtain ⟨hlen, hcalled⟩ := forall₂_iff_get.mp h.called
  exact hF.model.parent? (hcalled i (hlen ▸ hi) hi).1

lemma nodup_idents (h : F.OnlyCalled f b calls) (hF : F.Sound) (huniq : F.Unique) : (calls.map ident).Nodup :=
  h.distinct.map_on fun c hc d hd => huniq c d (h.has_call hF c hc) (h.has_call hF d hd)

variable (h : F.OnlyCalled f b calls) (hapart : b.Apart f)
include h hapart

lemma eq_of_calls (huniq : (calls.map ident).Nodup) {sites : List CallSite} (hsites : F.Calls f sites) :
    sites = sitesByName calls := by
  obtain ⟨as, has, rfl⟩ := hsites
  have hall : distinctBy (·.call) (sitesByName calls) = sitesByName calls := by
    refine freshBy_eq_self beq_iff_ident ?_ fun _ _ _ hk => by cases hk
    simpa [sitesByName, Function.comp_def] using huniq
  have hsites := h.toDeclaresFunction.sitesAmong_append []
  rw [append_nil, filterMap_nil, append_nil, sitesOf_eq h.called] at hsites
  rw [has.only b calls h hapart, hsites, distinctSites, hall]
  exact take_of_length_le (by simpa [sitesByName] using h.few)

lemma exists_runWith_aliases (fuel : Nat) (hopen : (aliases f).key ∉ s.visited) :
    ∃ as t, (ask (.aliases f)).runWith (answerWithin (fuel + 1)) F s = .ok as t := by
  change ∃ as t, answerWithin (fuel + 1) _ (.aliases f) F s = .ok as t
  cases hknown : s.aliases.get? f.ident with
  | some as => exact ⟨as, s, answer_aliases_known hknown⟩
  | none =>
    obtain ⟨fl, hrun, -⟩ := h.runWith_searchFrom hapart (answerWithin fuel)
      { s with visited := (aliases f).key :: s.visited }
    rw [answer_aliases_missed hknown]
    exact ⟨fl.found, exists_runOnce_return hopen hrun Flow.found⟩

lemma exists_run_callSites (hf : F.Has f) (huniq : (calls.map ident).Nodup) (hm : s.toMemory.Informed F)
    (hcallers : ⟨.callers, f.ident, none⟩ ∉ s.visited) (hopen : (aliases f).key ∉ s.visited) :
    ∃ t, (callSites f).run F s = .ok (sitesByName calls) t := by
  obtain ⟨fuel, hfuel⟩ : ∃ fuel, F.openQuestions = fuel + 1 :=
    Nat.exists_eq_add_one.mpr (Nat.mul_pos (Nat.succ_pos _) (by omega))
  unfold run
  rw [hfuel]
  have hruns : ∃ sites t, (callSites f).runWith (answerWithin (fuel + 1)) F s = .ok sites t := by
    cases hknown : s.callSites.get? f.ident with
    | some sites => exact ⟨sites, s, runWith_callSites_known hknown⟩
    | none =>
      obtain ⟨as, t, hanswer⟩ := h.exists_runWith_aliases hapart fuel
        (s := { s with visited := ⟨.callers, f.ident, none⟩ :: s.visited }) (by simpa [key] using hopen)
      rw [runWith_callSites_missed (balanced_answer _) hknown]
      exact ⟨_, exists_runOnce_return hcallers hanswer (F.sitesAmong f)⟩
  obtain ⟨sites, t, hrun⟩ := hruns
  have hsites := h.eq_of_calls hapart huniq (calls_of_callSites hm hf hcallers hopen hrun)
  exact ⟨t, hsites ▸ hrun⟩

end Facts.OnlyCalled

lemma Facts.arguments_of_passesText (hcalls : F.HasAll calls)
    (h : List.Forall₂ (F.PassesText i depth) calls es) :
    (∀ a ∈ argumentsAt i (sitesByName calls), F.Has a ∧ ∃ e, F.model.Expresses a e ∧
        depth + e.levels false ≤ F.limits.maxDepth) ∧
      (argumentsAt i (sitesByName calls)).map F.textsOf = es.map (·.value F.limits.maxValues) := by
  induction h with
  | nil => exact ⟨by simp [argumentsAt, sitesByName], rfl⟩
  | @cons call e calls es hpasses _ ih =>
    obtain ⟨hcall, hrest⟩ := forall_mem_cons.mp hcalls
    obtain ⟨hargs, htexts⟩ := ih hrest
    obtain ⟨a, hhides, ha, he, hlev⟩ := hpasses
    have hpath : pathsAt i false ⟨call, 0, .directName⟩ = [⟨a, call, i, .directName, false⟩] := by
      simp [pathsAt, hhides, ha]
    have hfirst : argumentsAt i (sitesByName (call :: calls)) = a :: argumentsAt i (sitesByName calls) := by
      simp [argumentsAt, sitesByName, hpath]
    rw [hfirst]
    refine ⟨forall_mem_cons.mpr ⟨⟨hcall.mem_list (mem_of_getElem? ha), e, he, hlev⟩, hargs⟩, ?_⟩
    rw [map_cons, map_cons, textsOf_eq he, htexts]

section Texts

variable (hF : F.Sound) (huniq : F.Unique) (hcap : 0 < F.limits.maxValues) (hcalls : F.HasAll calls)
  (h : List.Forall₂ (F.PassesText i depth) calls es)
include hF huniq hcap hcalls h

lemma settles_readArguments {opened : List Key} (hopened : ∀ k ∈ opened, k.topic = .callers) :
    (readPaths [] depth none ((sitesByName calls).flatMap (pathsAt i false))).Settles F [] opened
      (es.map (·.value F.limits.maxValues)) := by
  obtain ⟨hargs, htexts⟩ := F.arguments_of_passesText hcalls h
  rw [← htexts]
  refine settling.readArguments fun a ha => ?_
  obtain ⟨hhas, e, he, hlev⟩ := hargs a ha
  rw [textsOf_eq he]
  refine he.settles hF huniq hcap hhas (by omega) fun k _ hk => ?_
  cases hopened _ hk

lemma Facts.supplies_of_passesText (hp : p.function = some f) (hidx : p.paramIndex = some i) (hrest : p.rest = false)
    (hkey : p.key = none) (hsites : ∀ found, F.Calls f found → found = sitesByName calls) :
    F.Supplies p (cutTexts F.limits.maxValues (es.flatMap (·.value F.limits.maxValues))) := by
  obtain ⟨hargs, htexts⟩ := F.arguments_of_passesText hcalls h
  have hsupplies : F.Supplies p _ := .mk F.textsOf hp hidx hrest hkey hsites fun a ha => by
    obtain ⟨hhas, e, he, -⟩ := hargs a ha
    rw [textsOf_eq he]
    exact he.hasTexts hF huniq hcap hhas
  rwa [htexts, unite_eq_cut hcap, ← flatMap_def] at hsupplies

end Texts

lemma Ask.run_argumentPaths {sites : List CallSite} {q : Node} (hplain : p.DeclaredBy f i ⟨q, {}⟩)
    (h : (callSites f).run F s = .ok sites t) :
    (argumentPaths p none).run F s = .ok (sites.flatMap (pathsAt i false)) t := by
  simp only [argumentPaths, hplain.function, hplain.paramIndex, hplain.rest, hplain.key]
  change (andThen (callSites f) fun sites => pure (sites.flatMap (pathsAt i false))).run F s = _
  unfold run at *
  rw [runWith_andThen, h]
  rfl

lemma Facts.OnlyCalled.exists_run_suppliedTexts (h : F.OnlyCalled f b calls) (hapart : b.Apart f) (hF : F.Sound)
    (huniq : F.Unique) (hcap : 0 < F.limits.maxValues) (hf : F.Has f)
    {q : Node} (hplain : p.DeclaredBy f i ⟨q, {}⟩) (hpasses : List.Forall₂ (F.PassesText i depth) calls es)
    {opened : List Key} (hopened : ∀ k ∈ opened, k.topic = .callers) (hcallers : ⟨.callers, f.ident, none⟩ ∉ opened)
    (hs : s.Calm F [] opened) (hknown : s.toMemory.Known F) :
    ∃ t, (suppliedTexts p none depth).run F s = .ok (es.map (·.value F.limits.maxValues)) t := by
  obtain ⟨t, hsites⟩ := h.exists_run_callSites hapart hf (h.nodup_idents hF huniq) ⟨hs.faithful,
    hknown⟩ (hs.visited ▸ hcallers)
    (hs.visited ▸ fun hk => by cases hopened _ hk)
  have hmeets : (callSites f).Meets F (some 0) _ (Memory.Faithful F) :=
    (meets_callSites hF hf).keeping Memory.Faithful.stable (quiet_callSites f)
  have hkept := hmeets.run_keeping hF Memory.Faithful.stable (answerWithin_truthful hF huniq F.openQuestions).1
    hs.within hs.faithful
  rw [hsites] at hkept
  have ht : t.Calm F [] opened :=
    ⟨hkept.1.1, hkept.2, (frames_run_ok hsites).trans hs.frames, (visited_of_run_eq_ok hsites).trans hs.visited⟩
  obtain ⟨u, hread, -, -⟩ := settles_readArguments hF huniq hcap (h.has_call hF) hpasses hopened t ht
  have hpaths := run_argumentPaths hplain hsites
  have hmeetsRead : (readPaths [] depth none ((sitesByName calls).flatMap (pathsAt i false))).Meets F (some 0) _ :=
    meets_readPaths (Nat.zero_le _) [] none fun path hpath => by
      obtain ⟨site, hsite, hpath⟩ := mem_flatMap.mp hpath
      exact has_of_mem_pathsAt (hkept.1.2 site hsite) hpath
  have hrun := (hmeetsRead.evaluates_iff hF ht.within _).mp hread
  have hkeys : p.readKeys none = [] := by simp [Binding.readKeys, hplain.key]
  refine ⟨u, ?_⟩
  change (andThen (argumentPaths p none) fun paths => readPaths (p.readKeys none) depth none paths).run F s = _
  unfold run at *
  rw [hkeys, runWith_andThen, hpaths]
  exact hrun

/-- In every state that queries can leave, the calls that are found for a function declaration that
is used only by calling it are its calls, in source order. If they all pass string expressions for a
parameter, its texts are those of the expressions, each once and up to the cap. -/
theorem parameter_united_over_callers (hroot : root.WellNumbered) (tree : root.OneParent) (hF : F.Describes root)
    (hcap : 0 < F.limits.maxValues) (hf : F.Has f) (h : F.OnlyCalled f b calls) (hp : p ∈ F.model.paramsOf f) {q : Node}
    (hplain : p.DeclaredBy f i ⟨q, {}⟩) (hpasses : List.Forall₂ (F.PassesText i depth) calls es) (hs : s.Arises F)
    (hframes : s.frames = []) (hvisited : s.visited = []) :
    b.references.Sublist root.walk ∧ (∃ t, (callSites f).run F s = .ok (sitesByName calls) t) ∧
      ∃ t, (paramValues p none depth).run F s =
        .ok (cutTexts F.limits.maxValues (es.flatMap (·.value F.limits.maxValues))) t := by
  have hsound := hF.sound hroot
  have huniq := hF.unique hroot
  have hinf := hs.informed hroot hF
  have hapart := h.apart hroot tree hF hf
  have hidents := h.nodup_idents hsound huniq
  refine ⟨?_, ?_, ?_⟩
  · obtain ⟨source, isModule, hmodel⟩ := hF.model
    obtain ⟨j, hj⟩ := h.indexes
    exact Model.references_sublist_walk hroot tree hmodel hj
  · exact h.exists_run_callSites hapart hf hidents hinf (by simp [hvisited]) (by simp [hvisited])
  · have hdetail : p.detail none = none := Binding.detail_eq_none.mpr ⟨hplain.key, rfl⟩
    cases hknown : s.paramValues.get? (p.uid, p.detail none) with
    | some texts =>
      have hsupplies := F.supplies_of_passesText hsound huniq hcap (h.has_call hsound) hpasses hplain.function
        hplain.paramIndex hplain.rest hplain.key fun found => h.eq_of_calls hapart hidents
      obtain ⟨j, -, hj⟩ := mem_filterMap.mp hp
      have htexts := hinf.2.texts p texts _ ⟨j, hj⟩ (by rwa [hdetail] at hknown) hsupplies
      exact ⟨s, htexts ▸ runWith_paramValues_known hframes hknown⟩
    | none =>
      have hcalm : Session.Calm F [] [⟨.callers, p.identifier.ident, none⟩]
          { s with visited := ⟨.callers, p.identifier.ident, none⟩ :: s.visited } :=
        ⟨⟨(hs.reachable.within hsound).memory, (hs.reachable.within hsound).frames⟩, hinf.1,
          hframes, by simp [hvisited]⟩
      have hother : (⟨.callers, f.ident, none⟩ : Key) ∉ [⟨.callers, p.identifier.ident, none⟩] := by
        intro hsame
        simp only [mem_singleton, Key.mk.injEq, true_and, and_true] at hsame
        obtain ⟨pattern, hpat, htgt⟩ := hplain.pattern
        obtain ⟨⟨hq, -⟩, hkind⟩ := Node.Below.mem_targets (hf.mem_list (mem_of_getElem? hpat))
          (fun _ he => by cases he) htgt
        rw [hplain.identifier] at hsame
        obtain rfl := huniq f q hf hq hsame
        cases h.kind.symm.trans hkind
      obtain ⟨u, hsup⟩ := h.exists_run_suppliedTexts hapart hsound huniq hcap hf hplain hpasses (by simp) hother
        hcalm hinf.2
      unfold run
      rw [runWith_paramValues_missed (balanced_answer _) fun _ => hknown, hdetail]
      obtain ⟨t, ht⟩ := exists_runOnce_return (by simp [hvisited]) hsup (unite F.limits.maxValues)
      rw [unite_eq_cut hcap, ← flatMap_def] at ht
      exact ⟨t, ht⟩

namespace Senders

def name : Node := .identifier 4 "u"

def function : Node :=
  .function 1 (.identifier 2 "send") [.identifier 3 "m", name] (.block 5 [])

def choice : Node :=
  .branch 9 .conditionalExpression [(.test, some (.identifier 10 "c")), (.consequent, some (.textLiteral 11 "/a")),
    (.alternate, some (.textLiteral 12 "/b"))]

def base : Node := .identifier 17 "base"

def sum : Node :=
  .binary 22 "+" (.textLiteral 23 "/c") (.textLiteral 24 "/d")

def first : Node := .call 14 (.identifier 15 "send") [.textLiteral 16 "GET", base]

def second : Node :=
  .branch 19 .newExpression [(.callee, some (.identifier 20 "send")), (.arguments, some (.textLiteral 21 "PUT")),
    (.arguments, some sum)]

def third : Node := .call 26 (.identifier 27 "send") [.textLiteral 28 "GET", .textLiteral 29 "/a"]

def sent : List Node := [first, second, third]

def program : Node :=
  .script [function, .declaration 6 "base" choice, .statement 13 first, .statement 18 second,
    .statement 25 third]

def expressions : List StringExpr :=
  [.named (.choice (.literal "/a") (.literal "/b")), .plus (.literal "/c") (.literal "/d"), .literal "/a"]

def resolved (F : Facts) : Session :=
  Outcome.session ((Query.ask (.values base none 0)).engine.run F {})

def isCalledBy (m : Model) (r call : Node) : Bool :=
  (m.parent? r).any (·.ident == call.ident) && m.fieldOf? r == some .callee && call.kind.isCall

def isOnlyCalled (m : Model) (b : Binding) : Bool :=
  b.references.length == sent.length && (b.references.zip sent).all (fun e => isCalledBy m e.1 e.2) &&
    ((Globals.ofModel m).memberReads.getD b.name []).isEmpty

def check : Bool :=
  match Model.ofProgram program "" false with
  | .ok m =>
    Routes.keeps m base choice && (m.parent? function).all (·.kind.holdsDeclarations) &&
      ((function.child? .id).bind m.binding?).any (isOnlyCalled m) && (m.paramsOf function).any (·.paramIndex == some 1)
  | .error _ => false

end Senders

open Senders

/-- Three calls supply texts, of which one occurs twice, after one of the arguments was resolved. -/
theorem parameter_united_over_callers_senders :
    program.WellNumbered ∧ program.OneParent ∧ ∃ F : Facts, F.Describes program ∧
      (resolved F).Arises F ∧ ∃ b p, F.OnlyCalled function b sent ∧
        p ∈ F.model.paramsOf function ∧ p.DeclaredBy function 1 ⟨name, {}⟩ ∧
        List.Forall₂ (F.PassesText 1 0) sent expressions ∧
        (∃ t, (callSites function).run F (resolved F) = .ok (sitesByName sent) t) ∧
        ∃ t, (paramValues p none 0).run F (resolved F) = .ok ["/a", "/b", "/c/d"] t := by
  obtain ⟨hroot, m, hm, hF⟩ := program.exists_described (by decide)
  have hnum := hroot.toWellNumbered
  have tree : program.OneParent := oneParent_of_check hnum (by decide +kernel)
  have hsound := hF.sound hnum
  have huniq := hF.unique hnum
  have hbelow {n : Node} (i : Nat) (hi : program.walk[i]? = some n) : program.Below n :=
    Node.Below.mem_walk .refl (mem_of_getElem? hi)
  have harises : (resolved (ofModel m {})).Arises (ofModel m {}) :=
    .query .start (hF.has (hbelow (n := base) 17 rfl)).knows trivial
  have hcheck : check = true := by decide +kernel
  unfold check at hcheck
  simp only [hm, Bool.and_eq_true] at hcheck
  obtain ⟨⟨⟨hkeeps, hpar⟩, hcalled⟩, hparam⟩ := hcheck
  obtain ⟨b, hb, hcalled⟩ := (Option.any_eq_true _ _).mp hcalled
  obtain ⟨p, hp, hidx⟩ := any_eq_true.mp hparam
  simp only [isOnlyCalled, Bool.and_eq_true, beq_iff_eq, all_eq_true, List.isEmpty_iff] at hcalled
  obtain ⟨⟨hlen, hcalled⟩, hnotRead⟩ := hcalled
  have hsent : ∀ call ∈ sent, (ofModel m {}).Has call := by
    simp only [sent, forall_mem_cons]
    exact ⟨hF.has (hbelow 14 rfl), hF.has (hbelow 19 rfl), hF.has (hbelow 26 rfl), by simp⟩
  have honly : (ofModel m {}).OnlyCalled function b sent := by
    refine ⟨⟨rfl, hb, fun p hp => (Option.all_eq_true _ _).mp hpar p hp⟩, ?_, ?_, ?_, show 3 ≤ 50 by decide⟩
    · refine forall₂_iff_zip.mpr ⟨hlen, fun {r call} hmem => ?_⟩
      have hcall := hcalled _ hmem
      simp only [isCalledBy, Bool.and_eq_true, beq_iff_eq] at hcall
      obtain ⟨⟨hany, hfield⟩, hkind⟩ := hcall
      obtain ⟨k, hk, hid⟩ := (Option.any_eq_true _ _).mp hany
      obtain rfl := huniq k call (hsound.model.parent? hk) (hsent call (of_mem_zip hmem).2) (eq_of_beq hid)
      exact ⟨hk, hfield, hkind⟩
    · exact List.Nodup.of_map ident (by decide)
    · rintro - - _ ⟨⟩
      exact hnotRead
  have hdecl : p.DeclaredBy function 1 ⟨name, {}⟩ :=
    Model.declaredBy_name hnum hm (hbelow 1 rfl) hp (eq_of_beq hidx) rfl rfl
  have hbase : (ofModel m {}).model.Expresses base (.named (.choice (.literal "/a") (.literal "/b"))) :=
    Routes.expresses_of_keeps hsound huniq rfl (hF.has (hbelow (n := choice) 9 rfl))
      (.conditional rfl rfl rfl (.literal rfl) (.literal rfl)) hkeeps
  have hlev : ∀ e ∈ expressions, 0 + e.levels false ≤ ({} : Limits).maxDepth := by decide
  simp only [expressions, forall_mem_cons] at hlev
  have hpasses : List.Forall₂ ((ofModel m {}).PassesText 1 0) sent expressions :=
    .cons ⟨_, rfl, rfl, hbase, hlev.1⟩
      (.cons ⟨_, rfl, rfl, .plus rfl rfl rfl rfl (.literal rfl) (.literal rfl), hlev.2.1⟩
        (.cons ⟨_, rfl, rfl, .literal rfl, hlev.2.2.1⟩ .nil))
  have hframes : (resolved (ofModel m {})).frames = [] :=
    (session_runWith _ (balanced_answer _) _ _).2
  have hvisited : (resolved (ofModel m {})).visited = [] :=
    (session_runWith _ (balanced_answer _) _ _).1
  obtain ⟨-, hsites, htexts⟩ := parameter_united_over_callers hnum tree hF (Nat.zero_lt_succ _) (hF.has (hbelow 1 rfl))
    honly hp hdecl hpasses harises hframes hvisited
  have hcut : cutTexts ({} : Limits).maxValues (expressions.flatMap (·.value ({} : Limits).maxValues)) =
      ["/a", "/b", "/c/d"] := by decide +kernel
  rw [show (ofModel m {}).limits = {} from rfl, hcut] at htexts
  exact ⟨hnum, tree, _, hF, harises, b, p, honly, hp, hdecl, hpasses, hsites, htexts⟩

end ScriptAudit
