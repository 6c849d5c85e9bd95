import ScriptAudit.Proofs.Resolve.Truthful

/-!
# What is remembered about callers is right

Callers, and the texts that they supply, are remembered only if nothing was refused or cut off in
the search.
-/

namespace ScriptAudit

open Ask Binding Engine Option Question

def Facts.sitesAmong (F : Facts) (f : Node) (as : List Alias) : List CallSite :=
  distinctSites F.limits.maxCallers ((⟨f, bindingRoute F f⟩ :: as).filterMap (invocation? F.model))

def Facts.Calls (F : Facts) (f : Node) (sites : List CallSite) : Prop :=
  ∃ as, F.AliasesOf f as ∧ sites = F.sitesAmong f as

/-- All callers of the function of the parameter `b` are known, and they supply these texts for it.
-/
inductive Facts.Supplies (F : Facts) (b : Binding) : List String → Prop
  | mk {f : Node} {index sites} (g : Node → List String) : b.function = some f → b.paramIndex = some index →
      b.rest = false → b.key = none → (∀ found, F.Calls f found → found = sites) →
      (∀ a ∈ argumentsAt index sites, F.HasTexts [] a (g a)) →
      Supplies F b (unite F.limits.maxValues ((argumentsAt index sites).map g))

namespace Memory

/-- What is remembered about callers agrees with the program. -/
structure Known (F : Facts) (m : Memory) : Prop where
  sites : ∀ f sites, F.Has f → m.callSites.get? f.ident = some sites → F.Calls f sites
  texts : ∀ b texts expected, F.Indexes b → m.paramValues.get? (b.uid, none) = some texts →
    F.Supplies b expected → texts = expected

/-- The same is remembered about callers. -/
structure SameCallers (m m' : Memory) : Prop where
  callSites : m'.callSites = m.callSites
  paramValues : m'.paramValues = m.paramValues

lemma Known.of_same {F : Facts} {m m' : Memory} (h : m.Known F) (hm : m.SameCallers m') : m'.Known F :=
  ⟨hm.callSites ▸ h.sites, hm.paramValues ▸ h.texts⟩

instance : HasOwnChanges SameCallers where
  truncate _ := ⟨rfl, rfl⟩
  newShape _ _ := ⟨rfl, rfl⟩
  changeShape _ _ _ _ := ⟨rfl, rfl⟩
  owners _ _ := ⟨rfl, rfl⟩
  reads _ _ := ⟨rfl, rfl⟩

end Memory

variable {F : Facts} {α β : Type} {s t : Session} {f : Node} {b : Binding} {fuel depth : Nat} {reply : Reply}
  {property : Option String}

def Binding.readKeys (b : Binding) (property : Option String) : List String :=
  b.key.toList ++ property.toList

def Binding.detail (b : Binding) (property : Option String) : Option String :=
  if (b.readKeys property).isEmpty then none else some (".".intercalate (b.readKeys property))

def Ask.suppliedTexts (b : Binding) (property : Option String) (depth : Nat) : Engine (List (List String)) := do
  readPaths (b.readKeys property) depth none (← argumentPaths b property)

lemma Binding.detail_eq_none : b.detail property = none ↔ b.key = none ∧ property = none := by
  unfold detail readKeys
  cases b.key <;> cases property <;> simp

namespace Engine

lemma runWith_callSites_known {sites : List CallSite} (h : s.callSites.get? f.ident = some sites) :
    (callSites f).runWith reply F s = .ok sites s := by
  rw [callSites, runWith_session_bind, h]
  rfl

lemma runWith_callSites_missed (hbal : reply.Balanced) (h : s.callSites.get? f.ident = none) :
    (callSites f).runWith reply F s = runOnce reply F s ⟨.callers, f.ident, none⟩ []
      (fun sites m => { m with callSites := m.callSites.insert f.ident sites })
      (return F.sitesAmong f (← ask (.aliases f))) := by
  rw [callSites, runWith_session_bind, h, ← runOnce_return]
  refine runWith_guarded_bind hbal id (fun _ => rfl) fun sites whole t _ => ?_
  rw [runWith_session_bind]
  split <;> rfl

lemma runWith_paramValues_known {texts : List String} (hframes : s.frames = [])
    (h : s.paramValues.get? (b.uid, b.detail property) = some texts) :
    (paramValues b property depth).runWith reply F s = .ok texts s := by
  have hmemo : (if s.frames.isEmpty then s.paramValues.get? (b.uid, b.detail property) else none) = some texts := by
    simpa [hframes] using h
  unfold detail readKeys at hmemo
  rw [paramValues]
  rw [runWith_session_bind, hmemo]
  rfl

lemma runWith_paramValues_missed (hbal : reply.Balanced)
    (h : s.frames = [] → s.paramValues.get? (b.uid, b.detail property) = none) :
    (paramValues b property depth).runWith reply F s =
      runOnce reply F s ⟨.callers, b.identifier.ident, b.detail property⟩ []
        (fun texts m => { m with paramValues := m.paramValues.insert (b.uid, b.detail property) texts })
        (return unite F.limits.maxValues (← suppliedTexts b property depth)) := by
  have hmemo : (if s.frames.isEmpty then s.paramValues.get? (b.uid, b.detail property) else none) = none := by
    by_cases hframes : s.frames = [] <;> simp_all
  unfold detail readKeys at hmemo
  rw [paramValues]
  rw [runWith_session_bind, hmemo]
  refine runWith_guarded_bind hbal (unite F.limits.maxValues) ?_ fun groups whole t hframes => ?_
  · exact fun _ => rfl
  · change (limits >>= _).runWith reply F t = _
    rw [runWith_limits_bind, ← hframes]
    split <;> rfl

lemma changes_readPaths {R : Memory → Memory → Prop} (keys : List String) (matched : Option Node)
    (paths : List ArgumentPath) : (readPaths keys depth matched paths).ChangesBy R := by
  have hread (argument : Node) (keys : List String) : (readPath argument keys depth).ChangesBy R := by
    fun_induction readPath argument keys depth with
    | case1 | case2 => trivial
    | case3 argument key rest _ ih =>
      refine ⟨⟨trivial, fun ref => ?_⟩, fun found => ?_⟩
      · cases ref with
        | none => trivial
        | some ref => exact ⟨⟨trivial, fun _ => trivial⟩, fun _ => trivial⟩
      · cases found with
        | none => trivial
        | some target => exact ih target
  induction paths generalizing matched with
  | nil => trivial
  | cons path rest ih =>
    unfold readPaths
    split
    · split
      · exact ih matched
      · refine ⟨hread .., fun values => ?_⟩
        dsimp only
        split
        · exact ih matched
        · exact ⟨ih _, fun _ => trivial⟩
    · exact ⟨hread .., fun values => ⟨ih matched, fun _ => trivial⟩⟩

lemma may_of_runWith {x : Engine α} {a : α} (h : x.runWith reply F s = .ok a t) : x.May F a := by
  induction x generalizing s t with
  | done | facts =>
    cases h
    rfl
  | andThen x f ihx ihf =>
    obtain ⟨b, u, hx, hf⟩ := runWith_bind_ok h
    exact ⟨b, ihx hx, ihf b hf⟩
  | session | update | fail | ask | guarded | underFrame | underOuter => trivial

end Engine

lemma Outcome.Upholds.map {x : Engine β} {g : β → α} {I : Memory → Prop} {P : α → Memory → Prop}
    (h : (x.runWith reply F t).Upholds I (fun b m => P (g b) m) s) :
    ((do return g (← x) : Engine α).runWith reply F t).Upholds I P s := by
  change ((andThen x fun b => pure (g b)).runWith reply F t).Upholds I P s
  rw [runWith_andThen]
  cases hrun : x.runWith reply F t with
  | error e u =>
    rw [hrun] at h
    refine ⟨h.kept, ?_⟩
    rintro _ _ ⟨⟩
  | ok b u =>
    rw [hrun] at h
    refine ⟨h.kept, ?_⟩
    rintro _ _ ⟨⟩ huncut
    exact h.whole b u rfl huncut

namespace Memory

variable {m : Memory}

def Informed (F : Facts) (m : Memory) : Prop :=
  m.Faithful F ∧ m.Known F

lemma Known.insertSites (huniq : F.Unique) (h : m.Known F) (hf : F.Has f) {sites : List CallSite}
    (hsites : F.Calls f sites) : Known F { m with callSites := m.callSites.insert f.ident sites } := by
  refine ⟨fun g found hg hfound => ?_, h.texts⟩
  by_cases hid : g.ident = f.ident
  · obtain rfl := huniq g f hg hf hid
    rw [Memo.get?_insert_self] at hfound
    exact some.inj hfound ▸ hsites
  · rw [Memo.get?_insert_of_ne hid] at hfound
    exact h.sites g found hg hfound

lemma Known.insertTexts (huids : ∀ b c, F.Indexes b → F.Indexes c → b.uid = c.uid → b = c) (h : m.Known F)
    (hb : F.Indexes b) {detail : Option String} {texts : List String}
    (htexts : detail = none → ∀ expected, F.Supplies b expected → texts = expected) :
    Known F { m with paramValues := m.paramValues.insert (b.uid, detail) texts } := by
  refine ⟨h.sites, fun c found expected hc hfound hexp => ?_⟩
  by_cases hkey : (c.uid, none) = (b.uid, detail)
  · obtain ⟨huid, hdetail⟩ := Prod.mk.inj hkey
    obtain rfl := huids c b hc hb huid
    rw [hkey, Memo.get?_insert_self] at hfound
    exact some.inj hfound ▸ htexts hdetail.symm expected hexp
  · rw [Memo.get?_insert_of_ne hkey] at hfound
    exact h.texts c found expected hc hfound hexp

end Memory

open Memory

section Searches

variable (hF : F.Sound) (huniq : F.Unique) (hans : F.AnswersKeep (Informed F) fuel) {least : Option Nat}
  (hs : s.Within F) (hm : s.toMemory.Informed F) (hfuel : F.nesting s.visited least ≤ fuel)
include hF huniq hans hs hm hfuel

lemma upholds_callSites {P : List CallSite → Prop} (hmeets : (callSites f).Meets F least P (Faithful F)) :
    ((callSites f).runWith (answerWithin fuel) F s).Upholds (Known F)
      (fun sites _ => F.Has f → F.Calls f sites) s := by
  cases hmiss : s.callSites.get? f.ident with
  | some sites =>
    rw [runWith_callSites_known hmiss]
    exact .here hm.2 fun hf => hm.2.sites f sites hf hmiss
  | none =>
    have hasks := hmeets s hs hm.1
    dsimp only at hasks
    rw [hmiss] at hasks
    obtain ⟨hlists, -, hf, hafter, -⟩ := hasks
    rw [runWith_callSites_missed (balanced_answer fuel) hmiss]
    refine upholds_runOnce (hm.2.of_same ⟨rfl, rfl⟩) (fun hk => .map ?_) (fun _ h => h) fun sites m _ _ hsites hm => ?_
    · let u : Session := { s with visited := ⟨.callers, f.ident, none⟩ :: s.visited }
      have hu : u.Within F := ⟨hs.memory, hs.frames⟩
      have hlevel := Nat.le_trans (Facts.nesting_restart_le hlists (by simpa using hk) least) hfuel
      refine ⟨(hans _ (.aliases f) u _ hlevel hf hafter hu hm).2, fun as t hrun hwhole _ => ?_⟩
      exact ⟨as, (answerWithin_truthful hF huniq fuel).2 _ _ u t _ as hlevel hf hafter hu hm.1 hrun hwhole, rfl⟩
    · exact ⟨hm.insertSites huniq hf (hsites hf), hsites⟩

lemma upholds_argumentPaths (hb : F.Declares b) {P : List ArgumentPath → Prop}
    (hmeets : (argumentPaths b property).Meets F least P (Faithful F)) :
    ((argumentPaths b property).runWith (answerWithin fuel) F s).Upholds (Known F) (fun paths _ =>
      ∀ f index sites, b.function = some f → b.paramIndex = some index → b.rest = false →
        (∀ found, F.Calls f found → found = sites) →
        paths = sites.flatMap (pathsAt index (property.isSome || b.key.isSome))) s := by
  unfold argumentPaths at hmeets ⊢
  split
  next f index hf hidx =>
    simp only [hf, hidx] at hmeets
    split
    next hrest =>
      refine .here hm.2 fun _ _ _ _ _ hplain => ?_
      rw [hplain] at hrest
      cases hrest
    next hrest =>
      rw [if_neg hrest] at hmeets
      have hsites := upholds_callSites hF huniq hans hs hm hfuel (f := f) hmeets
      refine .map ⟨hsites.kept, fun sites t hrun hwhole g i expected hg hi _ hexp => ?_⟩
      cases hf.symm.trans hg
      cases hidx.symm.trans hi
      rw [hexp sites (hsites.whole sites t hrun hwhole (hb.function f hf))]
  next hnone => exact .here hm.2 fun f index _ hf hi => absurd hi (hnone f index hf)

lemma upholds_suppliedTexts (hb : F.Declares b) {P : List (List String) → Prop}
    (hmeets : (suppliedTexts b property depth).Meets F least P (Faithful F)) :
    ((suppliedTexts b property depth).runWith (answerWithin fuel) F s).Upholds (Known F) (fun groups _ =>
      s.frames = [] → property = none → ∀ expected, F.Supplies b expected →
        unite F.limits.maxValues groups = expected) s := by
  obtain ⟨hkeep, hright⟩ := answerWithin_truthful hF huniq fuel
  have hmeetsFirst : (argumentPaths b property).Meets F least (fun paths =>
    (readPaths (b.readKeys property) depth none paths).Meets F least P (Faithful F)) (Faithful F) := hmeets
  have hpaths := upholds_argumentPaths hF huniq hans hs hm hfuel hb hmeetsFirst
  have hfirst := hmeetsFirst.runWith_keeping hF Faithful.stable hkeep hs hm.1 hfuel
  change ((andThen _ _).runWith (answerWithin fuel) F s).Upholds _ _ s
  rw [runWith_andThen]
  cases hrun : (argumentPaths b property).runWith (answerWithin fuel) F s with
  | error e t =>
    rw [hrun] at hpaths
    refine ⟨hpaths.kept, ?_⟩
    rintro _ _ ⟨⟩
  | ok paths t =>
    rw [hrun] at hpaths hfirst
    have hlevel : F.nesting t.visited least ≤ fuel := by
      rwa [visited_runWith (balanced_answer fuel) hrun]
    have hinf : (readPaths (b.readKeys property) depth none paths).Meets F least P (Informed F) :=
      hfirst.1.2.strengthen (R := Eq) (fun _ h => h.1) (fun _ _ heq h => heq ▸ h) (changes_readPaths ..)
    have hread := hinf.good_keeping (balanced_answer fuel)
      (fun _ q u l hl hq hql hu => answerWithin_good hF fuel q u l hl hq hql hu) hans
      (fun m hm => ⟨Faithful.stable (Recounts.refuse m).quiet hm.1, hm.2.of_same ⟨rfl, rfl⟩⟩)
      t hfirst.1.1 ⟨hfirst.2, hpaths.kept⟩ hlevel
    refine ⟨hread.2.2, fun groups u hgroups hwhole hframes hprop expected hexp => ?_⟩
    obtain ⟨hst, htu⟩ := uncut_of_runs (steps_argumentPaths b property).quiet
      (steps_readPaths ..).quiet hrun hgroups hwhole
    obtain ⟨g, hfun, hidx, hrest, hkey, hsites, htexts⟩ := hexp
    have hplain := hpaths.whole paths t rfl hst _ _ _ hfun hidx hrest hsites
    have hkeys : b.readKeys property = [] := by simp [readKeys, hprop, hkey]
    have htframes : t.frames = [] := (frames_runWith (balanced_answer fuel) hrun).trans hframes
    simp only [hprop, hkey, isSome_none, Bool.or_self] at hplain
    subst hplain
    rw [hkeys] at hgroups hfirst
    have hyields := yielding.readArguments fun a ha => yields_askValues (htexts a ha) (depth + 1)
    rw [((hyields t htframes).holds hF hkeep hright (steps_readPaths ..).quiet hfirst.1.2 hfirst.1.1 hfirst.2
      hlevel hgroups htu).2]

lemma known_paramValues (huids : ∀ b c, F.Indexes b → F.Indexes c → b.uid = c.uid → b = c) (hb : F.Indexes b)
    {P : List String → Prop} (hmeets : (paramValues b property depth).Meets F least P (Faithful F)) :
    (Outcome.session ((paramValues b property depth).runWith (answerWithin fuel) F s)).toMemory.Known F := by
  obtain ⟨u, hu⟩ := hb
  have hdecls : F.Declares b := hF.model.bindings u b hu
  by_cases hknown : s.frames = [] ∧ (s.paramValues.get? (b.uid, b.detail property)).isSome
  · obtain ⟨texts, htexts⟩ := Option.isSome_iff_exists.mp hknown.2
    rw [runWith_paramValues_known hknown.1 htexts]
    exact hm.2
  · have hmiss : s.frames = [] → s.paramValues.get? (b.uid, b.detail property) = none := fun hframes => by
      simpa [hframes] using hknown
    have hmemo : (if s.frames.isEmpty then s.paramValues.get? (b.uid, b.detail property) else none) = none := by
      by_cases hframes : s.frames = [] <;> simp_all
    have hasks := hmeets s hs hm.1
    unfold detail readKeys at hmemo
    dsimp only at hasks
    rw [hmemo] at hasks
    obtain ⟨hlists, -, hasks⟩ := hasks
    rw [runWith_paramValues_missed (balanced_answer fuel) hmiss]
    refine (upholds_runOnce (P := fun texts _ => s.frames = [] → property = none → ∀ expected, F.Supplies b expected →
      texts = expected) (hm.2.of_same ⟨rfl, rfl⟩) (fun hk => .map ?_) (fun _ h => h)
        fun texts m _ hframes htexts hm => ?_).kept
    · let k : Key := ⟨.callers, b.identifier.ident, b.detail property⟩
      have hk : k ∉ s.visited := hk
      have hlevel : F.nesting (k :: s.visited) (k.restart least) ≤ fuel :=
        Nat.le_trans (Facts.nesting_restart_le (k := k) hlists (by simpa using hk) least) hfuel
      obtain ⟨hkept, hwhole⟩ := upholds_suppliedTexts (s := { s with visited := k :: s.visited }) hF huniq hans
        ⟨hs.memory, hs.frames⟩ hm hlevel hdecls hasks
      exact ⟨hkept, hwhole⟩
    · exact ⟨hm.insertTexts huids ⟨u, hu⟩ fun hdetail => htexts hframes (detail_eq_none.mp hdetail).2, htexts⟩

lemma Engine.StepsBy.known (huids : ∀ b c, F.Indexes b → F.Indexes c → b.uid = c.uid → b = c) {x : Engine α}
    (hx : x.StepsBy (some F) SameCallers) {P : α → Prop} (hmeets : x.Meets F least P (Faithful F)) :
    (Outcome.session (x.runWith (answerWithin fuel) F s)).toMemory.Known F := by
  obtain ⟨hkeep, -⟩ := answerWithin_truthful hF huniq fuel
  induction x generalizing s least with
  | done | facts | session | fail => exact hm.2
  | update f => exact hm.2.of_same (hx s.toMemory)
  | ask q => exact (hans _ q s least hfuel hmeets.1 hmeets.2.1 hs hm).2
  | andThen x f ihx ihf =>
    rcases hx with hsearch | ⟨hx, hf⟩
    · generalize andThen x f = y at hsearch hmeets
      cases hsearch with
      | callSites g => exact (upholds_callSites hF huniq hans hs hm hfuel hmeets).kept
      | paramValues property depth hb =>
        exact known_paramValues hF huniq hans hs hm hfuel huids (hb F rfl) hmeets
    · have hmeetsFirst : x.Meets F least (fun b => (f b).Meets F least P (Faithful F)) (Faithful F) := hmeets
      have hfirst := hmeetsFirst.runWith_keeping hF Faithful.stable hkeep hs hm.1 hfuel
      have hknown := ihx hs hm hfuel hx hmeetsFirst
      rw [session_andThen]
      cases hrun : x.runWith (answerWithin fuel) F s with
      | error e t =>
        rw [hrun] at hknown
        exact hknown
      | ok b t =>
        rw [hrun] at hfirst hknown
        refine ihf b hfirst.1.1 ⟨hfirst.2, hknown⟩ ?_ (hf b ?_) hfirst.1.2
        · rwa [visited_runWith (balanced_answer fuel) hrun]
        · rintro _ ⟨⟩
          exact may_of_runWith hrun
  | guarded k x ih =>
    rw [session_guarded]
    split
    · exact hm.2.of_same ⟨rfl, rfl⟩
    next hfresh =>
      have hlevel := Nat.le_trans (Facts.nesting_restart_le hmeets.1 (by simpa using hfresh) least) hfuel
      exact (ih (s := { s with visited := k :: s.visited }) ⟨hs.memory, hs.frames⟩ hm hlevel hx hmeets.2.2 :)
  | underFrame frame x ih =>
    rw [session_underFrame]
    exact (ih (hs.underFrame hmeets.1) hm hfuel hx hmeets.2 :)
  | underOuter index x ih =>
    rw [session_underOuter]
    exact (ih (hs.underOuter index) hm hfuel hx hmeets :)

end Searches

lemma answerWithin_informed (hF : F.Sound) (huniq : F.Unique)
    (huids : ∀ b c, F.Indexes b → F.Indexes c → b.uid = c.uid → b = c) (fuel : Nat) :
    F.AnswersKeep (Informed F) fuel := by
  induction fuel with
  | zero => exact fun _ _ _ _ _ _ _ _ hm => hm
  | succ fuel ih =>
    intro β q s least hfuel hq hafter hs hm
    refine ⟨(answerWithin_truthful hF huniq (fuel + 1)).1 β q s least hfuel hq hafter hs hm.1, ?_⟩
    have hlt := nesting_level_lt (F := F) s.visited hafter
    refine (upholds_rule (I := Known F) (J := Known F) (P := fun _ _ => True)
      (balanced_answer fuel) ?_ (by simp) (by simp) (by simp) (fun r _ hd hr hk => ⟨?_, by simp⟩) (fun _ h => h)
      ?_).kept
    · rintro _ ⟨-, -⟩
      exact hm.2.of_same ⟨rfl, rfl⟩
    · obtain ⟨hlists, hmeets⟩ := meets_body hF hq hd hr
      have hlevel := Nat.le_trans (Facts.nesting_restart_le hlists (by simpa using hk) _) (Nat.le_of_lt_succ
        (Nat.lt_of_lt_of_le hlt hfuel))
      exact (steps_body hr).known (s := { s with visited := q.key :: s.visited }) hF huniq ih
        ⟨hs.memory, hs.frames⟩ hm hlevel huids
        (hmeets.keeping Faithful.stable (steps_body hr).quiet)
    · intro _ a m _ _ _ _ _ hm
      refine ⟨hm.of_same ?_, trivial⟩
      cases q <;> exact ⟨rfl, rfl⟩

end ScriptAudit
