import ScriptAudit.Proofs.Resolve.SettlingObjects

/-!
# Questions are answered right

An answer that comes about with nothing refused or cut off agrees with everything that the program
settles, and what is remembered stays faithful.
-/

namespace ScriptAudit

open Engine Memory Facts Ask

variable {F : Facts} {α : Type} {s : Session} {n : Node} {fuel : Nat} {r : Engine α}

lemma Engine.Forces.all {ι : Sort _} {x : Engine α} {Q : ι → α → Session → Prop}
    (h : ∀ i, x.Forces F s (Q i)) : x.Forces F s fun a t => ∀ i, Q i a t := by
  induction x generalizing s with
  | done | facts | session | update => exact h
  | andThen x f ihx ihf => exact (ihx h).mono fun b t hb => ihf b hb
  | fail e => trivial
  | ask q => exact fun a t ht ha i => h i a t ht ha
  | guarded k x _ => exact fun r t ht i => h i r t ht
  | underFrame frame x ih => exact ih h
  | underOuter index x ih => exact ih h

namespace Question

variable {q : Question α}

lemma forces_body (hplain : q.plain? = none) (htopic : q.key.topic ≠ .receivers) (s : Session) :
    ((q.body? F).getD (pure q.nothing)).Forces F s fun a t => q.Right F s.frames a t.toMemory := by
  cases q with
  | values n property depth =>
    cases property with
    | none =>
      refine .all fun texts => .all fun h => ?_
      have hown : n.ownText? = none := Option.map_eq_none_iff.mp hplain
      exact .mono (h.yields_rule hown depth s rfl) fun _ _ ht => ht.2
    | some name =>
      refine .all fun texts => .all fun h => ?_
      exact .mono (h.yields_rule depth s rfl) fun _ _ ht => ht.2
  | object n depth =>
    refine .all fun shape => .all fun h => ?_
    exact .mono (h.yields_rule depth s rfl) fun _ _ ht => ht.2
  | array n depth =>
    refine .all fun elements => .all fun h => ?_
    exact .mono (h.yields_rule depth s rfl) fun _ _ ht => ht.2
  | functions n depth =>
    refine .all fun fs => .all fun h => ?_
    exact .mono (h.yields_rule depth s rfl) fun _ _ ht => ht.2
  | aliases n => exact absurd rfl htopic

lemma right_of_plain {a : α} (h : q.plain? = some a) (frames : List Frame) (m : Memory) : q.Right F frames a m := by
  cases q with
  | values n property depth =>
    cases property with
    | none =>
      obtain ⟨text, hown, rfl⟩ := Option.map_eq_some_iff.mp h
      exact fun texts htexts => (htexts.eq_of_ownText? hown).symm
    | some name => cases h
  | object | array | functions | aliases => cases h

lemma right_of_recalled {a : α} (hfaith : s.toMemory.Faithful F) (hq : F.Has q.node)
    (h : q.recalled s = some a) : q.Right F s.frames a s.toMemory := by
  by_cases hframes : s.frames = []
  · rw [q.recalled_of_frames hframes] at h
    rw [hframes]
    exact hfaith α q a hq h
  · cases q with
    | aliases n => exact hfaith _ (aliases n) a hq h
    | values | object | array | functions => simp [recalled, hframes] at h

lemma has_of_body (hq : q.Asked F) (hr : q.body? F = some r) : F.Has q.node := by
  cases q with
  | values n property depth =>
    cases property with
    | none => exact Knows.has hq (kind_ne_literal hr)
    | some name => exact hq
  | object n depth | array n depth | functions n depth | aliases n => exact hq

lemma meets_body (hF : F.Sound) (hq : q.Asked F) (hd : q.depth ≤ F.limits.maxDepth) (hr : q.body? F = some r) :
    F.Lists q.key ∧ r.Meets F (q.key.restart (q.level F)) (q.Answers F) := by
  cases q with
  | values n property depth =>
    refine ⟨lists_unsearched rfl, ?_⟩
    simp only [level, if_pos (show depth ≤ F.limits.maxDepth from hd)]
    cases property with
    | none => exact meets_valuesRule hF hq hr
    | some name =>
      cases hr
      exact meets_propertyValues hF hq name (Nat.le_refl _)
  | object n depth =>
    refine ⟨lists_unsearched rfl, ?_⟩
    simp only [level, if_pos (show depth ≤ F.limits.maxDepth from hd)]
    exact meets_objectRule hF hq hr
  | array n depth =>
    refine ⟨lists_unsearched rfl, ?_⟩
    simp only [level, if_pos (show depth ≤ F.limits.maxDepth from hd)]
    exact meets_arrayRule hF hq hr
  | functions n depth => exact ⟨hF.lists hq (.inl rfl), meets_functionsRule hF hq hr⟩
  | aliases n =>
    refine ⟨hF.lists hq (.inr rfl), ?_⟩
    cases hr
    exact .bind (meets_follow_start hF _ _ hq _) fun _ hfound => meets_pure hfound

section Step

variable (hF : F.Sound) (hkeep : F.AnswersKeep (Faithful F) fuel) (hright : F.AnswersRight fuel)
include hF hkeep hright

lemma right_of_body (hq : q.Asked F) (hplain : q.plain? = none) (hd : q.depth ≤ F.limits.maxDepth)
    (hr : q.body? F = some r) (hs : s.Within F) (hfaith : s.toMemory.Faithful F)
    (hfuel : F.nesting s.visited (q.key.restart (q.level F)) ≤ fuel) {t : Session} {a : α}
    (hrun : r.runWith (answerWithin fuel) F s = .ok a t) (hwhole : s.Uncut t) : q.Right F s.frames a t.toMemory := by
  by_cases htopic : q.key.topic = .receivers
  · cases q with
    | values | object | array | functions => cases htopic
    | aliases n =>
      cases hr
      obtain ⟨fl, u, hfound, hdone⟩ := runWith_bind_ok hrun
      cases hdone
      exact aliasesOf_searchFrom hfound
  · have hforces := forces_body (F := F) hplain htopic s
    rw [hr] at hforces
    have hmeets : r.Meets F (q.key.restart (q.level F)) (q.Answers F) (Faithful F) :=
      (meets_body hF hq hd hr).2.keeping Faithful.stable (steps_body hr).quiet
    exact hforces.holds hF hkeep hright (steps_body hr).quiet hmeets hs hfaith hfuel hrun hwhole

lemma truthful_rule (huniq : F.Unique) (hq : q.Asked F) (hs : s.Within F) (hfaith : s.toMemory.Faithful F)
    (hfuel : F.nesting s.visited (q.level F) ≤ fuel) :
    (q.rule.runWith (answerWithin fuel) F s).Upholds (Faithful F) (q.Right F s.frames) s := by
  refine q.upholds_rule (balanced_answer fuel) (fun m hm => hfaith.stable hm.quiet)
    (fun a ha => right_of_plain ha _ _) (fun hplain hbody => ?_)
    (fun a r hr ha => right_of_recalled hfaith (has_of_body hq hr) ha) (fun r hplain hd hr hk => ?_)
    (fun _ h => h) fun r a m hr _ _ hframes ha hm => ?_
  · have htopic : q.key.topic ≠ .receivers := by cases q <;> simp_all [key, body?]
    have hforces := forces_body (F := F) hplain htopic s
    rw [hbody] at hforces
    exact hforces
  · let u : Session := { s with visited := q.key :: s.visited }
    have hu : u.Within F := ⟨hs.memory, hs.frames⟩
    obtain ⟨hlists, hmeets⟩ := meets_body hF hq hd hr
    have hlevel : F.nesting u.visited (q.key.restart (q.level F)) ≤ fuel :=
      Nat.le_trans (nesting_restart_le hlists (by simpa using hk) _) hfuel
    have hkept := (hmeets.keeping Faithful.stable (steps_body hr).quiet).runWith_keeping hF
      Faithful.stable hkeep hu hfaith hlevel
    refine ⟨hkept.2, fun a t hrun hwhole => ?_⟩
    exact right_of_body hF hkeep hright hq hplain hd hr hu hfaith hlevel hrun hwhole
  · exact ⟨hm.remember huniq (has_of_body hq hr) (hframes ▸ ha), ha.widen (q.widens_remember a m)⟩

end Step

end Question

lemma answerWithin_truthful (hF : F.Sound) (huniq : F.Unique) (fuel : Nat) :
    F.AnswersKeep (Faithful F) fuel ∧ F.AnswersRight fuel := by
  induction fuel with
  | zero =>
    refine ⟨fun _ _ _ _ _ _ _ _ hfaith => hfaith, fun _ _ _ _ _ _ _ _ _ _ _ hrun => ?_⟩
    cases hrun
  | succ fuel ih =>
    have hstep {β : Type} {q : Question β} {t : Session} {least : Option Nat}
        (hfuel : F.nesting t.visited least ≤ fuel + 1) (hq : q.Asked F) (hafter : q.After least)
        (ht : t.Within F) (hfaith : t.toMemory.Faithful F) :
        (answerWithin (fuel + 1) β q F t).Upholds (Faithful F) (q.Right F t.frames) t := by
      have hlt := Question.nesting_level_lt (F := F) t.visited hafter
      exact Question.truthful_rule hF ih.1 ih.2 huniq hq ht hfaith (by omega)
    refine ⟨fun _ q t least hfuel hq hafter ht hfaith => ?_, ?_⟩
    · exact (hstep hfuel hq hafter ht hfaith).kept
    · intro _ q t u least a hfuel hq hafter ht hfaith hrun hwhole
      exact (hstep hfuel hq hafter ht hfaith).whole a u hrun hwhole

end ScriptAudit
