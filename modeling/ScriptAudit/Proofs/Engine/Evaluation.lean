import ScriptAudit.Proofs.Resolve.Answers

/-!
# Evaluation without a bound

What a computation comes to when each question is answered by its rule, however deep questions are
nested.
-/

namespace ScriptAudit

variable {α β : Type}

def Outcome.unmark (k : Key) (s : Session) : Outcome α → Outcome (Option (α × Bool))
  | .ok a t =>
    .ok (some (a, t.rejections == s.rejections && t.truncations == s.truncations))
      { t with visited := t.visited.erase k }
  | .error e t => .error e { t with visited := t.visited.erase k }

def Outcome.reframe (f : List Frame → List Frame) : Outcome α → Outcome α
  | .ok a t => .ok a { t with frames := f t.frames }
  | .error e t => .error e { t with frames := f t.frames }

namespace Engine

/-- From the session `s` the computation comes to `o`, with its questions answered by their rules.
-/
inductive Evaluates (F : Facts) : {α : Type} → Engine α → Session → Outcome α → Prop
  | done {α : Type} (a : α) (s : Session) : Evaluates F (done a) s (.ok a s)
  | andThen {α β : Type} {x : Engine β} {f : β → Engine α} {s t : Session} {a : β}
      {o : Outcome α} :
      Evaluates F x s (.ok a t) → Evaluates F (f a) t o → Evaluates F (andThen x f) s o
  | andThenFails {α β : Type} {x : Engine β} (f : β → Engine α) {s t : Session} {e : Fault} :
      Evaluates F x s (.error e t) → Evaluates F (andThen x f) s (.error e t)
  | facts (s : Session) : Evaluates F facts s (.ok F s)
  | session (s : Session) : Evaluates F session s (.ok s s)
  | update (f : Memory → Memory) (s : Session) : Evaluates F (update f) s (.ok () { s with toMemory := f s.toMemory })
  | fail {α : Type} (e : Fault) (s : Session) : Evaluates F (fail e : Engine α) s (.error e s)
  | ask {α : Type} {q : Question α} {s : Session} {o : Outcome α} : Evaluates F q.rule s o → Evaluates F (ask q) s o
  | refused {α : Type} {k : Key} (x : Engine α) {s : Session} : s.visited.contains k = true →
      Evaluates F (guarded k x) s (.ok none { s with rejections := s.rejections + 1 })
  | guarded {α : Type} {k : Key} {x : Engine α} {s : Session} {o : Outcome α} :
      s.visited.contains k = false → Evaluates F x { s with visited := k :: s.visited } o →
      Evaluates F (guarded k x) s (o.unmark k s)
  | underFrame {α : Type} {frame : Frame} {x : Engine α} {s : Session} {o : Outcome α} :
      Evaluates F x { s with frames := s.frames ++ [frame] } o →
      Evaluates F (underFrame frame x) s (o.reframe List.dropLast)
  | underOuter {α : Type} {index : Nat} {x : Engine α} {s : Session} {o : Outcome α} :
      Evaluates F x { s with frames := s.frames.take index } o →
      Evaluates F (underOuter index x) s (o.reframe (· ++ s.frames.drop index))

variable {F : Facts} {s : Session} {reply : Reply}

lemma runWith_guarded_fresh {k : Key} (hk : s.visited.contains k = false) (x : Engine α) :
    (guarded k x).runWith reply F s = (x.runWith reply F { s with visited := k :: s.visited }).unmark k s := by
  simp only [runWith, hk, Bool.false_eq_true, if_false]
  cases x.runWith reply F { s with visited := k :: s.visited } <;> rfl

lemma runWith_underFrame (frame : Frame) (x : Engine α) : (underFrame frame x).runWith reply F s =
      (x.runWith reply F { s with frames := s.frames ++ [frame] }).reframe List.dropLast := by
  simp only [runWith]
  cases x.runWith reply F { s with frames := s.frames ++ [frame] } <;> rfl

lemma runWith_underOuter (index : Nat) (x : Engine α) : (underOuter index x).runWith reply F s =
      (x.runWith reply F { s with frames := s.frames.take index }).reframe
        (· ++ s.frames.drop index) := by
  simp only [runWith]
  cases x.runWith reply F { s with frames := s.frames.take index } <;> rfl

lemma evaluates_or_exhausted (hreply : ∀ (β : Type) (q : Question β) (s : Session),
      (ask q).Evaluates F s (reply β q F s) ∨ (reply β q F s).Exhausted) (x : Engine α) (s : Session) :
    x.Evaluates F s (x.runWith reply F s) ∨ (x.runWith reply F s).Exhausted := by
  induction x generalizing s with
  | done a => exact .inl (.done a s)
  | facts => exact .inl (.facts s)
  | session => exact .inl (.session s)
  | update f => exact .inl (.update f s)
  | fail e => exact .inl (.fail e s)
  | ask q => exact hreply _ q s
  | andThen x f ihx ihf =>
    rw [runWith_andThen]
    rcases ihx s with hx | ⟨t, ht⟩
    · cases hrun : x.runWith reply F s with
      | ok a t =>
        rw [hrun] at hx
        exact (ihf a t).imp_left (.andThen hx)
      | error e t =>
        rw [hrun] at hx
        exact .inl (.andThenFails f hx)
    · rw [ht]
      exact .inr ⟨t, rfl⟩
  | guarded k x ih =>
    by_cases hk : s.visited.contains k = true
    · simp only [runWith, hk, if_true]
      exact .inl (.refused x hk)
    · rw [Bool.not_eq_true] at hk
      rw [runWith_guarded_fresh hk]
      rcases ih { s with visited := k :: s.visited } with hx | ⟨t, ht⟩
      · exact .inl (.guarded hk hx)
      · rw [ht]
        exact .inr ⟨_, rfl⟩
  | underFrame frame x ih =>
    rw [runWith_underFrame]
    rcases ih { s with frames := s.frames ++ [frame] } with hx | ⟨t, ht⟩
    · exact .inl (.underFrame hx)
    · rw [ht]
      exact .inr ⟨_, rfl⟩
  | underOuter index x ih =>
    rw [runWith_underOuter]
    rcases ih { s with frames := s.frames.take index } with hx | ⟨t, ht⟩
    · exact .inl (.underOuter hx)
    · rw [ht]
      exact .inr ⟨_, rfl⟩

lemma ask_evaluates_or_exhausted (fuel : Nat) (q : Question α) (s : Session) :
    (ask q).Evaluates F s (answerWithin fuel α q F s) ∨ (answerWithin fuel α q F s).Exhausted := by
  induction fuel generalizing α s with
  | zero => exact .inr ⟨s, rfl⟩
  | succ fuel ih => exact (evaluates_or_exhausted (fun _ p t => ih p t) q.rule s).imp_left .ask

lemma Evaluates.exists_bound {x : Engine α} {o : Outcome α} (h : x.Evaluates F s o) :
    ∃ bound, ∀ fuel, bound ≤ fuel → x.runWith (answerWithin fuel) F s = o := by
  induction h with
  | done | facts | session | update | fail => exact ⟨0, fun _ _ => rfl⟩
  | andThen _ _ ihx ihf =>
    obtain ⟨m, hm⟩ := ihx
    obtain ⟨n, hn⟩ := ihf
    refine ⟨max m n, fun fuel hfuel => ?_⟩
    rw [runWith_andThen, hm fuel (by omega)]
    exact hn fuel (by omega)
  | andThenFails f _ ih =>
    obtain ⟨m, hm⟩ := ih
    exact ⟨m, fun fuel hfuel => by rw [runWith_andThen, hm fuel hfuel]⟩
  | ask _ ih =>
    obtain ⟨m, hm⟩ := ih
    refine ⟨m + 1, fun fuel hfuel => ?_⟩
    obtain ⟨fuel, rfl⟩ : ∃ rest, fuel = rest + 1 := ⟨fuel - 1, by omega⟩
    exact hm fuel (by omega)
  | refused x hk => exact ⟨0, fun fuel _ => by simp only [runWith, hk, if_true]⟩
  | guarded hk _ ih =>
    obtain ⟨m, hm⟩ := ih
    exact ⟨m, fun fuel hfuel => by rw [runWith_guarded_fresh hk, hm fuel hfuel]⟩
  | underFrame _ ih =>
    obtain ⟨m, hm⟩ := ih
    exact ⟨m, fun fuel hfuel => by rw [runWith_underFrame, hm fuel hfuel]⟩
  | underOuter _ ih =>
    obtain ⟨m, hm⟩ := ih
    exact ⟨m, fun fuel hfuel => by rw [runWith_underOuter, hm fuel hfuel]⟩

lemma Meets.evaluates_iff (hF : F.Sound) {least : Option Nat} {x : Engine α} {Q : α → Prop}
    (h : x.Meets F least Q) (hs : s.Within F) (o : Outcome α) : x.Evaluates F s o ↔ x.run F s = o := by
  constructor
  · intro ho
    obtain ⟨bound, hbound⟩ := ho.exists_bound
    rw [← h.runWith_eq_run hF hs (Nat.le_max_right bound F.openQuestions)]
    exact hbound _ (Nat.le_max_left _ _)
  · rintro rfl
    refine (evaluates_or_exhausted (fun _ q t => ask_evaluates_or_exhausted F.openQuestions q t) x s).resolve_right ?_
    rintro ⟨t, ht⟩
    have hgood := h.run_good hF hs (Nat.le_refl F.openQuestions)
    rw [ht] at hgood
    exact hgood.2

end Engine

end ScriptAudit
