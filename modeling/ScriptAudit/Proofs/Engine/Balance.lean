import Mathlib.Tactic.Lemma
import ScriptAudit.Resolve.Answer

/-!
# Guards and frames are balanced

A computation leaves the marks and the frames as it found them, whether it ends with an answer or
with a fault.
-/

namespace ScriptAudit

def Outcome.session {α : Type} : Outcome α → Session
  | .ok _ s => s
  | .error _ s => s

def Reply.Balanced (reply : Reply) : Prop :=
  ∀ (α : Type) (q : Question α) (facts : Facts) (s : Session),
    (Outcome.session (reply α q facts s)).visited = s.visited ∧
      (Outcome.session (reply α q facts s)).frames = s.frames

namespace Engine

variable {α β : Type} (reply : Reply) (facts : Facts) (s : Session) {a : α} {F : Facts} {f : β → Engine α}

lemma runWith_andThen (x : Engine β) (f : β → Engine α) :
    (andThen x f).runWith reply facts s = match x.runWith reply facts s with
      | .ok a t => (f a).runWith reply facts t
      | .error e t => .error e t := by
  cases hx : x.runWith reply facts s <;> simp only [runWith, hx]

lemma session_andThen (x : Engine β) (f : β → Engine α) :
    Outcome.session ((andThen x f).runWith reply facts s) = match x.runWith reply facts s with
      | .ok a t => Outcome.session ((f a).runWith reply facts t)
      | .error _ t => t := by
  rw [runWith_andThen]
  cases x.runWith reply facts s <;> rfl

lemma session_guarded (k : Key) (x : Engine α) : Outcome.session ((guarded k x).runWith reply facts s) =
      if s.visited.contains k then { s with rejections := s.rejections + 1 }
      else
        let t := Outcome.session (x.runWith reply facts { s with visited := k :: s.visited })
        { t with visited := t.visited.erase k } := by
  simp only [runWith]
  split
  · rfl
  · cases x.runWith reply facts { s with visited := k :: s.visited } <;> rfl

lemma session_underFrame (frame : Frame) (x : Engine α) : Outcome.session ((underFrame frame x).runWith reply facts s) =
      let t := Outcome.session (x.runWith reply facts { s with frames := s.frames ++ [frame] })
      { t with frames := t.frames.dropLast } := by
  simp only [runWith]
  cases x.runWith reply facts { s with frames := s.frames ++ [frame] } <;> rfl

lemma session_underOuter (index : Nat) (x : Engine α) : Outcome.session ((underOuter index x).runWith reply facts s) =
      let t := Outcome.session (x.runWith reply facts { s with frames := s.frames.take index })
      { t with frames := t.frames ++ s.frames.drop index } := by
  simp only [runWith]
  cases x.runWith reply facts { s with frames := s.frames.take index } <;> rfl

variable {reply}

lemma session_runWith (hreply : reply.Balanced) (x : Engine α) (s : Session) :
    (Outcome.session (x.runWith reply facts s)).visited = s.visited ∧
      (Outcome.session (x.runWith reply facts s)).frames = s.frames := by
  induction x generalizing s with
  | done | facts | session | update | fail => exact ⟨rfl, rfl⟩
  | ask q => exact hreply _ q facts s
  | andThen x f ihx ihf =>
    have hx := ihx s
    rw [session_andThen]
    cases h : x.runWith reply facts s with
    | ok a t =>
      rw [h] at hx
      exact ⟨(ihf a t).1.trans hx.1, (ihf a t).2.trans hx.2⟩
    | error e t => simpa [h, Outcome.session] using hx
  | guarded k x ih =>
    rw [session_guarded]
    split
    · exact ⟨rfl, rfl⟩
    · exact ⟨by simp [ih], (ih _).2⟩
  | underFrame frame x ih => simp [session_underFrame, ih]
  | underOuter index x ih => simp [session_underOuter, ih]

lemma balanced_answer (fuel : Nat) : Reply.Balanced (answerWithin fuel) := by
  induction fuel with
  | zero => exact fun _ _ _ _ => ⟨rfl, rfl⟩
  | succ fuel ih =>
    intro α q facts s
    exact session_runWith facts ih q.rule s

lemma visited_runWith (hreply : reply.Balanced) {facts : Facts} {x : Engine α} {s t : Session}
    (h : x.runWith reply facts s = .ok a t) : t.visited = s.visited := by
  simpa [h, Outcome.session] using (session_runWith facts hreply x s).1

lemma frames_runWith (hreply : reply.Balanced) {facts : Facts} {x : Engine α} {s t : Session}
    (h : x.runWith reply facts s = .ok a t) : t.frames = s.frames := by
  simpa [h, Outcome.session] using (session_runWith facts hreply x s).2

lemma frames_run_ok {x : Engine α} {s t : Session} (h : x.run F s = .ok a t) : t.frames = s.frames :=
  frames_runWith (balanced_answer _) h

lemma visited_of_run_eq_ok {x : Engine α} {s t : Session} (h : x.run F s = .ok a t) : t.visited = s.visited :=
  visited_runWith (balanced_answer _) h

lemma run_pure {s : Session} (a : α) : (pure a : Engine α).run F s = .ok a s := rfl

lemma run_bind {x : Engine β} {s t : Session} {b : β} (h : x.run F s = .ok b t) :
    (x >>= f).run F s = (f b).run F t := by
  rw [Engine.run] at h
  change (andThen x f).runWith _ F s = _
  rw [runWith_andThen, h]
  rfl

lemma runWith_bind_ok {x : Engine β} {s u : Session} (h : (x >>= f).runWith reply F s = .ok a u) :
    ∃ b t, x.runWith reply F s = .ok b t ∧ (f b).runWith reply F t = .ok a u := by
  change (andThen x f).runWith _ F s = _ at h
  rw [runWith_andThen] at h
  split at h
  next b t hx => exact ⟨b, t, hx, h⟩
  · cases h

lemma run_bind_ok {x : Engine β} {s u : Session} (h : (x >>= f).run F s = .ok a u) :
    ∃ b t, x.run F s = .ok b t ∧ (f b).run F t = .ok a u := runWith_bind_ok h

lemma run_bind_assoc {s : Session} {γ : Type} (x : Engine γ) (f : γ → Engine β) (g : β → Engine α) :
    ((x >>= f) >>= g).run F s = (x >>= fun c => f c >>= g).run F s := by
  change (andThen (andThen x f) g).runWith _ F s = (andThen x fun c => andThen (f c) g).runWith _ F s
  simp only [runWith_andThen]
  cases x.runWith (answerWithin F.openQuestions) F s <;> rfl

lemma run_bind_congr {s : Session} {x : Engine β} {g : β → Engine α} (h : ∀ b t, (f b).run F t = (g b).run F t) :
    (x >>= f).run F s = (x >>= g).run F s := by
  change (andThen x f).runWith _ F s = (andThen x g).runWith _ F s
  simp only [runWith_andThen]
  cases x.runWith (answerWithin F.openQuestions) F s with
  | ok b t => exact h b t
  | error e t => rfl

lemma run_mapM_map {γ δ : Type} {v : γ → δ} {f : γ → Engine α} {g : δ → Engine α} {xs : List γ}
    (h : ∀ x ∈ xs, ∀ s, (f x).run F s = (g (v x)).run F s) (s : Session) :
    (xs.mapM f).run F s = ((xs.map v).mapM g).run F s := by
  have loop (xs : List γ) (done : List α) (h : ∀ x ∈ xs, ∀ s, (f x).run F s = (g (v x)).run F s) (s : Session) :
      (List.mapM.loop f xs done).run F s = (List.mapM.loop g (xs.map v) done).run F s := by
    induction xs generalizing done s with
    | nil => rfl
    | cons x rest ih =>
      simp only [List.forall_mem_cons] at h
      simp only [List.mapM.loop, List.map_cons]
      have hfirst := h.1 s
      change (andThen (f x) _).runWith _ F s = (andThen (g (v x)) _).runWith _ F s
      rw [Engine.run, Engine.run] at hfirst
      simp only [runWith_andThen, hfirst]
      cases (g (v x)).runWith (answerWithin F.openQuestions) F s with
      | ok a t => exact ih _ h.2 t
      | error e t => rfl
  exact loop xs [] h s

lemma exists_of_run_withCall_eq_ok {function call : Node} {offset : Nat} {x : Engine α} {s u : Session}
    (h : (withCall function call offset x).run F s = .ok a u) :
    ∃ t, x.run F { s with frames := s.frames ++ [Frame.ofCall F.model function call offset] } = .ok a t := by
  obtain ⟨m, t, hm, h⟩ := run_bind_ok h
  cases hm
  unfold run at h ⊢
  simp only [runWith] at h
  split at h
  next b t hx =>
    cases h
    exact ⟨t, hx⟩
  · cases h

/-- The session is `t` at some moment while `x` runs from `s`, when the guarded parts with the keys
`opened` are open, the innermost first. -/
inductive Moment (facts : Facts) : {α : Type} → Nat → Engine α → Session → List Key → Session → Prop
  | start {α : Type} (fuel : Nat) (x : Engine α) (s : Session) : Moment facts fuel x s [] s
  | finish {α : Type} (fuel : Nat) (x : Engine α) (s : Session) :
      Moment facts fuel x s [] (Outcome.session (x.runWith (answerWithin fuel) facts s))
  | first {α β : Type} {fuel : Nat} {x : Engine β} (f : β → Engine α) {s t : Session}
      {opened : List Key} :
      Moment facts fuel x s opened t → Moment facts fuel (andThen x f) s opened t
  | second {α β : Type} {fuel : Nat} {x : Engine β} (f : β → Engine α) {s r t : Session} {a : β}
      {opened : List Key} : x.runWith (answerWithin fuel) facts s = .ok a r →
      Moment facts fuel (f a) r opened t → Moment facts fuel (andThen x f) s opened t
  | ask {α : Type} {fuel : Nat} (q : Question α) {s t : Session} {opened : List Key} :
      Moment facts fuel q.rule s opened t → Moment facts (fuel + 1) (ask q) s opened t
  | guarded {α : Type} {fuel : Nat} (k : Key) {x : Engine α} {s t : Session} {opened : List Key} :
      s.visited.contains k = false →
      Moment facts fuel x { s with visited := k :: s.visited } opened t →
      Moment facts fuel (guarded k x) s (opened ++ [k]) t
  | underFrame {α : Type} {fuel : Nat} (frame : Frame) {x : Engine α} {s t : Session}
      {opened : List Key} :
      Moment facts fuel x { s with frames := s.frames ++ [frame] } opened t →
      Moment facts fuel (underFrame frame x) s opened t
  | underOuter {α : Type} {fuel : Nat} (index : Nat) {x : Engine α} {s t : Session}
      {opened : List Key} :
      Moment facts fuel x { s with frames := s.frames.take index } opened t →
      Moment facts fuel (underOuter index x) s opened t

variable {facts s} {fuel : Nat} {x : Engine α} {t : Session} {opened : List Key}

lemma Moment.visited_eq (h : Moment facts fuel x s opened t) : t.visited = opened ++ s.visited := by
  induction h with
  | start => rfl
  | finish fuel x s => exact (session_runWith facts (balanced_answer fuel) x s).1
  | first _ _ ih => exact ih
  | second _ hrun _ ih => rw [ih, visited_runWith (balanced_answer _) hrun]
  | ask _ _ ih => exact ih
  | guarded k _ _ ih => simp [ih]
  | underFrame _ _ ih => exact ih
  | underOuter _ _ ih => exact ih

lemma Moment.nodup_visited (h : Moment facts fuel x s opened t) (hs : s.visited.Nodup) : t.visited.Nodup := by
  induction h with
  | start => exact hs
  | finish fuel x s => rwa [(session_runWith facts (balanced_answer fuel) x s).1]
  | first _ _ ih => exact ih hs
  | second _ hrun _ ih => exact ih (by rwa [visited_runWith (balanced_answer _) hrun])
  | ask _ _ ih => exact ih hs
  | guarded k hk _ ih => exact ih (List.nodup_cons.mpr ⟨by simpa using hk, hs⟩)
  | underFrame _ _ ih => exact ih hs
  | underOuter _ _ ih => exact ih hs

/-- Guards and frames are balanced, in every run of every computation. -/
theorem run_balanced (facts : Facts) (x : Engine α) (s : Session) :
    (Outcome.session (x.run facts s)).visited = s.visited ∧
      (Outcome.session (x.run facts s)).frames = s.frames ∧
      ∀ opened t, Moment facts facts.openQuestions x s opened t →
        t.visited = opened ++ s.visited ∧ (s.visited.Nodup → t.visited.Nodup) := by
  have hreply := balanced_answer facts.openQuestions
  exact ⟨(session_runWith facts hreply x s).1, (session_runWith facts hreply x s).2,
    fun _ _ h => ⟨h.visited_eq, h.nodup_visited⟩⟩

end Engine

end ScriptAudit
