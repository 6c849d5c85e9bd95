import ScriptAudit.Proofs.Engine.Recall
import ScriptAudit.Proofs.Scope.WellFormed

/-!
# Asking again

A question that was answered without anything being refused or cut off has the same answer from then
on.
-/

namespace ScriptAudit

open Engine Facts

variable {F : Facts} {α : Type} {s t u : Session} {reply : Reply}

/-- The sessions that further computations leave, none of which changes answers by itself. -/
inductive Session.Later (F : Facts) (s : Session) : Session → Prop
  | refl : Later F s s
  | step {β : Type} {t : Session} {x : Engine β} : Later F s t → x.Quiet → Later F s (Outcome.session (x.run F t))

namespace Session.Later

lemma frames (h : s.Later F t) : t.frames = s.frames := by
  induction h with
  | refl => rfl
  | step _ _ ih =>
    rw [← ih]
    exact (session_runWith F (balanced_answer _) _ _).2

lemma visited (h : s.Later F t) : t.visited = s.visited := by
  induction h with
  | refl => rfl
  | step _ _ ih =>
    rw [← ih]
    exact (session_runWith F (balanced_answer _) _ _).1

lemma recalls (h : s.Later F t) : s.toMemory.Recalls s.visited t.toMemory := by
  induction h with
  | refl => exact (Memory.Quiet.refl _).recalls
  | @step _ t x h hx ih =>
    have hstep := hx.run_keeps (F := F) steady_recalls t
    rw [h.visited] at hstep
    exact ih.trans hstep

end Session.Later

lemma rule_again (hbal : reply.Balanced) {q : Question α} {a : α} (hrun : q.rule.runWith reply F s = .ok a t)
    (hframes : s.frames = []) (hwhole : s.Uncut t) {other : Reply} (hother : other.Balanced) (hu : u.frames = [])
    (hkept : q.remembered t.toMemory = some a → q.remembered u.toMemory = some a) :
    q.rule.runWith other F u = .ok a u := by
  rw [q.runWith_rule hbal] at hrun
  rw [q.runWith_rule hother]
  unfold Question.handle at hrun ⊢
  rw [q.recalled_of_frames hframes] at hrun
  rw [q.recalled_of_frames hu]
  split at hrun
  · cases hrun
    rfl
  split at hrun
  · cases hrun
    exact absurd hwhole.2 (by simp)
  next hd =>
    rw [if_neg hd]
    split at hrun
    next hbody =>
      cases hrun
      rw [hbody]
    next hbody hknown =>
      cases hrun
      rw [hbody, hkept hknown]
    next r hbody hmiss =>
      unfold runOnce at hrun
      split at hrun
      · cases hrun
        exact absurd hwhole.1 (by simp)
      · have hknown : q.remembered t.toMemory = some a := by
          cases hbodied : r.runWith reply F { s with visited := q.key :: s.visited } with
          | error e v =>
            rw [hbodied] at hrun
            cases hrun
          | ok b v =>
            rw [hbodied] at hrun
            cases hrun
            by_cases hkeep : s.Uncut v ∧ s.frames = []
            · simp only [if_pos hkeep]
              exact Question.remembered_remember
            · simp only [if_neg hkeep] at hwhole
              exact absurd ⟨hwhole, hframes⟩ hkeep
        rw [hbody, hkept hknown]

/-- A question that was answered with nothing refused or cut off is answered the same from then on,
and asking it again leaves the session as it is. -/
theorem answer_final {q : Question α} {a : α} (hframes : s.frames = [])
    (hrun : (ask q).run F s = .ok a t) (hwhole : s.Uncut t) (hlater : t.Later F u) :
    (ask q).run F u = .ok a u := by
  have hfuel : F.openQuestions = F.openQuestions - 1 + 1 := by
    have : 0 < F.openQuestions := by simp [openQuestions]
    omega
  have htframes : t.frames = [] := (frames_run_ok hrun).trans hframes
  have huframes : u.frames = [] := hlater.frames.trans htframes
  unfold run at hrun ⊢
  rw [hfuel] at hrun ⊢
  exact rule_again (balanced_answer _) hrun hframes hwhole (balanced_answer _) huframes
    (hlater.recalls.kept q a)

namespace TwoDepths

def choice : Node :=
  .branch 22 .conditionalExpression [(.test, some (.identifier 23 "t")),
    (.consequent, some (.identifier 24 "g")), (.alternate, some (.identifier 25 "e"))]

def program : Node :=
  .script [.declaration 1 "c" (.textLiteral 4 "v"), .declaration 5 "d" (.identifier 8 "c"),
    .declaration 9 "e" (.identifier 12 "d"), .declaration 13 "g" (.binary 16 "+" (.textLiteral 17
    "/p") (.identifier 18 "e")), .statement 19 (.call 20 (.identifier 21 "fetch") [choice])]

def twice (limits : Limits) : Option (List String × List String × Bool) :=
  match Model.ofProgram program "" false with
  | .ok m =>
    let F := ofModel m limits
    match (ask (.values choice none 0)).run F {} with
    | .ok first t =>
      match (ask (.values choice none 0)).run F t with
      | .ok second _ => some (first, second, decide (Session.Uncut {} t))
      | .error _ _ => none
    | .error _ _ => none
  | .error _ => none

end TwoDepths

open TwoDepths

/-- Once its texts are known the expression keeps them, also after its shape has been asked for. -/
theorem answer_final_choice :
    ∃ (F : Facts) (t u : Session), F.model.root = program ∧
      (ask (.values choice none 0)).run F {} = .ok ["/pv", "v"] t ∧ Session.Uncut {} t ∧
      t.Later F u ∧ u = Outcome.session ((ask (.object choice 0)).run F t) ∧
      (ask (.values choice none 0)).run F u = .ok ["/pv", "v"] u := by
  have hroot : program.WellFormed := Node.wellFormed_check (by decide)
  obtain ⟨m, hm⟩ := Model.exists_ofProgram hroot.toWellNamed "" false
  have htwice : twice {} = some (["/pv", "v"], ["/pv", "v"], true) := by decide +kernel
  simp only [twice, hm] at htwice
  split at htwice
  next first t hrun =>
    split at htwice
    · simp only [Option.some.injEq, Prod.mk.injEq, decide_eq_true_eq] at htwice
      obtain ⟨rfl, -, hwhole⟩ := htwice
      have hlater : t.Later (ofModel m {})
          (Outcome.session ((ask (.object choice 0)).run (ofModel m {}) t)) :=
        .step .refl (quiet_ask _)
      refine ⟨ofModel m {}, t, _, (Model.eq_of_ofProgram hm).1, hrun, hwhole, hlater, rfl, ?_⟩
      exact answer_final rfl hrun hwhole hlater
    · cases htwice
  · cases htwice

/-- A first answer that is cut off at the depth limit leaves behind what the second one then uses.
-/
theorem TwoDepths.second_answer_differs : twice { maxDepth := 3 } = some (["v"], ["/pv", "v"], false) := by
  decide +kernel

end ScriptAudit
