import ScriptAudit.Proofs.Resolve.Steps

/-!
# What the rules of resolution change themselves

Searches for callers remember callers and texts of parameters.
-/

namespace ScriptAudit

namespace Engine

variable {α : Type} {R : Memory → Memory → Prop} [Memory.HasRuleChanges R]

def PartsBy (R : Memory → Memory → Prop) : {α : Type} → Engine α → Prop
  | _, .andThen x f => x.StepsBy none R ∧ ∀ b, (f b).StepsBy none R
  | _, _ => True

lemma partsBy_callSites (f : Node) : (Ask.callSites f).PartsBy R := by
  refine ⟨steps_session, fun s => ?_⟩
  dsimp only
  split
  · exact steps_pure _
  · refine .bind steps_facts fun facts => .bind (by simp) fun found => ?_
    split
    · exact steps_pure _
    · refine .bind steps_session fun t => steps_ite.mpr ⟨fun _ => ?_, fun _ => steps_pure _⟩
      exact .bind (fun m => Memory.HasRuleChanges.callSites m _) fun _ => steps_pure _

lemma partsBy_paramValues (b : Binding) (property : Option String) (depth : Nat) :
    (Ask.paramValues b property depth).PartsBy R := by
  refine ⟨steps_session, fun s => ?_⟩
  dsimp only
  split
  · exact steps_pure _
  · refine .bind (by simp [Ask.steps_readPaths]) fun found => ?_
    cases found with
    | none => exact steps_pure _
    | some found =>
      refine .bind steps_limits fun limits => steps_ite.mpr ⟨fun _ => ?_, fun _ => steps_pure _⟩
      exact .bind (fun m => Memory.HasRuleChanges.paramValues m _) fun _ => steps_pure _

lemma Search.partsBy {x : Engine α} (h : Search none x) : x.PartsBy R := by
  cases h with
  | callSites f => exact partsBy_callSites f
  | paramValues property depth => exact partsBy_paramValues _ property depth

lemma StepsBy.changesBy {x : Engine α} (h : x.StepsBy none R) : x.ChangesBy R := by
  induction x with
  | done | facts | session | fail | ask => trivial
  | update => exact h
  | andThen x f ihx ihf =>
    rcases h with h | ⟨hx, hf⟩
    · exact ⟨ihx h.partsBy.1, fun b => ihf b (h.partsBy.2 b)⟩
    · exact ⟨ihx hx, fun b => ihf b (hf b (by simp))⟩
  | guarded k x ih => exact ih h
  | underFrame frame x ih => exact ih h
  | underOuter index x ih => exact ih h

lemma StepsBy.quiet {x : Engine α} (h : x.StepsBy none Memory.Quiet) : x.Quiet :=
  changes_quiet_iff.mp h.changesBy

end Engine

lemma Ask.quiet_callSites (f : Node) : (callSites f).Quiet := (Engine.steps_callSites f).quiet

lemma Ask.quiet_paramValues (b : Binding) (depth : Nat) (property : Option String) :
    (paramValues b property depth).Quiet :=
  (Engine.steps_paramValues (by simp) property depth).quiet

end ScriptAudit
