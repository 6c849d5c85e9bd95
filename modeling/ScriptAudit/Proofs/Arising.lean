import ScriptAudit.Proofs.Resolve.Bound
import ScriptAudit.Proofs.Resolve.KnownCallers
import ScriptAudit.Proofs.Transparency

/-!
# States that queries about the program leave

As long as only bindings that the program declares are asked about, what is remembered about callers
is right.
-/

namespace ScriptAudit

open Engine Memory

instance : HasRequestChanges SameCallers where
  xhr _ _ := ⟨rfl, rfl⟩

instance : HasTaintChanges SameCallers where
  taints _ _ := ⟨rfl, rfl⟩
  handlers _ _ _ := ⟨rfl, rfl⟩

variable {F : Facts} {α : Type} {s : Session}

def Query.Own (F : Facts) : {α : Type} → Query α → Prop
  | _, .paramValues b _ _ => F.Indexes b
  | _, _ => True

lemma Query.steps_engine {q : Query α} (hq : q.Own F) : q.engine.StepsBy (some F) SameCallers := by
  cases q with
  | ask q => exact steps_ask q
  | callSites f => exact steps_callSites f
  | paramValues b property depth =>
    refine steps_paramValues ?_ property depth
    rintro _ ⟨⟩
    exact hq
  | isXhr n depth => exact steps_isXhr (some n) depth
  | source n depth => exact steps_traceSource (some n) depth
  | bodyParams n => exact steps_bodyParams (some n)
  | requests => exact steps_allRecords
  | findings => exact steps_analyseTaint

/-- The states that queries about the program and its bindings leave, with any marks and frames. -/
inductive Session.Arises (F : Facts) : Session → Prop
  | start : Arises F {}
  | query {α : Type} {q : Query α} {s : Session} : Arises F s → q.About F → q.Own F →
      Arises F (Outcome.session (q.engine.run F s))
  | mark {s : Session} (keys : List Key) : Arises F s → Arises F { s with visited := keys }
  | bind {s : Session} {frames : List Frame} : Arises F s → (∀ frame ∈ frames, frame.OfCall F) →
      Arises F { s with frames := frames }

lemma Facts.Describes.eq_of_indexes {root : Node} (hF : F.Describes root) (b c : Binding) (hb : F.Indexes b)
    (hc : F.Indexes c) (huid : b.uid = c.uid) : b = c := by
  obtain ⟨i, hi⟩ := hb
  obtain ⟨j, hj⟩ := hc
  exact hF.eq_of_getElem?_bindings hj hi huid

namespace Session.Arises

variable {root : Node}

lemma reachable (hs : s.Arises F) : s.Reachable F := by
  induction hs with
  | start => exact .start
  | query _ hq _ ih => exact ih.query hq
  | mark keys _ ih => exact ih.mark keys
  | bind _ hframes ih => exact ih.bind hframes

lemma informed (hroot : root.WellNumbered) (hF : F.Describes root) (hs : s.Arises F) : s.toMemory.Informed F := by
  refine ⟨hs.reachable.faithful hroot hF, ?_⟩
  have hsound := hF.sound hroot
  have hans := answerWithin_informed hsound (hF.unique hroot) hF.eq_of_indexes F.openQuestions
  induction hs with
  | start =>
    refine ⟨?_, ?_⟩
    · rintro _ _ - ⟨⟩
    · rintro _ _ _ - ⟨⟩
  | query hs hq hown ih =>
    have hmeets := Query.meets_engine_keeping F.traces_faithful hsound
      (fun f m hm => hm.of_remembered (fun _ q => by cases q <;> rfl) rfl) hq
    exact (Query.steps_engine hown).known hsound (hF.unique hroot) hans (hs.reachable.within hsound)
      ⟨hs.reachable.faithful hroot hF, ih⟩ (nesting_le_open F _ _) hF.eq_of_indexes hmeets
  | mark _ _ ih => exact ih
  | bind _ _ ih => exact ih

end Session.Arises

end ScriptAudit
