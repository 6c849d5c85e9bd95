import ScriptAudit.Proofs.Query

/-!
# Lists of texts are capped

No rule gives, and no state remembers, more texts than the limits allow, at any moment of a query.
-/

namespace ScriptAudit

open Engine Question

variable {F : Facts} {α : Type} {s t : Session}

/-- At some moment of evaluating `x` from the session `s` the session is `t`. -/
inductive Engine.Passes (F : Facts) : {α : Type} → Engine α → Session → Session → Prop
  | start {α : Type} (x : Engine α) (s : Session) : Passes F x s s
  | stop {α : Type} {x : Engine α} {s : Session} {o : Outcome α} : x.Evaluates F s o → Passes F x s (Outcome.session o)
  | first {α β : Type} {x : Engine β} (f : β → Engine α) {s t : Session} : Passes F x s t → Passes F (andThen x f) s t
  | next {α β : Type} {x : Engine β} {f : β → Engine α} {s t u : Session} {b : β} :
      x.Evaluates F s (.ok b u) → Passes F (f b) u t → Passes F (andThen x f) s t
  | ask {α : Type} {q : Question α} {s t : Session} : Passes F q.rule s t → Passes F (ask q) s t
  | guarded {α : Type} {k : Key} {x : Engine α} {s t : Session} :
      Passes F x { s with visited := k :: s.visited } t → Passes F (guarded k x) s t
  | underFrame {α : Type} {frame : Frame} {x : Engine α} {s t : Session} :
      Passes F x { s with frames := s.frames ++ [frame] } t → Passes F (underFrame frame x) s t
  | underOuter {α : Type} {index : Nat} {x : Engine α} {s t : Session} :
      Passes F x { s with frames := s.frames.take index } t → Passes F (underOuter index x) s t

lemma Engine.Meets.within_of_passes (hF : F.Sound) {least : Option Nat} {x : Engine α} {Q : α → Prop}
    (h : x.Meets F least Q) (hs : s.Within F) (ht : x.Passes F s t) : t.Within F := by
  have hgood {β : Type} {y : Engine β} {least : Option Nat} {R : β → Prop} {u : Session} {o : Outcome β}
      (hy : y.Meets F least R) (hu : u.Within F) (ho : y.Evaluates F u o) : o.Good F R := by
    rw [← (hy.evaluates_iff hF hu o).mp ho]
    exact hy.run_good hF hu (Nat.le_refl _)
  induction ht generalizing least with
  | start => exact hs
  | stop ho => exact (hgood h hs ho).within
  | first f _ ih => exact ih h hs
  | @next _ _ x _ _ _ _ _ hb _ ih =>
    have hfirst : x.Meets F least _ := h
    obtain ⟨hwithin, hrest⟩ := hgood hfirst hs hb
    exact ih hrest hwithin
  | ask _ ih => exact ih (meets_rule hF h.1) hs
  | guarded _ ih => exact ih h.2.2 ⟨hs.memory, hs.frames⟩
  | underFrame _ ih => exact ih h.2 (hs.underFrame h.1)
  | underOuter _ ih => exact ih h (hs.underOuter _)

/-- Under limits that allow for some texts no list of texts has more than they allow: neither an
answer, nor what callers supply for a parameter, nor any list that is remembered at some moment of a
query. -/
theorem texts_capped {root : Node} (hroot : root.WellNumbered) (hF : F.Describes root)
    (hcap : 0 < F.limits.maxValues) (hs : s.Reachable F) :
    (∀ (n : Node) (property : Option String) (depth : Nat), (values n property depth).Asked F →
      ∀ texts t, (ask (.values n property depth)).run F s = .ok texts t → texts.length ≤ F.limits.maxValues) ∧
    (∀ (b : Binding) (property : Option String) (depth : Nat), F.Declares b →
      ∀ texts t, (Ask.paramValues b property depth).run F s = .ok texts t → texts.length ≤ F.limits.maxValues) ∧
    ∀ (α : Type) (q : Query α), q.About F → ∀ t, q.engine.Passes F s t →
      t.values.All (·.length ≤ F.limits.maxValues) ∧ t.paramValues.All (·.length ≤ F.limits.maxValues) := by
  have hsound := hF.sound hroot
  have hwithin := hs.within hsound
  have hcapped {x : Engine (List String)} {least : Option Nat} (hx : x.Meets F least F.Capped) (texts : List String)
      (t : Session) (hrun : x.run F s = .ok texts t) : texts.length ≤ F.limits.maxValues := by
    have hgood := hx.run_good hsound hwithin (Nat.le_refl _)
    unfold Engine.run at hrun
    rw [hrun] at hgood
    exact hgood.2 hcap
  refine ⟨fun n property depth hq => ?_, fun b property depth hb => ?_, fun α q hq t ht => ?_⟩
  · exact hcapped (meets_ask hq (after_start _))
  · exact hcapped (Ask.meets_paramValues hsound (Nat.zero_le _) hb property)
  · have hmemo := ((Query.meets_engine hsound hq).within_of_passes hsound hwithin ht).memory
    exact ⟨fun e he => hmemo.values e he hcap, fun e he => hmemo.paramValues e he hcap⟩

namespace ThreeCalls

def use : Node := .identifier 6 "x"

def program : Node :=
  .script [.function 1 (.identifier 2 "f") [.identifier 3 "x"] (.block 4 [.returning 5 use]),
    .statement 7 (.call 8 (.identifier 9 "f") [.textLiteral 10 "a"]),
    .statement 11 (.call 12 (.identifier 13 "f") [.textLiteral 14 "b"]),
    .statement 15 (.call 16 (.identifier 17 "f") [.textLiteral 18 "c"])]

def limits : Limits := { maxValues := 2 }

def check : Bool :=
  match Model.ofProgram program "" false with
  | .ok m =>
    match (ask (.values use none 0)).run (Facts.ofModel m limits) {} with
    | .ok texts t => texts == ["a", "b"] && !t.paramValues.entries.isEmpty
    | .error _ _ => false
  | .error _ => false

end ThreeCalls

open ThreeCalls

theorem texts_capped_three_calls :
    program.WellNumbered ∧ ∃ F : Facts, F.Describes program ∧ F.limits.maxValues = 2 ∧
      ∃ t, (ask (.values use none 0)).run F {} = .ok ["a", "b"] t ∧ ["a", "b"].length ≤ F.limits.maxValues ∧
        t.paramValues.entries ≠ [] ∧ t.values.All (·.length ≤ F.limits.maxValues) ∧
        t.paramValues.All (·.length ≤ F.limits.maxValues) := by
  obtain ⟨hroot, m, hm, -⟩ := program.exists_described (by decide)
  have hF := Facts.Describes.ofModel hm limits
  have huse : (Facts.ofModel m limits).Has use := hF.has_walk 6 rfl
  have hcheck : check = true := by decide +kernel
  simp only [check, hm] at hcheck
  split at hcheck
  next texts t hrun =>
    simp only [Bool.and_eq_true, beq_iff_eq, Bool.not_eq_true', List.isEmpty_eq_false_iff] at hcheck
    obtain ⟨rfl, hsup⟩ := hcheck
    obtain ⟨hvals, -, hmemo⟩ := texts_capped hroot.toWellNumbered hF Nat.two_pos .start
    have hmeets := meets_ask (I := fun _ => True) (q := .values use none 0) huse.knows (after_start _)
    have hend := ((hmeets.evaluates_iff (hF.sound hroot.toWellNumbered) (within_empty _)) _).mpr hrun
    have hcaches := hmemo _ (.ask (.values use none 0)) huse.knows t (.stop hend)
    exact ⟨hroot.toWellNumbered, _, hF, rfl, t, hrun, hvals use none 0 huse.knows _ t hrun, hsup, hcaches⟩
  · cases hcheck

end ScriptAudit
