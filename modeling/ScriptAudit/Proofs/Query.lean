import ScriptAudit.Proofs.Request.Steps
import ScriptAudit.Proofs.Request.Records
import ScriptAudit.Proofs.Scope.WellFormed
import ScriptAudit.Proofs.Taint.Reporting

/-!
# Queries

What may be asked about a program from outside, in any state that earlier queries can leave.
-/

namespace ScriptAudit

open Ask Engine Model Facts

variable {F : Facts} {α : Type}

/-- Facts about a program: its model, and the index of its globals if there is one. -/
structure Facts.Describes (F : Facts) (root : Node) : Prop where
  model : ∃ source isModule, ofProgram root source isModule = .ok F.model
  globals : ∀ g, F.globals = some g → g = Globals.ofModel F.model

namespace Facts.Describes

variable {root : Node}

lemma root_eq (h : F.Describes root) : F.model.root = root := by
  obtain ⟨source, isModule, hmodel⟩ := h.model
  exact (eq_of_ofProgram hmodel).1

lemma has (h : F.Describes root) {n : Node} (hn : root.Below n) : F.Has n := by
  unfold Has
  rwa [h.root_eq]

lemma has_walk (h : F.Describes root) {n : Node} (i : Nat) (hi : root.walk[i]? = some n) : F.Has n :=
  h.has (Node.Below.mem_walk .refl (List.mem_of_getElem? hi))

lemma sound (h : F.Describes root) (hroot : root.WellNumbered) : F.Sound := by
  obtain ⟨source, isModule, hmodel⟩ := h.model
  have hinside := inside_ofProgram hmodel
  refine ⟨hinside, fun g hg => ?_, fun n hn => ?_⟩
  · rw [h.globals g hg]
    exact Globals.inside_ofModel hinside
  · have hbelow : root.Below n := h.root_eq ▸ hn
    exact ⟨n, mem_nodes hroot hmodel hbelow, rfl⟩

lemma ofModel {m : Model} {source : String} {isModule : Bool} (h : ofProgram root source isModule = .ok m)
    (limits : Limits) : (ofModel m limits).Describes root where
  model := ⟨source, isModule, h⟩
  globals := fun _ hg => (Option.some.inj hg).symm

end Facts.Describes

/-- A program that passes the check has a model, and so there are facts that describe it. -/
lemma Node.exists_described (root : Node) (h : root.checkProgram = true) :
    root.WellFormed ∧ ∃ m, ofProgram root "" false = .ok m ∧ (ofModel m {}).Describes root := by
  have hroot := wellFormed_check h
  obtain ⟨m, hm⟩ := exists_ofProgram hroot.toWellNamed "" false
  exact ⟨hroot, m, hm, .ofModel hm {}⟩

lemma Question.after_start (q : Question α) : q.After (some 0) := by
  cases q with
  | values n property depth =>
    refine .inr ?_
    cases property <;> simp only [rank] <;> grind
  | object | array => exact .inr (by simp only [rank]; omega)
  | functions | aliases => exact .inl trivial

inductive Query : Type → Type 1 where
  | ask {α : Type} (q : Question α) : Query α
  | callSites (f : Node) : Query (List CallSite)
  | paramValues (b : Binding) (property : Option String) (depth : Nat) : Query (List String)
  | isXhr (n : Node) (depth : Nat) : Query Bool
  | source (n : Node) (depth : Nat) : Query Taint
  | bodyParams (n : Node) : Query (List Param)
  | requests : Query (List RequestRecord)
  | findings : Query TaintReport

namespace Query

def engine : {α : Type} → Query α → Engine α
  | _, .ask q => Engine.ask q
  | _, .callSites f => Ask.callSites f
  | _, .paramValues b property depth => Ask.paramValues b property depth
  | _, .isXhr n depth => ScriptAudit.isXhr (some n) depth
  | _, .source n depth => traceSource (some n) depth
  | _, .bodyParams n => ScriptAudit.bodyParams (some n)
  | _, .requests => allRecords
  | _, .findings => analyseTaint

def About (F : Facts) : {α : Type} → Query α → Prop
  | _, .ask q => q.Asked F
  | _, .callSites f => F.Has f
  | _, .paramValues b _ _ => F.Declares b
  | _, .isXhr n _ => F.Has n
  | _, .source n _ => F.Has n
  | _, .bodyParams n => F.Has n
  | _, .requests => True
  | _, .findings => True

lemma meets_engine_keeping {I : Memory → Prop} {P : Taint → Prop} (hP : F.Traces I P) (hF : F.Sound)
    (hnote : ∀ f (m : Memory), I m → I (m.noted F f))
    {q : Query α} (hq : q.About F) : q.engine.Meets F (some 0) (fun _ => True) I := by
  cases q with
  | ask q => exact (meets_ask hq q.after_start).mono fun _ _ => trivial
  | callSites f =>
    have hsites : (Ask.callSites f).Meets F (some 0) _ I :=
      (meets_callSites hF hq).keeping hP.stable (quiet_callSites f)
    exact hsites.mono fun _ _ => trivial
  | paramValues b property depth =>
    have hvals : (Ask.paramValues b property depth).Meets F (some 0) _ I :=
      (meets_paramValues hF (Nat.zero_le _) hq property).keeping hP.stable
        (quiet_paramValues b depth property)
    exact hvals.mono fun _ _ => trivial
  | isXhr n depth => exact (meets_isXhr hF (Has.some hq) depth).keeping hP.stable (quiet_isXhr (some n) depth)
  | source n depth => exact (meets_traceSource hP hF (Has.some hq) depth).mono fun _ _ => trivial
  | bodyParams n => exact (meets_bodyParams hF (Has.some hq)).keeping hP.stable (quiet_bodyParams (some n))
  | requests => exact (meets_allRecords hF).keeping hP.stable quiet_allRecords
  | findings => exact meets_analyseTaint_keeping hP hF hnote

lemma meets_engine (hF : F.Sound) {q : Query α} (hq : q.About F) :
    q.engine.Meets F (some 0) fun _ => True := meets_engine_keeping F.traces_true hF (fun _ _ _ => trivial) hq

end Query

def Frame.OfCall (F : Facts) (frame : Frame) : Prop :=
  ∃ function call offset, F.Has call ∧ frame = ofCall F.model function call offset

/-- The states in which a query can be put: what earlier queries have left, with any marks and
frames. -/
inductive Session.Reachable (F : Facts) : Session → Prop
  | start : Reachable F {}
  | query {α : Type} {q : Query α} {s : Session} : Reachable F s → q.About F →
      Reachable F (Outcome.session (q.engine.run F s))
  | mark {s : Session} (keys : List Key) : Reachable F s → Reachable F { s with visited := keys }
  | bind {s : Session} {frames : List Frame} : Reachable F s →
      (∀ frame ∈ frames, frame.OfCall F) → Reachable F { s with frames := frames }

lemma Outcome.Good.within {Q : α → Prop} {o : Outcome α} (h : o.Good F Q) : (Outcome.session o).Within F := by
  cases o with
  | ok a t => exact h.1
  | error e t => exact h.1

lemma Session.Reachable.within (hF : F.Sound) {s : Session} (h : s.Reachable F) : s.Within F := by
  induction h with
  | start => exact within_empty F
  | query _ hq ih => exact ((Query.meets_engine hF hq).run_good hF ih (Nat.le_refl _)).within
  | mark keys _ ih => exact ⟨ih.memory, ih.frames⟩
  | bind _ hframes ih =>
    refine ⟨ih.memory, fun frame hframe => ?_⟩
    obtain ⟨function, call, offset, hcall, rfl⟩ := hframes frame hframe
    exact within_ofCall hcall F.model function offset

namespace Session.Reachable

variable {s t : Session} {n : Node} {depth : Nat}

lemma query_eq_ok {q : Query α} {a : α} (hs : s.Reachable F) (hq : q.About F) (h : q.engine.run F s = .ok a t) :
    t.Reachable F := by
  have ht := query hs hq
  rwa [h] at ht

lemma callables {k : Option Node} {fs : List Node} (hs : s.Reachable F) (hk : F.MaybeHas k)
    (hrun : (callables k depth).run F s = .ok fs t) : t.Reachable F := by
  obtain ⟨gs, u, hgs, hrun⟩ := run_bind_ok hrun
  cases hrun
  cases k with
  | none =>
    cases hgs
    exact hs
  | some k => exact hs.query_eq_ok (q := .ask (.functions k depth)) (hk k rfl) hgs

lemma callTargets {targets : List (Node × Nat)} (hs : s.Reachable F) (hn : F.Has n)
    (hrun : (callTargets n depth).run F s = .ok targets t) : t.Reachable F := by
  unfold Ask.callTargets at hrun
  split at hrun
  · cases hrun
    exact hs
  next callee hcal =>
    have hcal := hn.child? .callee callee hcal
    split at hrun <;> obtain ⟨fs, u, hfs, hrun⟩ := run_bind_ok hrun <;> cases hrun
    · exact hs.callables (hcal.child? .object) hfs
    · exact hs.callables hcal.some hfs

lemma has_callSites (hF : F.Sound) {f : Node} {sites : List CallSite} (hs : s.Reachable F) (hf : F.Has f)
    (hrun : (callSites f).run F s = .ok sites t) : ∀ site ∈ sites, F.Has site.call := by
  have hmeets : (callSites f).Meets F (some 0) fun sites => ∀ site ∈ sites, F.Has site.call :=
    meets_callSites hF hf
  have hgood := hmeets.run_good hF (hs.within hF) (Nat.le_refl _)
  change Outcome.Good F _ ((callSites f).run F s) at hgood
  rw [hrun] at hgood
  exact hgood.2

lemma argumentPaths {b : Binding} {paths : List ArgumentPath} (hs : s.Reachable F)
    (hb : F.Declares b) (hrun : (argumentPaths b none).run F s = .ok paths t) : t.Reachable F := by
  unfold Ask.argumentPaths at hrun
  split at hrun
  next f index hf _ =>
    split at hrun
    · cases hrun
      exact hs
    · obtain ⟨sites, u, hsites, hrun⟩ := run_bind_ok hrun
      cases hrun
      exact hs.query_eq_ok (q := .callSites f) (hb.function f hf) hsites
  · cases hrun
    exact hs

end Session.Reachable

/-- Every query comes to an end, in every state and under all limits, and the bound on open
questions does not show. -/
theorem Query.terminates {root : Node} (hroot : root.WellNumbered) {F : Facts}
    (hF : F.Describes root) {s : Session} (hs : s.Reachable F) {α : Type} {q : Query α}
    (hq : q.About F) :
    (∃ o, q.engine.Evaluates F s o) ∧ ∀ o, q.engine.Evaluates F s o → q.engine.run F s = o := by
  have hsound := hF.sound hroot
  have hiff := (Query.meets_engine hsound hq).evaluates_iff hsound (hs.within hsound)
  exact ⟨⟨_, (hiff _).mpr rfl⟩, fun o => (hiff o).mp⟩

namespace SelfCall

def inner : Node :=
  .branch 5 .callExpression [(.callee, some (.identifier 6 "f")), (.arguments, some (.identifier 7 "x"))]

def function : Node :=
  .function 1 (.identifier 2 "f") [.identifier 3 "x"] (.block 4 [.returning 8 inner])

def outer : Node :=
  .branch 9 .callExpression [(.callee, some (.identifier 10 "f")), (.arguments, some (.textLiteral 11 "a"))]

def program : Node :=
  .script [function, .statement 12 outer]

end SelfCall

open SelfCall

/-- What the function returns can be asked for while its call is being gone through. -/
theorem Query.terminates_selfCall :
    program.WellNumbered ∧ ∃ F : Facts, F.Describes program ∧
      ∃ s : Session, s.Reachable F ∧ s.frames.length = 1 ∧
        (Query.ask (.values inner none 0)).About F ∧
        ∃ o, (Query.ask (.values inner none 0)).engine.Evaluates F s o := by
  obtain ⟨hroot, m, hm, hF⟩ := program.exists_described (by decide)
  have hinner : (ofModel m {}).Has inner := hF.has_walk 6 rfl
  have houter : (ofModel m {}).Has outer := hF.has_walk 10 rfl
  have hs : Session.Reachable (ofModel m {})
      { frames := [Frame.ofCall m function outer 0] } := by
    refine .bind .start fun frame hframe => ?_
    obtain rfl := List.mem_singleton.mp hframe
    exact ⟨function, outer, 0, houter, rfl⟩
  have hq : (Query.ask (.values inner none 0)).About (ofModel m {}) := hinner.knows
  exact ⟨hroot.toWellNumbered, _, hF, _, hs, rfl, hq, (Query.terminates hroot.toWellNumbered hF hs hq).1⟩

end ScriptAudit
