import ScriptAudit.Proofs.Query
import ScriptAudit.Report.Record

/-!
# Where taint comes from

In every state of an analysis the remembered taints have sources, and handlers are those that the
program registers.
-/

namespace ScriptAudit

open Engine List Outcome Memory Facts

variable {F : Facts} {handles : Node → Prop} {s t : Session}

def Facts.Registers (F : Facts) (h : Node) : Prop :=
  ∃ n, F.Has n ∧ (registeredBy? F n = some h ∨ assignedHandler? F n = some h)

def Facts.Handles (F : Facts) (f : Node) : Prop :=
  ∃ h s fs t, F.Registers h ∧ s.Reachable F ∧ (Ask.callables (some h) 0).run F s = .ok fs t ∧ f ∈ fs

lemma Facts.Registers.has {h : Node} (hh : F.Registers h) : F.Has h := by
  obtain ⟨n, hn, hh | hh⟩ := hh
  · exact has_registeredBy? hn h hh
  · exact has_assignedHandler? hn h hh

lemma handles_of_mapM {hs : List Node} (hregs : ∀ h ∈ hs, F.Registers h) (hreach : s.Reachable F)
    {groups : List (List Node)} (hrun : (hs.mapM fun h => Ask.callables (some h) 0).run F s = .ok groups t) :
    ∀ fs ∈ groups, ∀ f ∈ fs, F.Handles f := by
  -- The groups found so far are carried along in reverse.
  have loop : ∀ (hs : List Node) (pre : List (List Node)) (s : Session), s.Reachable F →
      (∀ h ∈ hs, F.Registers h) → (∀ fs ∈ pre, ∀ f ∈ fs, F.Handles f) →
      (List.mapM.loop (fun h => Ask.callables (some h) 0) hs pre).run F s = .ok groups t →
      ∀ fs ∈ groups, ∀ f ∈ fs, F.Handles f := by
    intro hs
    induction hs with
    | nil =>
      intro pre s _ _ hbefore hrun
      cases hrun
      simpa using hbefore
    | cons h rest ih =>
      intro pre s hreach hregs hbefore hrun
      obtain ⟨hh, hrest⟩ := forall_mem_cons.mp hregs
      obtain ⟨found, u, hfound, hrun⟩ := run_bind_ok hrun
      refine ih (found :: pre) u (hreach.callables hh.has.some hfound) hrest ?_ hrun
      refine forall_mem_cons.mpr ⟨fun f hf => ?_, hbefore⟩
      exact ⟨h, s, found, u, hh, hreach, hfound, hf⟩
  exact loop hs [] s hreach hregs (by simp) hrun

lemma handles_of_registeredHandlers (hF : F.Sound) (hs : s.Reachable F) {fs : List Node}
    (hrun : registeredHandlers.run F s = .ok fs t) : ∀ f ∈ fs, F.Handles f := by
  have hregs : ∀ h ∈ F.model.calls.filterMap (registeredBy? F) ++
      F.model.nodes.filterMap (assignedHandler? F), F.Registers h := by
    intro h hh
    obtain hh | hh := mem_append.mp hh
    · obtain ⟨call, hcall, hh⟩ := mem_filterMap.mp hh
      exact ⟨call, hF.model.calls call hcall, .inl hh⟩
    · obtain ⟨n, hn, hh⟩ := mem_filterMap.mp hh
      exact ⟨n, hF.model.nodes n hn, .inr hh⟩
  obtain ⟨facts, u, hfacts, hrun⟩ := run_bind_ok hrun
  cases hfacts
  obtain ⟨groups, u, hgroups, hrun⟩ := run_bind_ok hrun
  cases hrun
  intro f hf
  obtain ⟨group, hgroup, hf⟩ := mem_flatten.mp (mem_of_mem_distinct hf)
  exact handles_of_mapM hregs hs hgroups group hgroup f hf

lemma Memory.Sourced.noteHandler {m : Memory} (h : m.Sourced F handles) {f : Node} (hf : handles f) :
    Sourced F handles (m.noted F f) where
  handlers := forall_mem_cons.mpr ⟨⟨f, hf, rfl⟩, h.handlers⟩
  events uid huid := by
    obtain huid | huid := mem_append.mp huid
    · obtain ⟨b, hb, rfl⟩ := Option.map_eq_some_iff.mp (Option.mem_toList.mp huid)
      exact ⟨f, b, hf, hb, rfl⟩
    · exact h.events uid huid
  taints := h.taints

def Finding.Sourced (F : Facts) (handles : Node → Prop) (f : Finding) : Prop :=
  ∃ label n, F.SourceAt handles label n ∧ f.taintSource = some label

lemma sourced_messageHandlers (hF : F.Sound) (hs : s.Reachable F) (hsourced : s.toMemory.Sourced F F.Handles) :
    Outcome.Good F (fun _ => True) (messageHandlers.run F s) ∧
      (session (messageHandlers.run F s)).toMemory.Sourced F F.Handles := by
  have hlasting : Lasting (Sourced F F.Handles) := Sourced.lasting
  have hans := answersKeep_of_lasting (F := F) hlasting F.openQuestions
  have hregistered := ((meets_registeredHandlers hF).keeping hlasting.stable
    steps_registeredHandlers.quiet).run_keeping hF hlasting.stable hans (hs.within hF) hsourced
  refine Meets.run_keeping_bind hF hlasting.stable hans hregistered.1 hregistered.2 fun fs t hrun => ?_
  refine (meets_mapM fun f hf => meets_noteHandler hlasting.stable hF fun m hm => ?_).mono fun _ _ => trivial
  exact hm.noteHandler (handles_of_registeredHandlers hF hs hrun f hf)

lemma sourced_analyseTaint (hF : F.Sound) (hs : s.Reachable F) (hsourced : s.toMemory.Sourced F F.Handles) :
    Outcome.Good F (fun report => ∀ f ∈ report.findings, f.Sourced F F.Handles) (analyseTaint.run F s) ∧
      (session (analyseTaint.run F s)).toMemory.Sourced F F.Handles := by
  have hhand := sourced_messageHandlers hF hs hsourced
  refine Meets.run_keeping_bind (x := messageHandlers) hF Sourced.lasting.stable
    (answersKeep_of_lasting Sourced.lasting _) hhand.1 hhand.2 fun handlers t hrun => ?_
  refine Meets.bind (meets_emissions F.traces_sourced hF) fun atNodes hnodes => ?_
  dsimp only
  rw [partition_eq_filter_filter]
  refine meets_pure fun finding hfinding => ?_
  obtain ⟨e, he, rfl⟩ := mem_map.mp hfinding
  obtain ⟨he, hsink⟩ := mem_filter.mp he
  obtain he | he := mem_append.mp (mem_distinctBy_mem he)
  · obtain ⟨h, -, he⟩ := mem_filterMap.mp he
    simp [isPattern_of_handler he] at hsink
  · obtain ⟨taint, htaint, huser, hlabel⟩ := hnodes e he (by simpa using hsink)
    obtain ⟨label, n, hsrc, rfl⟩ := htaint huser
    exact ⟨label, n, hsrc, hlabel⟩

lemma Session.Reachable.sourced (hF : F.Sound) (hs : s.Reachable F) : s.toMemory.Sourced F F.Handles := by
  have hsteady := steady_of_lasting (I := Sourced F F.Handles) Sourced.lasting
  induction hs with
  | start => exact ⟨by simp, by simp, Memo.all_empty⟩
  | @query _ q s hs hq ih =>
    cases q with
    | ask q => exact (quiet_ask q).run_keeps hsteady s ih
    | callSites f => exact (Ask.quiet_callSites f).run_keeps hsteady s ih
    | paramValues b property depth => exact (Ask.quiet_paramValues b depth property).run_keeps hsteady s ih
    | isXhr n depth => exact (quiet_isXhr (some n) depth).run_keeps hsteady s ih
    | bodyParams n => exact (quiet_bodyParams (some n)).run_keeps hsteady s ih
    | requests => exact quiet_allRecords.run_keeps hsteady s ih
    | source n depth =>
      have htraces : F.Traces (Sourced F F.Handles) _ := F.traces_sourced
      have hmeets := meets_traceSource htraces hF (Has.some hq) depth
      exact (hmeets.run_keeping hF htraces.stable (answersKeep_of_lasting Sourced.lasting _)
        (hs.within hF) ih).2
    | findings => exact (sourced_analyseTaint hF hs ih).2
  | mark keys _ ih => exact ih
  | bind _ _ ih => exact ih

lemma Facts.SourceAt.has (hF : F.Sound) {label : String} {n : Node} (h : F.SourceAt handles label n) : F.Has n := by
  cases h with
  | taken hb => exact (hF.declares hb).identifier
  | eventKey hb => exact (hF.declares hb).identifier
  | passed _ _ hn => exact hn
  | _ hn => exact hn

lemma analyseTaint_of_analyseProgram {records : List RequestRecord} {report : TaintReport}
    (hrun : analyseProgram.run F s = .ok (records, report) t) :
    analyseTaint.run F (session (allRecords.run F s)) = .ok report t := by
  obtain ⟨found, u, hfound, hrun⟩ := run_bind_ok hrun
  obtain ⟨reported, v, hreported, hpair⟩ := run_bind_ok hrun
  cases hpair
  rwa [hfound]

lemma sourced_recordOfFacts (hF : F.Sound) {url : String} {record : AnalysisRecord}
    (hrec : recordOfFacts F url = .ok record) : ∀ f ∈ record.findings, f.Sourced F F.Handles := by
  unfold recordOfFacts at hrec
  split at hrec
  · cases hrec
  next records report u hrun =>
    have hreach : (session (allRecords.run F {})).Reachable F :=
      Session.Reachable.query (q := .requests) .start trivial
    have hreport := (sourced_analyseTaint hF hreach (hreach.sourced hF)).1
    rw [analyseTaint_of_analyseProgram hrun] at hreport
    cases hmerge : SiteRecord.mergeAll (records.map RequestRecord.toSite) with
    | error e =>
      rw [hmerge] at hrec
      cases hrec
    | ok sites =>
      rw [hmerge] at hrec
      cases hrec
      exact hreport.2

/-- Whatever is traced back to a user names a source that the program has, in every state and under
all frames, and so does every finding. A program without sources has no findings. -/
theorem taint_has_source {root : Node} (hroot : root.WellNumbered) (hF : F.Describes root)
    (hs : s.Reachable F) :
    (∀ (n : Node) (depth : Nat) (taint : Taint) (u : Session), F.Has n →
      (traceSource (some n) depth).run F s = .ok taint u → taint.isUserControlled = true →
      ∃ label source, F.Has source ∧ F.SourceAt F.Handles label source ∧
        taint = Taint.source label source) ∧
    (∀ (report : TaintReport) (u : Session), analyseTaint.run F s = .ok report u →
      ∀ f ∈ report.findings, ∃ label source, F.Has source ∧ F.SourceAt F.Handles label source ∧
        f.taintSource = some label) ∧
    ∀ (url : String) (record : AnalysisRecord), recordOfFacts F url = .ok record →
      (∀ f ∈ record.findings, ∃ label source, F.Has source ∧ F.SourceAt F.Handles label source ∧
        f.taintSource = some label) ∧
      ((∀ label source, ¬F.SourceAt F.Handles label source) → record.findings = []) := by
  have hsound := hF.sound hroot
  have hsourced := hs.sourced hsound
  have hfinding {f : Finding} (h : f.Sourced F F.Handles) : ∃ label source, F.Has source ∧
      F.SourceAt F.Handles label source ∧ f.taintSource = some label := by
    obtain ⟨label, source, hsrc, hlabel⟩ := h
    exact ⟨label, source, hsrc.has hsound, hsrc, hlabel⟩
  refine ⟨fun n depth taint u hn hrun huser => ?_, fun report u hrun f hf => ?_, fun url record hrec => ?_⟩
  · have htraces : F.Traces (Sourced F F.Handles) (Taint.Sourced F F.Handles) := F.traces_sourced
    have hmeets := meets_traceSource htraces hsound hn.some depth
    have hgood := (hmeets.run_keeping hsound htraces.stable
      (answersKeep_of_lasting Sourced.lasting _) (hs.within hsound) hsourced).1
    rw [hrun] at hgood
    obtain ⟨label, source, hsrc, htaint⟩ := hgood.2 huser
    exact ⟨label, source, hsrc.has hsound, hsrc, htaint⟩
  · have hgood := (sourced_analyseTaint hsound hs hsourced).1
    rw [hrun] at hgood
    exact hfinding (hgood.2 f hf)
  · have hrec := sourced_recordOfFacts hsound hrec
    refine ⟨fun f hf => hfinding (hrec f hf), fun hnone => eq_nil_iff_forall_not_mem.mpr fun f hf => ?_⟩
    obtain ⟨label, source, hsrc, -⟩ := hrec f hf
    exact hnone label source hsrc

namespace Listener

def data : Node := .member 9 (.identifier 11 "e") "data"

def handler : Node :=
  .branch 4 .functionExpression [(.params, some (.identifier 5 "e")),
    (.body, some (.block 6 [.statement 7 (.assign 8 (.member 12 (.identifier 14 "el") "innerHTML")
      data)]))]

def program : Node :=
  .script [.statement 1 (.call 2 (.identifier 3 "addEventListener")
    [.textLiteral 15 "message", handler])]

def analysed (F : Facts) : Session :=
  session ((Query.findings).engine.run F {})

def check : Bool :=
  match Model.ofProgram program "" false with
  | .ok m =>
    match (traceSource (some data) 0).run (ofModel m {}) (analysed (ofModel m {})) with
    | .ok taint _ => taint.isUserControlled
    | .error _ _ => false
  | .error _ => false

end Listener

open Listener

/-- What a handler reads from its event is traced back to a source. -/
theorem taint_has_source_listener :
    program.WellNumbered ∧ ∃ F : Facts, F.Describes program ∧
      (analysed F).Reachable F ∧ F.Has data ∧ ∃ taint u,
        (traceSource (some data) 0).run F (analysed F) = .ok taint u ∧
        taint.isUserControlled = true ∧ ∃ label source, F.Has source ∧
          F.SourceAt F.Handles label source ∧ taint = Taint.source label source := by
  obtain ⟨hroot, m, hm, hF⟩ := program.exists_described (by decide)
  have hs : (analysed (ofModel m {})).Reachable (ofModel m {}) := .query .start trivial
  have hdata : (ofModel m {}).Has data := hF.has_walk 13 rfl
  have hcheck : check = true := by decide +kernel
  simp only [check, hm] at hcheck
  refine ⟨hroot.toWellNumbered, _, hF, hs, hdata, ?_⟩
  split at hcheck
  next taint u hrun =>
    refine ⟨taint, u, hrun, hcheck, ?_⟩
    exact (taint_has_source hroot.toWellNumbered hF hs).1 _ 0 taint u hdata hrun hcheck
  · cases hcheck

end ScriptAudit
