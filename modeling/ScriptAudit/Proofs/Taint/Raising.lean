import ScriptAudit.Proofs.Query
import ScriptAudit.Proofs.Tree.Nested

/-!
# Handlers that hold a dangerous sink

A message handler that does not check origins is reported with high severity if something of high
severity is reported inside it.
-/

namespace ScriptAudit

open CallCheck Engine List Node

variable {F : Facts} {s t : Session} {n : Node} {handlers : List MessageHandler} {h : MessageHandler}

namespace Engine

variable {α β γ : Type} {Q : α → Prop}

/-- Whatever the state, a computation returns only what has a property. -/
structure OnlyReturns (x : Engine α) (Q : α → Prop) : Prop where
  of_run : ∀ {F : Facts} {s t : Session} {a : α}, x.run F s = .ok a t → Q a

lemma onlyReturns_pure {a : α} (h : Q a) : (pure a : Engine α).OnlyReturns Q := by
  constructor
  rintro F s t b ⟨⟩
  exact h

lemma OnlyReturns.bind {P : β → Prop} {x : Engine β} {f : β → Engine α} (hx : x.OnlyReturns P)
    (hf : ∀ b, P b → (f b).OnlyReturns Q) : (x >>= f).OnlyReturns Q := by
  constructor
  intro F s u a hrun
  obtain ⟨b, t, hb, hrun⟩ := run_bind_ok hrun
  exact (hf b (hx.of_run hb)).of_run hrun

lemma onlyReturns_bind {x : Engine β} {f : β → Engine α} (hf : ∀ b, (f b).OnlyReturns Q) :
    (x >>= f).OnlyReturns Q := .bind (P := fun _ => True) ⟨fun _ => trivial⟩ fun b _ => hf b

lemma onlyReturns_mapM {xs : List γ} {f : γ → Engine α} {Q : γ → α → Prop} (h : ∀ x, (f x).OnlyReturns (Q x)) :
    (xs.mapM f).OnlyReturns fun ys => ∀ y ∈ ys, ∃ x ∈ xs, Q x y := by
  have loop (xs all : List γ) (done : List α) (hall : ∀ x ∈ xs, x ∈ all) (hdone : ∀ y ∈ done, ∃ x ∈ all, Q x y) :
      (List.mapM.loop f xs done).OnlyReturns fun ys => ∀ y ∈ ys, ∃ x ∈ all, Q x y := by
    induction xs generalizing done with
    | nil => exact onlyReturns_pure (by simpa using hdone)
    | cons x rest ih =>
      obtain ⟨hx, hrest⟩ := forall_mem_cons.mp hall
      apply OnlyReturns.bind (h x)
      intro y hy
      exact ih _ hrest (forall_mem_cons.mpr ⟨⟨x, hx, hy⟩, hdone⟩)
  exact loop xs xs [] (fun _ hx => hx) (by simp)

end Engine

def originSorts : List String := ["missing_origin_check", "weak_origin_check"]

def CallCheck.Minor : CallCheck → Prop
  | .pattern sort _ severity => sort ∉ originSorts ∧ severity ≠ .high
  | _ => True

lemma CallCheck.minor_ofSink? (s : Option TaintSink) : (ofSink? s).Minor := by
  cases s <;> trivial

lemma minor_checkPolicy (arguments : List Node) : (checkPolicy arguments).OnlyReturns CallCheck.Minor := by
  unfold checkPolicy
  split
  · apply onlyReturns_bind
    intro found
    cases found with
    | none => exact onlyReturns_pure trivial
    | some ref =>
      apply onlyReturns_bind
      intro shape
      apply onlyReturns_bind
      intro rule
      cases rule with
      | none => exact onlyReturns_pure trivial
      | some rule => exact onlyReturns_pure (by simp [CallCheck.Minor, originSorts])
  · exact onlyReturns_pure trivial

lemma minor_checkGlobalCall (callee : Node) (arguments : List Node) :
    (checkGlobalCall callee arguments).OnlyReturns fun check => ∀ c ∈ check, c.Minor := by
  apply onlyReturns_bind
  intro facts
  split
  · unfold checkCodeCall
    split
    · dsimp only
      split
      · split
        · exact onlyReturns_pure (by simp [CallCheck.Minor])
        · apply onlyReturns_bind
          intro functions
          split <;> exact onlyReturns_pure (by simp [CallCheck.Minor])
      · split <;> exact onlyReturns_pure (by simp [CallCheck.Minor])
    · exact onlyReturns_pure (by simp)
  · exact onlyReturns_pure (by simp)

lemma minor_checkMethodCall (name : String) (receiver : Option Node) (arguments : List Node) :
    (checkMethodCall name receiver arguments).OnlyReturns CallCheck.Minor := by
  apply onlyReturns_bind
  intro facts
  split
  · apply onlyReturns_bind
    intro targets
    split <;> exact onlyReturns_pure (by simp [CallCheck.Minor, originSorts])
  · apply onlyReturns_bind
    intro names
    exact onlyReturns_pure (minor_ofSink? _)
  · split
    · exact minor_checkPolicy arguments
    · split
      · exact onlyReturns_pure trivial
      iterate 2 split <;> exact onlyReturns_pure trivial
      · exact onlyReturns_pure (minor_ofSink? _)

lemma minor_checkNode (n : Node) : (checkNode n).OnlyReturns CallCheck.Minor := by
  apply onlyReturns_bind
  intro facts
  split
  · exact onlyReturns_pure (minor_ofSink? _)
  · unfold checkCall
    split
    · exact onlyReturns_pure trivial
    · apply OnlyReturns.bind (minor_checkGlobalCall _ _)
      intro check hcheck
      split
      · exact onlyReturns_pure (hcheck _ rfl)
      · exact minor_checkMethodCall _ _ _
      · exact onlyReturns_pure trivial
  · exact onlyReturns_pure (minor_ofSink? _)
  · exact onlyReturns_pure trivial

/-- What is emitted at a node: a sink, or a pattern that is neither raised nor of high severity. -/
structure Emission.FoundAt (e : Emission) (n : Node) : Prop where
  node : e.node = n
  minor : e.isPattern = true → e.sort ∉ originSorts ∧ e.severity ≠ .high

lemma foundAt_emissionAt? (n : Node) : (emissionAt? n).OnlyReturns fun found => ∀ e ∈ found, e.FoundAt n := by
  apply OnlyReturns.bind (minor_checkNode n)
  intro check hcheck
  split
  · apply onlyReturns_bind
    intro source
    split
    · exact onlyReturns_pure (by simp)
    · apply onlyReturns_bind
      intro m
      apply onlyReturns_pure
      rintro e ⟨⟩
      exact ⟨rfl, nofun⟩
  · apply onlyReturns_pure
    rintro e ⟨⟩
    exact ⟨rfl, fun _ => hcheck⟩
  · exact onlyReturns_pure (by simp)

def emissions : Engine (List MessageHandler × List Emission) := do
  let facts ← Engine.facts
  let handlers ← messageHandlers
  let atNodes ← facts.model.nodes.mapM emissionAt?
  return (handlers, Emission.distinctOnes (handlers.filterMap (·.emission?) ++ atNodes.filterMap id))

def TaintReport.ofEmissions (F : Facts) (handlers : List MessageHandler) (es : List Emission) : TaintReport where
  findings := (es.filter (!·.isPattern)).map (·.finding F)
  patterns := (es.filter (·.isPattern)).map fun e => (raiseSeverity handlers es e).finding F
  handlers := handlers

lemma exists_emissions_of_analyseTaint {report : TaintReport} (hrun : analyseTaint.run F s = .ok report t) :
    ∃ handlers es, emissions.run F s = .ok (handlers, es) t ∧ report = .ofEmissions F handlers es := by
  obtain ⟨facts, u, hfacts, hrun⟩ := run_bind_ok hrun
  cases hfacts
  obtain ⟨handlers, u, hhand, hrun⟩ := run_bind_ok hrun
  obtain ⟨atNodes, v, hatNodes, hrun⟩ := run_bind_ok hrun
  dsimp only at hrun
  rw [partition_eq_filter_filter] at hrun
  cases hrun
  refine ⟨handlers, _, ?_, rfl⟩
  rw [emissions, run_bind (b := F) (t := s) rfl, run_bind hhand, run_bind hatNodes]
  rfl

lemma has_messageHandlers (hF : F.Sound) (hs : s.Within F) (hrun : messageHandlers.run F s = .ok handlers t) :
    ∀ h ∈ handlers, F.Has h.function := by
  obtain ⟨fs, u, hfs, hrun⟩ := run_bind_ok hrun
  have hgood := (meets_registeredHandlers hF).run_good hF hs (Nat.le_refl _)
  change Outcome.Good F _ (registeredHandlers.run F s) at hgood
  rw [hfs] at hgood
  have hnote (f : Node) : (noteHandler f).OnlyReturns fun h => h.function = f := by
    apply onlyReturns_bind
    intro m
    apply onlyReturns_bind
    intro _
    apply onlyReturns_bind
    intro check
    exact onlyReturns_pure rfl
  intro h hh
  obtain ⟨f, hf, rfl⟩ := (onlyReturns_mapM hnote).of_run hrun h hh
  exact hgood.2 _ hf

lemma of_mem_emissions (hF : F.Sound) (hs : s.Within F) {es : List Emission}
    (hrun : emissions.run F s = .ok (handlers, es) t) :
    (∀ h ∈ handlers, F.Has h.function) ∧ ∀ e ∈ es, (∃ h ∈ handlers, h.emission? = some e) ∨ ∃ n, F.Has n ∧ e.FoundAt n
      := by
  obtain ⟨facts, u, hfacts, hrun⟩ := run_bind_ok hrun
  cases hfacts
  obtain ⟨handlers, u, hhand, hrun⟩ := run_bind_ok hrun
  obtain ⟨atNodes, v, hatNodes, hrun⟩ := run_bind_ok hrun
  cases hrun
  refine ⟨has_messageHandlers hF hs hhand, fun e he => ?_⟩
  rcases mem_append.mp (mem_distinctBy_mem he) with he | he
  · obtain ⟨h, hh, he⟩ := mem_filterMap.mp he
    exact .inl ⟨h, hh, he⟩
  · obtain ⟨found, hfound, he⟩ := mem_filterMap.mp he
    obtain ⟨n, hn, hat⟩ := (onlyReturns_mapM foundAt_emissionAt?).of_run hatNodes found hfound
    exact .inr ⟨n, hF.model.nodes n hn, hat e he⟩

lemma MessageHandler.of_emission? {e : Emission} (he : h.emission? = some e) :
    e.isPattern = true ∧ e.node = h.function ∧ e.sort ∈ originSorts ∧ e.severity ≠ .high := by
  unfold emission? at he
  split at he
  · cases he
    simp [Emission.pattern, originSorts]
  · cases he
    simp [Emission.pattern, originSorts]
  · cases he

def Node.position (n : Node) : Option Nat × Option Nat :=
  (n.line?, n.column?)

lemma hasHighSink_iff {root : Node} (hnested : root.WellNested) (hroot : root.WellNumbered) {es : List Emission}
    (hes : ∀ e ∈ es, root.Below e.node) {f : Node} (hf : root.Below f) :
    hasHighSink es f = true ↔ ∃ e ∈ es, e.severity = .high ∧
      (f.Below e.node ∨ e.node.first = f.first ∨ e.node.first = f.last) := by
  rw [hasHighSink, hnested.span_eq hf]
  simp only [any_eq_true, Bool.and_eq_true, beq_iff_eq]
  apply exists_congr
  intro e
  apply and_congr_right
  intro he
  rw [hnested.span_eq (hes e he), ← hnested.first_between_iff hroot hf (hes e he)]
  simp

def DistinctPositions (handlers : List MessageHandler) : Prop :=
  (handlers.map (·.function.position)).Nodup

instance (handlers : List MessageHandler) : Decidable (DistinctPositions handlers) :=
  inferInstanceAs (Decidable (List.Nodup _))

lemma DistinctPositions.eq (hpositions : DistinctPositions handlers) {k : MessageHandler} (hh : h ∈ handlers)
    (hk : k ∈ handlers) (heq : h.function.position = k.function.position) : h = k :=
  inj_on_of_nodup_map hpositions hh hk heq

lemma severity_raiseSeverity (hpositions : DistinctPositions handlers) (hh : h ∈ handlers) {e : Emission}
    (he : h.emission? = some e) (es : List Emission) :
    (raiseSeverity handlers es e).severity = .high ↔ hasHighSink es h.function = true := by
  obtain ⟨-, hnode, hsort, hsev⟩ := h.of_emission? he
  have hfind : handlers.find? (fun k => k.function.line? == e.node.line? && k.function.column? == e.node.column?) =
      some h := by
    rw [hnode]
    cases hfound : handlers.find? _ with
    | none => simpa using List.find?_eq_none.mp hfound h hh
    | some k =>
      have hpos := List.find?_some hfound
      simp only [Bool.and_eq_true, beq_iff_eq] at hpos
      rw [hpositions.eq (mem_of_find?_eq_some hfound) hh (Prod.ext hpos.1 hpos.2)]
  have hraised : (e.sort == "missing_origin_check" || e.sort == "weak_origin_check") = true := by
    simpa [originSorts] using hsort
  rw [raiseSeverity, if_pos hraised, hfind]
  dsimp only
  split <;> simp_all

lemma raiseSeverity_eq (handlers : List MessageHandler) (es : List Emission) (e : Emission) :
    ∃ severity, raiseSeverity handlers es e = { e with severity := severity } := by
  unfold raiseSeverity
  split
  · split
    · split
      · exact ⟨.high, rfl⟩
      · exact ⟨e.severity, rfl⟩
    · exact ⟨e.severity, rfl⟩
  · exact ⟨e.severity, rfl⟩

/-- The finding is about the origin check of a handler. -/
structure Finding.ChecksOrigin (p : Finding) (h : MessageHandler) : Prop where
  sort : p.sort ∈ originSorts
  line : p.line = h.function.line?
  column : p.column = h.function.column?

/-- If the handlers have positions of their own and ranges are well nested, every pattern about an
origin check is about one handler. It has high severity exactly if something of high severity is
emitted for a node that stands below that handler, or that starts exactly where the handler starts
or ends. -/
theorem origin_check_high_iff {root : Node} (hroot : root.WellNumbered) (hnested : root.WellNested)
    (hF : F.Describes root) (hs : s.Reachable F) {report : TaintReport} (hrun : analyseTaint.run F s = .ok report t)
    (hpositions : DistinctPositions report.handlers) :
    ∃ es, emissions.run F s = .ok (report.handlers, es) t ∧ report = .ofEmissions F report.handlers es ∧
      (∀ h ∈ report.handlers, root.Below h.function) ∧ (∀ e ∈ es, root.Below e.node) ∧
      (∀ p ∈ report.patterns, p.sort ∈ originSorts → ∃ h ∈ report.handlers, p.ChecksOrigin h) ∧
      ∀ p ∈ report.patterns, ∀ h ∈ report.handlers, p.ChecksOrigin h →
        (p.severity = .high ↔ ∃ e ∈ es, e.isPattern = false ∧ e.severity = .high ∧
          (h.function.Below e.node ∨ e.node.first = h.function.first ∨ e.node.first = h.function.last)) := by
  have hsound := hF.sound hroot
  obtain ⟨handlers, es, hemissions, rfl⟩ := exists_emissions_of_analyseTaint hrun
  obtain ⟨hhand, hes⟩ := of_mem_emissions hsound (hs.within hsound) hemissions
  simp only [TaintReport.ofEmissions] at hpositions ⊢
  have hbelow {n : Node} (hn : F.Has n) : root.Below n := hF.root_eq ▸ hn
  have hnode : ∀ e ∈ es, root.Below e.node := by
    intro e he
    rcases hes e he with ⟨h, hh, hemitted⟩ | ⟨n, hn, hfound⟩
    · rw [(h.of_emission? hemitted).2.1]
      exact hbelow (hhand h hh)
    · rw [hfound.node]
      exact hbelow hn
  have hpat : ∀ e ∈ es, e.isPattern = true → e.sort ∈ originSorts → ∃ h ∈ handlers, h.emission? = some e := by
    intro e he hpat hsort
    rcases hes e he with hemitted | ⟨n, -, hfound⟩
    · exact hemitted
    · exact absurd hsort (hfound.minor hpat).1
  have hsink : ∀ e ∈ es, e.severity = .high → e.isPattern = false := by
    intro e he hhigh
    by_contra hpat
    rw [Bool.not_eq_false] at hpat
    rcases hes e he with ⟨h, -, hemitted⟩ | ⟨n, -, hfound⟩
    · exact (h.of_emission? hemitted).2.2.2 hhigh
    · exact (hfound.minor hpat).2 hhigh
  -- Raising the severity changes neither the sort nor the place, so a pattern is traced to what was emitted.
  have hown : ∀ p ∈ (es.filter (·.isPattern)).map (fun e => (raiseSeverity handlers es e).finding F),
      p.sort ∈ originSorts → ∃ h ∈ handlers, ∃ e, h.emission? = some e ∧ p.ChecksOrigin h ∧
        p.severity = (raiseSeverity handlers es e).severity := by
    intro p hp hsort
    obtain ⟨e, he, rfl⟩ := mem_map.mp hp
    obtain ⟨severity, hraised⟩ := raiseSeverity_eq handlers es e
    rw [hraised] at hsort
    obtain ⟨he, hispattern⟩ := mem_filter.mp he
    obtain ⟨h, hh, hemitted⟩ := hpat e he hispattern hsort
    obtain ⟨-, hplace, -, -⟩ := h.of_emission? hemitted
    refine ⟨h, hh, e, hemitted, ⟨?_, ?_, ?_⟩, rfl⟩ <;> rw [hraised]
    · exact hsort
    · exact congrArg line? hplace
    · exact congrArg column? hplace
  refine ⟨es, hemissions, rfl, fun h hh => hbelow (hhand h hh), hnode, ?_, ?_⟩
  · intro p hp hsort
    obtain ⟨h, hh, -, -, horig, -⟩ := hown p hp hsort
    exact ⟨h, hh, horig⟩
  · intro p hp h hh horig
    obtain ⟨k, hk, e, hemitted, horigin', hsev⟩ := hown p hp horig.sort
    have hpos : k.function.position = h.function.position :=
      Prod.ext (horigin'.line.symm.trans horig.line) (horigin'.column.symm.trans horig.column)
    obtain rfl := hpositions.eq hk hh hpos
    rw [hsev, severity_raiseSeverity hpositions hk hemitted,
      hasHighSink_iff hnested hroot hnode (hbelow (hhand k hk))]
    apply exists_congr
    intro e
    apply and_congr_right
    intro he
    exact ⟨fun hhigh => ⟨hsink e he hhigh.1, hhigh⟩, fun hhigh => hhigh.2⟩

def Held.program : Node :=
  .ranged 0 .program 0 43 [(.body, some (.ranged 1 .expressionStatement 0 43 [(.expression, some (.rangedWrite 2 0 42
    (.rangedName 3 0 "onmessage") (.ranged 4 .functionExpression 10 42 [(.params, some (.rangedName 5 19 "e")),
      (.body, some (.ranged 6 .blockStatement 21 42 [(.body, some (.ranged 7 .expressionStatement 22 41
        [(.expression, some (.rangedWrite 8 22 41
          (.rangedMember 9 22 34 (.rangedName 10 22 "el") (.rangedName 11 25 "innerHTML"))
          (.rangedMember 12 35 41 (.rangedName 13 35 "e") (.rangedName 14 37 "data"))))]))]))])))]))]

def Held.check : Bool :=
  match Model.ofProgram program "" false with
  | .ok m =>
    match analyseTaint.run (Facts.ofModel m {}) {} with
    | .ok report _ => decide (DistinctPositions report.handlers) &&
        report.patterns.any fun p => originSorts.contains p.sort && p.severity == .high
    | .error _ _ => false
  | .error _ => false

/-- A handler that holds a dangerous sink. -/
theorem origin_check_high_iff_held :
    Held.program.WellNumbered ∧ Held.program.WellNested ∧ ∃ (F : Facts) (report : TaintReport) (t : Session),
      F.Describes Held.program ∧ analyseTaint.run F {} = .ok report t ∧ DistinctPositions report.handlers ∧
      ∃ es, emissions.run F {} = .ok (report.handlers, es) t ∧ ∃ p ∈ report.patterns, ∃ h ∈ report.handlers,
        p.ChecksOrigin h ∧ p.severity = .high ∧ ∃ e ∈ es, e.isPattern = false ∧ e.severity = .high ∧
          (h.function.Below e.node ∨ e.node.first = h.function.first ∨ e.node.first = h.function.last) := by
  have hprogram : Held.program.checkProgram = true := by decide
  obtain ⟨hroot, m, hm, hF⟩ := exists_described _ hprogram
  have hnested := wellNested_of_checkRange hprogram (by decide)
  have hcheck : Held.check = true := by decide +kernel
  simp only [Held.check, hm] at hcheck
  split at hcheck
  next report t hrun =>
    simp only [Bool.and_eq_true, decide_eq_true_eq, any_eq_true, contains_iff_mem, beq_iff_eq] at hcheck
    obtain ⟨hpositions, p, hp, hsort, hhigh⟩ := hcheck
    obtain ⟨es, hemissions, -, -, -, hown, hiff⟩ :=
      origin_check_high_iff hroot.toWellNumbered hnested hF .start hrun hpositions
    obtain ⟨h, hh, horig⟩ := hown p hp hsort
    exact ⟨hroot.toWellNumbered, hnested, _, report, t, hF, hrun, hpositions, es, hemissions, p, hp, h, hh, horig,
      hhigh, (hiff p hp h hh horig).mp hhigh⟩
  · cases hcheck

namespace Touching

def next : Node :=
  .ranged 0 .program 0 63 [(.body, some (.ranged 1 .functionDeclaration 0 24 [(.id, some (.rangedName 2 9 "h")),
      (.params, some (.rangedName 3 11 "e")), (.body, some (.ranged 4 .blockStatement 13 24
        [(.body, some (.ranged 5 .expressionStatement 14 23 [(.expression, some (.ranged 6 .callExpression 14 23
          [(.callee, some (.rangedName 7 14 "f")), (.arguments, some (.rangedMember 8 16 22 (.rangedName 9 16 "e")
            (.rangedName 10 18 "data")))]))]))]))])),
    (.body, some (.ranged 11 .expressionStatement 24 51 [(.expression, some (.rangedWrite 12 24 50
      (.rangedMember 13 24 36 (.rangedName 14 24 "el") (.rangedName 15 27 "innerHTML"))
      (.rangedMember 16 37 50 (.rangedName 17 37 "location") (.rangedName 18 46 "hash"))))])),
    (.body, some (.ranged 19 .expressionStatement 51 63 [(.expression, some (.rangedWrite 20 51 62
      (.rangedName 21 51 "onmessage") (.rangedName 22 61 "h")))]))]

def around : Node :=
  .ranged 0 .program 0 75 [(.body, some (.mk { rangedHead 1 .variableDeclaration 0 75 with sort := "var" }
    [(.declarations, some (.ranged 2 .variableDeclarator 4 74 [(.id, some (.rangedName 3 4 "z")),
      (.initial, some (.rangedWrite 4 6 74
        (.rangedMember 5 6 60 (.ranged 6 .functionExpression 6 50 [(.id, some (.rangedName 7 15 "F")),
          (.params, some (.rangedName 8 17 "e")), (.body, some (.ranged 9 .blockStatement 19 50
            [(.body, some (.ranged 10 .expressionStatement 20 49 [(.expression, some (.ranged 11 .callExpression 20 49
              [(.callee, some (.rangedName 12 20 "addEventListener")),
               (.arguments, some (.mk { rangedHead 13 .literal 37 46 with literal := some (.text "message") } [])),
               (.arguments, some (.rangedName 14 47 "F"))]))]))]))]) (.rangedName 15 51 "innerHTML"))
        (.rangedMember 16 61 74 (.rangedName 17 61 "location") (.rangedName 18 70 "hash"))))]))]))]

def outcome (root : Node) : Option (List Severity × Bool) :=
  match Model.ofProgram root "" false with
  | .ok m =>
    let F := Facts.ofModel m {}
    match analyseTaint.run F {}, emissions.run F {} with
    | .ok report _, .ok (handlers, es) _ => some (report.patterns.map (·.severity), es.any fun e =>
        e.severity == .high && handlers.any fun h => h.function.walk.any (·.ident == e.node.ident))
    | _, _ => none
  | .error _ => none

end Touching

/-- A sink right after a handler counts as inside it, and so does one that starts with it and goes
on after it. -/
theorem origin_check_raised_outside :
    (Touching.next.walk.all checkRange = true ∧ Touching.outcome Touching.next = some ([.high], false)) ∧
      Touching.around.walk.all checkRange = true ∧ Touching.outcome Touching.around = some ([.high], false) := by
  decide +kernel

end ScriptAudit
