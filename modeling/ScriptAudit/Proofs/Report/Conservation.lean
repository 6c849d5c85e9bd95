import ScriptAudit.Proofs.Report.Endpoints
import ScriptAudit.Proofs.Report.Findings

/-!
# Batch reports lose nothing

A report on results of the form that an analysis gives accounts for every finding and every request
once, and does not depend on the order of the files.
-/

namespace ScriptAudit

open BatchReport List ReportedRecord
namespace Json

def elementsAt (j : Json) (name : String) : List Json :=
  ((j.field? name).bind elements?).getD []

def textAt? (j : Json) (name : String) : Option String :=
  (j.field? name).bind text?

def textAt (j : Json) (name : String) : String :=
  (j.textAt? name).getD ""

def MayHaveText (j : Json) (name : String) : Prop :=
  ∀ x, j.field? name = some x → x = .null ∨ ∃ s, x = .text s

structure IsFinding (j : Json) : Prop where
  sort : ∃ s, j.field? "type" = some (.text s)
  sink : ∃ s, j.field? "sink" = some (.text s)
  excerpt : ∀ x, j.field? "excerpt" = some x → ∃ s, x = .text s
  severity : ∃ s, j.field? "severity" = some (.text s) ∧ Graded s

structure IsSiteParam (j : Json) : Prop where
  named : j.has "name"
  name : j.MayHaveText "name"

structure IsSite (j : Json) : Prop where
  method : j.MayHaveText "method"
  url : j.MayHaveText "url"
  kind : j.MayHaveText "type"
  params : ∀ x, j.field? "params" = some x → ∃ ps, x = .list ps ∧ ∀ p ∈ ps, p.IsSiteParam

structure IsRecord (j : Json) : Prop where
  sourceUrl : ∃ s, j.field? "sourceUrl" = some (.text s)
  findings : ∃ xs, j.field? "securitySinks" = some (.list xs) ∧ ∀ x ∈ xs, x.IsFinding
  sites : ∃ xs, j.field? "fetchCallSites" = some (.list xs) ∧ ∀ x ∈ xs, x.IsSite
  patterns : ∃ xs, j.field? "dangerousPatterns" = some (.list xs) ∧ ∀ x ∈ xs, ∃ s, x.field? "type" = some (.text s)

def IsResult (j : Json) : Prop :=
  ∀ x, j.field? "records" = some x → ∃ rs, x = .list rs ∧ ∀ r ∈ rs, r.IsRecord

end Json

def ReportedFinding.view (sourceUrl : String) (j : Json) : ReportedFinding :=
  { sort := j.textAt "type"
    sink := j.textAt "sink"
    excerpt := j.textAt "excerpt"
    severity := j.textAt "severity"
    sourceUrl := sourceUrl }

def ReportedParam.view (j : Json) : ReportedParam :=
  { name := j.textAt? "name", fields := j.table?.getD Table.empty }

def ReportedSite.view (sourceUrl : String) (j : Json) : ReportedSite :=
  { method := if j.textAt "method" = "" then "GET" else j.textAt "method"
    url := j.textAt "url"
    kind := j.textAt? "type"
    params := (j.elementsAt "params").map ReportedParam.view
    sourceUrl := sourceUrl }

def ReportedRecord.view (j : Json) : ReportedRecord :=
  { findings := (j.elementsAt "securitySinks").map (ReportedFinding.view (j.textAt "sourceUrl"))
    sites := (j.elementsAt "fetchCallSites").map (ReportedSite.view (j.textAt "sourceUrl"))
    patterns := (j.elementsAt "dangerousPatterns").map (·.textAt "type")
    unparsed := j.has "parseError"
    incomplete := (j.get "resolverErrors").isTruthy }

def recordsOf (results : List Json) : List ReportedRecord :=
  (results.flatMap (·.elementsAt "records")).map view

lemma mapM_eq_ok {α β : Type} {f : α → Except Fault β} {g : α → β} {xs : List α}
    (h : ∀ x ∈ xs, f x = .ok (g x)) : xs.mapM f = .ok (xs.map g) := by
  induction xs with
  | nil => rfl
  | cons x rest ih =>
    obtain ⟨hx, hrest⟩ := forall_mem_cons.mp h
    rw [mapM_cons, hx, ih hrest]
    rfl

namespace Json

variable {j : Json} {name s : String}

lemma textAt?_eq (h : j.field? name = some (.text s)) : j.textAt? name = some s := by
  rw [textAt?, h]
  rfl

lemma textAt_eq (h : j.field? name = some (.text s)) : j.textAt name = s := by
  rw [textAt, textAt?_eq h]
  rfl

lemma elementsAt_eq {xs : List Json} (h : j.field? name = some (.list xs)) : j.elementsAt name = xs := by
  rw [elementsAt, h]
  rfl

lemma need_eq {x : Json} (h : j.field? name = some x) : j.need name = .ok x := by
  cases j with
  | object fields =>
    have h : fields.lookup name = some x := h
    simp [need, h]
  | _ => cases h

lemma MayHaveText.optionalText (h : j.MayHaveText name) : (j.get name).optionalText = .ok (j.textAt? name) := by
  unfold get textAt?
  cases hfield : j.field? name with
  | none => rfl
  | some x => rcases h x hfield with rfl | ⟨s, rfl⟩ <;> rfl

lemma MayHaveText.someText (h : j.MayHaveText name) (fallback : String) :
    (j.get name).someText fallback = .ok (if j.textAt name = "" then fallback else j.textAt name) := by
  unfold get textAt textAt?
  cases hfield : j.field? name with
  | none => rfl
  | some x =>
    rcases h x hfield with rfl | ⟨s, rfl⟩
    · rfl
    · by_cases hs : s = "" <;> simp [Json.someText, orElse, isTruthy, asText, text?, hs]

lemma IsFinding.ofJson_eq (h : j.IsFinding) (url : String) : ReportedFinding.ofJson url j = .ok (.view url j) := by
  obtain ⟨sort, hsort⟩ := h.sort
  obtain ⟨sink, hsink⟩ := h.sink
  obtain ⟨severity, hsev, -⟩ := h.severity
  have hexcerpt : j.textOr "excerpt" "" = .ok (j.textAt "excerpt") := by
    unfold textOr textAt textAt?
    cases hfield : j.field? "excerpt" with
    | none => rfl
    | some x =>
      obtain ⟨s, rfl⟩ := h.excerpt x hfield
      rfl
  unfold ReportedFinding.ofJson ReportedFinding.view
  rw [need_eq hsort, need_eq hsink, need_eq hsev, hexcerpt, textAt_eq hsort, textAt_eq hsink, textAt_eq hsev]
  rfl

lemma IsSiteParam.ofJson_eq (h : j.IsSiteParam) : ReportedParam.ofJson j = .ok (.view j) := by
  obtain ⟨x, hx⟩ := Option.isSome_iff_exists.mp h.named
  have hname := h.name.optionalText
  have hget : j.get "name" = x := by rw [get, hx]; rfl
  have htable : j.asTable = .ok (j.table?.getD Table.empty) := by
    cases j with
    | object fields => rfl
    | _ => cases hx
  unfold ReportedParam.ofJson
  rw [need_eq hx]
  rw [hget] at hname
  simp only [bind, Except.bind, hname, htable]
  rfl

lemma IsSite.ofJson_eq (h : j.IsSite) (url : String) : ReportedSite.ofJson url j = .ok (.view url j) := by
  have hparams : ∃ ps, j.listAt "params" = .ok ps ∧ j.elementsAt "params" = ps ∧
      ∀ p ∈ ps, p.IsSiteParam := by
    unfold listAt elementsAt
    cases hfield : j.field? "params" with
    | none => exact ⟨[], rfl, rfl, by simp⟩
    | some x =>
      obtain ⟨ps, rfl, hps⟩ := h.params x hfield
      exact ⟨ps, rfl, rfl, hps⟩
  obtain ⟨ps, hlist, helems, hps⟩ := hparams
  have hread : ps.mapM ReportedParam.ofJson = .ok (ps.map .view) := mapM_eq_ok fun p hp => (hps p hp).ofJson_eq
  have hempty : (if j.textAt "url" = "" then "" else j.textAt "url") = j.textAt "url" := by split <;> simp_all
  unfold ReportedSite.ofJson ReportedSite.view
  rw [h.method.someText, h.url.someText, h.kind.optionalText, hlist, hempty, helems]
  simp only [bind, Except.bind, hread]
  rfl

lemma exists_sourceUrl_eq {url : String} (h : j.field? "sourceUrl" = some (.text url)) (parts : List Json) :
    ∃ read, sourceUrl j parts = .ok read ∧ (parts = [] ∨ read = url) := by
  unfold sourceUrl
  split
  next hempty => exact ⟨"", rfl, .inl (List.isEmpty_iff.mp hempty)⟩
  · rw [need_eq h]
    exact ⟨url, rfl, .inr rfl⟩

lemma IsRecord.ofJson_eq (h : j.IsRecord) : ofJson j = .ok (.view j) := by
  obtain ⟨url, hurl⟩ := h.sourceUrl
  obtain ⟨findings, hfinds, hallFindings⟩ := h.findings
  obtain ⟨sites, hsites, hallSites⟩ := h.sites
  obtain ⟨patterns, hpatterns, hallPatterns⟩ := h.patterns
  obtain ⟨read, hread, hneeded⟩ := exists_sourceUrl_eq hurl (findings ++ sites)
  have hreadFindings : findings.mapM (ReportedFinding.ofJson read) = .ok (findings.map (ReportedFinding.view url)) := by
    refine mapM_eq_ok fun f hf => ?_
    obtain hnone | rfl := hneeded
    · simp [(append_eq_nil_iff.mp hnone).1] at hf
    · exact (hallFindings f hf).ofJson_eq read
  have hreadSites : sites.mapM (ReportedSite.ofJson read) = .ok (sites.map (ReportedSite.view url)) := by
    refine mapM_eq_ok fun s hs => ?_
    obtain hnone | rfl := hneeded
    · simp [(append_eq_nil_iff.mp hnone).2] at hs
    · exact (hallSites s hs).ofJson_eq read
  have hreadPatterns : (patterns.mapM fun p => do (← p.need "type").asText) = .ok (patterns.map (·.textAt "type")) := by
    refine mapM_eq_ok fun p hp => ?_
    obtain ⟨s, hs⟩ := hallPatterns p hp
    rw [need_eq hs, textAt_eq hs]
    rfl
  unfold ofJson view
  rw [need_eq hfinds, need_eq hsites, need_eq hpatterns, elementsAt_eq hfinds,
    elementsAt_eq hsites, elementsAt_eq hpatterns, textAt_eq hurl]
  simp only [bind, Except.bind, asList, hread, hreadFindings, hreadSites] at hreadPatterns ⊢
  rw [hreadPatterns]
  rfl

end Json

variable {results results' : List Json}

lemma isRecord_of_mem_elementsAt (h : ∀ r ∈ results, r.IsResult) :
    ∀ j ∈ results.flatMap (·.elementsAt "records"), j.IsRecord := by
  intro j hj
  obtain ⟨r, hr, hj⟩ := mem_flatMap.mp hj
  cases hfield : r.field? "records" with
  | none => simp [Json.elementsAt, hfield] at hj
  | some x =>
    obtain ⟨rs, rfl, hrs⟩ := h r hr x hfield
    rw [Json.elementsAt_eq hfield] at hj
    exact hrs j hj

lemma flatMap_filter_has (results : List Json) : (results.filter (·.has "records")).flatMap (·.elementsAt "records") =
      results.flatMap (·.elementsAt "records") := by
  induction results with
  | nil => rfl
  | cons r rest ih =>
    rw [filter_cons, flatMap_cons]
    split
    · rw [flatMap_cons, ih]
    next hnone =>
      have hfield : r.field? "records" = none := by simpa [Json.has] using hnone
      rw [ih, Json.elementsAt, hfield]
      rfl

lemma ofResults_eq (h : ∀ r ∈ results, r.IsResult) : ofResults results =
    .ok (.ofRecords (results.filter (·.has "error")) (results.filter (·.has "records")) (recordsOf results)) := by
  have hlists : ((results.filter (·.has "records")).mapM fun r => do (← r.need "records").asList) =
      .ok ((results.filter (·.has "records")).map (·.elementsAt "records")) := by
    refine mapM_eq_ok fun r hr => ?_
    obtain ⟨hr, hhas⟩ := mem_filter.mp hr
    obtain ⟨x, hfield⟩ := Option.isSome_iff_exists.mp hhas
    obtain ⟨rs, rfl, -⟩ := h r hr x hfield
    rw [Json.need_eq hfield, Json.elementsAt_eq hfield]
    rfl
  have hrecs : (results.flatMap (·.elementsAt "records")).mapM ofJson = .ok (recordsOf results) :=
    mapM_eq_ok fun j hj => (isRecord_of_mem_elementsAt h j hj).ofJson_eq
  unfold ofResults
  dsimp only
  rw [hlists]
  change (List.mapM ofJson (List.flatten _) >>= _) = _
  rw [← flatMap_def, flatMap_filter_has, hrecs]
  rfl

/-- A report has every finding and every request once, and it makes nothing up. -/
structure BatchReport.Accounts (report : BatchReport) (records : List ReportedRecord) : Prop where
  counts : ∀ u ∈ report.unique, u.count = (records.flatMap (·.findings)).countP (·.fingerprint == u.fingerprint)
  typeCounts : ∀ sort, report.statistics.findingTypes.getD sort 0 =
    (records.flatMap (·.findings)).countP (·.sort == sort)
  severityCounts : ∀ severity, report.statistics.severities.getD severity 0 =
    (records.flatMap (·.findings)).countP (·.severity == severity)
  types : total report.statistics.findingTypes.values = report.statistics.findings
  severities : total report.statistics.severities.values = report.statistics.findings
  occurrences : total (report.unique.map (·.count)) = report.statistics.findings
  endpoint : ∀ s ∈ records.flatMap (·.sites), ∃! e, e ∈ report.endpoints ∧ e.key = s.key
  sorted : report.endpoints.Pairwise Endpoint.Before
  gathers : ∀ e ∈ report.endpoints, e.Gathers (records.flatMap (·.sites))

lemma accounts_ofRecords (failed files : List Json) (records : List ReportedRecord) :
    (ofRecords failed files records).Accounts records where
  counts _ hu := count_of_mem_uniqueFindings hu
  typeCounts sort := (getD_countEach sort).trans countP_map
  severityCounts severity := (getD_countEach severity).trans countP_map
  types := (total_countEach _).trans (length_map _)
  severities := (total_countEach _).trans (length_map _)
  occurrences := total_uniqueFindings _
  endpoint _ hs := exists_unique_endpoint hs
  sorted := pairwise_endpointsOf
  gathers e he := by
    replace he : e ∈ endpointsOf _ := he
    rw [endpointsOf_eq] at he
    obtain ⟨k, hk, rfl⟩ := mem_map.mp he
    exact gathers_endpointAt (mem_sortedKeys.mp hk)

/-- Statistics with the same numbers. -/
structure Statistics.Same (s s' : Statistics) : Prop where
  records : s.records = s'.records
  callSites : s.callSites = s'.callSites
  findings : s.findings = s'.findings
  findingTypes : ∀ name, s.findingTypes.get? name = s'.findingTypes.get? name
  severities : ∀ name, s.severities.get? name = s'.severities.get? name
  patternTypes : ∀ name, s.patternTypes.get? name = s'.patternTypes.get? name
  unparsed : s.unparsed = s'.unparsed
  incomplete : s.incomplete = s'.incomplete

lemma statistics_same {records records' : List ReportedRecord} (h : records.Perm records') :
    (Statistics.ofRecords records).Same (.ofRecords records') := by
  have hfinds := h.flatMap_right (·.findings)
  have hsites : total (records.map (·.sites.length)) = total (records'.map (·.sites.length)) :=
    total_eq_of_perm (h.map _)
  exact
    { records := h.length_eq
      callSites := hsites
      findings := hfinds.length_eq
      findingTypes := get?_countEach_of_perm (hfinds.map _)
      severities := get?_countEach_of_perm (hfinds.map _)
      patternTypes := get?_countEach_of_perm (h.flatMap_right _)
      unparsed := h.countP_eq _
      incomplete := h.countP_eq _ }

/-- Reports that say the same, in whatever order. -/
structure BatchReport.Same (r r' : BatchReport) : Prop where
  statistics : r.statistics.Same r'.statistics
  endpoints : List.Forall₂ Endpoint.Same r.endpoints r'.endpoints
  unique : (r.unique.map UniqueFinding.summary).Perm (r'.unique.map UniqueFinding.summary)

lemma graded_of_isResult (h : ∀ r ∈ results, r.IsResult) :
    ∀ f ∈ (recordsOf results).flatMap (·.findings), Graded f.severity := by
  intro f hf
  obtain ⟨record, hrec, hf⟩ := mem_flatMap.mp hf
  obtain ⟨j, hj, rfl⟩ := mem_map.mp hrec
  obtain ⟨x, hx, rfl⟩ := mem_map.mp hf
  obtain ⟨findings, hfinds, hall⟩ := (isRecord_of_mem_elementsAt h j hj).findings
  rw [Json.elementsAt_eq hfinds] at hx
  obtain ⟨s, hs, hgraded⟩ := (hall x hx).severity
  have hsev : (ReportedFinding.view (j.textAt "sourceUrl") x).severity = s := Json.textAt_eq hs
  rw [hsev]
  exact hgraded

/-- Results of the form that an analysis gives make a report that counts every finding once by type,
by severity and by what it says, and has every request at one endpoint. In whatever order the
results come, it says the same. -/
theorem BatchReport.conserved (h : ∀ r ∈ results, r.IsResult) :
    ∃ report, ofResults results = .ok report ∧
      report.statistics.findings =
        ((results.flatMap (·.elementsAt "records")).flatMap (·.elementsAt "securitySinks")).length ∧
      report.Accounts (recordsOf results) ∧
      ∀ results', results.Perm results' → ∃ report', ofResults results' = .ok report' ∧
        report.Same report' ∧
        (Uncollided ((recordsOf results).flatMap (·.findings)) → report.unique.Perm report'.unique) := by
  refine ⟨_, ofResults_eq h, ?_, accounts_ofRecords _ _ _, fun results' hperm => ?_⟩
  · simp [ofRecords, Statistics.ofRecords, recordsOf, flatMap_map, length_flatMap, view]
  have h' : ∀ r ∈ results', r.IsResult := fun r hr => h r (hperm.mem_iff.mpr hr)
  have hrecs : (recordsOf results).Perm (recordsOf results') := (hperm.flatMap_right _).map _
  have hfinds := hrecs.flatMap_right (·.findings)
  have hgraded := graded_of_isResult h
  exact ⟨_, ofResults_eq h', ⟨statistics_same hrecs, endpointsOf_same (hrecs.flatMap_right _),
    summary_perm hfinds hgraded⟩, uniqueFindings_perm_of_uncollided hfinds hgraded⟩

namespace TwoFiles

def finding (severity : String) : Json :=
  .object [("type", .text "xss"), ("sink", .text "innerHTML"), ("severity", .text severity)]

def site : Json :=
  .object [("url", .text "/a"), ("type", .null), ("params", .list [.object [("name", .text "q")]])]

def result (file severity : String) : Json :=
  .object [("file", .text file), ("records", .list [.object [
    ("sourceUrl", .text file), ("securitySinks", .list [finding severity]),
    ("fetchCallSites", .list [site]), ("dangerousPatterns", .list [])]])]

def given : List Json :=
  [result "a.js" "low", .object [("file", .text "b.js"), ("error", .text "unreadable")], result "c.js" "high"]

lemma isFinding {severity : String} (h : Graded severity) : (finding severity).IsFinding where
  sort := ⟨_, rfl⟩
  sink := ⟨_, rfl⟩
  excerpt _ hx := by cases hx
  severity := ⟨_, rfl, h⟩

lemma isSite : site.IsSite where
  method _ hx := by cases hx
  url _ hx := by cases hx; exact .inr ⟨_, rfl⟩
  kind _ hx := by cases hx; exact .inl rfl
  params _ hx := by
    cases hx
    refine ⟨_, rfl, forall_mem_singleton.mpr ⟨rfl, fun _ hx => ?_⟩⟩
    cases hx
    exact .inr ⟨_, rfl⟩

lemma isResult {file severity : String} (h : Graded severity) : (result file severity).IsResult := by
  intro x hx
  cases hx
  refine ⟨_, rfl, forall_mem_singleton.mpr ?_⟩
  exact
    { sourceUrl := ⟨_, rfl⟩
      findings := ⟨_, rfl, forall_mem_singleton.mpr (isFinding h)⟩
      sites := ⟨_, rfl, forall_mem_singleton.mpr isSite⟩
      patterns := ⟨_, rfl, forall_mem_nil _⟩ }

lemma isResult_of_mem : ∀ r ∈ given, r.IsResult := by
  refine forall_mem_cons.mpr ⟨isResult (.inr (.inr rfl)), forall_mem_cons.mpr ⟨?_, ?_⟩⟩
  · intro x hx
    cases hx
  · exact forall_mem_singleton.mpr (isResult (.inl rfl))

end TwoFiles

/-- Two files with the same finding and the same request, in both orders. -/
theorem BatchReport.conserved_two_files :
    (∀ r ∈ TwoFiles.given, r.IsResult) ∧ ∃ report report', ofResults TwoFiles.given = .ok report ∧
      ofResults TwoFiles.given.reverse = .ok report' ∧ report.statistics.findings = 2 ∧
      report.Accounts (recordsOf TwoFiles.given) ∧ report.Same report' := by
  obtain ⟨report, hreport, hfinds, haccounts, horder⟩ := conserved TwoFiles.isResult_of_mem
  obtain ⟨report', hreport', hsame, -⟩ := horder _ (reverse_perm _).symm
  exact ⟨TwoFiles.isResult_of_mem, report, report', hreport, hreport', hfinds, haccounts, hsame⟩

end ScriptAudit
