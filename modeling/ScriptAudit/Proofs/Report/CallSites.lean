import Mathlib.Data.List.Forall2
import ScriptAudit.Proofs.Report.Joining
import ScriptAudit.Proofs.Request.Found
import ScriptAudit.Proofs.Scope.WellFormed

/-!
# No request is lost

The call sites of a report are named by the methods and addresses of the records, each once and in
order, and every sink that was recognised has a record among them.
-/

namespace ScriptAudit

open List Json

def SiteRecord.names (s : SiteRecord) : Json × Json :=
  (s.get "method", s.get "url")

lemma SiteRecord.names_extended (s : SiteRecord) (later : List SiteRecord) :
    (s.extended later).names = s.names := by
  rw [names, names, get_extended_of_ne (by decide), get_extended_of_ne (by decide)]

lemma exists_of_mem_groupsBy {α β : Type} [BEq β] (key : α → β) (seen : List β) {xs : List α} {x : α}
    (hx : x ∈ xs) (heq : ∀ y ∈ xs, key x == key y → key y = key x) (hseen : ¬ seen.contains (key x)) :
    ∃ g ∈ groupsBy key seen xs, key g.1 = key x := by
  induction xs generalizing seen with
  | nil => cases hx
  | cons y rest ih =>
    obtain ⟨hy, hrest⟩ := forall_mem_cons.mp heq
    rw [groupsBy]
    rcases mem_cons.mp hx with rfl | hx
    · exact ⟨_, by rw [if_neg hseen]; exact mem_cons_self, rfl⟩
    · by_cases hxy : key x == key y
      · have hfresh : ¬ seen.contains (key y) := by rwa [hy hxy]
        exact ⟨_, by rw [if_neg hfresh]; exact mem_cons_self, hy hxy⟩
      · split
        · exact ih _ hx hrest hseen
        · have hlater : ¬ (key y :: seen).contains (key x) := by
            rw [contains_cons, Bool.or_eq_true, not_or]
            exact ⟨hxy, hseen⟩
          obtain ⟨g, hg, hkey⟩ := ih _ hx hrest hlater
          exact ⟨g, mem_cons_of_mem _ hg, hkey⟩

namespace RequestRecord

variable {r : RequestRecord}

def names (r : RequestRecord) : Json × Json :=
  (.text r.method, .text r.url)

lemma beq_names_iff {r' : RequestRecord} : (r.names == r'.names) = true ↔ r.names = r'.names := by
  simp [names, BEq.beq, same]

lemma key_toSite (h : r.method ≠ "") : r.toSite.key = r.names := by
  have hurl : (text r.url).orElse (.text "") = .text r.url := by
    by_cases hempty : r.url = ""
    · simp [hempty, orElse]
    · simp [hempty, orElse, isTruthy]
  have hmethod : (text r.method).orElse (.text "GET") = .text r.method := by
    simp [h, orElse, isTruthy]
  exact Prod.ext hmethod hurl

end RequestRecord

open Engine SiteRecord

/-- A search through the nodes, which finds the session `s` and leaves `t`, recognises the sinks in
`matched` and makes these records for them. -/
inductive Extracts (F : Facts) : Session → List Node → List (RequestSink × List RequestRecord) → Session → Prop
  | nil (s : Session) : Extracts F s [] [] s
  | pass {n} {nodes : List Node} {matched : List (RequestSink × List RequestRecord)} {s t u : Session} :
      (requestSink? n).run F s = .ok none t → Extracts F t nodes matched u → Extracts F s (n :: nodes) matched u
  | sink {n} {nodes : List Node} {matched : List (RequestSink × List RequestRecord)} {sink records}
    {s t u v : Session} :
      (requestSink? n).run F s = .ok (some sink) t → (sinkRecords sink).run F t = .ok records u →
      Extracts F u nodes matched v → Extracts F s (n :: nodes) ((sink, records) :: matched) v

variable {F : Facts} {s t : Session} {nodes : List Node}
  {matched : List (RequestSink × List RequestRecord)}

lemma Extracts.unique {others : List (RequestSink × List RequestRecord)} {u : Session}
    (h : Extracts F s nodes matched t) (h' : Extracts F s nodes others u) : others = matched ∧ u = t := by
  induction h generalizing others u with
  | nil =>
    cases h'
    exact ⟨rfl, rfl⟩
  | pass hfound _ ih =>
    cases h' with
    | pass hfound' hrest' =>
      rw [hfound] at hfound'
      cases hfound'
      exact ih hrest'
    | sink hfound' _ _ =>
      rw [hfound] at hfound'
      cases hfound'
  | sink hfound hrecs _ ih =>
    cases h' with
    | pass hfound' _ =>
      rw [hfound] at hfound'
      cases hfound'
    | sink hfound' hrecords' hrest' =>
      rw [hfound] at hfound'
      cases hfound'
      rw [hrecs] at hrecords'
      cases hrecords'
      obtain ⟨rfl, rfl⟩ := ih hrest'
      exact ⟨rfl, rfl⟩

lemma Extracts.ofSink (h : Extracts F s nodes matched t) : ∀ e ∈ matched, e.2 ≠ [] ∧ ∀ r ∈ e.2, r.OfSink e.1 := by
  induction h with
  | nil => simp
  | pass _ _ ih => exact ih
  | sink _ hrecs _ ih => exact forall_mem_cons.mpr ⟨ensures_sinkRecords _ F _ _ _ hrecs, ih⟩

lemma extracts_of_run_mapM {lots : List (List RequestRecord)} (hrun : (nodes.mapM recordsAt).run F s = .ok lots t) :
    ∃ matched, Extracts F s nodes matched t ∧ lots.flatten = matched.flatMap (·.2) := by
  induction nodes generalizing s lots with
  | nil =>
    cases hrun
    exact ⟨[], .nil _, rfl⟩
  | cons n rest ih =>
    obtain ⟨records, later, u, rfl, hrecs, hlater⟩ := run_mapM_cons_ok hrun
    obtain ⟨matched, hmatched, hflat⟩ := ih hlater
    obtain ⟨found, v, hfound, hrecs⟩ := run_bind_ok hrecs
    cases found with
    | none =>
      cases hrecs
      exact ⟨matched, .pass hfound hmatched, by simpa using hflat⟩
    | some sink => exact ⟨(sink, records) :: matched, .sink hfound hrecs hmatched, by simp [hflat]⟩

lemma extracts_of_run_allRecords {records : List RequestRecord} (hrun : allRecords.run F s = .ok records t) :
    ∃ matched, Extracts F s F.model.nodes matched t ∧ records = matched.flatMap (·.2) := by
  obtain ⟨m, u, hm, hrun⟩ := run_bind_ok hrun
  cases hm
  obtain ⟨lots, v, hlots, hrun⟩ := run_bind_ok hrun
  cases hrun
  exact extracts_of_run_mapM hlots

lemma callSites_of_recordOfFacts {url : String} {record : AnalysisRecord}
    (h : recordOfFacts F url = .ok record) :
    ∃ matched t, Extracts F {} F.model.nodes matched t ∧ record.callSites =
      (groupsBy SiteRecord.key [] ((matched.flatMap (·.2)).map RequestRecord.toSite)).map
        fun g => g.1.extended g.2 := by
  unfold recordOfFacts at h
  split at h
  · cases h
  next records taint u hrun =>
    obtain ⟨found, t, hfound, hrun⟩ := run_bind_ok hrun
    obtain ⟨reported, v, -, hpair⟩ := run_bind_ok hrun
    cases hpair
    obtain ⟨matched, hmatched, rfl⟩ := extracts_of_run_allRecords hfound
    rw [mergeAll_toSite] at h
    cases h
    exact ⟨matched, t, hmatched, rfl⟩

lemma mem_names_of_recordOfFacts {url : String} {record : AnalysisRecord} (h : recordOfFacts F url = .ok record) :
    (∃ matched t, Extracts F {} F.model.nodes matched t ∧ ∀ names, names ∈ record.callSites.map SiteRecord.names ↔
        ∃ e ∈ matched, ∃ r ∈ e.2, RequestRecord.names r = names) ∧
      (record.callSites.map names).Nodup := by
  obtain ⟨matched, t, hmatched, hsites⟩ := callSites_of_recordOfFacts h
  have hkey : ∀ r ∈ matched.flatMap (·.2), r.toSite.key = r.names := by
    intro r hr
    obtain ⟨e, he, hr⟩ := mem_flatMap.mp hr
    exact r.key_toSite (ne_empty_of_mem_httpMethods ((hmatched.ofSink e he).2 r hr).method)
  have hfirst : ∀ g ∈ groupsBy SiteRecord.key [] ((matched.flatMap (·.2)).map RequestRecord.toSite),
      ∃ r ∈ matched.flatMap (·.2), r.toSite = g.1 := fun g hg => mem_map.mp (mem_of_mem_groupsBy hg).1
  rw [hsites, map_map]
  simp only [Function.comp_def, names_extended]
  refine ⟨⟨matched, t, hmatched, fun names => ?_⟩, ?_⟩
  · rw [mem_map]
    constructor
    · rintro ⟨g, hg, rfl⟩
      obtain ⟨r, hr, hrg⟩ := hfirst g hg
      obtain ⟨e, he, hr⟩ := mem_flatMap.mp hr
      exact ⟨e, he, r, hr, hrg ▸ rfl⟩
    · rintro ⟨e, he, r, hr, rfl⟩
      have hr : r ∈ matched.flatMap (·.2) := mem_flatMap.mpr ⟨e, he, hr⟩
      obtain ⟨g, hg, hsame⟩ := exists_of_mem_groupsBy SiteRecord.key []
        (mem_map_of_mem (f := RequestRecord.toSite) hr) (forall_mem_map.mpr fun r' hr' hbeq => by
          rw [hkey r hr, hkey r' hr'] at *
          exact (RequestRecord.beq_names_iff.mp hbeq).symm) (by simp)
      obtain ⟨r', hr', hg'⟩ := hfirst g hg
      rw [← hg', hkey r' hr', hkey r hr] at hsame
      exact ⟨g, hg, hg' ▸ hsame⟩
  · refine pairwise_map.mpr (pairwise_groupsBy.imp_of_mem fun {g g'} hg hg' hne hsame => hne ?_)
    obtain ⟨r, hr, hrg⟩ := hfirst g hg
    obtain ⟨r', hr', hrg'⟩ := hfirst g' hg'
    rw [← hrg, ← hrg'] at hsame ⊢
    rw [hkey r hr, hkey r' hr']
    exact RequestRecord.beq_names_iff.mpr hsame.symm

/-- Every sink that is recognised has a record of its kind, and the method and address of each
record stand in the report; every call site of the report has those of a record of such a sink, and
no two have the same. -/
theorem requests_reported {attempts : ParseAttempts} {source url : String} {moduleFirst : Bool}
    {limits : Limits} {p : Parsed} {record : AnalysisRecord}
    (hparse : attempts.parse url moduleFirst = .ok p)
    (h : analyseScript attempts source url moduleFirst limits = .ok record) :
    ∃ m, Model.ofProgram p.root source (p.mode == .module) = .ok m ∧
      (∃ matched t, Extracts (Facts.ofModel m limits) {} m.nodes matched t) ∧
      (∀ matched t, Extracts (Facts.ofModel m limits) {} m.nodes matched t →
        (∀ sink records, (sink, records) ∈ matched → records ≠ [] ∧
          ∀ r ∈ records, r.kind = sink.kind ∧ ∃ site ∈ record.callSites, site.names = r.names) ∧
        ∀ site ∈ record.callSites, ∃ sink records, (sink, records) ∈ matched ∧
          ∃ r ∈ records, site.names = r.names) ∧
      record.callSites.Pairwise fun site other => site.names ≠ other.names := by
  simp only [analyseScript, hparse] at h
  cases hm : Model.ofProgram p.root source (p.mode == .module) with
  | error e => simp [hm, bind, Except.bind] at h
  | ok m =>
    simp only [hm, bind, Except.bind] at h
    obtain ⟨⟨matched, t, hmatched, hnames⟩, hnodup⟩ := mem_names_of_recordOfFacts h
    refine ⟨m, rfl, ⟨matched, t, hmatched⟩, fun others u hothers => ?_, pairwise_map.mp hnodup⟩
    obtain ⟨rfl, rfl⟩ := hmatched.unique hothers
    refine ⟨fun sink records hmem => ?_, fun site hsite => ?_⟩
    · obtain ⟨hsome, hall⟩ := hmatched.ofSink _ hmem
      refine ⟨hsome, fun r hr => ⟨(hall r hr).kind, ?_⟩⟩
      exact mem_map.mp ((hnames r.names).mpr ⟨_, hmem, r, hr, rfl⟩)
    · obtain ⟨⟨sink, records⟩, hmem, r, hr, hsite⟩ := (hnames site.names).mp (mem_map_of_mem hsite)
      exact ⟨sink, records, hmem, r, hr, hsite.symm⟩

namespace Repeated

def program : Node :=
  .script [.statement 1 (.call 2 (.identifier 3 "fetch") [.textLiteral 4 "/a"]),
    .statement 5 (.call 6 (.identifier 7 "fetch") [.textLiteral 8 "/a"]),
    .statement 9 (.call 10 (.identifier 11 "fetch") [.identifier 12 "x"])]

def attempts : ParseAttempts := ⟨.tree program [], .failure ""⟩

def check : Bool :=
  match analyseScript attempts "" "" false {} with
  | .ok record => record.callSites.length == 2
  | .error _ => false

end Repeated

/-- Two requests to one address make one call site, and one to an address that is not known makes
another. -/
theorem requests_reported_repeated :
    Repeated.attempts.parse "" false = .ok ⟨Repeated.program, .script, []⟩ ∧
      ∃ record, analyseScript Repeated.attempts "" "" false {} = .ok record ∧
        record.callSites.length = 2 ∧
        ∃ m matched t, Extracts (Facts.ofModel m {}) {} m.nodes matched t ∧
          ∀ site ∈ record.callSites, ∃ sink records, (sink, records) ∈ matched ∧
            ∃ r ∈ records, site.names = r.names := by
  have hparse : Repeated.attempts.parse "" false = .ok ⟨Repeated.program, .script, []⟩ := rfl
  have hcheck : Repeated.check = true := by decide +kernel
  unfold Repeated.check at hcheck
  split at hcheck
  next record hrec =>
    obtain ⟨m, -, ⟨matched, t, hmatched⟩, hall, -⟩ := requests_reported hparse hrec
    exact ⟨hparse, record, hrec, by simpa using hcheck, m, matched, t, hmatched, (hall matched t hmatched).2⟩
  · cases hcheck

end ScriptAudit
