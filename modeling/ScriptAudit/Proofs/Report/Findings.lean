import ScriptAudit.Proofs.Report.Tallies

/-!
# Findings that say the same

Findings with one fingerprint make one entry of a report.
-/

namespace ScriptAudit

open List UniqueFinding
variable {findings findings' group group' : List ReportedFinding}

def findingsOf (findings : List ReportedFinding) (print : String) : List ReportedFinding :=
  findings.filter (·.fingerprint == print)

def fingerprints (findings : List ReportedFinding) : List String :=
  addAllNew [] (findings.map (·.fingerprint))

def grown (f : ReportedFinding) : Option (List ReportedFinding) → List ReportedFinding
  | some group => group ++ [f]
  | none => [f]

lemma groupFindings_eq (findings : List ReportedFinding) :
    groupFindings findings = Table.filled ReportedFinding.fingerprint grown findings := by
  have hpush (t : Table String (List ReportedFinding)) (f : ReportedFinding) :
      t.push f.fingerprint f = t.alter f.fingerprint (grown f) := by
    unfold Table.push
    congr 1
    funext o
    cases o <;> rfl
  simp only [groupFindings, hpush]
  rfl

lemma foldl_grown (pre xs : List ReportedFinding) :
    xs.foldl (fun o x => some (grown x o)) (some pre) = some (pre ++ xs) := by
  induction xs generalizing pre with
  | nil => simp
  | cons x rest ih => rw [foldl_cons, grown, ih, append_assoc, singleton_append]

lemma entries_groupFindings : (groupFindings findings).entries =
    (fingerprints findings).map fun print => (print, findingsOf findings print) := by
  rw [groupFindings_eq, Table.entries_eq_map Table.nodup_keys_filled, Table.keys_filled]
  · rfl
  intro print group hget
  rw [Table.get?_filled] at hget
  change (findingsOf findings print).foldl _ _ = _ at hget
  cases hgroup : findingsOf findings print with
  | nil => simp [hgroup] at hget
  | cons f rest =>
    rw [hgroup, foldl_cons, grown, foldl_grown] at hget
    exact (Option.some.inj hget).symm

lemma uniqueFindings_perm : (uniqueFindings findings).Perm
    ((fingerprints findings).filterMap fun print =>
      ofGroup? print (findingsOf findings print)) := by
  unfold uniqueFindings
  rw [entries_groupFindings, filterMap_map]
  exact mergeSort_perm _ _

lemma count_of_mem_uniqueFindings {u : UniqueFinding} (h : u ∈ uniqueFindings findings) :
    u.count = findings.countP (·.fingerprint == u.fingerprint) := by
  obtain ⟨print, -, hu⟩ := mem_filterMap.mp (uniqueFindings_perm.mem_iff.mp h)
  rw [countP_eq_length_filter]
  change u.count = (findingsOf findings u.fingerprint).length
  cases hgroup : findingsOf findings print with
  | nil => simp [hgroup, ofGroup?] at hu
  | cons f rest =>
    rw [hgroup, ofGroup?] at hu
    cases hu
    rw [hgroup, length_cons]

lemma total_uniqueFindings (findings : List ReportedFinding) :
    total ((uniqueFindings findings).map (·.count)) = findings.length := by
  have hgroups (es : List (String × List ReportedFinding)) :
      total ((es.filterMap fun e => ofGroup? e.1 e.2).map (·.count)) = total (es.map (·.2.length)) := by
    induction es with
    | nil => rfl
    | cons e rest ih =>
      obtain ⟨print, group⟩ := e
      cases group with
      | nil => simpa [ofGroup?, total] using ih
      | cons f group =>
        obtain ⟨u, hu, hcount⟩ : ∃ u, ofGroup? print (f :: group) = some u ∧
            u.count = group.length + 1 := ⟨_, rfl, rfl⟩
        simp only [filterMap_cons, hu, map_cons, total, hcount, ih, length_cons]
  have htotal := Table.total_map_filled ReportedFinding.fingerprint grown findings List.length
    (fun _ => rfl) (fun _ _ => length_append)
  rw [← groupFindings_eq, Table.values, map_map] at htotal
  rw [← htotal]
  refine (total_eq_of_perm ((mergeSort_perm _ _).map _)).trans ?_
  exact hgroups _

def Graded (severity : String) : Prop :=
  severity = "high" ∨ severity = "medium" ∨ severity = "low"

lemma Graded.eq_of_rank_eq {s s' : String} (h : Graded s) (h' : Graded s')
    (hrank : severityRank s = severityRank s') : s = s' := by
  rcases h with rfl | rfl | rfl <;> rcases h' with rfl | rfl | rfl <;> simp_all [severityRank]

lemma heaviest_spec (first : String) (rest : List String) : heaviest first rest ∈ first :: rest ∧
      ∀ s ∈ first :: rest, severityRank s ≤ severityRank (heaviest first rest) := by
  induction rest generalizing first with
  | nil => simp [heaviest]
  | cons s rest ih =>
    have hstep : heaviest first (s :: rest) =
        heaviest (if severityRank first < severityRank s then s else first) rest := rfl
    rw [hstep]
    by_cases hlt : severityRank first < severityRank s
    · obtain ⟨hmem, hmax⟩ := ih s
      rw [if_pos hlt]
      refine ⟨mem_cons_of_mem _ hmem, forall_mem_cons.mpr ⟨?_, hmax⟩⟩
      exact Nat.le_trans (Nat.le_of_lt hlt) (hmax s mem_cons_self)
    · obtain ⟨hmem, hmax⟩ := ih first
      obtain ⟨hfirst, hrest⟩ := forall_mem_cons.mp hmax
      rw [if_neg hlt]
      refine ⟨?_, forall_mem_cons.mpr ⟨hfirst, forall_mem_cons.mpr ⟨?_, hrest⟩⟩⟩
      · rcases mem_cons.mp hmem with h | h
        · rw [h]
          exact mem_cons_self
        · exact mem_cons_of_mem _ (mem_cons_of_mem _ h)
      · exact Nat.le_trans (Nat.le_of_not_lt hlt) hfirst

lemma heaviest_eq_of_perm {first first' : String} {rest rest' : List String}
    (h : (first :: rest).Perm (first' :: rest')) (hgraded : ∀ s ∈ first :: rest, Graded s) :
    heaviest first rest = heaviest first' rest' := by
  obtain ⟨hmem, hmax⟩ := heaviest_spec first rest
  obtain ⟨hmem', hmax'⟩ := heaviest_spec first' rest'
  apply (hgraded _ hmem).eq_of_rank_eq (hgraded _ (h.mem_iff.mpr hmem'))
  exact Nat.le_antisymm (hmax' _ (h.mem_iff.mp hmem)) (hmax _ (h.mem_iff.mpr hmem'))

def UniqueFinding.summary (u : UniqueFinding) : String × String × Nat × List String :=
  (u.fingerprint, u.severity, u.count, u.exampleFiles)

def Uncollided (findings : List ReportedFinding) : Prop :=
  ∀ f ∈ findings, ∀ f' ∈ findings, f.fingerprint = f'.fingerprint →
    f.sort = f'.sort ∧ f.sink = f'.sink ∧ f.excerpt = f'.excerpt

lemma summary_ofGroup?_of_perm (print : String) (h : group.Perm group') (hgraded : ∀ f ∈ group, Graded f.severity) :
    (ofGroup? print group).map summary = (ofGroup? print group').map summary := by
  cases group with
  | nil => rw [h.nil_eq]
  | cons f rest =>
    cases group' with
    | nil => exact absurd h.eq_nil (cons_ne_nil f rest)
    | cons f' rest' =>
      have hsev := heaviest_eq_of_perm (h.map (·.severity)) (by simpa using hgraded)
      have hfiles := texts_mergeSort_eq_of_perm (distinct_perm (h.map (·.sourceUrl)))
      have hcount : rest.length = rest'.length := by simpa using h.length_eq
      simp only [ofGroup?, Option.map_some, summary, hcount, hfiles]
      rw [hsev]

lemma ofGroup?_eq_of_perm (print : String) (h : group.Perm group') (hgraded : ∀ f ∈ group, Graded f.severity)
    (hsame : ∀ f ∈ group, ∀ f' ∈ group, f.sort = f'.sort ∧ f.sink = f'.sink) :
    ofGroup? print group = ofGroup? print group' := by
  have hsummary := summary_ofGroup?_of_perm print h hgraded
  cases group with
  | nil => rw [h.nil_eq]
  | cons f rest =>
    cases group' with
    | nil => exact absurd h.eq_nil (cons_ne_nil f rest)
    | cons f' rest' =>
      obtain ⟨hsort, hsink⟩ := hsame f mem_cons_self f' (h.mem_iff.mpr mem_cons_self)
      simp only [ofGroup?, Option.map_some, summary, Option.some.injEq, Prod.mk.injEq, mk.injEq] at hsummary ⊢
      exact ⟨trivial, hsort, hsink, hsummary.2⟩

lemma uniqueFindings_map_perm {α : Type} (g : UniqueFinding → α) (h : findings.Perm findings')
    (hgroup : ∀ print, (ofGroup? print (findingsOf findings print)).map g =
      (ofGroup? print (findingsOf findings' print)).map g) :
    ((uniqueFindings findings).map g).Perm ((uniqueFindings findings').map g) := by
  have hprints : (fingerprints findings).Perm (fingerprints findings') := addAllNew_perm (h.map _)
  refine (uniqueFindings_perm.map g).trans (.trans ?_ (uniqueFindings_perm.map g).symm)
  rw [map_filterMap, map_filterMap]
  simp only [hgroup]
  exact hprints.filterMap _

lemma summary_perm (h : findings.Perm findings') (hgraded : ∀ f ∈ findings, Graded f.severity) :
    ((uniqueFindings findings).map summary).Perm ((uniqueFindings findings').map summary) := by
  refine uniqueFindings_map_perm _ h fun print => ?_
  exact summary_ofGroup?_of_perm print (h.filter _) fun f hf => hgraded f (mem_filter.mp hf).1

lemma uniqueFindings_perm_of_uncollided (h : findings.Perm findings') (hgraded : ∀ f ∈ findings, Graded f.severity)
    (huncollided : Uncollided findings) : (uniqueFindings findings).Perm (uniqueFindings findings') := by
  have hperm := uniqueFindings_map_perm id h fun print => congrArg _
    (ofGroup?_eq_of_perm print (h.filter _) (fun f hf => hgraded f (mem_filter.mp hf).1) ?_)
  · rwa [map_id, map_id] at hperm
  · intro f hf f' hf'
    obtain ⟨hmem, hprint⟩ := mem_filter.mp hf
    obtain ⟨hmem', hprint'⟩ := mem_filter.mp hf'
    obtain ⟨hsort, hsink, -⟩ := huncollided f hmem f' hmem' ((beq_iff_eq.mp hprint).trans (beq_iff_eq.mp hprint').symm)
    exact ⟨hsort, hsink⟩

end ScriptAudit
