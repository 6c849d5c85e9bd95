import Mathlib.Data.List.Forall2
import ScriptAudit.Proofs.Report.Tallies

/-!
# Endpoints of a report

The requests that go to one address with one method make one endpoint, with their kinds, names of
parameters and files.
-/

namespace ScriptAudit

open List Table

variable {sites sites' : List ReportedSite} {k : String × String}

def ReportedSite.key (s : ReportedSite) : String × String :=
  (s.url, s.method)

def Endpoint.key (e : Endpoint) : String × String :=
  (e.url, e.method)

def endpointAt (sites : List ReportedSite) (k : String × String) : Endpoint :=
  let group := sites.filter (·.key == k)
  { method := k.2
    url := k.1
    kinds := addAllNew [] (group.map (·.kind))
    params := (group.flatMap (·.params)).foldl addNewParam []
    sourceFiles := addAllNew [] (group.map (·.sourceUrl)) }

lemma foldl_absorb (e : Endpoint) (sites : List ReportedSite) : sites.foldl Endpoint.absorb e = { e with
      kinds := addAllNew e.kinds (sites.map (·.kind))
      params := (sites.flatMap (·.params)).foldl addNewParam e.params
      sourceFiles := addAllNew e.sourceFiles (sites.map (·.sourceUrl)) } := by
  induction sites generalizing e with
  | nil => rfl
  | cons s rest ih =>
    rw [foldl_cons, ih, flatMap_cons, foldl_append]
    rfl

def reached (s : ReportedSite) : Option Endpoint → Endpoint
  | some e => e.absorb s
  | none => .ofSite s

lemma groupSites_eq (sites : List ReportedSite) : groupSites sites = filled ReportedSite.key reached sites := rfl

lemma foldl_reached (e : Endpoint) (sites : List ReportedSite) :
    sites.foldl (fun o s => some (reached s o)) (some e) = some (sites.foldl Endpoint.absorb e) := by
  induction sites generalizing e with
  | nil => rfl
  | cons s rest ih => rw [foldl_cons, reached, ih, foldl_cons]

def sortedKeys (sites : List ReportedSite) : List (String × String) :=
  (addAllNew [] (sites.map (·.key))).mergeSort pairLe

lemma entries_groupSites : (groupSites sites).entries =
    (addAllNew [] (sites.map (·.key))).map fun k => (k, endpointAt sites k) := by
  rw [groupSites_eq, entries_eq_map nodup_keys_filled, keys_filled]
  intro k e hget
  rw [get?_filled] at hget
  cases hgroup : sites.filter (·.key == k) with
  | nil => simp [hgroup] at hget
  | cons s rest =>
    have hkey : s.key = k := by
      have hmem : s ∈ sites.filter (·.key == k) := by rw [hgroup]; exact mem_cons_self
      exact beq_iff_eq.mp (mem_filter.mp hmem).2
    have hofSite : reached s none = Endpoint.absorb ⟨k.2, k.1, [], [], []⟩ s := by rw [← hkey]; rfl
    rw [hgroup, foldl_cons, hofSite, foldl_reached, ← foldl_cons, foldl_absorb] at hget
    rw [endpointAt, hgroup]
    exact (Option.some.inj hget).symm

lemma endpointsOf_eq : endpointsOf sites = (sortedKeys sites).map (endpointAt sites) := by
  have hsorted : (sortedKeys sites).map (fun k => (k, endpointAt sites k)) =
      ((addAllNew [] (sites.map (·.key))).map fun k => (k, endpointAt sites k)).mergeSort fun a b => pairLe a.1 b.1 :=
    map_mergeSort fun _ _ _ _ => rfl
  unfold endpointsOf
  rw [entries_groupSites, ← hsorted, map_map]
  rfl

@[simp] lemma key_endpointAt : (endpointAt sites k).key = k := rfl

def Endpoint.Before (e e' : Endpoint) : Prop :=
  e.url < e'.url ∨ e.url = e'.url ∧ e.method < e'.method

lemma pairLe_iff {a b : String × String} : pairLe a b ↔ a.1 < b.1 ∨ a.1 = b.1 ∧ a.2 ≤ b.2 := by
  simp [pairLe]

lemma pairLe_trans (a b c : String × String) (hab : pairLe a b) (hbc : pairLe b c) : pairLe a c := by
  rw [pairLe_iff] at *
  rcases hab with hab | ⟨hab, hab'⟩
  · rcases hbc with hbc | ⟨hbc, -⟩
    · exact .inl (String.lt_trans hab hbc)
    · exact .inl (hbc ▸ hab)
  · rcases hbc with hbc | ⟨hbc, hbc'⟩
    · exact .inl (hab ▸ hbc)
    · exact .inr ⟨hab.trans hbc, String.le_trans hab' hbc'⟩

lemma lt_or_eq_or_lt (a b : String) : a < b ∨ a = b ∨ b < a := by
  by_cases hab : a < b
  · exact .inl hab
  · by_cases hba : b < a
    · exact .inr (.inr hba)
    · exact .inr (.inl (String.le_antisymm (String.not_lt.mp hba) (String.not_lt.mp hab)))

lemma pairLe_total (a b : String × String) : pairLe a b || pairLe b a := by
  rw [Bool.or_eq_true, pairLe_iff, pairLe_iff]
  rcases lt_or_eq_or_lt a.1 b.1 with h | h | h
  · exact .inl (.inl h)
  · rcases String.le_total a.2 b.2 with h' | h'
    · exact .inl (.inr ⟨h, h'⟩)
    · exact .inr (.inr ⟨h.symm, h'⟩)
  · exact .inr (.inl h)

lemma pairLe_antisymm (a b : String × String) (hab : pairLe a b) (hba : pairLe b a) : a = b := by
  rw [pairLe_iff] at *
  rcases hab with hab | ⟨heq, hab⟩
  · rcases hba with hba | ⟨heq, -⟩
    · exact absurd (String.lt_trans hab hba) (String.lt_irrefl _)
    · exact absurd (heq ▸ hab) (String.lt_irrefl _)
  · rcases hba with hba | ⟨-, hba⟩
    · exact absurd (heq ▸ hba) (String.lt_irrefl _)
    · exact Prod.ext heq (String.le_antisymm hab hba)

lemma mem_sortedKeys : k ∈ sortedKeys sites ↔ ∃ s ∈ sites, s.key = k := by
  simp [sortedKeys, mem_addAllNew]

lemma pairwise_endpointsOf : (endpointsOf sites).Pairwise Endpoint.Before := by
  have hsorted : (sortedKeys sites).Pairwise fun a b => pairLe a b :=
    pairwise_mergeSort pairLe_trans pairLe_total _
  have hboth := hsorted.and ((mergeSort_perm _ _).nodup_iff.mpr (nodup_addAllNew nodup_nil))
  rw [endpointsOf_eq, pairwise_map]
  refine hboth.imp fun {a b} h => ?_
  rcases pairLe_iff.mp h.1 with hlt | ⟨heq, hle⟩
  · exact .inl hlt
  · refine .inr ⟨heq, ?_⟩
    rcases lt_or_eq_or_lt a.2 b.2 with hlt | heq' | hgt
    · exact hlt
    · exact absurd (Prod.ext heq heq') h.2
    · exact absurd hgt (String.not_lt.mpr hle)

lemma names_foldl_addNewParam (ps qs : List ReportedParam) :
    (qs.foldl addNewParam ps).map (·.name) = addAllNew (ps.map (·.name)) (qs.map (·.name)) := by
  induction qs generalizing ps with
  | nil => rfl
  | cons q rest ih =>
    have hone : (addNewParam ps q).map (·.name) = addNew (ps.map (·.name)) q.name := by
      have hcont : (ps.map (·.name)).contains q.name = ps.any (·.name == q.name) := by
        rw [Bool.eq_iff_iff]
        simp
      unfold addNewParam addNew
      rw [hcont]
      split <;> simp
    rw [foldl_cons, ih, hone, map_cons, addAllNew, addAllNew, foldl_cons]

/-- A list holds the names that some elements of a list have, each once. -/
structure HoldsEach {α β : Type} (names : List β) (xs : List α) (named : α → β → Prop) : Prop where
  nodup : names.Nodup
  mem_iff : ∀ name, name ∈ names ↔ ∃ x ∈ xs, named x name

/-- An endpoint has exactly what its requests have. -/
structure Endpoint.Gathers (e : Endpoint) (sites : List ReportedSite) : Prop where
  inhabited : ∃ s ∈ sites, s.key = e.key
  sourceFiles : HoldsEach e.sourceFiles sites fun s file => s.key = e.key ∧ s.sourceUrl = file
  kinds : HoldsEach e.kinds sites fun s kind => s.key = e.key ∧ s.kind = kind
  names : HoldsEach (e.params.map (·.name)) sites fun s name => s.key = e.key ∧ ∃ p ∈ s.params, p.name = name

lemma holdsEach_addAllNew {α β : Type} [BEq β] [LawfulBEq β] {names : List β} {xs : List α} {named : α → β → Prop}
    (h : ∀ name, name ∈ names ↔ ∃ x ∈ xs, named x name) : HoldsEach (addAllNew [] names) xs named :=
  ⟨nodup_addAllNew nodup_nil, fun name => by simp [mem_addAllNew, h]⟩

lemma gathers_endpointAt (h : ∃ s ∈ sites, s.key = k) : (endpointAt sites k).Gathers sites where
  inhabited := h
  sourceFiles := holdsEach_addAllNew fun file => by simp [and_assoc]
  kinds := holdsEach_addAllNew fun kind => by simp [and_assoc]
  names := by
    have hnames : (endpointAt sites k).params.map (·.name) =
        addAllNew [] (((sites.filter (·.key == k)).flatMap (·.params)).map (·.name)) :=
      names_foldl_addNewParam [] _
    rw [hnames]
    refine holdsEach_addAllNew fun name => ?_
    simp only [mem_map, mem_flatMap, mem_filter, beq_iff_eq, key_endpointAt]
    constructor
    · rintro ⟨p, ⟨s, ⟨hs, hkey⟩, hp⟩, rfl⟩
      exact ⟨s, hs, hkey, p, hp, rfl⟩
    · rintro ⟨s, hs, hkey, p, hp, rfl⟩
      exact ⟨p, ⟨s, ⟨hs, hkey⟩, hp⟩, rfl⟩

lemma exists_unique_endpoint {s : ReportedSite} (h : s ∈ sites) : ∃! e, e ∈ endpointsOf sites ∧ e.key = s.key := by
  have hkey : s.key ∈ sortedKeys sites := mem_sortedKeys.mpr ⟨s, h, rfl⟩
  rw [endpointsOf_eq]
  refine ⟨endpointAt sites s.key, ⟨mem_map_of_mem hkey, rfl⟩, ?_⟩
  rintro e ⟨he, hsame⟩
  obtain ⟨k, -, rfl⟩ := mem_map.mp he
  rw [key_endpointAt] at hsame
  rw [hsame]

/-- Endpoints of one key with the same kinds, names of parameters and files. -/
structure Endpoint.Same (e e' : Endpoint) : Prop where
  key : e.key = e'.key
  kinds : ∀ kind, kind ∈ e.kinds ↔ kind ∈ e'.kinds
  names : ∀ name, name ∈ e.params.map (·.name) ↔ name ∈ e'.params.map (·.name)
  sourceFiles : ∀ file, file ∈ e.sourceFiles ↔ file ∈ e'.sourceFiles

lemma Endpoint.Gathers.same {e e' : Endpoint} (h : e.Gathers sites) (h' : e'.Gathers sites')
    (hkey : e.key = e'.key) (hperm : sites.Perm sites') : e.Same e' where
  key := hkey
  kinds kind := by rw [h.kinds.mem_iff, h'.kinds.mem_iff, hkey]; simp [hperm.mem_iff]
  names name := by rw [h.names.mem_iff, h'.names.mem_iff, hkey]; simp only [hperm.mem_iff]
  sourceFiles file := by rw [h.sourceFiles.mem_iff, h'.sourceFiles.mem_iff, hkey]; simp [hperm.mem_iff]

lemma endpointsOf_same (h : sites.Perm sites') :
    List.Forall₂ Endpoint.Same (endpointsOf sites) (endpointsOf sites') := by
  have keys : sortedKeys sites = sortedKeys sites' :=
    mergeSort_eq_of_perm (addAllNew_perm (h.map _)) pairLe_trans pairLe_total pairLe_antisymm
  rw [endpointsOf_eq, endpointsOf_eq, keys, forall₂_map_left_iff, forall₂_map_right_iff, forall₂_same]
  intro k hk
  have hk' : ∃ s ∈ sites', s.key = k := mem_sortedKeys.mp hk
  have hk : ∃ s ∈ sites, s.key = k := by simpa only [h.mem_iff] using hk'
  exact (gathers_endpointAt hk).same (gathers_endpointAt hk') rfl h

end ScriptAudit
