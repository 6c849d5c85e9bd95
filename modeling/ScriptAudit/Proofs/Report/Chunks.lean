import ScriptAudit.Proofs.Report.Joining

/-!
# Joining call sites in chunks

Headers, parameters and all fields but the response type come out as if the records had been joined
at once.
-/

namespace ScriptAudit

open List Table Json
namespace SiteRecord

variable {s t u : SiteRecord} {later merged : List SiteRecord} {seen known : List (Json × Json)}

lemma fill_insertNew {table h : Table String Json} {k : String} {a : Json} :
    fill h (table.insertNew k a).entries = (fill h table.entries).insertNew k a := by
  rw [insertNew]
  split
  next hk =>
    have hfilled : (fill h table.entries).contains k := by
      rw [Table.contains, Table.get?] at hk
      rw [Table.contains, get?_fill, Option.isSome_or, hk, Bool.or_true]
    rw [insertNew, if_pos hfilled]
  · exact fill_append _ _ [_]

lemma fill_fill {table h : Table String Json} (es : List (String × Json)) :
    fill h (fill table es).entries = fill h (table.entries ++ es) := by
  induction es generalizing table with
  | nil => rw [append_nil]; rfl
  | cons e rest ih =>
    have hcons (t : Table String Json) : fill t (e :: rest) = fill (t.insertNew e.1 e.2) rest := rfl
    rw [hcons, ih, fill_append, fill_insertNew, fill_append, hcons]

def Typed (s : SiteRecord) : Prop :=
  s.get "responseType" = .null ∨ (s.get "responseType").isTruthy ∧ s.params.toList ≠ []

lemma params_extended_ne_nil : (s.extended later).params.toList ≠ [] ↔ ∃ t ∈ s :: later, t.params.toList ≠ [] := by
  rw [ne_eq, ← List.isEmpty_iff, extended, SiteParams.isEmpty_toList_withMore]
  by_cases hs : s.params.toList = [] <;> simp [hs]

lemma blocked_cons_iff : s.Blocked (t :: later) ↔ s.Blocked [t.extended later] := by
  rw [Blocked, Blocked, ← params_extended_ne_nil]
  simp

lemma find?_handedOn_extended (h : t.Typed) :
    (handedOn [t.extended later]).find? isTruthy = (handedOn (t :: later)).find? isTruthy := by
  by_cases hparams : (t.extended later).params.toList = []
  · have hnone : ∀ r ∈ t :: later, r.params.toList = [] := by
      intro r hr
      by_contra hne
      exact params_extended_ne_nil.mpr ⟨r, hr, hne⟩ hparams
    have hfilter : (t :: later).filter (!·.params.toList.isEmpty) = [] := by
      rw [filter_eq_nil_iff]
      intro r hr
      simp [hnone r hr]
    rw [handedOn, handedOn, hfilter]
    simp [hparams]
  · have hone : handedOn [t.extended later] = [settled (t.get "responseType") (handedOn later)] := by
      rw [← get_extended]
      simp [handedOn, hparams]
    rw [hone]
    rcases h with hnull | ⟨htruthy, hown⟩
    · have hrest : (handedOn (t :: later)).find? isTruthy = (handedOn later).find? isTruthy := by
        by_cases hown : t.params.toList = [] <;> simp [handedOn, hown, hnull, isTruthy]
      rw [hrest, hnull, settled]
      cases hfind : (handedOn later).find? isTruthy with
      | none => rfl
      | some j => simp [List.find?_some hfind]
    · have hsettled : settled (t.get "responseType") (handedOn later) = t.get "responseType" := by
        cases hget : t.get "responseType" <;> simp_all [settled, isTruthy]
      rw [hsettled]
      simp [handedOn, hown, htruthy]

lemma extended_cons (hs : s.Plain) (ht : t.Plain) (hlater : ∀ r ∈ later, r.Plain) (htyped : t.Typed) :
    s.extended (t :: later) = s.extended [t.extended later] := by
  have hfields : withType s.fields (handedOn (t :: later)) = withType s.fields (handedOn [t.extended later]) := by
    rw [withType, withType, find?_handedOn_extended htyped]
  have hheaders : fill s.headers ((t :: later).flatMap (·.headers.entries)) =
      fill s.headers ([t.extended later].flatMap (·.headers.entries)) := by
    rw [flatMap_cons, flatMap_singleton]
    exact (fill_fill _).symm
  have hparams : s.params.withMore ((t :: later).flatMap (·.params.toList)) =
      s.params.withMore ([t.extended later].flatMap (·.params.toList)) := by
    rw [flatMap_cons, flatMap_singleton]
    exact (SiteParams.withMore_toList_withMore hs.params ht.params (plain_flatMap hlater)).symm
  rw [extended, hfields, hheaders, hparams]
  rfl

lemma joinGroup_group (hs : s.Plain) (ht : t.Plain) (hlater : ∀ r ∈ later, r.Plain) (htyped : t.Typed) :
    joinGroup (s, t :: later) = joinGroup (s, [t.extended later]) := by
  have hall : ∀ r ∈ t :: later, r.Plain := forall_mem_cons.mpr ⟨ht, hlater⟩
  have hone : ∀ r ∈ [t.extended later], r.Plain := forall_mem_singleton.mpr (plain_extended ht hlater)
  by_cases hblock : s.Blocked (t :: later)
  · rw [joinGroup_of_blocked hs hall hblock, joinGroup_of_blocked hs hone (blocked_cons_iff.mp hblock)]
  · have hblocked' : ¬ s.Blocked [t.extended later] := fun h => hblock (blocked_cons_iff.mpr h)
    rw [joinGroup_eq_extended hs hall hblock, joinGroup_eq_extended hs hone hblocked',
      extended_cons hs ht hlater htyped]

lemma joinGroup_append (xs ys : List SiteRecord) :
    joinGroup (s, xs ++ ys) = joinGroup (s, xs) >>= fun u => joinGroup (u, ys) := foldlM_append

lemma joinGroup_groups {groups : List (SiteRecord × List SiteRecord)} (hs : s.Plain)
    (hplain : ∀ g ∈ groups, g.1.Plain ∧ ∀ t ∈ g.2, t.Plain) (htyped : ∀ g ∈ groups, g.1.Typed) :
    joinGroup (s, groups.flatMap fun g => g.1 :: g.2) = joinGroup (s, groups.map fun g => g.1.extended g.2) := by
  induction groups generalizing s with
  | nil => rfl
  | cons g groups ih =>
    obtain ⟨hg, hplain⟩ := forall_mem_cons.mp hplain
    obtain ⟨hgtyped, htyped⟩ := forall_mem_cons.mp htyped
    have hone : ∀ r ∈ [g.1.extended g.2], r.Plain := forall_mem_singleton.mpr (plain_extended hg.1 hg.2)
    have hsplit : joinGroup (s, (g :: groups).map fun g => g.1.extended g.2) =
        joinGroup (s, [g.1.extended g.2]) >>= fun u => joinGroup (u, groups.map fun g => g.1.extended g.2) :=
      joinGroup_append [_] _
    rw [hsplit, flatMap_cons, joinGroup_append, joinGroup_group hs hg.1 hg.2 hgtyped]
    by_cases hblock : s.Blocked [g.1.extended g.2]
    · rw [joinGroup_of_blocked hs hone hblock]
      rfl
    · rw [joinGroup_eq_extended hs hone hblock]
      exact ih (plain_extended hs hone) hplain htyped

variable {xs ys sites : List SiteRecord}

lemma filter_key_eq_flatMap (seen : List (Json × Json)) (hs : s.Plain) (hsites : ∀ t ∈ sites, t.Plain)
    (hseen : ∀ t ∈ sites, seen.contains t.key → ¬ t.key == s.key) : sites.filter (·.key == s.key) =
      ((groupsBy key seen sites).filter (·.1.key == s.key)).flatMap fun g => g.1 :: g.2 := by
  induction sites generalizing seen with
  | nil => rfl
  | cons t rest ih =>
    obtain ⟨ht, hrest⟩ := forall_mem_cons.mp hsites
    obtain ⟨htseen, hrestseen⟩ := forall_mem_cons.mp hseen
    rw [groupsBy]
    split
    next hmem => rw [filter_cons, if_neg (htseen hmem), ih _ hrest hrestseen]
    · by_cases htargets : t.key == s.key
      · have hst : s.key == t.key := hs.beq_comm ht ▸ htargets
        have hsame : ∀ r ∈ rest, (r.key == s.key) = (r.key == t.key) := by
          intro r hr
          rw [Bool.eq_iff_iff]
          exact ⟨fun h => key_beq_trans h hst, fun h => key_beq_trans h htargets⟩
        have hnone : (groupsBy key (t.key :: seen) rest).filter (·.1.key == s.key) = [] := by
          rw [filter_eq_nil_iff]
          intro g hg hgs
          have hfresh := not_contains_groupsBy hg
          rw [contains_cons, key_beq_trans hgs hst] at hfresh
          exact hfresh rfl
        rw [filter_cons, if_pos htargets, filter_cons, if_pos htargets, flatMap_cons, hnone,
          flatMap_nil, append_nil, filter_congr hsame]
      · have hnext : ∀ r ∈ rest, (t.key :: seen).contains r.key → ¬ r.key == s.key := by
          intro r hr hmem hrs
          rw [contains_cons, Bool.or_eq_true] at hmem
          rcases hmem with hrt | hmem
          · exact htargets (key_beq_trans (ht.beq_comm (hrest r hr) ▸ hrt) hrs)
          · exact hrestseen r hr hmem hrs
        rw [filter_cons, if_neg htargets, filter_cons, if_neg htargets, ih _ hrest hnext]

lemma contains_of_cons {k k' : Json × Json} (hk : known.contains k) (h : seen.contains k' → known.contains k')
    (hmem : (k :: seen).contains k') : known.contains k' := by
  rw [contains_cons, Bool.or_eq_true] at hmem
  rcases hmem with hbeq | hmem
  · obtain ⟨k₀, hk₀, hkk₀⟩ := contains_iff_exists_mem_beq.mp hk
    exact contains_iff_exists_mem_beq.mpr ⟨k₀, hk₀, key_beq_trans hbeq hkk₀⟩
  · exact h hmem

lemma contains_cons_of_cons {k k' : Json × Json} (h : seen.contains k' → known.contains k')
    (hmem : (k :: seen).contains k') : (k :: known).contains k' := by
  rw [contains_cons, Bool.or_eq_true] at hmem ⊢
  exact hmem.imp_right h

lemma groupsBy_subset (h : ∀ t ∈ sites, seen.contains t.key → known.contains t.key) :
    groupsBy key known sites ⊆ groupsBy key seen sites := by
  induction sites generalizing seen known with
  | nil => exact List.Subset.refl _
  | cons t rest ih =>
    obtain ⟨ht, hrest⟩ := forall_mem_cons.mp h
    rw [groupsBy, groupsBy]
    by_cases hseen : seen.contains t.key
    · rw [if_pos (ht hseen), if_pos hseen]
      exact ih hrest
    · rw [if_neg hseen]
      split
      next hknown =>
        apply subset_cons_of_subset
        exact ih fun r hr => contains_of_cons hknown (hrest r hr)
      · apply cons_subset_cons
        exact ih fun r hr => contains_cons_of_cons (hrest r hr)

lemma groupsBy_map_extended (seen known : List (Json × Json))
    (h : ∀ t ∈ sites, seen.contains t.key → known.contains t.key) :
    groupsBy key known ((groupsBy key seen sites).map fun g => g.1.extended g.2) =
      (groupsBy key known sites).map fun g => (g.1.extended g.2, []) := by
  induction sites generalizing seen known with
  | nil => rfl
  | cons t rest ih =>
    obtain ⟨ht, hrest⟩ := forall_mem_cons.mp h
    rw [groupsBy]
    split
    next hmem => rw [ih _ _ hrest, groupsBy, if_pos (ht hmem)]
    · rw [map_cons, groupsBy, groupsBy, key_extended]
      split
      next hknown => exact ih _ _ fun r hr => contains_of_cons hknown (hrest r hr)
      · have hnone : ((groupsBy key (t.key :: seen) rest).map fun g => g.1.extended g.2).filter
            (·.key == t.key) = [] := by
          rw [filter_eq_nil_iff]
          intro r hr hrt
          obtain ⟨g, hg, rfl⟩ := mem_map.mp hr
          have hfresh := not_contains_groupsBy hg
          rw [key_extended] at hrt
          rw [contains_cons, hrt] at hfresh
          exact hfresh rfl
        rw [hnone, map_cons, ih _ _ fun r hr => contains_cons_of_cons (hrest r hr)]

lemma mapM_joinGroup_congr {α : Type} {f f' : α → SiteRecord × List SiteRecord} {as : List α}
    (h : ∀ a ∈ as, joinGroup (f a) = joinGroup (f' a)) : (as.map f).mapM joinGroup = (as.map f').mapM joinGroup := by
  induction as with
  | nil => rfl
  | cons a as ih =>
    obtain ⟨ha, has⟩ := forall_mem_cons.mp h
    rw [map_cons, map_cons, mapM_cons, mapM_cons, ha, ih has]

section

variable (hsites : ∀ t ∈ sites, t.Plain)
include hsites

lemma open_of_mergeAll (h : mergeAll sites = .ok merged) : ∀ g ∈ groupsBy key [] sites, ¬ g.1.Blocked g.2 := by
  intro g hg hblock
  rw [mergeAll_of_blocked hsites ⟨g, hg, hblock⟩] at h
  cases h

lemma wrongType_of_mergeAll {e : Fault} (h : mergeAll sites = .error e) : e = .wrongType := by
  by_cases hblock : ∃ g ∈ groupsBy key [] sites, g.1.Blocked g.2
  · rw [mergeAll_of_blocked hsites hblock] at h
    exact (Except.error.inj h).symm
  · rw [mergeAll_of_open hsites fun g hg hg' => hblock ⟨g, hg, hg'⟩] at h
    cases h

lemma eq_map_of_mergeAll (h : mergeAll sites = .ok merged) :
    merged = (groupsBy key [] sites).map fun g => g.1.extended g.2 := by
  have hopen := open_of_mergeAll hsites h
  exact Except.ok.inj (h.symm.trans (mergeAll_of_open hsites hopen))

lemma plain_of_mergeAll (h : mergeAll sites = .ok merged) : ∀ t ∈ merged, t.Plain := by
  rw [eq_map_of_mergeAll hsites h]
  exact plain_map_extended hsites

lemma pairwise_of_mergeAll (h : mergeAll sites = .ok merged) : merged.Pairwise fun t u => ¬ u.key == t.key := by
  rw [eq_map_of_mergeAll hsites h]
  exact pairwise_map_extended

end

lemma mergeAll_append (hxs : ∀ t ∈ xs, t.Plain) (hys : ∀ t ∈ ys, t.Plain) (hmerged : mergeAll xs = .ok merged) :
    mergeAll (xs ++ ys) = (pending merged ys ++ groupsBy key (merged.map key) ys).mapM joinGroup := by
  rw [← foldlM_joinInto (plain_of_mergeAll hxs hmerged) hys (pairwise_of_mergeAll hxs hmerged), mergeAll, foldlM_append]
  change mergeAll xs >>= _ = _
  rw [hmerged]
  rfl

def mergeInChunks (xs ys : List SiteRecord) : Except Fault (List SiteRecord) := do
  let first ← mergeAll xs
  let second ← mergeAll ys
  mergeAll (first ++ second)

lemma mergeInChunks_eq {second : List SiteRecord} (hxs : ∀ t ∈ xs, t.Plain) (hys : ∀ t ∈ ys, t.Plain)
    (hrun : mergeAll ys = .ok second) (htyped : ∀ g ∈ groupsBy key [] ys, g.1.Typed) :
    mergeInChunks xs ys = mergeAll (xs ++ ys) := by
  cases hfirst : mergeAll xs with
  | error e =>
    have hall : mergeAll (xs ++ ys) = mergeAll xs >>= fun ms => ys.foldlM (fun merged s => s.joinInto merged) ms :=
      foldlM_append
    rw [mergeInChunks, hall, hfirst]
    rfl
  | ok ms =>
    have hms := plain_of_mergeAll hxs hfirst
    have hopen := open_of_mergeAll hys hrun
    have hsecond := mergeAll_of_open hys hopen
    have hns := plain_of_mergeAll hys hsecond
    have hgroups := plain_groupsBy [] hys
    have hagain := mergeAll_of_pairwise hms (pairwise_of_mergeAll hxs hfirst)
    have hpending : (pending ms ys).mapM joinGroup =
        (pending ms ((groupsBy key [] ys).map fun g => g.1.extended g.2)).mapM joinGroup := by
      apply mapM_joinGroup_congr
      intro s hs
      rw [filter_key_eq_flatMap [] (hms s hs) hys (by simp), joinGroup_groups (hms s hs)]
      · rw [filter_map]
        simp only [Function.comp_def, key_extended]
      · exact fun g hg => hgroups g (mem_filter.mp hg).1
      · exact fun g hg => htyped g (mem_filter.mp hg).1
    have hnew : (groupsBy key (ms.map key) ys).mapM joinGroup =
        (groupsBy key (ms.map key) ((groupsBy key [] ys).map fun g => g.1.extended g.2)).mapM joinGroup := by
      have hleft := mapM_joinGroup (plain_groupsBy (ms.map key) hys)
        fun g hg => hopen g (groupsBy_subset (by simp) hg)
      have hright := mapM_joinGroup_nil ((groupsBy key (ms.map key) ys).map fun g => g.1.extended g.2)
      rw [pending, map_map] at hright
      rw [groupsBy_map_extended [] _ (by simp), hleft]
      exact hright.symm
    rw [mergeAll_append hxs hys hfirst, mapM_append, hpending, hnew, ← mapM_append,
      ← mergeAll_append hms hns hagain, mergeInChunks, hfirst, hsecond]
    rfl

def typeless (s : SiteRecord) : SiteRecord :=
  { s with fields := s.fields.erase "responseType" }

lemma erase_insert_self (fields : Table String Json) (name : String) (j : Json) :
    (fields.insert name j).erase name = fields.erase name := by
  obtain ⟨es⟩ := fields
  simp only [Table.erase, Table.insert, Table.alter, Table.mk.injEq]
  induction es with
  | nil => simp [Table.alterEntries]
  | cons e rest ih =>
    obtain ⟨name', j'⟩ := e
    by_cases h : name = name' <;> simp [Table.alterEntries, h, ih]

lemma erase_withType (fields : Table String Json) (given : List Json) :
    (withType fields given).erase "responseType" = fields.erase "responseType" := by
  rw [withType]
  split
  · cases given.find? isTruthy with
    | none => rfl
    | some j => exact erase_insert_self fields "responseType" j
  · rfl

lemma get?_erase_self (fields : Table String Json) (name : String) : (fields.erase name).get? name = none := by
  simp [erase, get?, lookup_eq_none_iff]

lemma get?_erase_of_ne {fields : Table String Json} {name name' : String} (h : name' ≠ name) :
    (fields.erase name).get? name' = fields.get? name' := by
  obtain ⟨es⟩ := fields
  simp only [erase, get?]
  induction es with
  | nil => rfl
  | cons e rest ih =>
    rw [filter_cons, lookup_cons]
    split
    · rw [lookup_cons, ih]
    next hk =>
      have hk : name = e.1 := by simpa using hk
      have hname : (name' == e.1) = false := by simpa [← hk] using h
      rw [ih, hname]

lemma get_typeless : s.typeless.get "responseType" = .null := by
  rw [get, typeless, Table.getD, get?_erase_self]
  rfl

lemma get_typeless_of_ne {name : String} (h : name ≠ "responseType") : s.typeless.get name = s.get name := by
  rw [get, typeless, Table.getD, get?_erase_of_ne h]
  rfl

@[simp] lemma key_typeless : s.typeless.key = s.key := by
  rw [key, key, get_typeless_of_ne (by decide), get_typeless_of_ne (by decide)]

lemma absorb_typeless : s.typeless.absorb t.typeless = (s.absorb t).map typeless := by
  have hfields : withType s.typeless.fields [t.typeless.get "responseType"] = s.typeless.fields := by
    rw [get_typeless]
    exact withType_of_none rfl
  rw [absorb_eq, absorb_eq, hfields]
  change (if t.params.toList.isEmpty then _ else
    (s.params.open_ >>= t.params.toList.foldlM SiteParam.addTo).map _) = _
  split
  · rfl
  · cases s.params.open_ >>= t.params.toList.foldlM SiteParam.addTo with
    | error e => rfl
    | ok ps => simp only [Except.map, typeless, erase_withType]

lemma joinInto_typeless (sites : List SiteRecord) :
    s.typeless.joinInto (sites.map typeless) = (s.joinInto sites).map (List.map typeless) := by
  induction sites with
  | nil => rfl
  | cons t rest ih =>
    rw [map_cons, joinInto, joinInto, key_typeless, key_typeless, absorb_typeless, ih]
    split
    · cases t.absorb s <;> rfl
    · cases s.joinInto rest <;> rfl

lemma mergeAll_typeless (sites : List SiteRecord) :
    mergeAll (sites.map typeless) = (mergeAll sites).map (List.map typeless) := by
  have hrun (merged : List SiteRecord) : (sites.map typeless).foldlM (fun merged (s : SiteRecord) => s.joinInto merged)
          (merged.map typeless) =
        (sites.foldlM (fun merged (s : SiteRecord) => s.joinInto merged) merged).map (List.map typeless) := by
    induction sites generalizing merged with
    | nil => rfl
    | cons s rest ih =>
      rw [map_cons, foldlM_cons, foldlM_cons, joinInto_typeless]
      cases s.joinInto merged with
      | error e => rfl
      | ok next => exact ih next
  exact hrun []

lemma plain_typeless (hs : s.Plain) : s.typeless.Plain where
  method := by rw [get_typeless_of_ne (by decide)]; exact hs.method
  url := by rw [get_typeless_of_ne (by decide)]; exact hs.url
  params := hs.params

lemma mergeInChunks_typeless :
    mergeInChunks (xs.map typeless) (ys.map typeless) = (mergeInChunks xs ys).map (List.map typeless) := by
  rw [mergeInChunks, mergeInChunks, mergeAll_typeless, mergeAll_typeless]
  cases mergeAll xs with
  | error e => rfl
  | ok first =>
    cases mergeAll ys with
    | error e => rfl
    | ok second =>
      change mergeAll (first.map typeless ++ second.map typeless) = (mergeAll (first ++ second)).map _
      rw [← map_append, mergeAll_typeless]

def firstType (records : List SiteRecord) : Json :=
  ((records.map (·.get "responseType")).find? fun j => !(j == .null)).getD .null

lemma not_beq_null_of_isTruthy {j : Json} (h : j.isTruthy) : (!(j == .null)) = true := by
  cases j with
  | null => cases h
  | _ => rfl

lemma find?_handedOn (h : ∀ t ∈ later, t.Typed) :
    (handedOn later).find? isTruthy = (later.map (·.get "responseType")).find? fun j => !(j == .null) := by
  induction later with
  | nil => rfl
  | cons t rest ih =>
    obtain ⟨ht, hrest⟩ := forall_mem_cons.mp h
    have hcons : handedOn (t :: rest) = handedOn [t] ++ handedOn rest := by
      rw [handedOn, handedOn, handedOn, ← map_append, ← filter_append, singleton_append]
    rw [hcons, List.find?_append, ih hrest, map_cons, List.find?_cons]
    rcases ht with hnull | ⟨htruthy, hown⟩
    · have hnone : (handedOn [t]).find? isTruthy = none := by
        by_cases hown : t.params.toList = [] <;> simp [handedOn, hown, hnull, isTruthy]
      rw [hnone, hnull]
      rfl
    · have hsome : (handedOn [t]).find? isTruthy = some (t.get "responseType") := by
        simp [handedOn, hown, htruthy]
      rw [hsome, not_beq_null_of_isTruthy htruthy]
      rfl

lemma settled_eq_firstType (h : ∀ t ∈ later, t.Typed) :
    settled (s.get "responseType") (handedOn later) = firstType (s :: later) := by
  rw [firstType, map_cons, List.find?_cons, ← find?_handedOn h]
  cases s.get "responseType" with
  | _ => rfl

end SiteRecord

/-- If the second chunk can be joined at all, the chunks give what joining all records at once
gives, but for response types; and exactly that if the first record of each key in the second chunk
hands its response type on. A call site has the response type of its first record, or else the first
one that is handed on to it. -/
theorem SiteRecord.mergeInChunks_joins {xs ys : List SiteRecord} (hxs : ∀ s ∈ xs, s.Plain)
    (hys : ∀ s ∈ ys, s.Plain) :
    (∀ e, mergeAll ys = .error e → mergeInChunks xs ys = .error .wrongType) ∧
      (∀ second, mergeAll ys = .ok second →
        (mergeInChunks xs ys).map (List.map typeless) = (mergeAll (xs ++ ys)).map (List.map typeless) ∧
        ((∀ g ∈ groupsBy key [] ys, g.1.Typed) → mergeInChunks xs ys = mergeAll (xs ++ ys))) ∧
      ∀ merged, mergeAll (xs ++ ys) = .ok merged →
        List.Forall₂ (fun g joined =>
          joined.get "responseType" = settled (g.1.get "responseType") (handedOn g.2) ∧
            ((∀ s ∈ g.2, s.Typed) → joined.get "responseType" = firstType (g.1 :: g.2)))
          (groupsBy key [] (xs ++ ys)) merged := by
  refine ⟨fun e hrun => ?_, fun second hrun => ⟨?_, mergeInChunks_eq hxs hys hrun⟩, fun merged hrun => ?_⟩
  · rw [mergeInChunks, hrun, wrongType_of_mergeAll hys hrun]
    cases hfirst : mergeAll xs with
    | error e' => rw [wrongType_of_mergeAll hxs hfirst]; rfl
    | ok first => rfl
  · -- without response types every record hands on what it has
    have hplain {sites : List SiteRecord} (hsites : ∀ s ∈ sites, s.Plain) : ∀ s ∈ sites.map typeless, s.Plain := by
      intro s hs
      obtain ⟨t, ht, rfl⟩ := mem_map.mp hs
      exact plain_typeless (hsites t ht)
    have htyped : ∀ g ∈ groupsBy key [] (ys.map typeless), g.1.Typed := by
      intro g hg
      obtain ⟨t, -, ht⟩ := mem_map.mp (mem_of_mem_groupsBy hg).1
      exact .inl (ht ▸ get_typeless)
    have hsecond : mergeAll (ys.map typeless) = .ok (second.map typeless) := by
      rw [mergeAll_typeless, hrun]
      rfl
    rw [← mergeInChunks_typeless, mergeInChunks_eq (hplain hxs) (hplain hys) hsecond htyped, ← map_append,
      mergeAll_typeless]
  · rw [eq_map_of_mergeAll (forall_mem_append.mpr ⟨hxs, hys⟩) hrun, forall₂_map_right_iff]
    apply forall₂_same.mpr
    intro g hg
    exact ⟨get_extended, fun htyped => get_extended.trans (settled_eq_firstType htyped)⟩

namespace Chunks

def bare : SiteRecord :=
  ⟨⟨[("url", .text "/a")]⟩, ⟨[]⟩, .absent⟩

def typed : SiteRecord :=
  ⟨⟨[("url", .text "/a"), ("responseType", .text "json")]⟩, ⟨[]⟩, .absent⟩

def full : SiteRecord :=
  ⟨⟨[("url", .text "/a"), ("responseType", .text "json")]⟩, ⟨[("x", .text "1")]⟩,
    .listed [Joining.named "q" [.text "1"]]⟩

def joined : SiteRecord :=
  ⟨⟨[("url", .text "/a"), ("responseType", .text "json")]⟩, ⟨[("x", .text "1"), ("y", .text "3")]⟩,
    .listed [Joining.named "q" [.text "1", .text "2"], Joining.named "r" []]⟩

lemma plain_first : ∀ s ∈ [bare, Joining.other], s.Plain := by
  simp only [forall_mem_cons, not_mem_nil, false_implies, implies_true, and_true]
  exact ⟨⟨trivial, trivial, forall_mem_nil _⟩, trivial, trivial, forall_mem_nil _⟩

lemma plain_second : ∀ s ∈ [full, Joining.again], s.Plain := by
  simp only [forall_mem_cons, not_mem_nil, false_implies, implies_true, and_true]
  refine ⟨⟨trivial, trivial, forall_mem_singleton.mpr (Joining.plain_named _ _)⟩, trivial, trivial, ?_⟩
  exact forall_mem_cons.mpr ⟨Joining.plain_named _ _, forall_mem_singleton.mpr (Joining.plain_named _ _)⟩

end Chunks

open Chunks

/-- Two records of the second chunk are joined on their own and then to one of the first. -/
theorem SiteRecord.mergeInChunks_joins_four :
    (∀ s ∈ [bare, Joining.other], s.Plain) ∧ (∀ s ∈ [full, Joining.again], s.Plain) ∧
      full.Typed ∧
      mergeInChunks [bare, Joining.other] [full, Joining.again] =
        mergeAll [bare, Joining.other, full, Joining.again] ∧
      mergeAll [bare, Joining.other, full, Joining.again] = .ok [joined, Joining.other] := by
  have hjoins := mergeInChunks_joins plain_first plain_second
  have hchunks := (hjoins.2.1 _ rfl).2 (forall_mem_singleton.mpr (.inr ⟨rfl, cons_ne_nil _ _⟩))
  exact ⟨plain_first, plain_second, .inr ⟨rfl, cons_ne_nil _ _⟩, hchunks, rfl⟩

/-- A response type is lost with its record, unless a record with parameters keeps it in its chunk;
and a chunk may fail where joining all records does not. -/
theorem SiteRecord.mergeInChunks_bare :
    mergeAll [bare, typed] = .ok [bare] ∧
      firstType [bare, typed] = .text "json" ∧
      mergeAll [bare, typed, Joining.filled] =
        .ok [⟨⟨[("url", .text "/a")]⟩, ⟨[]⟩, Joining.filled.params⟩] ∧
      mergeInChunks [bare] [typed, Joining.filled] =
        .ok [⟨⟨[("url", .text "/a"), ("responseType", .text "json")]⟩, ⟨[]⟩, Joining.filled.params⟩] ∧
      mergeAll [bare, Joining.void, Joining.filled] =
        .ok [⟨⟨[("url", .text "/a")]⟩, ⟨[]⟩, Joining.filled.params⟩] ∧
      mergeInChunks [bare] [Joining.void, Joining.filled] = .error .wrongType := ⟨rfl, rfl, rfl, rfl, rfl, rfl⟩

end ScriptAudit
