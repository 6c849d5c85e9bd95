import Mathlib.Data.List.Forall2
import Mathlib.Tactic.Tauto
import ScriptAudit.Proofs.Report.Params
import ScriptAudit.Report.Record

/-!
# What joining call sites gives

The records of one method and address make one call site, at the place of the first.
-/

namespace ScriptAudit

open List SiteParams Table Json SiteRecord

namespace SiteRecord

variable {s t u : SiteRecord} {later pre after : List SiteRecord} {given : List Json}
  {g : SiteRecord × List SiteRecord}

/-- A record whose method and address are no lists or objects, with plain parameters. -/
structure Plain (s : SiteRecord) : Prop where
  method : (s.get "method").Scalar
  url : (s.get "url").Scalar
  params : ∀ p ∈ s.params.toList, SiteParam.Plain p

def settled (current : Json) (given : List Json) : Json :=
  match current with
  | .null => (given.find? isTruthy).getD .null
  | j => j

/-- What becomes of a record to which later records of its key are joined. -/
structure JoinOf (first : SiteRecord) (later : List SiteRecord) (joined : SiteRecord) : Prop where
  fields : ∀ name, name ≠ "responseType" → joined.fields.get? name = first.fields.get? name
  responseType : joined.get "responseType" = settled (first.get "responseType")
    ((later.filter (!·.params.toList.isEmpty)).map (·.get "responseType"))
  headers : ∀ name, joined.headers.get? name = (first :: later).findSome? (·.headers.get? name)
  params : joined.params = first.params.withMore (later.flatMap (·.params.toList))

def Blocked (first : SiteRecord) (later : List SiteRecord) : Prop :=
  first.params = .void ∧ ∃ t ∈ later, t.params.toList ≠ []

lemma plain_flatMap (h : ∀ t ∈ later, t.Plain) : ∀ p ∈ later.flatMap (·.params.toList), SiteParam.Plain p := by
  intro p hp
  obtain ⟨t, ht, hp⟩ := mem_flatMap.mp hp
  exact (h t ht).params p hp

def fill (table : Table String Json) (es : List (String × Json)) : Table String Json :=
  es.foldl (fun t e => t.insertNew e.1 e.2) table

lemma fill_append (table : Table String Json) (es es' : List (String × Json)) :
    fill table (es ++ es') = fill (fill table es) es' := foldl_append

lemma get?_fill {es : List (String × Json)} {table : Table String Json} (name : String) :
    (fill table es).get? name = (table.get? name).or (es.lookup name) := by
  unfold fill
  induction es generalizing table with
  | nil => simp
  | cons e rest ih =>
    rw [foldl_cons, ih, get?_insertNew, lookup_cons, Option.or_assoc]
    cases name == e.1 <;> rfl

def withType (fields : Table String Json) (given : List Json) : Table String Json :=
  match fields.getD "responseType" .null with
  | .null => (given.find? isTruthy).elim fields (fields.insert "responseType")
  | _ => fields

section ResponseType

variable {fields : Table String Json}

lemma withType_of_ne_null (h : fields.getD "responseType" .null ≠ .null) (given : List Json) :
    withType fields given = fields := by
  rw [withType]
  split
  next hnull => exact absurd hnull h
  · rfl

lemma withType_of_none (h : given.find? isTruthy = none) : withType fields given = fields := by
  rw [withType, h]
  split <;> rfl

lemma withType_of_some {j : Json} (hnull : fields.getD "responseType" .null = .null)
    (h : given.find? isTruthy = some j) : withType fields given = fields.insert "responseType" j := by
  rw [withType, hnull, h]
  rfl

lemma withType_append (xs ys : List Json) : withType fields (xs ++ ys) = withType (withType fields xs) ys := by
  by_cases hnull : fields.getD "responseType" .null = .null
  · cases hxs : xs.find? isTruthy with
    | none =>
      rw [withType_of_none hxs, withType, withType, List.find?_append, hxs]
      rfl
    | some j =>
      have hall : (xs ++ ys).find? isTruthy = some j := by rw [List.find?_append, hxs]; rfl
      have hset : (fields.insert "responseType" j).getD "responseType" .null ≠ .null := by
        rw [Table.getD, get?_insert_self]
        rintro rfl
        cases List.find?_some hxs
      rw [withType_of_some hnull hall, withType_of_some hnull hxs, withType_of_ne_null hset]
  · rw [withType_of_ne_null hnull, withType_of_ne_null hnull, withType_of_ne_null hnull]

end ResponseType

def handedOn (records : List SiteRecord) : List Json :=
  (records.filter (!·.params.toList.isEmpty)).map (·.get "responseType")

def extended (s : SiteRecord) (later : List SiteRecord) : SiteRecord where
  fields := withType s.fields (handedOn later)
  headers := fill s.headers (later.flatMap (·.headers.entries))
  params := s.params.withMore (later.flatMap (·.params.toList))

lemma extended_nil (s : SiteRecord) : s.extended [] = s := by
  have hfields : withType s.fields (handedOn []) = s.fields := withType_of_none rfl
  rw [extended, hfields]
  rfl

lemma extended_append {last : List SiteRecord} (hs : s.Plain) (hlater : ∀ r ∈ later, r.Plain)
    (hlast : ∀ r ∈ last, r.Plain) : s.extended (later ++ last) = (s.extended later).extended last := by
  simp only [extended, handedOn, filter_append, map_append, flatMap_append, withType_append,
    fill_append, withMore_append hs.params (plain_flatMap hlater) (plain_flatMap hlast)]

lemma absorb_eq : s.absorb t =
    if t.params.toList.isEmpty then .ok ⟨s.fields, fill s.headers t.headers.entries, s.params⟩
    else (s.params.open_ >>= t.params.toList.foldlM SiteParam.addTo).map fun ps =>
      ⟨withType s.fields [t.get "responseType"], fill s.headers t.headers.entries, .listed ps⟩ := by
  rw [absorb]
  split
  · rfl
  · cases s.params.open_ with
    | error e => rfl
    | ok own =>
      simp only [bind, Except.bind]
      cases t.params.toList.foldlM SiteParam.addTo own with
      | error e => rfl
      | ok ps =>
        simp only [Except.map, pure, Except.pure, get, withType, List.find?_singleton]
        cases s.fields.getD "responseType" .null with
        | null =>
          by_cases htruthy : (t.fields.getD "responseType" .null).isTruthy <;> simp [htruthy, fill]
        | _ => rfl

lemma absorb_eq_extended (hs : s.Plain) (ht : t.Plain) (h : ¬ s.Blocked [t]) : s.absorb t = .ok (s.extended [t]) := by
  rw [absorb_eq, extended, flatMap_singleton, flatMap_singleton, withMore]
  split
  next hnone =>
    have hfields : withType s.fields (handedOn [t]) = s.fields := by
      apply withType_of_none
      simp [handedOn, hnone]
    rw [hfields]
  next hsome =>
    have hopen : s.params.open_ = .ok s.params.toList := by
      rw [Blocked] at h
      cases hparams : s.params with
      | void => simp_all
      | _ => rfl
    have hhanded : handedOn [t] = [t.get "responseType"] := by simp [handedOn, hsome]
    simp only [hopen, bind, Except.bind, SiteParam.foldlM_addTo hs.params ht.params, Except.map, hhanded]

lemma get_extended : (s.extended later).get "responseType" = settled (s.get "responseType") (handedOn later) := by
  have hget : (s.extended later).get "responseType" =
      (withType s.fields (handedOn later)).getD "responseType" .null := rfl
  rw [hget, withType]
  change _ = settled (s.fields.getD "responseType" .null) (handedOn later)
  cases hnull : s.fields.getD "responseType" .null with
  | null =>
    dsimp only [settled]
    cases (handedOn later).find? isTruthy with
    | none => exact hnull
    | some j => rw [Option.elim_some, Table.getD, get?_insert_self]
  | _ => exact hnull

lemma get?_withType_of_ne {name : String} (h : name ≠ "responseType") {fields : Table String Json} :
    (withType fields given).get? name = fields.get? name := by
  rw [withType]
  split
  · cases given.find? isTruthy with
    | none => rfl
    | some j => exact get?_insert_of_ne h
  · rfl

lemma get_extended_of_ne {name : String} (h : name ≠ "responseType") : (s.extended later).get name = s.get name := by
  rw [get, Table.getD, extended, get?_withType_of_ne h]
  rfl

@[simp] lemma key_extended : (s.extended later).key = s.key := by
  rw [key, key, get_extended_of_ne (by decide), get_extended_of_ne (by decide)]

lemma plain_extended (hs : s.Plain) (hlater : ∀ t ∈ later, t.Plain) : (s.extended later).Plain where
  method := by rw [get_extended_of_ne (by decide)]; exact hs.method
  url := by rw [get_extended_of_ne (by decide)]; exact hs.url
  params := plain_withMore hs.params (plain_flatMap hlater)

lemma blocked_extended (h : ¬ s.Blocked [t]) : (s.extended [t]).Blocked later ↔ s.Blocked later := by
  have hparams : (s.extended [t]).params = s.params.withMore t.params.toList := by simp [extended]
  rw [Blocked, Blocked, hparams, withMore]
  split
  · rfl
  next hsome =>
    have hs : s.params ≠ .void := fun hvoid => h ⟨hvoid, t, by simp, by simpa using hsome⟩
    simp [hs]

lemma absorb_of_blocked (h : s.Blocked [t]) : s.absorb t = .error .wrongType := by
  obtain ⟨hvoid, t', ht, hsome⟩ := h
  have hsome : ¬ t.params.toList.isEmpty := by
    rw [← mem_singleton.mp ht]
    simpa using hsome
  unfold absorb
  simp only [hsome, hvoid, Bool.false_eq_true, if_false, open_]
  rfl

def joinGroup (g : SiteRecord × List SiteRecord) : Except Fault SiteRecord :=
  g.2.foldlM absorb g.1

lemma joinGroup_cons (hrun : s.absorb t = .ok u) : joinGroup (s, t :: later) = joinGroup (u, later) := by
  simp [joinGroup, foldlM_cons, hrun, bind, Except.bind]

lemma blocked_cons : s.Blocked (t :: later) ↔ s.Blocked [t] ∨ s.Blocked later := by
  simp only [Blocked, mem_cons, not_mem_nil, or_false, exists_eq_or_imp, exists_eq_left]
  tauto

lemma joinGroup_eq_extended (hs : s.Plain) (hlater : ∀ t ∈ later, t.Plain) (h : ¬ s.Blocked later) :
    joinGroup (s, later) = .ok (s.extended later) := by
  induction later generalizing s with
  | nil => rw [extended_nil]; rfl
  | cons t rest ih =>
    obtain ⟨ht, hrest⟩ := forall_mem_cons.mp hlater
    have hone : ∀ r ∈ [t], r.Plain := forall_mem_singleton.mpr ht
    rw [blocked_cons, not_or] at h
    have hopen : ¬ (s.extended [t]).Blocked rest := by rw [blocked_extended h.1]; exact h.2
    rw [joinGroup_cons (absorb_eq_extended hs ht h.1), ih (plain_extended hs hone) hrest hopen,
      ← extended_append hs hone hrest, singleton_append]

lemma joinGroup_of_blocked (hs : s.Plain) (hlater : ∀ t ∈ later, t.Plain) (h : s.Blocked later) :
    joinGroup (s, later) = .error .wrongType := by
  induction later generalizing s with
  | nil => simp [Blocked] at h
  | cons t rest ih =>
    obtain ⟨ht, hrest⟩ := forall_mem_cons.mp hlater
    by_cases hfirst : s.Blocked [t]
    · simp [joinGroup, foldlM_cons, absorb_of_blocked hfirst, bind, Except.bind]
    · have hone : ∀ r ∈ [t], r.Plain := forall_mem_singleton.mpr ht
      rw [joinGroup_cons (absorb_eq_extended hs ht hfirst)]
      apply ih (plain_extended hs hone) hrest
      rw [blocked_extended hfirst]
      exact (blocked_cons.mp h).resolve_left hfirst

lemma joinOf_extended (s : SiteRecord) (later : List SiteRecord) : s.JoinOf later (s.extended later) where
  fields _ hname := get?_withType_of_ne hname
  responseType := get_extended
  headers name := by
    have hlook : (later.flatMap (·.headers.entries)).lookup name = later.findSome? (·.headers.get? name) := by
      induction later with
      | nil => rfl
      | cons t rest ih =>
        rw [flatMap_cons, lookup_append, ih, List.findSome?_cons]
        change (t.headers.get? name).or _ = _
        cases t.headers.get? name <;> rfl
    rw [extended, get?_fill, hlook, List.findSome?_cons]
    cases s.headers.get? name <;> rfl
  params := rfl

lemma Plain.scalar_key (hs : s.Plain) : s.key.1.Scalar ∧ s.key.2.Scalar :=
  ⟨hs.method.orElse (b := .text "GET") trivial, hs.url.orElse (b := .text "") trivial⟩

lemma Plain.beq_comm (hs : s.Plain) (ht : t.Plain) : (s.key == t.key) = (t.key == s.key) := by
  change (s.key.1 == t.key.1 && s.key.2 == t.key.2) = (t.key.1 == s.key.1 && t.key.2 == s.key.2)
  rw [hs.scalar_key.1.beq_comm ht.scalar_key.1, hs.scalar_key.2.beq_comm ht.scalar_key.2]

lemma key_beq_trans {k k' k'' : Json × Json} (h : k == k') (h' : k' == k'') : k == k'' := by
  obtain ⟨h₁, h₂⟩ := Bool.and_eq_true_iff.mp h
  obtain ⟨h₁', h₂'⟩ := Bool.and_eq_true_iff.mp h'
  exact Bool.and_eq_true_iff.mpr ⟨beq_trans h₁ h₁', beq_trans h₂ h₂'⟩

lemma joinInto_append (h : ∀ t ∈ pre, ¬ t.key == s.key) (rest : List SiteRecord) :
    s.joinInto (pre ++ rest) = (s.joinInto rest).map (pre ++ ·) := by
  induction pre with
  | nil => cases hrest : s.joinInto rest <;> simp [hrest, Except.map]
  | cons t pre ih =>
    obtain ⟨ht, hbefore⟩ := forall_mem_cons.mp h
    rw [cons_append, joinInto, if_neg ht, ih hbefore]
    cases s.joinInto rest <;> rfl

def pending (sites rest : List SiteRecord) : List (SiteRecord × List SiteRecord) :=
  sites.map fun s => (s, rest.filter (·.key == s.key))

lemma mapM_eq_error {α β : Type} {f : α → Except Fault β} {xs : List α} {x : α} (hx : x ∈ xs)
    (hfault : f x = .error .wrongType) (h : ∀ y ∈ xs, ∀ e, f y = .error e → e = .wrongType) :
    xs.mapM f = .error .wrongType := by
  induction xs with
  | nil => cases hx
  | cons y rest ih =>
    obtain ⟨hy, hrest⟩ := forall_mem_cons.mp h
    rw [mapM_cons]
    cases hrun : f y with
    | error e => rw [hy e hrun]; rfl
    | ok z =>
      obtain rfl | hx := mem_cons.mp hx
      · rw [hfault] at hrun
        cases hrun
      · rw [ih hx hrest]
        rfl

variable {sites rest : List SiteRecord}

lemma wrongType_of_joinGroup (hg : g.1.Plain) (hlater : ∀ t ∈ g.2, t.Plain) {e : Fault} (h : joinGroup g = .error e) :
    e = .wrongType := by
  by_cases hblock : g.1.Blocked g.2
  · exact (Except.error.inj ((joinGroup_of_blocked hg hlater hblock).symm.trans h)).symm
  · cases (joinGroup_eq_extended hg hlater hblock).symm.trans h

lemma pending_cons_of_none (h : ∀ r ∈ sites, ¬ s.key == r.key) : pending sites (s :: rest) = pending sites rest := by
  refine map_congr_left fun r hr => ?_
  rw [filter_cons, if_neg (h r hr)]

lemma plain_groupsBy (seen : List (Json × Json)) (hsites : ∀ t ∈ sites, t.Plain) :
    ∀ g ∈ groupsBy key seen sites, g.1.Plain ∧ ∀ t ∈ g.2, t.Plain := fun _ hg =>
  ⟨hsites _ (mem_of_mem_groupsBy hg).1, fun t ht => hsites t ((mem_of_mem_groupsBy hg).2 t ht)⟩

lemma plain_of_mem_groups (keys : List (Json × Json)) (hsites : ∀ s ∈ sites, s.Plain) (hrest : ∀ s ∈ rest, s.Plain)
    (hg : g ∈ pending sites rest ++ groupsBy key keys rest) : g.1.Plain ∧ ∀ t ∈ g.2, t.Plain := by
  obtain hg | hg := mem_append.mp hg
  · obtain ⟨s, hs, rfl⟩ := mem_map.mp hg
    exact ⟨hsites s hs, fun t ht => hrest t ((mem_filter.mp ht).1)⟩
  · exact plain_groupsBy keys hrest g hg

lemma joinInto_of_key (hkey : t.key == s.key) (hs : s.Plain) (hsites : ∀ r ∈ pre ++ t :: after, r.Plain)
    (hdist : (pre ++ t :: after).Pairwise fun r r' => ¬ r'.key == r.key) :
    s.joinInto (pre ++ t :: after) = (t.absorb s).map (pre ++ · :: after) ∧
      ∀ r ∈ pre ++ after, ¬ s.key == r.key := by
  have ht := hsites t (by simp)
  obtain ⟨-, hafter, hbefore⟩ := pairwise_append.mp hdist
  have hbefore : ∀ r ∈ pre, ¬ r.key == s.key := by
    intro r hr hrs
    have hplain := hsites r (by simp [hr])
    exact hbefore r hr t mem_cons_self (key_beq_trans hkey (hplain.beq_comm hs ▸ hrs))
  refine ⟨?_, forall_mem_append.mpr ⟨fun r hr => ?_, fun r hr hsr => ?_⟩⟩
  · rw [joinInto_append hbefore, joinInto, if_pos hkey]
    cases t.absorb s <;> rfl
  · rw [hs.beq_comm (hsites r (by simp [hr]))]
    exact hbefore r hr
  · have hplain := hsites r (by simp [hr])
    have hrs := hplain.beq_comm hs ▸ hsr
    exact (pairwise_cons.mp hafter).1 r hr (key_beq_trans hrs (ht.beq_comm hs ▸ hkey))

lemma mapM_groups_of_key (hkey : t.key == s.key) (hsites : ∀ r ∈ pre ++ t :: after, r.Plain) (hs : s.Plain)
    (hrest : ∀ r ∈ rest, r.Plain) (hothers : ∀ r ∈ pre ++ after, ¬ s.key == r.key) :
    (pending (pre ++ t :: after) (s :: rest) ++
        groupsBy key ((pre ++ t :: after).map key) (s :: rest)).mapM joinGroup =
      t.absorb s >>= fun u => (pending (pre ++ u :: after) rest ++
        groupsBy key ((pre ++ u :: after).map key) rest).mapM joinGroup := by
  have hgroups := fun g => plain_of_mem_groups ((pre ++ t :: after).map key) (g := g) hsites
    (forall_mem_cons.mpr ⟨hs, hrest⟩)
  have ht := hsites t (by simp)
  have hst : s.key == t.key := hs.beq_comm ht ▸ hkey
  have hcont : ((pre ++ t :: after).map key).contains s.key :=
    contains_iff_exists_mem_beq.mpr ⟨t.key, by simp, hst⟩
  have hpending : pending (pre ++ t :: after) (s :: rest) =
      pending pre rest ++ (t, s :: rest.filter (·.key == t.key)) :: pending after rest := by
    obtain ⟨hbefore, hafter⟩ := forall_mem_append.mp hothers
    rw [← pending_cons_of_none hbefore, ← pending_cons_of_none hafter]
    simp [pending, hst]
  rw [groupsBy, if_pos hcont, hpending] at hgroups ⊢
  by_cases hblock : t.Blocked [s]
  · have hgroup := hgroups (t, s :: rest.filter (·.key == t.key)) (by simp)
    rw [absorb_of_blocked hblock]
    refine mapM_eq_error (x := (t, s :: rest.filter (·.key == t.key))) (by simp) ?_ ?_
    · exact joinGroup_of_blocked ht hgroup.2 (blocked_cons.mpr (.inl hblock))
    · exact fun g hg e => wrongType_of_joinGroup (hgroups g hg).1 (hgroups g hg).2
  · have hrun := absorb_eq_extended ht hs hblock
    have hpending' : pending (pre ++ t.extended [s] :: after) rest =
        pending pre rest ++ (t.extended [s], rest.filter (·.key == t.key)) :: pending after rest := by
      simp [pending]
    have hkeys : (pre ++ t.extended [s] :: after).map key = (pre ++ t :: after).map key := by simp
    simp only [hrun, bind, Except.bind]
    rw [hkeys, hpending']
    simp only [append_assoc, cons_append, mapM_append, mapM_cons, joinGroup_cons hrun]

lemma groups_of_new_key (h : ∀ t ∈ sites, ¬ s.key == t.key) :
    pending sites (s :: rest) ++ groupsBy key (sites.map key) (s :: rest) =
      pending (sites ++ [s]) rest ++ groupsBy key ((sites ++ [s]).map key) rest := by
  have hcont : ¬ (sites.map key).contains s.key := by
    rw [contains_iff_exists_mem_beq]
    rintro ⟨_, hmem, hbeq⟩
    obtain ⟨t, ht, rfl⟩ := mem_map.mp hmem
    exact h t ht hbeq
  have hcongr : ∀ k, ((sites ++ [s]).map key).contains k = (s.key :: sites.map key).contains k := by
    simp [Bool.or_comm]
  rw [groupsBy_congr hcongr, groupsBy, if_neg hcont, pending_cons_of_none h]
  simp [pending]

lemma mapM_joinGroup_nil (sites : List SiteRecord) : (pending sites []).mapM joinGroup = .ok sites := by
  induction sites with
  | nil => rfl
  | cons s sites ih =>
    have hcons : pending (s :: sites) [] = (s, []) :: pending sites [] := rfl
    rw [hcons, mapM_cons, ih]
    rfl

lemma foldlM_joinInto (hsites : ∀ s ∈ sites, s.Plain) (hrest : ∀ s ∈ rest, s.Plain)
    (hdist : sites.Pairwise fun s t => ¬ t.key == s.key) : rest.foldlM (fun merged s => s.joinInto merged) sites =
      (pending sites rest ++ groupsBy key (sites.map key) rest).mapM joinGroup := by
  induction rest generalizing sites with
  | nil =>
    rw [groupsBy, append_nil, mapM_joinGroup_nil]
    rfl
  | cons s rest ih =>
    obtain ⟨hs, hrest⟩ := forall_mem_cons.mp hrest
    rw [foldlM_cons]
    by_cases hseen : ∃ t ∈ sites, t.key == s.key
    · obtain ⟨t, ht, hkey⟩ := hseen
      obtain ⟨pre, after, rfl⟩ := append_of_mem ht
      have ht := hsites t (by simp)
      obtain ⟨hjoin, hothers⟩ := joinInto_of_key hkey hs hsites hdist
      rw [hjoin, mapM_groups_of_key hkey hsites hs hrest hothers]
      by_cases hblock : t.Blocked [s]
      · rw [absorb_of_blocked hblock]
        rfl
      · rw [absorb_eq_extended ht hs hblock]
        refine ih ?_ hrest ?_
        · have huplain := plain_extended ht (forall_mem_singleton.mpr hs)
          simp only [forall_mem_append, forall_mem_cons] at hsites ⊢
          exact ⟨hsites.1, huplain, hsites.2.2⟩
        · rw [← pairwise_map (f := key) (R := fun k k' => ¬ k' == k)] at hdist ⊢
          simpa using hdist
    · have hnone : ∀ t ∈ sites, ¬ t.key == s.key := fun t ht h => hseen ⟨t, ht, h⟩
      have hnone' : ∀ t ∈ sites, ¬ s.key == t.key := fun t ht => hs.beq_comm (hsites t ht) ▸ hnone t ht
      have hjoin : s.joinInto sites = .ok (sites ++ [s]) := by
        simpa [joinInto, Except.map] using joinInto_append hnone []
      rw [hjoin, groups_of_new_key hnone']
      refine ih ?_ hrest ?_
      · simpa [or_imp, forall_and] using ⟨hsites, hs⟩
      · exact pairwise_append.mpr ⟨hdist, pairwise_singleton _ _, by simpa using hnone'⟩

lemma mergeAll_eq (hsites : ∀ s ∈ sites, s.Plain) : mergeAll sites = (groupsBy key [] sites).mapM joinGroup :=
  foldlM_joinInto (forall_mem_nil _) hsites .nil

lemma mergeAll_of_pairwise (hsites : ∀ s ∈ sites, s.Plain)
    (hdist : sites.Pairwise fun s t => ¬ t.key == s.key) : mergeAll sites = .ok sites := by
  rw [mergeAll_eq hsites, groupsBy_of_pairwise hdist (by simp)]
  exact mapM_joinGroup_nil sites

lemma mapM_joinGroup {groups : List (SiteRecord × List SiteRecord)}
    (hplain : ∀ g ∈ groups, g.1.Plain ∧ ∀ t ∈ g.2, t.Plain) (h : ∀ g ∈ groups, ¬ g.1.Blocked g.2) :
    groups.mapM joinGroup = .ok (groups.map fun g => g.1.extended g.2) := by
  induction groups with
  | nil => rfl
  | cons g groups ih =>
    obtain ⟨hg, hplain⟩ := forall_mem_cons.mp hplain
    obtain ⟨hopen, h⟩ := forall_mem_cons.mp h
    rw [mapM_cons, ih hplain h, joinGroup_eq_extended hg.1 hg.2 hopen]
    rfl

lemma mergeAll_of_blocked (hsites : ∀ t ∈ sites, t.Plain) (h : ∃ g ∈ groupsBy key [] sites, g.1.Blocked g.2) :
    mergeAll sites = .error .wrongType := by
  obtain ⟨g, hg, hblock⟩ := h
  have hplain := plain_groupsBy [] hsites
  rw [mergeAll_eq hsites]
  apply mapM_eq_error hg (joinGroup_of_blocked (hplain g hg).1 (hplain g hg).2 hblock)
  exact fun g' hg' e => wrongType_of_joinGroup (hplain g' hg').1 (hplain g' hg').2

lemma mergeAll_of_open (hsites : ∀ t ∈ sites, t.Plain) (h : ∀ g ∈ groupsBy key [] sites, ¬ g.1.Blocked g.2) :
    mergeAll sites = .ok ((groupsBy key [] sites).map fun g => g.1.extended g.2) := by
  rw [mergeAll_eq hsites, mapM_joinGroup (plain_groupsBy [] hsites) h]

lemma plain_map_extended (hsites : ∀ t ∈ sites, t.Plain) :
    ∀ t ∈ (groupsBy key [] sites).map fun g => g.1.extended g.2, t.Plain := by
  intro t ht
  obtain ⟨g, hg, rfl⟩ := mem_map.mp ht
  obtain ⟨hfirst, hlater⟩ := plain_groupsBy [] hsites g hg
  exact plain_extended hfirst hlater

lemma pairwise_map_extended :
    ((groupsBy key [] sites).map fun g => g.1.extended g.2).Pairwise fun t u => ¬ u.key == t.key := by
  rw [pairwise_map]
  simp only [key_extended]
  exact pairwise_groupsBy

end SiteRecord

lemma Json.lookup_fieldOf {α : Type} {k name : String} (h : k ≠ name) (f : α → Json)
    (a : Option α) : (fieldOf name f a).lookup k = none := by
  cases a <;> simp [fieldOf, h]

lemma Param.plain_toTable (p : Param) : SiteParam.Plain p.toTable where
  name := trivial
  values := by
    have hvalues : p.toTable.get? "values" = (fieldOfList "values" (p.values.map .text)).lookup "values" := by
      have hspread : (if p.spread then [("spread", Json.boolean true)] else []).lookup "values" = none := by
        split <;> rfl
      have hvalid (xs : List Json) : (fieldOfList "validValues" xs).lookup "values" = none := by
        unfold fieldOfList
        split <;> rfl
      simp [toTable, get?, lookup_append, lookup_fieldOf, hspread, hvalid, lookup_cons]
    rw [Table.getD, hvalues, fieldOfList]
    split
    · simp [isTruthy]
    · exact fun _ => ⟨_, rfl⟩

lemma RequestRecord.plain_toSite (r : RequestRecord) : r.toSite.Plain where
  method := trivial
  url := trivial
  params := by
    unfold toSite
    split
    · simp [SiteParams.toList]
    · intro p hp
      obtain ⟨q, -, rfl⟩ := mem_map.mp hp
      exact q.plain_toTable

lemma RequestRecord.params_toSite_ne_void (r : RequestRecord) : r.toSite.params ≠ .void := by
  unfold toSite
  dsimp only
  split <;> simp

namespace SiteRecord

lemma not_blocked_of_ne_void {sites : List SiteRecord} (h : ∀ s ∈ sites, s.params ≠ .void) :
    ∀ g ∈ groupsBy key [] sites, ¬ g.1.Blocked g.2 := fun g hg hblock =>
  h g.1 (mem_of_mem_groupsBy hg).1 hblock.1

lemma mergeAll_toSite (records : List RequestRecord) : mergeAll (records.map RequestRecord.toSite) =
    .ok ((groupsBy key [] (records.map RequestRecord.toSite)).map fun g => g.1.extended g.2) :=
  mergeAll_of_open (forall_mem_map.mpr fun r _ => r.plain_toSite)
    (not_blocked_of_ne_void (forall_mem_map.mpr fun r _ => r.params_toSite_ne_void))

end SiteRecord

/-- Records of one method and address make one call site, at the place of the first, with its
fields, the headers of all and the joined parameters, and joining again changes nothing. The
parameters of a record are a list or are not given, as in all records of requests. -/
theorem SiteRecord.mergeAll_groups :
    (∀ r : RequestRecord, r.toSite.Plain ∧ r.toSite.params ≠ .void) ∧
      ∀ sites : List SiteRecord, (∀ s ∈ sites, s.Plain ∧ s.params ≠ .void) →
        ∃ merged, mergeAll sites = .ok merged ∧
          List.Forall₂ (fun g joined => JoinOf g.1 g.2 joined) (groupsBy key [] sites) merged ∧
          mergeAll merged = .ok merged := by
  refine ⟨fun r => ⟨r.plain_toSite, r.params_toSite_ne_void⟩, fun sites hsites => ?_⟩
  have hplain : ∀ s ∈ sites, s.Plain := fun s hs => (hsites s hs).1
  refine ⟨_, mergeAll_of_open hplain (not_blocked_of_ne_void fun s hs => (hsites s hs).2), ?_, ?_⟩
  · rw [forall₂_map_right_iff]
    exact forall₂_same.mpr fun g _ => joinOf_extended g.1 g.2
  · exact mergeAll_of_pairwise (plain_map_extended hplain) pairwise_map_extended

namespace Joining

def named (name : String) (values : List Json) : SiteParam :=
  ⟨[("name", .text name), ("values", .list values)]⟩

def first : SiteRecord :=
  ⟨⟨[("url", .text "/a")]⟩, ⟨[("x", .text "1")]⟩, .listed [named "q" [], named "q" [.text "1"]]⟩

def other : SiteRecord :=
  ⟨⟨[("url", .text "/b")]⟩, ⟨[]⟩, .void⟩

def bare : SiteRecord :=
  ⟨⟨[("url", .text "/b")]⟩, ⟨[]⟩, .absent⟩

def again : SiteRecord :=
  ⟨⟨[("url", .text "/a"), ("method", .text "GET")]⟩, ⟨[("x", .text "2"), ("y", .text "3")]⟩,
    .listed [named "q" [.text "1", .text "2"], named "r" []]⟩

def joined : SiteRecord :=
  ⟨⟨[("url", .text "/a")]⟩, ⟨[("x", .text "1"), ("y", .text "3")]⟩,
    .listed [named "q" [], named "q" [.text "1", .text "2"], named "r" []]⟩

def void : SiteRecord :=
  ⟨⟨[("url", .text "/a")]⟩, ⟨[]⟩, .void⟩

def filled : SiteRecord :=
  ⟨⟨[("url", .text "/a")]⟩, ⟨[]⟩, .listed [⟨[("name", .text "q")]⟩]⟩

lemma plain_named (name : String) (values : List Json) : SiteParam.Plain (named name values) :=
  ⟨trivial, fun _ => ⟨values, rfl⟩⟩

lemma plain_records : ∀ s ∈ [first, bare, again], s.Plain := by
  simp only [forall_mem_cons, not_mem_nil, false_implies, implies_true, and_true]
  refine ⟨⟨trivial, trivial, ?_⟩, ⟨trivial, trivial, ?_⟩, trivial, trivial, ?_⟩
  · exact forall_mem_cons.mpr ⟨plain_named _ _, forall_mem_singleton.mpr (plain_named _ _)⟩
  · exact forall_mem_nil _
  · exact forall_mem_cons.mpr ⟨plain_named _ _, forall_mem_singleton.mpr (plain_named _ _)⟩

end Joining

open Joining

/-- Two of three records are joined; the values go to the last of two parameters of one name. -/
theorem SiteRecord.mergeAll_groups_three :
    (∀ s ∈ [first, bare, again], s.Plain ∧ s.params ≠ .void) ∧
      mergeAll [first, bare, again] = .ok [joined, bare] ∧
      first.JoinOf [again] joined ∧
      mergeAll [joined, bare] = .ok [joined, bare] := by
  have hsites : ∀ s ∈ [first, bare, again], s.Plain ∧ s.params ≠ .void := fun s hs =>
    ⟨plain_records s hs, by revert s; simp [first, bare, again]⟩
  obtain ⟨merged, hmerged, hall, hagain⟩ := mergeAll_groups.2 _ hsites
  have hjoined : mergeAll [first, bare, again] = .ok [joined, bare] := rfl
  cases hmerged.symm.trans hjoined
  have hgroups : groupsBy key [] [first, bare, again] = [(first, [again]), (bare, [])] := rfl
  rw [hgroups] at hall
  cases hall with
  | cons hfirst _ => exact ⟨hsites, hjoined, hfirst, hagain⟩

end ScriptAudit
