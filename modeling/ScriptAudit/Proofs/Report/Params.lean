import ScriptAudit.Proofs.Tables
import ScriptAudit.Report.Site

/-!
# Joining parameters

Adding parameters to a list puts after it the first of each further name.
-/

namespace ScriptAudit

open List SiteParam Table
namespace Json

variable {a b : Json}

def Scalar : Json → Prop
  | list _ | object _ => False
  | _ => True

def unboxed : Json → Json
  | boolean b => number (.whole (if b then 1 else 0))
  | j => j

lemma Scalar.beq_iff (ha : a.Scalar) (hb : b.Scalar) : a == b ↔ a.unboxed = b.unboxed := by
  show same a b = true ↔ a.unboxed = b.unboxed
  cases a <;> cases b <;> simp_all [same, Scalar, unboxed, numeric?]
  all_goals exact eq_comm

lemma Scalar.beq_comm (ha : a.Scalar) (hb : b.Scalar) : (a == b) = (b == a) := by
  rw [Bool.eq_iff_iff, ha.beq_iff hb, hb.beq_iff ha]
  exact eq_comm

lemma Scalar.orElse (ha : a.Scalar) (hb : b.Scalar) : (a.orElse b).Scalar := by
  unfold Json.orElse
  split
  · exact ha
  · exact hb

lemma exists_of_sameFields {fields others : List (String × Json)} {k : String} (h : sameFields fields others)
    (hk : fields.lookup k = some a) : ∃ b, others.lookup k = some b ∧ same a b := by
  induction fields with
  | nil => cases hk
  | cons e rest ih =>
    obtain ⟨k', a'⟩ := e
    rw [sameFields, Bool.and_eq_true] at h
    rw [lookup_cons] at hk
    split at hk
    next hkey =>
      cases hk
      obtain rfl := LawfulBEq.eq_of_beq hkey
      split at h
      next b hb => exact ⟨b, hb, h.1⟩
      · cases h.1
    · exact ih h.2 hk

mutual

lemma same_trans : ∀ {a b c : Json}, same a b → same b c → same a c
  | null, b, c, hab, hbc => by cases b <;> simp_all [same]
  | boolean x, b, c, hab, hbc => by cases b <;> simp_all [same, numeric?]
  | number n, b, c, hab, hbc => by cases b <;> simp_all [same, numeric?]
  | text s, b, c, hab, hbc => by cases b <;> simp_all [same]
  | list xs, b, c, hab, hbc => by
      cases b <;> cases c <;> simp only [same, Bool.false_eq_true] at hab hbc ⊢
      exact sameLists_trans hab hbc
  | object fields, b, c, hab, hbc => by
      cases b <;> cases c <;> simp only [same, Bool.false_eq_true, Bool.and_eq_true, beq_iff_eq] at hab hbc ⊢
      exact ⟨hab.1.trans hbc.1, sameFields_trans hab.2 hbc.2⟩

lemma sameLists_trans : ∀ {xs ys zs : List Json}, sameLists xs ys → sameLists ys zs → sameLists xs zs
  | [], ys, zs, hxy, hyz => by cases ys <;> simp_all [sameLists]
  | x :: xs, ys, zs, hxy, hyz => by
      cases ys <;> cases zs <;> simp only [sameLists, Bool.false_eq_true, Bool.and_eq_true] at hxy hyz ⊢
      exact ⟨same_trans hxy.1 hyz.1, sameLists_trans hxy.2 hyz.2⟩

lemma sameFields_trans : ∀ {fields others last : List (String × Json)}, sameFields fields others →
    sameFields others last → sameFields fields last
  | [], _, _, _, _ => rfl
  | (k, x) :: rest, others, last, hxy, hyz => by
      simp only [sameFields, Bool.and_eq_true] at hxy ⊢
      refine ⟨?_, sameFields_trans hxy.2 hyz⟩
      cases hk : others.lookup k with
      | none => simp [hk] at hxy
      | some y =>
        rw [hk] at hxy
        obtain ⟨z, hz, hyz⟩ := exists_of_sameFields hyz hk
        rw [hz]
        exact same_trans hxy.1 hyz

end

lemma beq_trans {c : Json} (hab : a == b) (hbc : b == c) : a == c := same_trans hab hbc

end Json

section NewElements

variable {α : Type} [BEq α] {known xs : List α}

lemma isEmpty_addAllNew : (addAllNew known xs).isEmpty = (known ++ xs).isEmpty := by
  cases xs with
  | nil => rw [append_nil]; rfl
  | cons x rest =>
    have hx : ∃ u, u ∈ addNew known x := by
      unfold addNew
      split
      next hx =>
        obtain ⟨u, hu, -⟩ := contains_iff_exists_mem_beq.mp hx
        exact ⟨u, hu⟩
      · exact ⟨x, by simp⟩
    obtain ⟨u, hu⟩ := hx
    have hmem : u ∈ addAllNew (addNew known x) rest := mem_addAllNew_of_mem hu
    have hcons : addAllNew known (x :: rest) ≠ [] := ne_nil_of_mem hmem
    rw [isEmpty_eq_false_iff.mpr hcons, isEmpty_eq_false_iff.mpr (by simp)]

end NewElements

section Groups

variable {α β : Type} [BEq β]

def groupsBy (key : α → β) (seen : List β) : List α → List (α × List α)
  | [] => []
  | x :: rest =>
    if seen.contains (key x) then groupsBy key seen rest
    else (x, rest.filter (key · == key x)) :: groupsBy key (key x :: seen) rest

variable {key : α → β} {seen seen' : List β} {xs : List α}

lemma groupsBy_congr (h : ∀ b, seen.contains b = seen'.contains b) : groupsBy key seen xs = groupsBy key seen' xs := by
  induction xs generalizing seen seen' with
  | nil => rfl
  | cons x rest ih =>
    have hcons : ∀ b, (key x :: seen).contains b = (key x :: seen').contains b := by
      intro b
      rw [contains_cons, contains_cons, h b]
    rw [groupsBy, groupsBy, h (key x), ih h, ih hcons]

lemma not_contains_groupsBy {g : α × List α} (h : g ∈ groupsBy key seen xs) : ¬ seen.contains (key g.1) := by
  induction xs generalizing seen with
  | nil => cases h
  | cons x rest ih =>
    rw [groupsBy] at h
    split at h
    · exact ih h
    next hx =>
      obtain rfl | h := mem_cons.mp h
      · exact hx
      · have hg := ih h
        rw [contains_cons, Bool.or_eq_true, not_or] at hg
        exact hg.2

lemma pairwise_groupsBy : (groupsBy key seen xs).Pairwise fun g g' => ¬ key g'.1 == key g.1 := by
  induction xs generalizing seen with
  | nil => exact .nil
  | cons x rest ih =>
    rw [groupsBy]
    split
    · exact ih
    · refine .cons (fun g hg => ?_) ih
      have hfresh := not_contains_groupsBy hg
      rw [contains_cons, Bool.or_eq_true, not_or] at hfresh
      exact hfresh.1

lemma groupsBy_of_pairwise (hdist : xs.Pairwise fun x y => ¬ key y == key x)
    (hfresh : ∀ x ∈ xs, ¬ seen.contains (key x)) : groupsBy key seen xs = xs.map (·, []) := by
  induction xs generalizing seen with
  | nil => rfl
  | cons x rest ih =>
    obtain ⟨hx, hrest⟩ := pairwise_cons.mp hdist
    obtain ⟨hxfresh, hrestfresh⟩ := forall_mem_cons.mp hfresh
    have hlater : rest.filter (key · == key x) = [] := filter_eq_nil_iff.mpr hx
    have hseen : ∀ y ∈ rest, ¬ (key x :: seen).contains (key y) := by
      intro y hy
      rw [contains_cons, Bool.or_eq_true, not_or]
      exact ⟨hx y hy, hrestfresh y hy⟩
    rw [groupsBy, if_neg hxfresh, hlater, ih hrest hseen, map_cons]

lemma mem_of_mem_groupsBy {g : α × List α} (h : g ∈ groupsBy key seen xs) : g.1 ∈ xs ∧ ∀ y ∈ g.2, y ∈ xs := by
  induction xs generalizing seen with
  | nil => cases h
  | cons x rest ih =>
    rw [groupsBy] at h
    split at h
    · exact ⟨mem_cons_of_mem _ (ih h).1, fun y hy => mem_cons_of_mem _ ((ih h).2 y hy)⟩
    · obtain rfl | h := mem_cons.mp h
      · exact ⟨mem_cons_self, fun y hy => mem_cons_of_mem _ ((mem_filter.mp hy).1)⟩
      · exact ⟨mem_cons_of_mem _ (ih h).1, fun y hy => mem_cons_of_mem _ ((ih h).2 y hy)⟩

lemma groupsBy_append_singleton {x : α} (hx : seen.contains (key x)) (h : ∀ y ∈ xs, ¬ key x == key y) :
    groupsBy key seen (xs ++ [x]) = groupsBy key seen xs := by
  induction xs generalizing seen with
  | nil => rw [nil_append, groupsBy.eq_2, if_pos hx]
  | cons y rest ih =>
    obtain ⟨hy, hrest⟩ := forall_mem_cons.mp h
    have hcons : (key y :: seen).contains (key x) := by rw [contains_cons, hx, Bool.or_true]
    rw [cons_append, groupsBy, groupsBy, ih hx hrest, ih hcons hrest]
    simp [hy]

end Groups

namespace SiteParam

variable {p q : SiteParam} {ps own later pre after : List SiteParam}

/-- A parameter whose name is no list or object, and whose values are a list if there are any. -/
structure Plain (p : SiteParam) : Prop where
  name : (name p).Scalar
  values : (p.getD "values" .null).isTruthy → ∃ xs, p.getD "values" .null = .list xs

def observed (p : SiteParam) : List Json :=
  match p.getD "values" .null with
  | .list xs => xs
  | _ => []

def gain (p : SiteParam) (new : List Json) : SiteParam :=
  if new.isEmpty then p else p.insert "values" (.list (addAllNew (observed p) new))

lemma Plain.values_eq (h : Plain p) : SiteParam.values p = .ok (observed p) := by
  unfold SiteParam.values observed
  dsimp only
  split
  next ht =>
    obtain ⟨xs, hxs⟩ := h.values ht
    rw [hxs]
    rfl
  next hf =>
    split
    next xs hxs =>
      rw [hxs] at hf
      simp only [Json.isTruthy, Bool.not_eq_true', Bool.not_eq_false, List.isEmpty_iff] at hf
      rw [hf]
    · rfl

@[simp] lemma name_gain (new : List Json) : name (gain p new) = name p := by
  unfold gain
  split
  · rfl
  · simp only [name, Table.getD]
    rw [Table.get?_insert_of_ne (by decide)]

lemma Plain.gain (h : Plain p) (new : List Json) : Plain (gain p new) := by
  refine ⟨by rw [name_gain]; exact h.name, fun ht => ?_⟩
  unfold SiteParam.gain at ht ⊢
  split
  next hnew => exact h.values (by simpa [hnew] using ht)
  · exact ⟨_, by rw [Table.getD, get?_insert_self]; rfl⟩

lemma gain_gain (xs ys : List Json) : gain (gain p xs) ys = gain p (xs ++ ys) := by
  cases xs with
  | nil => simp [gain]
  | cons x xs =>
    cases ys with
    | nil => simp [gain]
    | cons y ys =>
      have hobserved (zs : List Json) : observed (p.insert "values" (.list zs)) = zs := by
        unfold observed Table.getD
        rw [get?_insert_self]
        rfl
      simp only [gain, isEmpty_cons, Bool.false_eq_true, if_false, cons_append, hobserved, insert_insert]
      simp [addAllNew, foldl_append]

lemma Plain.beq_comm (hp : Plain p) (hq : Plain q) :
    (SiteParam.name p == SiteParam.name q) = (SiteParam.name q == SiteParam.name p) := hp.name.beq_comm hq.name

def valuesNamed (p : SiteParam) (ps : List SiteParam) : List Json :=
  (ps.filter (name · == name p)).flatMap observed

def withLater (later : List SiteParam) : List SiteParam → List SiteParam
  | [] => []
  | p :: rest => (if rest.any (name · == name p) then p else gain p (valuesNamed p later)) :: withLater later rest

def joinLists (own later : List SiteParam) : List SiteParam :=
  withLater later own ++ (groupsBy name (own.map name) later).map fun g => gain g.1 (g.2.flatMap observed)

lemma joinInto_append (xs ys : List SiteParam) (h : ∀ r ∈ xs, ¬ name r == name p) :
    joinInto p (xs ++ ys) = (joinInto p ys).map (Option.map (xs ++ ·)) := by
  induction xs with
  | nil => cases hys : joinInto p ys <;> simp [hys, Except.map]
  | cons x xs ih =>
    obtain ⟨hx, hxs⟩ := forall_mem_cons.mp h
    rw [cons_append, joinInto, if_neg hx, ih hxs]
    cases joinInto p ys with
    | error e => rfl
    | ok r => cases r <;> rfl

lemma addTo_of_none (h : ∀ q ∈ ps, ¬ name q == name p) : addTo ps p = .ok (ps ++ [p]) := by
  have hjoin := joinInto_append ps.reverse [] fun r hr => h r (mem_reverse.mp hr)
  rw [append_nil] at hjoin
  unfold addTo
  rw [hjoin]
  rfl

lemma addTo_of_last (hp : Plain p) (hq : Plain q) (hname : name q == name p) (h : ∀ r ∈ after, ¬ name r == name p) :
    addTo (pre ++ q :: after) p = .ok (pre ++ gain q (observed p) :: after) := by
  have hhead : joinInto p (q :: pre.reverse) = .ok (some (gain q (observed p) :: pre.reverse)) := by
    rw [joinInto, if_pos hname, hp.values_eq]
    simp only [bind, Except.bind, gain, addValues, hq.values_eq]
    split <;> rfl
  have hjoin := joinInto_append after.reverse (q :: pre.reverse) fun r hr => h r (mem_reverse.mp hr)
  unfold addTo
  rw [reverse_append, reverse_cons, append_assoc, singleton_append, hjoin, hhead]
  simp [Except.map, bind, Except.bind, pure, Except.pure]

lemma valuesNamed_cons_of_not {r : SiteParam} (h : ¬ name p == name r) :
    valuesNamed r (p :: later) = valuesNamed r later := by
  simp [valuesNamed, h]

lemma valuesNamed_cons {r : SiteParam} (h : name p == name r) :
    valuesNamed r (p :: later) = observed p ++ valuesNamed r later := by
  simp [valuesNamed, h]

lemma withLater_cons_of_none (h : ∀ q ∈ ps, ¬ name p == name q) : withLater (p :: later) ps = withLater later ps := by
  induction ps with
  | nil => rfl
  | cons q rest ih =>
    obtain ⟨hq, hrest⟩ := forall_mem_cons.mp h
    rw [withLater, withLater, ih hrest, valuesNamed_cons_of_not hq]

lemma withLater_cons_of_last (hp : Plain p) (hall : ∀ r ∈ pre ++ q :: after, Plain r)
    (hname : name q == name p) (h : ∀ r ∈ after, ¬ name r == name p) :
    withLater (p :: later) (pre ++ q :: after) = withLater later (pre ++ gain q (observed p) :: after) := by
  induction pre with
  | nil =>
    obtain ⟨hq, hafter⟩ := forall_mem_cons.mp hall
    have hlast : ¬ after.any (name · == name q) := by
      simp only [any_eq_true, not_exists, not_and]
      exact fun r hr hrq => h r hr (Json.beq_trans hrq hname)
    have hcons : ∀ r ∈ after, ¬ name p == name r := by
      intro r hr
      rw [hp.beq_comm (hafter r hr)]
      exact h r hr
    have hvals : valuesNamed (gain q (observed p)) later = valuesNamed q later := by simp [valuesNamed]
    simp only [nil_append, withLater, name_gain, if_neg hlast, hvals]
    rw [gain_gain, valuesNamed_cons (hp.beq_comm hq ▸ hname), withLater_cons_of_none hcons]
  | cons b pre ih =>
    obtain ⟨hb, hrest⟩ := forall_mem_cons.mp hall
    have hsame : (pre ++ gain q (observed p) :: after).any (name · == name b) =
        (pre ++ q :: after).any (name · == name b) := by
      simp
    simp only [cons_append, withLater, ih hrest, hsame]
    split
    · rfl
    next hlast =>
      have hbp : ¬ name p == name b := by
        intro hpb
        have hqb := Json.beq_trans hname hpb
        exact hlast (any_eq_true.mpr ⟨q, by simp, hqb⟩)
      rw [valuesNamed_cons_of_not hbp]

lemma withLater_append_singleton (hp : Plain p) (hps : ∀ r ∈ ps, Plain r) (h : ∀ q ∈ ps, ¬ name q == name p) :
    withLater later (ps ++ [p]) = withLater (p :: later) ps ++ [gain p (valuesNamed p later)] := by
  induction ps with
  | nil => rfl
  | cons q rest ih =>
    obtain ⟨hq, hrest⟩ := forall_mem_cons.mp h
    obtain ⟨hplain, hplains⟩ := forall_mem_cons.mp hps
    have hpq : ¬ name p == name q := hp.beq_comm hplain ▸ hq
    rw [cons_append, withLater, withLater, ih hplains hrest, valuesNamed_cons_of_not hpq]
    simp [hpq]

lemma exists_last {α : Type} {xs : List α} {P : α → Prop} (h : ∃ x ∈ xs, P x) :
    ∃ pre x after, xs = pre ++ x :: after ∧ P x ∧ ∀ y ∈ after, ¬ P y := by
  induction xs with
  | nil => simp at h
  | cons x rest ih =>
    by_cases hrest : ∃ y ∈ rest, P y
    · obtain ⟨pre, y, after, rfl, hy, hafter⟩ := ih hrest
      exact ⟨x :: pre, y, after, rfl, hy, hafter⟩
    · obtain ⟨y, hy, hP⟩ := h
      obtain rfl | hy := mem_cons.mp hy
      · exact ⟨[], y, rest, rfl, hP, fun z hz hPz => hrest ⟨z, hz, hPz⟩⟩
      · exact (hrest ⟨y, hy, hP⟩).elim

lemma foldlM_addTo (hown : ∀ p ∈ own, Plain p) (hlater : ∀ p ∈ later, Plain p) :
    later.foldlM addTo own = .ok (joinLists own later) := by
  induction later generalizing own with
  | nil =>
    have hnone : withLater [] own = own := by
      induction own with
      | nil => rfl
      | cons p rest ih => simp [withLater, ih (forall_mem_cons.mp hown).2, valuesNamed, gain]
    simp [joinLists, groupsBy, hnone, pure, Except.pure]
  | cons p later ih =>
    obtain ⟨hp, hlater⟩ := forall_mem_cons.mp hlater
    rw [foldlM_cons]
    by_cases hseen : ∃ q ∈ own, name q == name p
    · obtain ⟨pre, q, after, rfl, hname, hafter⟩ := exists_last hseen
      have hq := hown q (by simp)
      have hnames : (pre ++ gain q (observed p) :: after).map name = (pre ++ q :: after).map name := by
        simp
      have hplain : ∀ r ∈ pre ++ gain q (observed p) :: after, Plain r := by
        intro r hr
        simp only [mem_append, mem_cons] at hr
        rcases hr with hr | rfl | hr
        · exact hown r (by simp [hr])
        · exact hq.gain _
        · exact hown r (by simp [hr])
      have hcont : ((pre ++ q :: after).map name).contains (name p) := by
        rw [contains_iff_exists_mem_beq]
        exact ⟨name q, by simp, hp.beq_comm hq ▸ hname⟩
      rw [addTo_of_last hp hq hname hafter]
      simp only [bind, Except.bind]
      rw [ih hplain hlater]
      simp only [joinLists, hnames, groupsBy, hcont, if_true, withLater_cons_of_last hp hown hname hafter]
    · have hnone : ∀ q ∈ own, ¬ name q == name p := fun q hq h => hseen ⟨q, hq, h⟩
      have hcont : ¬ (own.map name).contains (name p) := by
        rw [contains_iff_exists_mem_beq]
        rintro ⟨_, hmem, hbeq⟩
        obtain ⟨q, hq, rfl⟩ := mem_map.mp hmem
        exact hnone q hq (hp.beq_comm (hown q hq) ▸ hbeq)
      have hseen : ∀ b, ((own ++ [p]).map name).contains b = (name p :: own.map name).contains b := by
        simp [Bool.or_comm]
      rw [addTo_of_none hnone]
      simp only [bind, Except.bind]
      rw [ih (by simpa [or_imp, forall_and] using ⟨hown, hp⟩) hlater]
      simp only [joinLists, groupsBy, hcont, Bool.false_eq_true, if_false, map_cons,
        groupsBy_congr hseen, withLater_append_singleton hp hown hnone, append_assoc,
        singleton_append, valuesNamed]

lemma plain_withLater (h : ∀ p ∈ ps, Plain p) : ∀ p ∈ withLater later ps, Plain p := by
  induction ps with
  | nil => simp [withLater]
  | cons p rest ih =>
    obtain ⟨hp, hrest⟩ := forall_mem_cons.mp h
    refine forall_mem_cons.mpr ⟨?_, ih hrest⟩
    split
    · exact hp
    · exact hp.gain _

lemma plain_joinLists (hown : ∀ p ∈ own, Plain p) (hlater : ∀ p ∈ later, Plain p) :
    ∀ p ∈ joinLists own later, Plain p := by
  refine forall_mem_append.mpr ⟨plain_withLater hown, fun p hp => ?_⟩
  obtain ⟨g, hg, rfl⟩ := mem_map.mp hp
  exact (hlater _ (mem_of_mem_groupsBy hg).1).gain _

lemma joinLists_append {last : List SiteParam} (hown : ∀ p ∈ own, Plain p) (hlater : ∀ p ∈ later, Plain p)
    (hlast : ∀ p ∈ last, Plain p) : joinLists own (later ++ last) = joinLists (joinLists own later) last := by
  have hall := foldlM_addTo hown (forall_mem_append.mpr ⟨hlater, hlast⟩)
  rw [foldlM_append, foldlM_addTo hown hlater] at hall
  simp only [bind, Except.bind] at hall
  rw [foldlM_addTo (plain_joinLists hown hlater) hlast] at hall
  exact (Except.ok.inj hall).symm

lemma gain_observed_gain (xs : List Json) : gain p (observed (gain q xs)) = gain p (observed q ++ xs) := by
  cases xs with
  | nil => simp [gain]
  | cons x xs =>
    have hobserved : observed (gain q (x :: xs)) = addAllNew (observed q) (x :: xs) := by
      simp [observed, gain, Table.getD, get?_insert_self]
    rw [hobserved, gain, gain, isEmpty_addAllNew, addAllNew_addAllNew_of_trans fun _ _ _ => Json.same_trans]

lemma joinLists_nil (hown : ∀ q ∈ own, Plain q) : joinLists own [] = own :=
  (Except.ok.inj (foldlM_addTo hown (forall_mem_nil _))).symm

lemma joinLists_of_none (hown : ∀ q ∈ own, Plain q) (hp : Plain p) (h : ∀ q ∈ own, ¬ name q == name p) :
    joinLists own [p] = own ++ [p] := by
  have hfold := foldlM_addTo hown (forall_mem_singleton.mpr hp)
  rw [foldlM_cons, addTo_of_none h] at hfold
  exact (Except.ok.inj hfold).symm

lemma joinLists_of_last (hp : Plain p) (hown : ∀ r ∈ pre ++ q :: after, Plain r)
    (hname : name q == name p) (h : ∀ r ∈ after, ¬ name r == name p) :
    joinLists (pre ++ q :: after) [p] = pre ++ gain q (observed p) :: after := by
  have hfold := foldlM_addTo hown (forall_mem_singleton.mpr hp)
  rw [foldlM_cons, addTo_of_last hp (hown q (by simp)) hname h] at hfold
  exact (Except.ok.inj hfold).symm

lemma joinLists_append_singleton (hown : ∀ q ∈ own, Plain q) (hlater : ∀ q ∈ later, Plain q) (hp : Plain p)
    (hname : ∃ q ∈ own, name q == name p) (h : ∀ q ∈ later, ¬ name q == name p) :
    joinLists own (later ++ [p]) = joinLists own (p :: later) := by
  have hcont : (own.map name).contains (name p) := by
    obtain ⟨q, hq, hqp⟩ := hname
    rw [contains_iff_exists_mem_beq]
    exact ⟨name q, mem_map_of_mem hq, hp.beq_comm (hown q hq) ▸ hqp⟩
  have hnone : ∀ q ∈ later, ¬ name p == name q := fun q hq => hp.beq_comm (hlater q hq) ▸ h q hq
  have hvals : ∀ r, Plain r → valuesNamed r (later ++ [p]) = valuesNamed r (p :: later) := by
    intro r hr
    by_cases hpr : name p == name r
    · have hempty : later.filter (name · == name r) = [] := by
        refine filter_eq_nil_iff.mpr fun q hq hqr => h q hq ?_
        exact Json.beq_trans hqr (hr.beq_comm hp ▸ hpr)
      simp [valuesNamed, hempty, hpr]
    · simp [valuesNamed, hpr]
  have hwith : ∀ rs, (∀ r ∈ rs, Plain r) → withLater (later ++ [p]) rs = withLater (p :: later) rs := by
    intro rs hrs
    induction rs with
    | nil => rfl
    | cons r rest ih =>
      obtain ⟨hr, hrest⟩ := forall_mem_cons.mp hrs
      rw [withLater, withLater, hvals r hr, ih hrest]
  rw [joinLists, joinLists, hwith own hown, groupsBy_append_singleton hcont hnone, groupsBy, if_pos hcont]

lemma joinLists_pair (hown : ∀ r ∈ own, Plain r) (hq : Plain q) (hp : Plain p) (hname : name q == name p) :
    joinLists (joinLists own [q]) [p] = joinLists own [gain q (observed p)] := by
  have hgain := hq.gain (observed p)
  by_cases hseen : ∃ r ∈ own, name r == name q
  · obtain ⟨pre, r, after, rfl, hrq, hafter⟩ := exists_last hseen
    have hrp := Json.beq_trans hrq hname
    have hafter' : ∀ t ∈ after, ¬ name t == name p := by
      intro t ht htp
      exact hafter t ht (Json.beq_trans htp (hp.beq_comm hq ▸ hname))
    have hplain := plain_joinLists hown (forall_mem_singleton.mpr hq)
    rw [joinLists_of_last hq hown hrq hafter] at hplain ⊢
    rw [joinLists_of_last hp hplain (by simpa using hrp) hafter', gain_gain,
      joinLists_of_last hgain hown (by simpa using hrq) (by simpa using hafter),
      gain_observed_gain]
  · have hnone : ∀ r ∈ own, ¬ name r == name q := fun r hr h => hseen ⟨r, hr, h⟩
    have hplain := plain_joinLists hown (forall_mem_singleton.mpr hq)
    rw [joinLists_of_none hown hq hnone] at hplain ⊢
    rw [joinLists_of_last hp hplain hname (forall_mem_nil _),
      joinLists_of_none hown hgain (by simpa using hnone)]

lemma exists_mem_joinLists_singleton (hown : ∀ r ∈ own, Plain r) (hq : Plain q) (hname : name q == name p) :
    ∃ r ∈ joinLists own [q], name r == name p := by
  by_cases hseen : ∃ r ∈ own, name r == name q
  · obtain ⟨pre, r, after, rfl, hrq, hafter⟩ := exists_last hseen
    rw [joinLists_of_last hq hown hrq hafter]
    exact ⟨gain r (observed q), by simp, by simpa using Json.beq_trans hrq hname⟩
  · rw [joinLists_of_none hown hq fun r hr h => hseen ⟨r, hr, h⟩]
    exact ⟨q, by simp, hname⟩

lemma joinLists_joinLists_singleton (hown : ∀ q ∈ own, Plain q) (hps : ∀ q ∈ ps, Plain q) (hp : Plain p) :
    joinLists own (joinLists ps [p]) = joinLists own (ps ++ [p]) := by
  by_cases hseen : ∃ q ∈ ps, name q == name p
  · obtain ⟨pre, q, after, rfl, hname, hafter⟩ := exists_last hseen
    obtain ⟨hbefore, hrest⟩ := forall_mem_append.mp hps
    obtain ⟨hq, hafterplain⟩ := forall_mem_cons.mp hrest
    have hone : ∀ r ∈ [p], Plain r := forall_mem_singleton.mpr hp
    have hqone : ∀ r ∈ [q], Plain r := forall_mem_singleton.mpr hq
    have hgain : ∀ r ∈ [gain q (observed p)], Plain r := forall_mem_singleton.mpr (hq.gain _)
    have hA := plain_joinLists hown hbefore
    have hB := plain_joinLists hA hqone
    have hknown := exists_mem_joinLists_singleton hA hq hname
    calc joinLists own (joinLists (pre ++ q :: after) [p])
        = joinLists own (pre ++ ([gain q (observed p)] ++ after)) := by
          rw [joinLists_of_last hp hps hname hafter, singleton_append]
      _ = joinLists (joinLists (joinLists own pre) [gain q (observed p)]) after := by
          rw [joinLists_append hown hbefore (forall_mem_append.mpr ⟨hgain, hafterplain⟩),
            joinLists_append hA hgain hafterplain]
      _ = joinLists (joinLists (joinLists own pre) [q]) ([p] ++ after) := by
          rw [← joinLists_pair hA hq hp hname, joinLists_append hB hone hafterplain]
      _ = joinLists (joinLists (joinLists own pre) [q]) (after ++ [p]) :=
          (joinLists_append_singleton hB hafterplain hp hknown hafter).symm
      _ = joinLists own (pre ++ ([q] ++ (after ++ [p]))) := by
          rw [joinLists_append hown hbefore (by simp_all [or_imp]),
            joinLists_append hA hqone (forall_mem_append.mpr ⟨hafterplain, hone⟩)]
      _ = joinLists own (pre ++ q :: after ++ [p]) := by simp
  · have hnone : ∀ q ∈ ps, ¬ name q == name p := fun q hq h => hseen ⟨q, hq, h⟩
    rw [joinLists_of_none hps hp hnone]

lemma joinLists_joinLists (hown : ∀ q ∈ own, Plain q) (hps : ∀ q ∈ ps, Plain q) (hlater : ∀ q ∈ later, Plain q) :
    joinLists own (joinLists ps later) = joinLists own (ps ++ later) := by
  induction later generalizing ps with
  | nil => rw [joinLists_nil hps, append_nil]
  | cons p rest ih =>
    obtain ⟨hp, hrest⟩ := forall_mem_cons.mp hlater
    have hone : ∀ q ∈ [p], Plain q := forall_mem_singleton.mpr hp
    calc joinLists own (joinLists ps (p :: rest))
        = joinLists own (joinLists ps [p] ++ rest) := by
          rw [← singleton_append, joinLists_append hps hone hrest, ih (plain_joinLists hps hone) hrest]
      _ = joinLists (joinLists own (ps ++ [p])) rest := by
          rw [joinLists_append hown (plain_joinLists hps hone) hrest, joinLists_joinLists_singleton hown hps hp]
      _ = joinLists own (ps ++ p :: rest) := by
          rw [← joinLists_append hown (forall_mem_append.mpr ⟨hps, hone⟩) hrest, append_assoc, singleton_append]

lemma isEmpty_joinLists : (joinLists own later).isEmpty = (own ++ later).isEmpty := by
  cases own with
  | nil => cases later <;> simp [joinLists, withLater, groupsBy]
  | cons p rest => simp [joinLists, withLater]

end SiteParam

namespace SiteParams

variable {ps : SiteParams} {new last : List SiteParam}

def withMore (ps : SiteParams) (new : List SiteParam) : SiteParams :=
  if new.isEmpty then ps else listed (joinLists ps.toList new)

lemma withMore_append (hps : ∀ p ∈ ps.toList, SiteParam.Plain p) (hnew : ∀ p ∈ new, SiteParam.Plain p)
    (hlast : ∀ p ∈ last, SiteParam.Plain p) : ps.withMore (new ++ last) = (ps.withMore new).withMore last := by
  cases new with
  | nil => rfl
  | cons p new =>
    cases last with
    | nil => simp [withMore]
    | cons q last => exact congrArg listed (joinLists_append hps hnew hlast)

lemma plain_withMore (hps : ∀ p ∈ ps.toList, SiteParam.Plain p) (hnew : ∀ p ∈ new, SiteParam.Plain p) :
    ∀ p ∈ (ps.withMore new).toList, SiteParam.Plain p := by
  unfold withMore
  split
  · exact hps
  · exact plain_joinLists hps hnew

lemma isEmpty_toList_withMore (new : List SiteParam) :
    (ps.withMore new).toList.isEmpty = (ps.toList ++ new).isEmpty := by
  cases new with
  | nil => rw [append_nil]; rfl
  | cons p rest => exact isEmpty_joinLists

lemma withMore_toList_withMore {own : SiteParams} (hown : ∀ p ∈ own.toList, SiteParam.Plain p)
    (hps : ∀ p ∈ ps.toList, SiteParam.Plain p) (hnew : ∀ p ∈ new, SiteParam.Plain p) :
    own.withMore (ps.withMore new).toList = own.withMore (ps.toList ++ new) := by
  cases new with
  | nil => rw [append_nil]; rfl
  | cons p rest =>
    have hlisted : (ps.withMore (p :: rest)).toList = joinLists ps.toList (p :: rest) := rfl
    rw [hlisted, withMore, withMore, isEmpty_joinLists, joinLists_joinLists hown hps hnew]

end SiteParams

end ScriptAudit
