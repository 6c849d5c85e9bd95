import Mathlib.Tactic.Lemma
import ScriptAudit.Distinct
import ScriptAudit.Table
import ScriptAudit.Tree.NodeMap

/-!
# What tables hold

What every value of a table has is kept when values that have it are entered; the same goes for
memos, maps from nodes and lists without repetition.
-/

namespace ScriptAudit

open List

lemma mem_of_lookup {κ α : Type} [BEq κ] {k : κ} {a : α} {es : List (κ × α)}
    (h : es.lookup k = some a) : ∃ k', (k', a) ∈ es := by
  rw [lookup_eq_findSome?] at h
  obtain ⟨⟨k', b⟩, hmem, hb⟩ := exists_of_findSome?_eq_some h
  split at hb <;> cases hb
  exact ⟨k', hmem⟩

namespace Table

variable {κ α : Type} {P : α → Prop} {t : Table κ α}

def All (P : α → Prop) (t : Table κ α) : Prop :=
  ∀ e ∈ t.entries, P e.2

lemma all_empty : (empty : Table κ α).All P := by
  intro e he
  cases he

lemma All.foldl {es : List (κ × α)} {step : Table κ α → κ × α → Table κ α} (h : t.All P)
    (hstep : ∀ t e, t.All P → P e.2 → (step t e).All P) (hes : ∀ e ∈ es, P e.2) : (es.foldl step t).All P := by
  induction es generalizing t with
  | nil => exact h
  | cons e rest ih =>
    simp only [forall_mem_cons] at hes
    exact ih (hstep t e h hes.1) hes.2

variable [BEq κ] {k : κ} {a : α}

lemma All.get? (h : t.All P) (hk : t.get? k = some a) : P a := by
  obtain ⟨k', hmem⟩ := mem_of_lookup hk
  exact h _ hmem

lemma All.alter {f : Option α → α} (h : t.All P) (hnone : P (f none))
    (hsome : ∀ a, P a → P (f (some a))) : (t.alter k f).All P := by
  have entries : ∀ es : List (κ × α), (∀ e ∈ es, P e.2) → ∀ e ∈ alterEntries k f es, P e.2 := by
    intro es
    induction es with
    | nil => simp [alterEntries, hnone]
    | cons e rest ih =>
      intro hes
      have hrest := ih fun e he => hes e (mem_cons_of_mem _ he)
      have he := hes e mem_cons_self
      rw [alterEntries]
      split
      · simp only [forall_mem_cons]
        exact ⟨hsome _ he, fun e he => hes e (mem_cons_of_mem _ he)⟩
      · simp only [forall_mem_cons]
        exact ⟨he, hrest⟩
  exact entries t.entries h

lemma All.insert (h : t.All P) (ha : P a) : (t.insert k a).All P := h.alter ha fun _ _ => ha

lemma All.insertNew (h : t.All P) (ha : P a) : (t.insertNew k a).All P := by
  unfold Table.insertNew
  split
  · exact h
  · intro e he
    obtain he | he := mem_append.mp he
    · exact h e he
    · obtain rfl := mem_singleton.mp he
      exact ha

variable {β : Type} {R : β → Prop} {u : Table κ (List β)} {b : β}

lemma All.push (h : u.All fun bs => ∀ b ∈ bs, R b) (hb : R b) : (u.push k b).All fun bs => ∀ b ∈ bs, R b := by
  refine h.alter (by simpa using hb) fun bs hbs c hc => ?_
  obtain hc | hc := mem_append.mp hc
  · exact hbs c hc
  · obtain rfl := mem_singleton.mp hc
    exact hb

lemma All.mem_getD (h : u.All fun bs => ∀ b ∈ bs, R b) (hb : b ∈ u.getD k []) : R b := by
  unfold Table.getD at hb
  cases hk : u.get? k with
  | none => simp [hk] at hb
  | some bs =>
    rw [hk] at hb
    exact h.get? hk b hb

section Lookup

variable {κ α : Type} [BEq κ] [LawfulBEq κ] {k k' : κ} {a : α} {t : Table κ α}

lemma get?_alter_self (f : Option α → α) : (t.alter k f).get? k = some (f (t.get? k)) := by
  obtain ⟨es⟩ := t
  simp only [get?, alter]
  induction es with
  | nil => simp [alterEntries]
  | cons e rest ih =>
    obtain ⟨key, value⟩ := e
    rw [alterEntries]
    split
    next h => simp [lookup_cons, h]
    next h => simpa [lookup_cons, h] using ih

lemma get?_alter_of_ne (f : Option α → α) (h : k' ≠ k) : (t.alter k f).get? k' = t.get? k' := by
  obtain ⟨es⟩ := t
  simp only [get?, alter]
  induction es with
  | nil => simp [alterEntries, h]
  | cons e rest ih =>
    obtain ⟨key, value⟩ := e
    rw [alterEntries]
    split
    next heq =>
      have hkey : (k' == key) = false := by
        obtain rfl := LawfulBEq.eq_of_beq heq
        simpa using h
      simp [lookup_cons, hkey]
    · simp [lookup_cons, ih]

lemma get?_insert_self : (t.insert k a).get? k = some a := get?_alter_self _

lemma get?_insert_of_ne (h : k' ≠ k) : (t.insert k a).get? k' = t.get? k' := get?_alter_of_ne _ h

lemma getD_push {α : Type} {t : Table String (List α)} {x y : String} {n : α} :
    (t.push y n).getD x [] = t.getD x [] ++ if y = x then [n] else [] := by
  unfold getD push
  by_cases eq : y = x
  · subst eq
    rw [get?_alter_self]
    cases t.get? y <;> simp
  · rw [get?_alter_of_ne _ (Ne.symm eq)]
    simp [eq]

lemma insert_insert (b : α) : (t.insert k a).insert k b = t.insert k b := by
  obtain ⟨es⟩ := t
  simp only [insert, alter, mk.injEq]
  induction es with
  | nil => simp [alterEntries]
  | cons e rest ih =>
    obtain ⟨key, value⟩ := e
    by_cases h : k == key
    · simp [alterEntries, h]
    · simp [alterEntries, h, ih]

lemma get?_insertNew : (t.insertNew k a).get? k' = (t.get? k').or (if k' == k then some a else none) := by
  unfold insertNew contains
  cases hk : t.get? k with
  | none =>
    simp only [get?, Option.isSome_none, Bool.false_eq_true, if_false, lookup_append, lookup_cons, lookup_nil]
    split <;> simp_all
  | some b =>
    by_cases h : k' = k
    · subst h
      simp [hk]
    · simp [h]

end Lookup

end Table

namespace Memo

variable {κ α : Type} {P : α → Prop} {t : Memo κ α} {k : κ} {a : α}

def All (P : α → Prop) (t : Memo κ α) : Prop :=
  ∀ e ∈ t.entries, P e.2

lemma all_empty : (empty : Memo κ α).All P := by
  intro e he
  cases he

lemma All.get? [BEq κ] (h : t.All P) (hk : t.get? k = some a) : P a := by
  obtain ⟨k', hmem⟩ := mem_of_lookup hk
  exact h _ hmem

lemma All.insert (h : t.All P) (ha : P a) : (t.insert k a).All P := by
  intro e he
  obtain rfl | he := mem_cons.mp he
  · exact ha
  · exact h e he

end Memo

namespace NodeMap

variable {α : Type} {m : NodeMap α} {n k : Node} {a x : α}

lemma get?_empty (size : Nat) : (empty size : NodeMap α).get? k = none := by
  unfold get? empty
  cases k.number? with
  | none => rfl
  | some i =>
    simp only [Option.bind_some, Array.getElem?_replicate]
    split <;> rfl

lemma get?_insert : (m.insert n a).get? k =
    if k.number? = n.number? ∧ n.number?.any (· < m.slots.size) then some a else m.get? k := by
  unfold insert get?
  cases hn : n.number? with
  | none => simp
  | some i =>
    cases hk : k.number? with
    | none => simp
    | some j =>
      by_cases hij : i = j <;> by_cases hi : i < m.slots.size <;> grind

lemma eq_or_get?_of_get?_insert (h : (m.insert n a).get? k = some x) : x = a ∨ m.get? k = some x := by
  rw [get?_insert] at h
  split at h
  · exact .inl (Option.some.inj h).symm
  · exact .inr h

lemma get?_insert_self {i : Nat} (hn : n.number? = some i) (hi : i < m.slots.size) :
    (m.insert n a).get? n = some a := by
  rw [get?_insert, if_pos ⟨rfl, by simpa [hn] using hi⟩]

lemma get?_insert_of_ne (h : k.number? ≠ n.number?) : (m.insert n a).get? k = m.get? k := by
  rw [get?_insert, if_neg (mt And.left h)]

lemma size_insert : (m.insert n a).slots.size = m.slots.size := by
  unfold insert
  split <;> simp

end NodeMap

section Distinct

variable {α β : Type} {xs known new : List α} {a : α}

lemma freshBy_sublist [BEq β] (key : α → β) (seen : List β) (xs : List α) : (freshBy key seen xs).Sublist xs := by
  induction xs generalizing seen with
  | nil => exact .slnil
  | cons x rest ih =>
    rw [freshBy]
    split
    · exact (ih seen).cons x
    · exact (ih _).cons_cons x

lemma addAllNew_eq_append_freshBy [BEq α] {seen : List α}
    (same : ∀ a, seen.contains a = known.contains a) : addAllNew known xs = known ++ freshBy id seen xs := by
  induction xs generalizing known seen with
  | nil => simp [addAllNew, freshBy]
  | cons x rest ih =>
    rw [addAllNew, foldl_cons, freshBy, addNew, id, same]
    split
    · exact ih same
    · have more (a : α) : (x :: seen).contains a = (known ++ [x]).contains a := by
        simp [same, Bool.or_comm]
      exact (ih more).trans (append_assoc _ _ _)

lemma addAllNew_nil [BEq α] (xs : List α) : addAllNew [] xs = distinct xs :=
  addAllNew_eq_append_freshBy fun _ => rfl

lemma mem_distinctBy_mem [BEq β] {key : α → β} (h : a ∈ distinctBy key xs) : a ∈ xs :=
  (freshBy_sublist key [] xs).mem h

lemma freshBy_prefix_append [BEq β] (key : α → β) (seen : List β) (xs ys : List α) :
    freshBy key seen xs <+: freshBy key seen (xs ++ ys) := by
  induction xs generalizing seen with
  | nil => exact nil_prefix
  | cons x rest ih =>
    rw [cons_append, freshBy, freshBy]
    split
    · exact ih seen
    · exact (prefix_cons_inj x).mpr (ih _)

lemma marks_freshBy {γ : Type} [BEq β] {mark : β → γ} (hmark : ∀ k l, (k == l) = true ↔ mark k = mark l) (key : α → β)
    (seen : List β) (xs : List α) : ((freshBy key seen xs).map (mark <| key ·)).Nodup ∧
      (∀ x ∈ freshBy key seen xs, mark (key x) ∉ seen.map mark) ∧
      ∀ x ∈ xs, mark (key x) ∈ seen.map mark ∨ mark (key x) ∈ (freshBy key seen xs).map (mark <| key ·) := by
  have hseen (seen : List β) (k : β) : seen.contains k = true ↔ mark k ∈ seen.map mark := by
    simp only [contains_eq_any_beq, any_eq_true, hmark, mem_map]
    exact exists_congr fun _ => and_congr_right fun _ => eq_comm
  induction xs generalizing seen with
  | nil => simp [freshBy]
  | cons x rest ih =>
    rw [freshBy]
    split
    next hknown =>
      obtain ⟨hnodup, hnew, hall⟩ := ih seen
      exact ⟨hnodup, hnew, forall_mem_cons.mpr ⟨.inl ((hseen _ _).mp hknown), hall⟩⟩
    next hfresh =>
      obtain ⟨hnodup, hnew, hall⟩ := ih (key x :: seen)
      rw [hseen] at hfresh
      simp only [map_cons, mem_cons, not_or] at hnew hall
      rw [map_cons]
      refine ⟨nodup_cons.mpr ⟨?_, hnodup⟩, ?_, ?_⟩
      · intro h
        obtain ⟨y, hy, heq⟩ := mem_map.mp h
        exact (hnew y hy).1 heq
      · exact forall_mem_cons.mpr ⟨hfresh, fun y hy => (hnew y hy).2⟩
      · refine forall_mem_cons.mpr ⟨.inr mem_cons_self, fun y hy => ?_⟩
        rcases hall y hy with (h | h) | h
        · exact .inr (h ▸ mem_cons_self)
        · exact .inl h
        · exact .inr (mem_cons_of_mem _ h)

lemma freshBy_eq_self {γ : Type} [BEq β] {mark : β → γ} (hmark : ∀ k l, (k == l) = true ↔ mark k = mark l) {key : α → β}
    {seen : List β} (hnodup : (xs.map (mark <| key ·)).Nodup) (hnew : ∀ x ∈ xs, ∀ k ∈ seen, mark k ≠ mark (key x)) :
    freshBy key seen xs = xs := by
  induction xs generalizing seen with
  | nil => rfl
  | cons x rest ih =>
    obtain ⟨hx, hrest⟩ := forall_mem_cons.mp hnew
    rw [map_cons, nodup_cons] at hnodup
    have hfresh : seen.contains (key x) = false := by
      simp only [contains_eq_any_beq, any_eq_false, hmark]
      exact fun k hk heq => hx k hk heq.symm
    rw [freshBy, hfresh, if_neg Bool.false_ne_true, ih hnodup.2]
    refine fun y hy => forall_mem_cons.mpr ⟨fun heq => hnodup.1 ?_, hrest y hy⟩
    exact mem_map.mpr ⟨y, hy, heq.symm⟩

lemma mem_of_mem_distinct [BEq α] (h : a ∈ distinct xs) : a ∈ xs := mem_distinctBy_mem h

lemma mem_addNew_cases [BEq α] {b : α} (h : a ∈ addNew known b) : a ∈ known ∨ a = b := by
  unfold addNew at h
  split at h
  · exact .inl h
  · simpa using h

lemma forall_mem_addNew [BEq α] {b : α} {P : α → Prop} (h : ∀ a ∈ known, P a) (hb : P b) :
    ∀ a ∈ addNew known b, P a := by
  intro a ha
  obtain ha | rfl := mem_addNew_cases ha
  · exact h a ha
  · exact hb

lemma mem_or_mem_of_mem_addAllNew [BEq α] (h : a ∈ addAllNew known new) : a ∈ known ∨ a ∈ new := by
  induction new generalizing known with
  | nil => exact .inl h
  | cons b rest ih =>
    obtain h | h := ih h
    · obtain h | rfl := mem_addNew_cases h
      · exact .inl h
      · exact .inr mem_cons_self
    · exact .inr (mem_cons_of_mem _ h)

lemma mem_addAllNew_of_mem [BEq α] (h : a ∈ known) : a ∈ addAllNew known xs := by
  induction xs generalizing known with
  | nil => exact h
  | cons x rest ih =>
    refine ih ?_
    unfold addNew
    split
    · exact h
    · exact mem_append_left _ h

lemma contains_addAllNew [BEq α] (htrans : ∀ a b c : α, a == b → b == c → a == c) (h : xs.contains a) :
    (addAllNew known xs).contains a := by
  induction xs generalizing known with
  | nil => cases h
  | cons x rest ih =>
    rw [contains_cons, Bool.or_eq_true] at h
    rcases h with hax | hrest
    · rw [contains_iff_exists_mem_beq]
      by_cases hknown : known.contains x
      · obtain ⟨u, hu, hxu⟩ := contains_iff_exists_mem_beq.mp hknown
        exact ⟨u, mem_addAllNew_of_mem hu, htrans _ _ _ hax hxu⟩
      · refine ⟨x, ?_, hax⟩
        rw [addAllNew, foldl_cons, addNew, if_neg hknown]
        exact mem_addAllNew_of_mem (by simp)
    · exact ih hrest

lemma addAllNew_addAllNew_of_trans [BEq α] {ys : List α} (htrans : ∀ a b c : α, a == b → b == c → a == c) :
    addAllNew known (addAllNew xs ys) = addAllNew known (xs ++ ys) := by
  induction ys generalizing xs with
  | nil => simp [addAllNew]
  | cons y rest ih =>
    have hstep : addAllNew known (addNew xs y) = addAllNew known (xs ++ [y]) := by
      unfold addNew
      split
      next hy =>
        have hagain : addNew (addAllNew known xs) y = addAllNew known xs := if_pos (contains_addAllNew htrans hy)
        rw [addAllNew, addAllNew, foldl_append]
        exact hagain.symm
      · rfl
    calc addAllNew known (addAllNew xs (y :: rest))
        = addAllNew known (addNew xs y ++ rest) := ih
      _ = addAllNew (addAllNew known (addNew xs y)) rest := foldl_append
      _ = addAllNew known (xs ++ y :: rest) := by
          rw [hstep, append_cons xs y rest]
          exact foldl_append.symm

variable [BEq α] [LawfulBEq α] {b : α}

lemma mem_addNew : a ∈ addNew known b ↔ a ∈ known ∨ a = b := by
  refine ⟨mem_addNew_cases, fun h => ?_⟩
  unfold addNew
  split
  next hb =>
    rcases h with h | rfl
    · exact h
    · simpa using hb
  · simpa using h

lemma nodup_addNew (h : known.Nodup) : (addNew known b).Nodup := by
  unfold addNew
  split
  · exact h
  next hb =>
    have hfresh : b ∉ known := by simpa using hb
    exact nodup_append.mpr ⟨h, by simp, fun x hx y hy => by grind⟩

lemma mem_addAllNew : a ∈ addAllNew known new ↔ a ∈ known ∨ a ∈ new := by
  unfold addAllNew
  induction new generalizing known with
  | nil => simp
  | cons b rest ih => simp [ih, mem_addNew, or_assoc]

lemma nodup_addAllNew (h : known.Nodup) : (addAllNew known new).Nodup :=
  List.foldlRecOn _ _ h fun _ hxs _ _ => nodup_addNew hxs

end Distinct

namespace Table

variable {κ α β : Type} [BEq κ] [LawfulBEq κ] {t : Table κ α} {k : κ} {a : α}

lemma keys_alter (f : Option α → α) : (t.alter k f).keys = addNew t.keys k := by
  obtain ⟨es⟩ := t
  simp only [keys, alter]
  induction es with
  | nil => simp [alterEntries, addNew]
  | cons e rest ih =>
    obtain ⟨key, value⟩ := e
    rw [alterEntries]
    split
    next h =>
      obtain rfl := LawfulBEq.eq_of_beq h
      simp [addNew]
    next h =>
      rw [map_cons, ih]
      unfold addNew
      simp only [map_cons, contains_cons, h, Bool.false_or]
      split <;> simp

lemma get?_eq_some_iff (h : t.keys.Nodup) : t.get? k = some a ↔ (k, a) ∈ t.entries := by
  obtain ⟨es⟩ := t
  simp only [keys, get?] at h ⊢
  induction es with
  | nil => simp
  | cons e rest ih =>
    obtain ⟨key, value⟩ := e
    rw [map_cons, nodup_cons] at h
    rw [lookup_cons, mem_cons]
    by_cases hk : k = key
    · subst hk
      have hout : (k, a) ∉ rest := fun hmem => h.1 (mem_map.mpr ⟨(k, a), hmem, rfl⟩)
      simp [hout, eq_comm]
    · have hne : (k == key) = false := by simpa using hk
      simp [hk, hne, ih h.2]

lemma entries_eq_map (h : t.keys.Nodup) {value : κ → α}
    (hval : ∀ k a, t.get? k = some a → a = value k) : t.entries = t.keys.map fun k => (k, value k) := by
  rw [keys, map_map]
  refine (map_id _).symm.trans (map_congr_left fun e he => ?_)
  rw [Function.comp_apply, ← hval e.1 e.2 ((get?_eq_some_iff h).mpr he)]
  rfl

def filled (key : β → κ) (f : β → Option α → α) (xs : List β) : Table κ α :=
  xs.foldl (fun t x => t.alter (key x) (f x)) empty

variable {key : β → κ} {f : β → Option α → α} {xs : List β}

lemma keys_filled : (filled key f xs).keys = addAllNew [] (xs.map key) := by
  have hfold (t : Table κ α) : (xs.foldl (fun t x => t.alter (key x) (f x)) t).keys =
      addAllNew t.keys (xs.map key) := by
    induction xs generalizing t with
    | nil => rfl
    | cons x rest ih => rw [foldl_cons, ih, keys_alter, map_cons, addAllNew, addAllNew, foldl_cons]
  exact hfold empty

lemma nodup_keys_filled : (filled key f xs).keys.Nodup := by
  rw [keys_filled]
  exact nodup_addAllNew nodup_nil

lemma get?_filled : (filled key f xs).get? k = (xs.filter (key · == k)).foldl (fun o x => some (f x o)) none := by
  have hfold (t : Table κ α) : (xs.foldl (fun t x => t.alter (key x) (f x)) t).get? k =
      (xs.filter (key · == k)).foldl (fun o x => some (f x o)) (t.get? k) := by
    induction xs generalizing t with
    | nil => rfl
    | cons x rest ih =>
      rw [foldl_cons, ih]
      by_cases hk : key x = k
      · subst hk
        rw [get?_alter_self, filter_cons, if_pos (beq_self_eq_true _), foldl_cons]
      · rw [get?_alter_of_ne _ (Ne.symm hk), filter_cons, if_neg (by simpa using hk)]
  exact hfold empty

end Table

end ScriptAudit
