import Mathlib.Tactic.Lemma
import ScriptAudit.Scope.Model

/-!
# What stands below a node

All that the library reads off a tree stands below the node it is read off.
-/

namespace ScriptAudit

open List

lemma exists_of_mem_getD {α β : Type} {x : Option α} {f : α → List β} {b : β} (hb : b ∈ (x.map f).getD []) :
    ∃ a, x = some a ∧ b ∈ f a := by
  cases x with
  | none => cases hb
  | some a => exact ⟨a, rfl, hb⟩

namespace Node

/-- The nodes of the tree with a given root. -/
inductive Below (root : Node) : Node → Prop
  | refl : Below root root
  | link {p c : Node} {f : Field} : Below root p → (f, some c) ∈ p.links → Below root c

def LinksBelow (root : Node) (ls : List Link) : Prop :=
  ∀ f c, (f, some c) ∈ ls → Below root c

variable {root m n c : Node} {f : Field}

lemma Below.links (h : Below root n) : LinksBelow root n.links := fun _ _ hc => h.link hc

lemma LinksBelow.tail {l : Link} {ls : List Link} (h : LinksBelow root (l :: ls)) : LinksBelow root ls :=
  fun f c hc => h f c (mem_cons_of_mem _ hc)

lemma LinksBelow.head {ls : List Link} (h : LinksBelow root ((f, some c) :: ls)) : Below root c := h f c mem_cons_self

lemma Below.trans (hn : Below root n) (hm : n.Below m) : Below root m := by
  induction hm with
  | refl => exact hn
  | link _ hc ih => exact ih.link hc

lemma sizeOf_link_lt (h : (f, some c) ∈ n.links) : sizeOf c < sizeOf n := by
  obtain ⟨hd, ls⟩ := n
  have hlt : sizeOf (f, some c) < sizeOf ls := sizeOf_lt_of_mem h
  simp only [Prod.mk.sizeOf_spec, Option.some.sizeOf_spec] at hlt
  simp only [mk.sizeOf_spec]
  omega

lemma child?_mem_links (h : n.child? f = some c) : (f, some c) ∈ n.links := by
  obtain ⟨⟨g, d⟩, hl, hd⟩ := exists_of_findSome?_eq_some h
  split at hd
  next hg =>
    obtain rfl : g = f := by simpa using hg
    rwa [← hd]
  · cases hd

lemma mem_list_iff : c ∈ n.list f ↔ (f, some c) ∈ n.links := by
  simp only [list, slots, mem_filterMap, id_eq, Option.ite_none_right_eq_some, Option.some.injEq]
  constructor
  · rintro ⟨_, ⟨⟨g, d⟩, hl, hg, rfl⟩, rfl⟩
    obtain rfl : g = f := by simpa using hg
    exact hl
  · exact fun h => ⟨some c, ⟨(f, some c), h, by simp⟩, rfl⟩

lemma Below.child? (h : Below root n) (hc : n.child? f = some c) : Below root c := h.link (child?_mem_links hc)

lemma Below.mem_list (h : Below root n) (hc : c ∈ n.list f) : Below root c := h.link (mem_list_iff.mp hc)

lemma Below.last? (h : Below root n) (hc : n.last? f = some c) : Below root c := h.mem_list (mem_of_getLast? hc)

lemma bodyNode?_mem_links (hc : n.bodyNode? = some c) : (.body, some c) ∈ n.links := by
  unfold bodyNode? at hc
  split at hc
  iterate 3 cases hc
  · exact child?_mem_links hc

lemma Below.bodyNode? (h : Below root n) (hc : n.bodyNode? = some c) : Below root c := h.link (bodyNode?_mem_links hc)

section Gathering

variable {α : Type} {x : α} {gather : List Link → List α} {parts : Node → List α}

lemma exists_child (h : x ∈ gather n.links) (nil : gather [] = [])
    (skip : ∀ g rest, gather ((g, none) :: rest) = gather rest)
    (step : ∀ g c rest, x ∈ gather ((g, some c) :: rest) → x ∈ parts c ∨ x ∈ gather rest) :
    ∃ c, n.Below c ∧ sizeOf c < sizeOf n ∧ x ∈ parts c := by
  have link {ls : List Link} (h : x ∈ gather ls) : ∃ g c, (g, some c) ∈ ls ∧ x ∈ parts c := by
    induction ls with
    | nil => simp [nil] at h
    | cons l rest ih =>
      obtain ⟨g, c⟩ := l
      have further (h : x ∈ gather rest) : ∃ g' c', (g', some c') ∈ (g, c) :: rest ∧ x ∈ parts c' := by
        obtain ⟨g', c', hc, hx⟩ := ih h
        exact ⟨g', c', mem_cons_of_mem _ hc, hx⟩
      cases c with
      | none => exact further (skip g rest ▸ h)
      | some c =>
        rcases step g c rest h with hx | h
        · exact ⟨g, c, mem_cons_self, hx⟩
        · exact further h
  obtain ⟨g, c, hc, hx⟩ := link h
  exact ⟨c, Below.refl.link hc, sizeOf_link_lt hc, hx⟩

lemma exists_below {P : Node → Prop} (hx : x ∈ parts n)
    (step : ∀ n, x ∈ parts n → P n ∨ ∃ c, n.Below c ∧ sizeOf c < sizeOf n ∧ x ∈ parts c) : ∃ k, n.Below k ∧ P k := by
  induction hsize : sizeOf n using Nat.strongRecOn generalizing n with
  | ind size ih =>
    rcases step n hx with hn | ⟨c, hc, smaller, hx⟩
    · exact ⟨n, .refl, hn⟩
    · obtain ⟨k, hk, holds⟩ := ih _ (hsize ▸ smaller) hx rfl
      exact ⟨k, hc.trans hk, holds⟩

lemma Below.of_parts {parts : Node → List Node} (hn : Below root n) (hm : m ∈ parts n)
    (step : ∀ n, m ∈ parts n → n.Below m ∨ ∃ c, n.Below c ∧ sizeOf c < sizeOf n ∧ m ∈ parts c) : Below root m := by
  obtain ⟨k, hk, hm⟩ := exists_below hm step
  exact hn.trans (hk.trans hm)

lemma eq_at_child? {α : Type} {gather : List Link → α} {each : Node → α} (n : Node)
    (skip : ∀ g rest, gather ((g, none) :: rest) = gather rest)
    (step : ∀ g c rest, gather ((g, some c) :: rest) = if g == f then each c else gather rest) :
    gather n.links = ((n.child? f).map each).getD (gather []) := by
  unfold child?
  induction n.links with
  | nil => rfl
  | cons l rest ih =>
    obtain ⟨g, c⟩ := l
    rw [List.findSome?_cons]
    cases c with
    | none =>
      rw [skip, ih]
      split <;> simp_all
    | some c =>
      rw [step, ih]
      split <;> simp_all

lemma eq_of_child? {α : Type} {gather : List Link → α} {each : Node → α} (h : n.child? f = some c)
    (skip : ∀ g rest, gather ((g, none) :: rest) = gather rest)
    (step : ∀ g c rest, gather ((g, some c) :: rest) = if g == f then each c else gather rest) :
    gather n.links = each c := by
  rw [eq_at_child? n skip step, h]
  rfl

lemma eq_flatMap_list (n : Node) (nil : gather [] = []) (skip : ∀ g rest, gather ((g, none) :: rest) = gather rest)
    (step : ∀ g c rest, gather ((g, some c) :: rest) = if g == f then parts c ++ gather rest else gather rest) :
    gather n.links = (n.list f).flatMap parts := by
  unfold list slots
  induction n.links with
  | nil => exact nil
  | cons l rest ih =>
    obtain ⟨g, c⟩ := l
    rw [filterMap_cons]
    cases c with
    | none =>
      rw [skip, ih]
      split <;> simp_all
    | some c =>
      rw [step, ih]
      split <;> simp_all

end Gathering

lemma Below.of_eq (h : m = n) : n.Below m := h ▸ .refl

/-- The children that a walk goes on to, with their fields. -/
def followed (dropKey : Bool) : List Link → List (Field × Node)
  | [] => []
  | (f, some c) :: rest => if dropKey && f == .key then followed dropKey rest else (f, c) :: followed dropKey rest
  | (_, none) :: rest => followed dropKey rest

lemma mem_followed {dropKey : Bool} {ls : List Link} {e : Field × Node} :
    e ∈ followed dropKey ls ↔ (e.1, some e.2) ∈ ls ∧ (dropKey && e.1 == .key) = false := by
  obtain ⟨g, d⟩ := e
  fun_induction followed dropKey ls with
  | case1 => simp
  | case2 rest f c hdrop ih =>
    rw [ih, mem_cons, or_and_right, iff_or_self]
    rintro ⟨⟨⟩, hg⟩
    cases hdrop.symm.trans hg
  | case3 rest f c hkept ih =>
    rw [mem_cons, ih, mem_cons, or_and_right]
    refine or_congr ⟨?_, ?_⟩ .rfl
    · rintro ⟨⟩
      exact ⟨rfl, eq_false_of_ne_true hkept⟩
    · rintro ⟨⟨⟩, -⟩
      rfl
  | case4 rest f ih => simp [ih]

lemma eq_flatMap_followed {α : Type} {dropKey : Bool} (gather : List Link → List α)
    (parts : Node → List α) (ls : List Link) (nil : gather [] = []) (skip : ∀ g rest,
      gather ((g, none) :: rest) = gather rest)
    (step : ∀ g c rest, gather ((g, some c) :: rest) =
      if dropKey && g == .key then gather rest else parts c ++ gather rest) :
    gather ls = (followed dropKey ls).flatMap fun e => parts e.2 := by
  fun_induction followed dropKey ls with
  | case1 => exact nil
  | case2 rest f c hdrop ih => rw [step, if_pos hdrop, ih]
  | case3 rest f c hkept ih => rw [step, if_neg hkept, ih, flatMap_cons]
  | case4 rest f ih => rw [skip, ih]

lemma walkLinks_eq (dropKey : Bool) (ls : List Link) :
    walkLinks dropKey ls = (followed dropKey ls).flatMap fun e => e.2.walk :=
  eq_flatMap_followed _ _ ls rfl (fun _ _ => rfl) fun _ _ _ => rfl

lemma walk_eq (n : Node) : n.walk = n :: (followed n.sharesKey n.links).flatMap fun e => e.2.walk := by
  cases n
  rw [walk, walkLinks_eq]
  rfl

lemma mem_walk_iff : m ∈ n.walk ↔
    m = n ∨ ∃ f c, (f, some c) ∈ n.links ∧ (n.sharesKey && f == .key) = false ∧ m ∈ c.walk := by
  rw [walk_eq, mem_cons, mem_flatMap]
  simp [mem_followed, and_assoc]

/-- A walk that shows some of the nodes it comes to and goes on below those that do not stop it. -/
def WalksUntil (stops shown : Node → Bool) (visits : Node → List Node) : Prop :=
  ∀ n, visits n = [n].filter shown ++ if stops n then [] else (followed n.sharesKey n.links).flatMap fun e => visits e.2

lemma Below.mem_visits {stops shown : Node → Bool} {visits : Node → List Node} (walks : WalksUntil stops shown visits)
    (hn : Below root n) (hm : m ∈ visits n) : Below root m := by
  refine hn.of_parts hm fun n hm => ?_
  rw [walks, mem_append] at hm
  refine hm.imp (fun hm => .of_eq (mem_singleton.mp (mem_filter.mp hm).1)) fun hm => ?_
  split at hm
  · cases hm
  · obtain ⟨e, he, hm⟩ := mem_flatMap.mp hm
    have link := (mem_followed.mp he).1
    exact ⟨e.2, Below.refl.link link, sizeOf_link_lt link, hm⟩

lemma Below.mem_walk (hn : Below root n) (hm : m ∈ n.walk) : Below root m :=
  hn.mem_visits (show WalksUntil (fun _ => false) (fun _ => true) walk from walk_eq) hm

lemma walkOutsideLinks_eq (dropKey : Bool) (ls : List Link) :
    walkOutsideLinks dropKey ls = (followed dropKey ls).flatMap fun e => e.2.walkOutside :=
  eq_flatMap_followed _ _ ls rfl (fun _ _ => rfl) fun _ _ _ => rfl

lemma walksUntil_walkOutside : WalksUntil (·.kind.isFunction) (fun _ => true) walkOutside := by
  rintro ⟨h, ls⟩
  rw [walkOutside, walkOutsideLinks_eq]
  rfl

lemma Below.mem_walkOwn (hn : Below root n) (hm : m ∈ n.walkOwn) : Below root m := by
  rw [walkOwn, walkOutsideLinks_eq, mem_cons, mem_flatMap] at hm
  obtain rfl | ⟨e, he, hm⟩ := hm
  · exact hn
  · exact (hn.link (mem_followed.mp he).1).mem_visits walksUntil_walkOutside hm

/-- Where a search for `this` goes no further. -/
def endsThis (n : Node) : Bool :=
  n.kind == .thisExpression || n.kind.bindsThis || n.kind.isClass

lemma reverse_thisWithinLinks (dropKey : Bool) (ls : List Link) : (thisWithinLinks dropKey ls).reverse =
    (followed dropKey ls).flatMap fun e => e.2.thisWithin.reverse := by
  refine eq_flatMap_followed (thisWithinLinks dropKey · |>.reverse) (·.thisWithin.reverse) ls rfl (fun _ _ => rfl) ?_
  intro g c rest
  rw [thisWithinLinks]
  split <;> simp

lemma walksUntil_thisWithin : WalksUntil endsThis (·.kind == .thisExpression) fun n => n.thisWithin.reverse := by
  rintro ⟨h, ls⟩
  dsimp only
  rw [thisWithin, ← reverse_thisWithinLinks]
  by_cases this : h.kind = .thisExpression <;> simp [endsThis, kind, head, this]
  split <;> simp_all [links]

lemma below_of_mem_thisNodes {functions : List Node} (hfs : ∀ f ∈ functions, Below root f)
    (hm : m ∈ thisNodes functions) : Below root m := by
  obtain ⟨f, hf, hm⟩ := mem_flatMap.mp hm
  obtain ⟨body, hbody, hm⟩ := exists_of_mem_getD hm
  exact ((hfs f hf).bodyNode? hbody).mem_visits walksUntil_thisWithin (mem_reverse.mpr hm)

lemma exists_of_mem_concatTermsAt (hm : m ∈ concatTermsAt f n.links) :
    ∃ c, n.Below c ∧ sizeOf c < sizeOf n ∧ m ∈ c.concatTerms := by
  refine exists_child hm rfl (fun _ _ => rfl) fun g c rest hm => ?_
  rw [concatTermsAt] at hm
  split at hm
  · exact .inl hm
  · exact .inr hm

def isConcat (n : Node) : Bool :=
  n.kind == .binaryExpression && n.operator == "+"

lemma exists_of_mem_concatTerms (hm : m ∈ n.concatTerms) : ∃ k, n.Below k ∧ m = k ∧ k.isConcat = false := by
  refine exists_below hm fun n hm => ?_
  obtain ⟨h, ls⟩ := n
  rw [concatTerms] at hm
  split at hm
  · rcases mem_append.mp hm with hm | hm <;> exact .inr (exists_of_mem_concatTermsAt (n := .mk h ls) hm)
  next hn => exact .inl ⟨mem_singleton.mp hm, by simpa [isConcat, kind, operator, head] using hn⟩

lemma Below.mem_concatTerms (hn : Below root n) (hm : m ∈ n.concatTerms) : Below root m := by
  obtain ⟨_, hk, rfl, -⟩ := exists_of_mem_concatTerms hm
  exact hn.trans hk

lemma isConcat_of_mem_concatTerms (hm : m ∈ n.concatTerms) : m.isConcat = false := by
  obtain ⟨_, -, rfl, hk⟩ := exists_of_mem_concatTerms hm
  exact hk

lemma Below.mem_branches (hn : Below root n) (hm : m ∈ n.branches) : Below root m := by
  refine hn.of_parts hm fun n hm => ?_
  obtain ⟨h, ls⟩ := n
  have child {f : Field} (hm : m ∈ branchesAt f ls) :
      ∃ c, Below (.mk h ls) c ∧ sizeOf c < sizeOf (Node.mk h ls) ∧ m ∈ c.branches := by
    refine exists_child (n := .mk h ls) hm rfl (fun _ _ => rfl) fun g c rest hm => ?_
    rw [branchesAt] at hm
    split at hm
    · exact .inl hm
    · exact .inr hm
  rw [branches] at hm
  split at hm
  · exact .inr ((mem_append.mp hm).elim child child)
  · split at hm
    · exact .inr ((mem_append.mp hm).elim child child)
    · split at hm
      · exact .inr (child hm)
      · exact .inl (.of_eq (mem_singleton.mp hm))

def PlaceBelow (root : Node) (p : PatternPlace) : Prop :=
  ∀ d, p.fallback = some d → Below root d

def TargetBelow (root : Node) (t : PatternTarget) : Prop :=
  Below root t.identifier ∧ PlaceBelow root t.place

variable {t : PatternTarget}

lemma targetsAt_eq (p : PatternPlace) : targetsAt f p n.links = ((n.child? f).map (targets p)).getD [] :=
  eq_at_child? n (fun _ _ => rfl) fun _ _ _ => rfl

lemma propertyTargets_eq (h : Head) (ls : List Link) (depth : Nat) :
    propertyTargets depth ls = ((mk h ls).list .properties).flatMap (targetsOfProperty depth) :=
  eq_flatMap_list (mk h ls) rfl (fun _ _ => rfl) fun _ _ _ => rfl

lemma elementTargets_eq (h : Head) (ls : List Link) (p : PatternPlace) :
    elementTargets p ls = ((mk h ls).list .elements).flatMap (targets p) :=
  eq_flatMap_list (mk h ls) rfl (fun _ _ => rfl) fun _ _ _ => rfl

lemma mem_targetsAt (h : Head) {ls : List Link} {p : PatternPlace} :
    t ∈ targetsAt f p ls ↔ ∃ q, (mk h ls).child? f = some q ∧ t ∈ q.targets p := by
  rw [show targetsAt f p ls = _ from targetsAt_eq (n := mk h ls) p]
  cases (mk h ls).child? f <;> simp

lemma mem_targets_iff {place : PatternPlace} : t ∈ n.targets place ↔ (n.kind = .identifier ∧ t = ⟨n, place⟩) ∨
    (n.kind = .assignmentPattern ∧ ∃ q, n.child? .left = some q ∧
      t ∈ q.targets { place with fallback := n.child? .right }) ∨
    (n.kind = .restElement ∧ ∃ q, n.child? .argument = some q ∧
      t ∈ q.targets { rest := true, depth := place.depth + 1 }) ∨
    (n.kind = .objectPattern ∧ ∃ e ∈ n.list .properties, t ∈ e.targetsOfProperty place.depth) ∨
    (n.kind = .arrayPattern ∧ ∃ q ∈ n.list .elements, t ∈ q.targets { depth := place.depth + 1 }) := by
  obtain ⟨h, ls⟩ := n
  rw [targets, propertyTargets_eq h, elementTargets_eq h]
  cases hk : h.kind <;> simp [mem_targetsAt h, kind, head, hk]

lemma mem_targetsOfProperty_iff {e : Node} {depth : Nat} : t ∈ e.targetsOfProperty depth ↔
    (e.kind = .restElement ∧ ∃ q, e.child? .argument = some q ∧ t ∈ q.targets { rest := true, depth := depth + 1 }) ∨
    (e.kind ≠ .restElement ∧ ∃ q, e.child? .value = some q ∧
      t ∈ q.targets { key := if depth = 0 then e.propertyKey? else none, depth := depth + 1 }) := by
  obtain ⟨h, ls⟩ := e
  rw [targetsOfProperty]
  by_cases hk : h.kind = .restElement <;> simp [mem_targetsAt h, kind, head, hk]

lemma Below.mem_targets {p : PatternPlace} (hn : Below root n) (hp : PlaceBelow root p) (ht : t ∈ n.targets p) :
    TargetBelow root t ∧ t.identifier.kind = .identifier := by
  induction hsize : sizeOf n using Nat.strongRecOn generalizing n p with
  | ind size ih =>
    subst hsize
    have below {k q : Node} {g : Field} {p : PatternPlace} (hk : Below root k) (le : sizeOf k ≤ sizeOf n)
        (hq : (g, some q) ∈ k.links) (hp : PlaceBelow root p) (ht : t ∈ q.targets p) :
        TargetBelow root t ∧ t.identifier.kind = .identifier :=
      ih _ (Nat.lt_of_lt_of_le (sizeOf_link_lt hq) le) (hk.link hq) hp ht rfl
    have bare {p : PatternPlace} (h : p.fallback = none) : PlaceBelow root p := by simp [PlaceBelow, h]
    rcases mem_targets_iff.mp ht with ⟨hk, rfl⟩ | ⟨-, q, hq, ht⟩ | ⟨-, q, hq, ht⟩ | ⟨-, e, he, ht⟩ | ⟨-, q, hq, ht⟩
    · exact ⟨⟨hn, hp⟩, hk⟩
    · exact below hn (Nat.le_refl _) (child?_mem_links hq) (fun d hd => hn.child? hd) ht
    · exact below hn (Nat.le_refl _) (child?_mem_links hq) (bare rfl) ht
    · have he := mem_list_iff.mp he
      rcases mem_targetsOfProperty_iff.mp ht with ⟨-, q, hq, ht⟩ | ⟨-, q, hq, ht⟩ <;>
        exact below (hn.link he) (Nat.le_of_lt (sizeOf_link_lt he)) (child?_mem_links hq) (bare rfl) ht
    · exact below hn (Nat.le_refl _) (mem_list_iff.mp hq) (bare rfl) ht

/-! The names that a pattern writes to are those that it declares, in another order. -/

mutual

lemma writtenNames_perm (p : PatternPlace) : (n : Node) → n.writtenNames.Perm ((n.targets p).map (·.identifier))
  | mk h ls => by
    rw [writtenNames, targets]
    cases h.kind with
    | identifier => exact .rfl
    | assignmentPattern => exact writtenNamesAt_perm _ _ ls
    | restElement => exact writtenNamesAt_perm _ _ ls
    | objectPattern => exact writtenProperties_perm _ ls
    | arrayPattern => exact writtenElements_perm _ ls
    | _ => exact .rfl

lemma writtenNamesAt_perm (f : Field) (p : PatternPlace) : (ls : List Link) →
    (writtenNamesAt f ls).Perm ((targetsAt f p ls).map (·.identifier))
  | [] => .rfl
  | (g, some c) :: rest => by
    rw [writtenNamesAt, targetsAt]
    split
    · exact writtenNames_perm p c
    · exact writtenNamesAt_perm f p rest
  | (_, none) :: rest => writtenNamesAt_perm f p rest

lemma writtenElements_perm (p : PatternPlace) : (ls : List Link) →
    (writtenElements ls).Perm ((elementTargets p ls).map (·.identifier))
  | [] => .rfl
  | (g, some c) :: rest => by
    rw [writtenElements, elementTargets]
    split
    · rw [map_append]
      exact ((writtenElements_perm p rest).append (writtenNames_perm p c)).trans perm_append_comm
    · exact writtenElements_perm p rest
  | (_, none) :: rest => writtenElements_perm p rest

lemma writtenProperties_perm (depth : Nat) : (ls : List Link) →
    (writtenProperties ls).Perm ((propertyTargets depth ls).map (·.identifier))
  | [] => .rfl
  | (g, some c) :: rest => by
    rw [writtenProperties, propertyTargets]
    split
    · rw [map_append]
      exact ((writtenProperties_perm depth rest).append (writtenProperty_perm depth c)).trans perm_append_comm
    · exact writtenProperties_perm depth rest
  | (_, none) :: rest => writtenProperties_perm depth rest

lemma writtenProperty_perm (depth : Nat) : (n : Node) →
    n.writtenProperty.Perm ((n.targetsOfProperty depth).map (·.identifier))
  | mk h ls => by
    rw [writtenProperty, targetsOfProperty]
    split
    · exact writtenNamesAt_perm _ _ ls
    · exact writtenNamesAt_perm _ _ ls

end

lemma Below.mem_writtenNames (hn : Below root n) (hm : m ∈ n.writtenNames) : Below root m ∧ m.kind = .identifier := by
  obtain ⟨t, ht, rfl⟩ := mem_map.mp ((writtenNames_perm {} n).mem_iff.mp hm)
  obtain ⟨⟨below, -⟩, kind⟩ := hn.mem_targets (p := {}) (fun _ he => by cases he) ht
  exact ⟨below, kind⟩

end Node

end ScriptAudit
