import ScriptAudit.Proofs.Scope.WellFormed

/-!
# Nested ranges

The text of a node lies inside the text of its parent, and siblings do not overlap.
-/

namespace ScriptAudit.Node

def first (n : Node) : Nat :=
  (n.head.span.getD (0, 0)).1

def last (n : Node) : Nat :=
  (n.head.span.getD (0, 0)).2

structure WellNested (root : Node) : Prop where
  spanned : ∀ n, root.Below n → n.head.span.isSome = true
  ordered : ∀ n, root.Below n → n.first ≤ n.last
  inside : ∀ n c f, root.Below n → (f, some c) ∈ n.links → n.first ≤ c.first ∧ c.last ≤ n.last
  apart : ∀ n c d f g, root.Below n → (f, some c) ∈ n.links → (g, some d) ∈ n.links → c.ident ≠ d.ident →
    c.last ≤ d.first ∨ d.last ≤ c.first

namespace WellNested

variable {root p n m : Node}

lemma span_eq (h : root.WellNested) (hn : root.Below n) : n.head.span = some (n.first, n.last) := by
  obtain ⟨r, hr⟩ := Option.isSome_iff_exists.mp (h.spanned n hn)
  simp [first, last, hr]

lemma within (h : root.WellNested) (hn : root.Below n) (hm : n.Below m) : n.first ≤ m.first ∧ m.last ≤ n.last := by
  induction hm with
  | refl => exact ⟨Nat.le_refl _, Nat.le_refl _⟩
  | link hp hc ih =>
    have hinside := h.inside _ _ _ (hn.trans hp) hc
    omega

lemma below_or_apart (h : root.WellNested) (hroot : root.WellNumbered) (hp : root.Below p) (hn : p.Below n)
    (hm : p.Below m) : n.Below m ∨ m.Below n ∨ n.last ≤ m.first ∨ m.last ≤ n.first := by
  induction hsize : sizeOf p using Nat.strongRecOn generalizing p with
  | ind size ih =>
    subst hsize
    rcases hn.eq_or_link with rfl | ⟨f, c, hc, hcn⟩
    · exact .inl hm
    rcases hm.eq_or_link with rfl | ⟨g, d, hd, hdm⟩
    · exact .inr (.inl hn)
    by_cases hid : c.ident = d.ident
    · obtain rfl := hroot.unique c d (hp.link hc) (hp.link hd) hid
      exact ih _ (sizeOf_link_lt hc) (hp.link hc) hcn hdm rfl
    · have hn := h.within (hp.link hc) hcn
      have hm := h.within (hp.link hd) hdm
      rcases h.apart p c d f g hp hc hd hid with hapart | hapart
      · exact .inr (.inr (.inl (by omega)))
      · exact .inr (.inr (.inr (by omega)))

lemma first_between_iff (h : root.WellNested) (hroot : root.WellNumbered) (hn : root.Below n) (hm : root.Below m) :
    n.first ≤ m.first ∧ m.first ≤ n.last ↔ n.Below m ∨ m.first = n.first ∨ m.first = n.last := by
  have hnle := h.ordered n hn
  have hmle := h.ordered m hm
  constructor
  · rintro ⟨hle, hge⟩
    rcases h.below_or_apart hroot .refl hn hm with hbelow | hbelow | hapart | hapart
    · exact .inl hbelow
    · have hwithin := h.within hm hbelow
      exact .inr (.inl (by omega))
    · exact .inr (.inr (by omega))
    · exact .inr (.inl (by omega))
  · rintro (hbelow | heq | heq)
    · have hwithin := h.within hn hbelow
      omega
    · omega
    · omega

end WellNested

def rangedHead (i : Nat) (kind : Kind) (first last : Nat) : Head :=
  { ident := .listed i, kind := kind, span := some (first, last), start := some (1, first) }

def ranged (i : Nat) (kind : Kind) (first last : Nat) (links : List Link) : Node :=
  mk (rangedHead i kind first last) links

def rangedName (i first : Nat) (name : String) : Node :=
  mk { rangedHead i .identifier first (first + name.length) with name := some name } []

def rangedMember (i first last : Nat) (object key : Node) : Node :=
  ranged i .memberExpression first last [(.object, some object), (.property, some key)]

def rangedWrite (i first last : Nat) (left right : Node) : Node :=
  mk { rangedHead i .assignmentExpression first last with operator := "=" } [(.left, some left), (.right, some right)]

def checkRange (n : Node) : Bool :=
  let children := n.links.filterMap (·.2)
  n.head.span.isSome && decide (n.first ≤ n.last) &&
    children.all fun c => decide (n.first ≤ c.first ∧ c.last ≤ n.last) &&
      children.all fun d => c.ident == d.ident || decide (c.last ≤ d.first ∨ d.last ≤ c.first)

lemma wellNested_of_checkRange {root : Node} (hroot : root.checkProgram = true)
    (h : root.walk.all checkRange = true) : root.WellNested := by
  have hrange (n : Node) (hn : root.Below n) : n.checkRange = true :=
    List.all_eq_true.mp h n (hn.mem_walk_of_checkProgram hroot)
  have hchild {n c : Node} {f : Field} (hc : (f, some c) ∈ n.links) : c ∈ n.links.filterMap (·.2) :=
    List.mem_filterMap.mpr ⟨_, hc, rfl⟩
  simp only [checkRange, Bool.and_eq_true, List.all_eq_true, decide_eq_true_eq, Bool.or_eq_true, beq_iff_eq] at hrange
  refine ⟨fun n hn => (hrange n hn).1.1, fun n hn => (hrange n hn).1.2, fun n c f hn hc => ?_,
    fun n c d f g hn hc hd => ?_⟩
  · exact ((hrange n hn).2 c (hchild hc)).1
  · exact fun hne => (((hrange n hn).2 c (hchild hc)).2 d (hchild hd)).resolve_left hne

end ScriptAudit.Node
