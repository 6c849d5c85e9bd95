import ScriptAudit.Proofs.Engine.Balance
import ScriptAudit.Proofs.Program.Inside

/-!
# What a computation may do

A computation that `Meets` its conditions asks only about nodes of the program and below a given
level, remembers only such nodes, fails only in ways that the program gives cause for, and has a
result of a given kind.
-/

namespace ScriptAudit

open List Memo Session

namespace Facts

def Has (F : Facts) (n : Node) : Prop :=
  F.model.root.Below n

@[simp] abbrev HasAll (F : Facts) (ns : List Node) : Prop :=
  ∀ n ∈ ns, F.Has n

def Unique (F : Facts) : Prop :=
  ∀ n k, F.Has n → F.Has k → n.ident = k.ident → n = k

def Knows (F : Facts) (n : Node) : Prop :=
  F.Has n ∨ ∃ s, n = Node.piece s

/-- Facts that speak of the nodes of their program, all of which are listed. -/
structure Sound (F : Facts) : Prop where
  model : F.model.Inside
  globals : ∀ g, F.globals = some g → g.Inside F.model
  listed : ∀ n, F.Has n → ∃ k ∈ F.model.nodes, k.ident = n.ident

def Allows (F : Facts) : Fault → Prop
  | .position text cause => Text.isDigits text = true ∧ Number.numeral text = .error cause
  | .shapeChanged => True
  | .namelessIdentifier => ∃ n, F.Has n ∧ n.kind = .identifier ∧ n.name = none
  | _ => False

def Capped (F : Facts) (texts : List String) : Prop :=
  0 < F.limits.maxValues → texts.length ≤ F.limits.maxValues

variable {F : Facts}

lemma Has.knows {n : Node} (h : F.Has n) : F.Knows n := .inl h

lemma capped_nil : F.Capped [] := fun _ => Nat.zero_le _

lemma capped_singleton (text : String) : F.Capped [text] := id

lemma Capped.map {texts : List String} (h : F.Capped texts) (f : String → String) : F.Capped (texts.map f) := by
  unfold Capped
  rwa [length_map]

end Facts

/-- Nodes of an owner of `this` are nodes of the program. -/
structure Owner.Within (F : Facts) (o : Owner) : Prop where
  functions : ∀ f ∈ o.functions, F.Has f
  literals : ∀ l ∈ o.literals, F.Has l
  cls : ∀ c, o.cls = some c → F.Has c
  ctor : ∀ c, o.ctor = some c → F.Has c

structure Shape.Within (F : Facts) (shape : Shape) : Prop where
  properties : shape.properties.All F.Has
  origin : ∀ n, shape.origin = some n → F.Has n

/-- What is remembered are nodes of the program, and lists of texts that are not too long. -/
structure Memory.Within (F : Facts) (m : Memory) : Prop where
  values : m.values.All F.Capped
  paramValues : m.paramValues.All F.Capped
  shapes : ∀ (i : Nat) (shape : Shape), m.shapes[i]? = some shape → shape.Within F
  arrays : m.arrays.All fun es => ∀ l, es = some l → ∀ n ∈ l, F.Knows n
  functions : m.functions.All fun fs => ∀ f ∈ fs, F.Has f
  callSites : m.callSites.All fun sites => ∀ site ∈ sites, F.Has site.call
  aliases : m.aliases.All fun as => ∀ a ∈ as, F.Has a.node
  owners : m.owners.All (Owner.Within F)
  reads : m.reads.All fun ns => ∀ n ∈ ns, F.Has n

def Frame.Within (F : Facts) (frame : Frame) : Prop :=
  ∀ a ∈ frame.arguments, F.Has a.2.argument

structure Session.Within (F : Facts) (s : Session) : Prop where
  memory : s.toMemory.Within F
  frames : ∀ frame ∈ s.frames, frame.Within F

lemma Session.Within.underFrame {F : Facts} {s : Session} {frame : Frame} (hs : s.Within F) (h : frame.Within F) :
    Within F { s with frames := s.frames ++ [frame] } :=
  ⟨hs.memory, by simpa [or_imp, forall_and] using ⟨hs.frames, h⟩⟩

lemma Session.Within.underOuter {F : Facts} {s : Session} (hs : s.Within F) (index : Nat) :
    Within F { s with frames := s.frames.take index } :=
  ⟨hs.memory, fun f hf => hs.frames f (mem_of_mem_take hf)⟩

lemma within_empty (F : Facts) : Within F {} where
  memory := {
    values := all_empty
    paramValues := all_empty
    shapes := fun i shape h => by simp at h
    arrays := all_empty
    functions := all_empty
    callSites := all_empty
    aliases := all_empty
    owners := all_empty
    reads := all_empty }
  frames := by simp

namespace Question

def Asked (F : Facts) : {α : Type} → Question α → Prop
  | _, .values n none _ => F.Knows n
  | _, .values n (some _) _ => F.Has n
  | _, .object n _ => F.Has n
  | _, .array n _ => F.Has n
  | _, .functions n _ => F.Has n
  | _, .aliases n => F.Has n

def Answers (F : Facts) : {α : Type} → Question α → α → Prop
  | _, .values _ _ _, texts => F.Capped texts
  | _, .object _ _, _ => True
  | _, .array _ _, es => ∀ l, es = some l → ∀ n ∈ l, F.Knows n
  | _, .functions _ _, fs => ∀ f ∈ fs, F.Has f
  | _, .aliases _, as => ∀ a ∈ as, F.Has a.node

def rank : {α : Type} → Question α → Nat
  | _, .values n none depth => if n.isConcat then 2 * depth + 1 else 2 * depth + 2
  | _, .values _ (some _) depth => 2 * depth + 2
  | _, .object _ depth => 2 * depth + 2
  | _, .array _ depth => 2 * depth + 2
  | _, .functions _ depth => 2 * depth + 2
  | _, .aliases _ => 0

def Free : {α : Type} → Question α → Prop
  | _, .functions _ _ => True
  | _, .aliases _ => True
  | _, _ => False

def After {α : Type} (q : Question α) : Option Nat → Prop
  | none => False
  | some least => q.Free ∨ least < q.rank

end Question

def Topic.isSearch : Topic → Bool
  | functions | receivers => true
  | _ => false

def Key.restart (k : Key) (least : Option Nat) : Option Nat :=
  if k.topic.isSearch then some 0 else least

namespace Facts

def searches (F : Facts) : List Key :=
  F.model.nodes.flatMap fun n => [⟨.functions, n.ident, none⟩, ⟨.receivers, n.ident, none⟩]

def Lists (F : Facts) (k : Key) : Prop :=
  k.topic.isSearch = true → k ∈ F.searches

def searchesLeft (F : Facts) (visited : List Key) : Nat :=
  F.searches.countP (!visited.contains ·)

def deepest (F : Facts) : Nat :=
  2 * F.limits.maxDepth + 2

def nesting (F : Facts) (visited : List Key) : Option Nat → Nat
  | none => F.searchesLeft visited * (F.deepest + 1)
  | some least => F.searchesLeft visited * (F.deepest + 1) + 1 + (F.deepest - least)

variable {F : Facts} {visited : List Key} {k : Key}

lemma countP_cons_le (k : Key) (visited keys : List Key) :
    keys.countP (!(k :: visited).contains ·) ≤ keys.countP (!visited.contains ·) := by
  refine countP_mono_left fun j _ hj => ?_
  simp only [contains_cons, Bool.not_or, Bool.and_eq_true] at hj
  exact hj.2

lemma searchesLeft_cons_lt (hk : k ∈ F.searches) (hfresh : visited.contains k = false) :
    F.searchesLeft (k :: visited) < F.searchesLeft visited := by
  unfold searchesLeft
  obtain ⟨pre, after, hsplit⟩ := append_of_mem hk
  have hbefore := countP_cons_le k visited pre
  have hafter := countP_cons_le k visited after
  have hout : (!(k :: visited).contains k) = false := by simp
  have hin : (!visited.contains k) = true := by rw [hfresh]; rfl
  simp only [hsplit, countP_append, countP_cons, hout, hin, if_true, Bool.false_eq_true, if_false]
  omega

lemma nesting_restart_le (hk : F.Lists k) (hfresh : visited.contains k = false)
    (least : Option Nat) : F.nesting (k :: visited) (k.restart least) ≤ F.nesting visited least := by
  have hle : F.searchesLeft (k :: visited) * (F.deepest + 1)
      ≤ F.searchesLeft visited * (F.deepest + 1) :=
    Nat.mul_le_mul_right _ (countP_cons_le k visited F.searches)
  unfold Key.restart
  split
  next hsearch =>
    have hlt : (F.searchesLeft (k :: visited) + 1) * (F.deepest + 1)
        ≤ F.searchesLeft visited * (F.deepest + 1) :=
      Nat.mul_le_mul_right _ (searchesLeft_cons_lt (hk hsearch) hfresh)
    rw [Nat.succ_mul] at hlt
    cases least <;> simp only [nesting] <;> omega
  · cases least <;> simp only [nesting] <;> omega

end Facts

namespace Engine

def Meets (F : Facts) : Option Nat → {α : Type} → Engine α → (α → Prop) → (I : Memory → Prop := fun _ => True) → Prop
  | _, _, .done a, Q, _ => Q a
  | least, _, .andThen x f, Q, I => Meets F least x (fun a => Meets F least (f a) Q I) I
  | _, _, .facts, Q, _ => Q F
  | _, _, .session, Q, I => ∀ s : Session, s.Within F → I s.toMemory → Q s
  | _, _, .update f, Q, I => (∀ m : Memory, m.Within F → I m → (f m).Within F ∧ I (f m)) ∧ Q ()
  | _, _, .fail e, _, _ => F.Allows e
  | least, _, .ask q, Q, _ => q.Asked F ∧ q.After least ∧ ∀ a, q.Answers F a → Q a
  | least, _, .guarded k x, Q, I =>
    F.Lists k ∧ Q none ∧ Meets F (k.restart least) x (fun a => ∀ whole, Q (some (a, whole))) I
  | least, _, .underFrame frame x, Q, I => frame.Within F ∧ Meets F least x Q I
  | least, _, .underOuter _ x, Q, I => Meets F least x Q I

variable {F : Facts} {least : Option Nat} {α β : Type} {Q R : α → Prop} {I : Memory → Prop} {x : Engine α}

lemma Meets.mono (h : x.Meets F least Q I) (hQ : ∀ a, Q a → R a) : x.Meets F least R I := by
  induction x generalizing least with
  | done a => exact hQ a h
  | andThen x f ihx ihf => exact ihx h fun a ha => ihf a ha hQ
  | facts => exact hQ F h
  | session => exact fun s hs hI => hQ s (h s hs hI)
  | update f => exact ⟨h.1, hQ () h.2⟩
  | fail e => exact h
  | ask q => exact ⟨h.1, h.2.1, fun a ha => hQ a (h.2.2 a ha)⟩
  | guarded k x ih => exact ⟨h.1, hQ none h.2.1, ih h.2.2 fun a ha whole => hQ _ (ha whole)⟩
  | underFrame frame x ih => exact ⟨h.1, ih h.2 hQ⟩
  | underOuter index x ih => exact ih h hQ

lemma meets_pure {a : α} (h : Q a) : (pure a : Engine α).Meets F least Q I := h

lemma meets_done {a : α} : (pure a : Engine α).Meets F least (fun _ => True) I := trivial

lemma meets_nil : (pure [] : Engine (List String)).Meets F least F.Capped I := Facts.capped_nil

lemma Meets.bind {x : Engine β} {f : β → Engine α} {P : β → Prop} (hx : x.Meets F least P I)
    (hf : ∀ b, P b → (f b).Meets F least Q I) : (x >>= f).Meets F least Q I := by
  show x.Meets F least (fun b => (f b).Meets F least Q I) I
  exact hx.mono hf

lemma Meets.done {x : Engine β} {f : β → α} {P : β → Prop} (hx : x.Meets F least P I) :
    (x >>= fun b => pure (f b)).Meets F least (fun _ => True) I := hx.bind fun _ _ => meets_done

lemma meets_ask {q : Question α} (hq : q.Asked F) (hrank : q.After least) : (ask q).Meets F least (q.Answers F) I :=
  ⟨hq, hrank, fun _ h => h⟩

lemma meets_fail {e : Fault} (h : F.Allows e) : (fail e : Engine α).Meets F least Q I := h

lemma meets_facts : facts.Meets F least (· = F) I := rfl

lemma meets_session : session.Meets F least (·.Within F) I := fun _ h _ => h

lemma meets_session_keeping : session.Meets F least (fun s => s.Within F ∧ I s.toMemory) I := fun _ hs hI => ⟨hs, hI⟩

lemma meets_update_keeping {f : Memory → Memory} (h : ∀ m : Memory, m.Within F → I m → (f m).Within F ∧ I (f m)) :
    (update f).Meets F least (fun _ => True) I := ⟨h, trivial⟩

lemma meets_update {f : Memory → Memory} (h : ∀ m : Memory, m.Within F → (f m).Within F) :
    (update f).Meets F least fun _ => True := meets_update_keeping fun m hm _ => ⟨h m hm, trivial⟩

lemma meets_guarded {k : Key} (hk : F.Lists k) (h : x.Meets F (k.restart least) Q I) :
    (guarded k x).Meets F least (fun r => ∀ a whole, r = some (a, whole) → Q a) I := by
  refine ⟨hk, ?_, h.mono ?_⟩
  · intro a whole heq
    cases heq
  · intro a ha whole b w heq
    cases heq
    exact ha

lemma meets_underOuter {index : Nat} {x : Engine α} (h : x.Meets F least Q I) :
    (underOuter index x).Meets F least Q I := h

lemma meets_ite {c : Prop} [Decidable c] {y : Engine α} (hx : c → x.Meets F least Q I)
    (hy : ¬c → y.Meets F least Q I) : (if c then x else y).Meets F least Q I := by
  split
  next h => exact hx h
  next h => exact hy h

section Lists

variable {γ : Type} {xs : List γ}

lemma meets_mapM {f : γ → Engine α} (h : ∀ x ∈ xs, (f x).Meets F least Q I) :
    (xs.mapM f).Meets F least (fun ys => ∀ y ∈ ys, Q y) I := by
  have loop : ∀ (xs : List γ) (done : List α), (∀ x ∈ xs, (f x).Meets F least Q I) →
      (∀ y ∈ done, Q y) → (List.mapM.loop f xs done).Meets F least (fun ys => ∀ y ∈ ys, Q y) I := by
    intro xs
    induction xs with
    | nil =>
      intro done _ hdone
      exact meets_pure fun y hy => hdone y (mem_reverse.mp hy)
    | cons x rest ih =>
      intro done hxs hdone
      simp only [forall_mem_cons] at hxs
      refine .bind hxs.1 fun y hy => ih _ hxs.2 ?_
      simp only [forall_mem_cons]
      exact ⟨hy, hdone⟩
  exact loop xs [] h (by simp)

lemma meets_foldlM {f : α → γ → Engine α} {a : α} (ha : Q a)
    (h : ∀ a, Q a → ∀ x ∈ xs, (f a x).Meets F least Q I) : (xs.foldlM f a).Meets F least Q I := by
  induction xs generalizing a with
  | nil => exact meets_pure ha
  | cons x rest ih =>
    refine .bind (h a ha x mem_cons_self) fun b hb => ?_
    exact ih hb fun c hc y hy => h c hc y (mem_cons_of_mem _ hy)

lemma meets_anyM {p : γ → Engine Bool} (h : ∀ x ∈ xs, (p x).Meets F least (fun _ => True) I) :
    (xs.anyM p).Meets F least (fun _ => True) I := by
  induction xs with
  | nil => exact meets_done
  | cons x rest ih =>
    simp only [forall_mem_cons] at h
    refine .bind h.1 fun b _ => ?_
    cases b
    · exact ih h.2
    · exact meets_done

end Lists

end Engine

def Outcome.Good {α : Type} (F : Facts) (Q : α → Prop) : Outcome α → Prop
  | .ok a t => t.Within F ∧ Q a
  | .error e t => t.Within F ∧ F.Allows e

namespace Engine

variable {F : Facts} {least : Option Nat} {α : Type} {Q : α → Prop} {I : Memory → Prop}

section Good

variable {reply : Reply} (hbal : reply.Balanced) {limit : Nat}
  (hreply : ∀ (β : Type) (q : Question β) (s : Session) (least : Option Nat),
    F.nesting s.visited least ≤ limit → q.Asked F → q.After least → s.Within F →
    Outcome.Good F (q.Answers F) (reply β q F s))
include hbal hreply

lemma Meets.good_keeping
    (hkept : ∀ (β : Type) (q : Question β) (s : Session) (least : Option Nat),
      F.nesting s.visited least ≤ limit → q.Asked F → q.After least → s.Within F → I s.toMemory →
      I (Outcome.session (reply β q F s)).toMemory)
    (hrefused : ∀ m : Memory, I m → I { m with rejections := m.rejections + 1 })
    {x : Engine α} (h : x.Meets F least Q I) (s : Session) (hs : s.Within F) (hI : I s.toMemory)
    (hlimit : F.nesting s.visited least ≤ limit) :
    Outcome.Good F Q (x.runWith reply F s) ∧
      I (Outcome.session (x.runWith reply F s)).toMemory := by
  induction x generalizing s least with
  | done a => exact ⟨⟨hs, h⟩, hI⟩
  | facts => exact ⟨⟨hs, h⟩, hI⟩
  | session => exact ⟨⟨hs, h s hs hI⟩, hI⟩
  | update f =>
    have hf := h.1 _ hs.memory hI
    exact ⟨⟨⟨hf.1, hs.frames⟩, h.2⟩, hf.2⟩
  | fail e => exact ⟨⟨hs, h⟩, hI⟩
  | ask q =>
    refine ⟨?_, hkept _ q s least hlimit h.1 h.2.1 hs hI⟩
    have hgood := hreply _ q s least hlimit h.1 h.2.1 hs
    simp only [runWith]
    cases hrun : reply _ q F s with
    | ok a t =>
      rw [hrun] at hgood
      exact ⟨hgood.1, h.2.2 a hgood.2⟩
    | error e t =>
      rw [hrun] at hgood
      exact hgood
  | andThen x f ihx ihf =>
    have hx := ihx h s hs hI hlimit
    rw [runWith_andThen]
    cases hrun : x.runWith reply F s with
    | ok a t =>
      rw [hrun] at hx
      refine ihf a hx.1.2 t hx.1.1 hx.2 ?_
      rwa [visited_runWith hbal hrun]
    | error e t =>
      rw [hrun] at hx
      exact hx
  | guarded k x ih =>
    simp only [runWith]
    split
    · exact ⟨⟨⟨{ hs.memory with }, hs.frames⟩, h.2.1⟩, hrefused _ hI⟩
    · next hfresh =>
      have hnesting := Facts.nesting_restart_le h.1 (by simpa using hfresh) least
      have hx := ih h.2.2 { s with visited := k :: s.visited } ⟨hs.memory, hs.frames⟩ hI (Nat.le_trans hnesting hlimit)
      cases hrun : x.runWith reply F { s with visited := k :: s.visited } with
      | ok a t =>
        rw [hrun] at hx
        exact ⟨⟨⟨hx.1.1.memory, hx.1.1.frames⟩, hx.1.2 _⟩, hx.2⟩
      | error e t =>
        rw [hrun] at hx
        exact ⟨⟨⟨hx.1.1.memory, hx.1.1.frames⟩, hx.1.2⟩, hx.2⟩
  | underFrame frame x ih =>
    have hx := ih h.2 _ (hs.underFrame h.1) hI hlimit
    have hback (t : Session) (ht : t.Within F) : Within F { t with frames := t.frames.dropLast } :=
      ⟨ht.memory, fun f hf => ht.frames f (dropLast_subset _ hf)⟩
    simp only [runWith]
    cases hrun : x.runWith reply F { s with frames := s.frames ++ [frame] } with
    | ok _ t | error _ t =>
      rw [hrun] at hx
      exact ⟨⟨hback t hx.1.1, hx.1.2⟩, hx.2⟩
  | underOuter index x ih =>
    have hx := ih h _ (hs.underOuter index) hI hlimit
    have hback (t : Session) (ht : t.Within F) :
        Within F { t with frames := t.frames ++ s.frames.drop index } := by
      refine ⟨ht.memory, fun f hf => ?_⟩
      obtain hf | hf := mem_append.mp hf
      · exact ht.frames f hf
      · exact hs.frames f (mem_of_mem_drop hf)
    simp only [runWith]
    cases hrun : x.runWith reply F { s with frames := s.frames.take index } with
    | ok _ t | error _ t =>
      rw [hrun] at hx
      exact ⟨⟨hback t hx.1.1, hx.1.2⟩, hx.2⟩

lemma Meets.good
    {x : Engine α} (h : x.Meets F least Q) (s : Session) (hs : s.Within F)
    (hlimit : F.nesting s.visited least ≤ limit) : Outcome.Good F Q (x.runWith reply F s) :=
  (h.good_keeping hbal hreply (fun _ _ _ _ _ _ _ _ _ => trivial) (fun _ _ => trivial) s hs trivial hlimit).1

end Good

end Engine

end ScriptAudit
