import ScriptAudit.Proofs.Engine.Balance
import ScriptAudit.Proofs.Tables

/-!
# What a computation changes itself

The changes that a computation makes itself, apart from those that come with its questions, are read
off its operations.
-/

namespace ScriptAudit

open List

/-- The second shape has all properties of the first in the same order, maybe with more after them.
-/
structure Shape.Gains (shape wider : Shape) : Prop where
  properties : shape.properties.entries <+: wider.properties.entries
  origin : ∀ n, shape.origin = some n → wider.origin = some n

namespace Shape.Gains

variable {shape wider widest other : Shape}

lemma refl (shape : Shape) : shape.Gains shape := ⟨prefix_refl _, fun _ h => h⟩

lemma trans (h : shape.Gains wider) (h' : wider.Gains widest) : shape.Gains widest :=
  ⟨h.properties.trans h'.properties, fun n hn => h'.origin n (h.origin n hn)⟩

lemma entries_insertNew {κ α : Type} [BEq κ] (t : Table κ α) (k : κ) (a : α) :
    t.entries <+: (t.insertNew k a).entries := by
  unfold Table.insertNew
  split
  · exact prefix_refl _
  · exact prefix_append _ _

lemma entries_insertNews {κ α : Type} [BEq κ] (es : List (κ × α)) (t : Table κ α) :
    t.entries <+: (es.foldl (fun t e => t.insertNew e.1 e.2) t).entries := by
  induction es generalizing t with
  | nil => exact prefix_refl _
  | cons e rest ih => exact (entries_insertNew t e.1 e.2).trans (ih _)

lemma merge (shape other : Shape) : shape.Gains (shape.merge other false) := by
  refine ⟨entries_insertNews other.properties.entries shape.properties, fun n hn => ?_⟩
  simp [Shape.merge, hn]

lemma get? (h : shape.Gains wider) {key : String} {value : Node}
    (hkey : shape.properties.get? key = some value) : wider.properties.get? key = some value := by
  obtain ⟨more, hmore⟩ := h.properties
  unfold Table.get? at hkey ⊢
  rw [← hmore, lookup_append, hkey]
  rfl

end Shape.Gains

/-- A relation that has the changes which rules make themselves, apart from what searches for
callers remember. -/
class Memory.HasOwnChanges (R : Memory → Memory → Prop) : Prop where
  truncate (m : Memory) : R m { m with truncations := m.truncations + 1 }
  newShape (m : Memory) (shape : Shape) : R m { m with shapes := m.shapes.push shape }
  changeShape (m : Memory) (ref : ShapeRef) {f : Shape → Shape} :
    (∀ shape : Shape, shape.Gains (f shape)) → R m { m with shapes := m.shapes.modify ref f }
  owners (m : Memory) (memo : Memo NodeId Owner) : R m { m with owners := memo }
  reads (m : Memory) (memo : Memo (String × String) (List Node)) : R m { m with reads := memo }

class Memory.HasRuleChanges (R : Memory → Memory → Prop) : Prop extends Memory.HasOwnChanges R where
  paramValues (m : Memory) (memo : Memo (Nat × Option String) (List String)) : R m { m with paramValues := memo }
  callSites (m : Memory) (memo : Memo NodeId (List CallSite)) : R m { m with callSites := memo }

namespace Engine

def ChangesBy (R : Memory → Memory → Prop) : {α : Type} → Engine α → Prop
  | _, .andThen x f => x.ChangesBy R ∧ ∀ b, (f b).ChangesBy R
  | _, .update f => ∀ m : Memory, R m (f m)
  | _, .guarded _ x => x.ChangesBy R
  | _, .underFrame _ x => x.ChangesBy R
  | _, .underOuter _ x => x.ChangesBy R
  | _, _ => True

variable {α β : Type} {reply : Reply} {F : Facts} {I : Memory → Prop} {x : Engine α}

/-- What is remembered keeps `I` when `x` is run, wherever it is run from. -/
def Keeps (x : Engine α) (reply : Reply) (F : Facts) (I : Memory → Prop) : Prop :=
  ∀ s : Session, I s.toMemory → I (Outcome.session (x.runWith reply F s)).toMemory

lemma Keeps.andThen {x : Engine β} {f : β → Engine α} (hx : x.Keeps reply F I)
    (hf : ∀ b s t, x.runWith reply F s = .ok b t → (f b).Keeps reply F I) : (andThen x f).Keeps reply F I := by
  intro s hs
  have hfirst := hx s hs
  rw [session_andThen]
  cases hrun : x.runWith reply F s with
  | error e t =>
    rw [hrun] at hfirst
    exact hfirst
  | ok b t =>
    rw [hrun] at hfirst
    exact hf b s t hrun t hfirst

lemma Keeps.guarded (hreject : ∀ m : Memory, I m → I { m with rejections := m.rejections + 1 })
    (hx : x.Keeps reply F I) (k : Key) : (guarded k x).Keeps reply F I := by
  intro s hs
  rw [session_guarded]
  split
  · exact hreject _ hs
  · exact hx { s with visited := k :: s.visited } hs

lemma Keeps.underFrame (hx : x.Keeps reply F I) (frame : Frame) : (underFrame frame x).Keeps reply F I := by
  intro s hs
  rw [session_underFrame]
  exact hx { s with frames := s.frames ++ [frame] } hs

lemma Keeps.underOuter (hx : x.Keeps reply F I) (index : Nat) : (underOuter index x).Keeps reply F I := by
  intro s hs
  rw [session_underOuter]
  exact hx { s with frames := s.frames.take index } hs

lemma ChangesBy.keeps {R : Memory → Memory → Prop} (hreply : ∀ {β : Type} (q : Question β), (ask q).Keeps reply F I)
    (hreject : ∀ m : Memory, I m → I { m with rejections := m.rejections + 1 }) (hR : ∀ m m', R m m' → I m → I m')
    (hx : x.ChangesBy R) : x.Keeps reply F I := by
  induction x with
  | done | facts | session | fail => exact fun _ hs => hs
  | update f => exact fun s hs => hR _ _ (hx s.toMemory) hs
  | ask q => exact hreply q
  | andThen x f ihx ihf => exact (ihx hx.1).andThen fun b _ _ _ => ihf b (hx.2 b)
  | guarded k x ih => exact (ih hx).guarded hreject k
  | underFrame frame x ih => exact (ih hx).underFrame frame
  | underOuter index x ih => exact (ih hx).underOuter index

end Engine

/-! ## What a rule leaves alone

A computation is quiet if it changes no answers that are remembered, no taints and no handlers itself. -/

/-- The answers that are remembered, the taints and the handlers are the same, shapes have only
gained properties, and nothing that was refused or cut off is forgotten. -/
structure Memory.Quiet (m m' : Memory) : Prop where
  values : m'.values = m.values
  objects : m'.objects = m.objects
  arrays : m'.arrays = m.arrays
  functions : m'.functions = m.functions
  aliases : m'.aliases = m.aliases
  taints : m'.taints = m.taints
  handlers : m'.handlers = m.handlers
  eventParams : m'.eventParams = m.eventParams
  rejections : m.rejections ≤ m'.rejections
  truncations : m.truncations ≤ m'.truncations
  shapes : ∀ (ref : Nat) (shape : Shape), m.shapes[ref]? = some shape →
    ∃ wider, m'.shapes[ref]? = some wider ∧ shape.Gains wider

namespace Memory.Quiet

variable {m : Memory}

lemma of_eq {shapes : Array Shape} (h : m.shapes = shapes) (ref : Nat) (shape : Shape)
    (href : m.shapes[ref]? = some shape) : ∃ wider, shapes[ref]? = some wider ∧ shape.Gains wider :=
  ⟨shape, h ▸ href, .refl shape⟩

lemma refl (m : Memory) : m.Quiet m where
  values := rfl
  objects := rfl
  arrays := rfl
  functions := rfl
  aliases := rfl
  taints := rfl
  handlers := rfl
  eventParams := rfl
  rejections := Nat.le_refl _
  truncations := Nat.le_refl _
  shapes := of_eq rfl

lemma push (m : Memory) (shape : Shape) : m.Quiet { m with shapes := m.shapes.push shape } := by
  refine { refl m with shapes := fun ref old href => ⟨old, ?_, .refl old⟩ }
  obtain ⟨hlt, hold⟩ := Array.getElem?_eq_some_iff.mp href
  simp [Array.getElem?_push_lt hlt, hold]

lemma modify (m : Memory) (ref : ShapeRef) {f : Shape → Shape} (hf : ∀ shape : Shape, shape.Gains (f shape)) :
    m.Quiet { m with shapes := m.shapes.modify ref f } := by
  refine { refl m with shapes := fun i old hold => ?_ }
  simp only [Array.getElem?_modify]
  split
  · exact ⟨f old, by simp [hold], hf old⟩
  · exact ⟨old, hold, .refl old⟩

end Memory.Quiet

instance : Memory.HasRuleChanges Memory.Quiet where
  truncate m := { Memory.Quiet.refl m with truncations := Nat.le_succ _ }
  newShape := .push
  changeShape m ref _ hf := .modify m ref hf
  paramValues m _ := { Memory.Quiet.refl m with }
  callSites m _ := { Memory.Quiet.refl m with }
  owners m _ := { Memory.Quiet.refl m with }
  reads m _ := { Memory.Quiet.refl m with }

namespace Engine

variable {α : Type}

def Quiet : {α : Type} → Engine α → Prop
  | _, .andThen x f => x.Quiet ∧ ∀ b, (f b).Quiet
  | _, .update f => ∀ m : Memory, m.Quiet (f m)
  | _, .guarded _ x => x.Quiet
  | _, .underFrame _ x => x.Quiet
  | _, .underOuter _ x => x.Quiet
  | _, _ => True

lemma changes_quiet_iff {x : Engine α} : x.ChangesBy Memory.Quiet ↔ x.Quiet := by
  induction x with
  | done | facts | session | fail | ask => exact Iff.rfl
  | update f => exact Iff.rfl
  | andThen x f ihx ihf => exact and_congr ihx (forall_congr' ihf)
  | guarded k x ih => exact ih
  | underFrame frame x ih => exact ih
  | underOuter index x ih => exact ih

lemma quiet_ask (q : Question α) : (ask q).Quiet := trivial

end Engine

end ScriptAudit
