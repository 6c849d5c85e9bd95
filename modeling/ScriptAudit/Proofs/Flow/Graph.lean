import Mathlib.Data.List.Basic
import ScriptAudit.Program.ControlFlow
import ScriptAudit.Proofs.Tables

/-!
# Steps of a flow graph

Blocks that were there keep their units, and edges are added only into new blocks and into the exit
(`Frame`).
-/

namespace ScriptAudit

namespace FlowGraph

variable {g g' G : FlowGraph} {b x : Nat}

def size (g : FlowGraph) : Nat := g.blocks.size

def blockAt (g : FlowGraph) (x : Nat) : FlowBlock := g.blocks[x]?.getD {}

def statementsAt (g : FlowGraph) (x : Nat) : List Node := (g.blockAt x).statements

lemma successors_eq (g : FlowGraph) (x : Nat) : g.successors x = (g.blockAt x).successors := by
  unfold successors blockAt
  cases g.blocks[x]? <;> rfl

lemma blockAt_modify (g : FlowGraph) (owners : List (NodeId × Nat)) (i x : Nat) (f : FlowBlock → FlowBlock) :
    ({ blocks := g.blocks.modify i f, owners } : FlowGraph).blockAt x =
      if i = x ∧ x < g.size then f (g.blockAt x) else g.blockAt x := by
  unfold blockAt size
  rw [Array.getElem?_modify]
  by_cases hx : x < g.blocks.size <;> by_cases hi : i = x <;> simp [hx, hi]

@[simp] lemma newBlock_fst : g.newBlock.1 = g.size := rfl

@[simp] lemma blockAfter_fst (x : Nat) : (g.blockAfter x).1 = g.size := rfl

@[simp] lemma size_newBlock : g.newBlock.2.size = g.size + 1 := by
  simp [newBlock, size]

@[simp] lemma size_link (x y : Nat) : (g.link x y).size = g.size := by
  simp [link, size]

@[simp] lemma size_place (n : Node) (x : Nat) : (g.place n x).size = g.size := by
  simp [place, size]

@[simp] lemma size_blockAfter (x : Nat) : (g.blockAfter x).2.size = g.size + 1 := by
  simp [blockAfter]

@[simp] lemma size_joinAt (x : Nat) (last : Option Nat) : (g.joinAt x last).size = g.size := by
  cases last <;> simp [joinAt]

@[simp] lemma blockAt_newBlock (x : Nat) : g.newBlock.2.blockAt x = g.blockAt x := by
  simp only [newBlock, blockAt, Array.getElem?_push]
  split
  · subst x
    simp
  · rfl

lemma blockAt_link (a b x : Nat) : (g.link a b).statementsAt x = g.statementsAt x ∧
      (g.link a b).successors x = if a = x ∧ x < g.size then addNew (g.successors x) b else g.successors x := by
  have second := blockAt_modify { g with blocks := g.blocks.modify a fun block =>
    { block with successors := addNew block.successors b } } g.owners b x fun block =>
    { block with predecessors := addNew block.predecessors a }
  have first := blockAt_modify g g.owners a x fun block =>
    { block with successors := addNew block.successors b }
  rw [successors_eq, successors_eq, statementsAt, statementsAt, link, second, first]
  constructor <;> split <;> split <;> rfl

@[simp] lemma statementsAt_newBlock (x : Nat) : g.newBlock.2.statementsAt x = g.statementsAt x := by
  simp [statementsAt]

@[simp] lemma statementsAt_link (a b x : Nat) : (g.link a b).statementsAt x = g.statementsAt x := (blockAt_link a b x).1

lemma statementsAt_place (n : Node) (a x : Nat) :
    (g.place n a).statementsAt x = if a = x ∧ x < g.size then g.statementsAt x ++ [n] else g.statementsAt x := by
  rw [statementsAt, place, blockAt_modify]
  by_cases h : a = x ∧ x < g.size
  · rw [if_pos h, if_pos h]
    rfl
  · rw [if_neg h, if_neg h]
    rfl

@[simp] lemma successors_newBlock (x : Nat) : g.newBlock.2.successors x = g.successors x := by
  simp [successors_eq]

@[simp] lemma successors_place (n : Node) (a x : Nat) : (g.place n a).successors x = g.successors x := by
  rw [successors_eq, successors_eq, place, blockAt_modify]
  split <;> rfl

lemma mem_successors_link {a y : Nat} :
    y ∈ (g.link a b).successors x ↔ y ∈ g.successors x ∨ x = a ∧ y = b ∧ a < g.size := by
  rw [(blockAt_link a b x).2]
  split
  next h =>
    obtain ⟨rfl, inside⟩ := h
    simp [mem_addNew, inside]
  next h =>
    constructor
    · exact .inl
    · rintro (h' | ⟨rfl, -, inside⟩)
      · exact h'
      · exact absurd ⟨rfl, inside⟩ h

lemma mem_successors_joinAt {y : Nat} {last : Option Nat} :
    y ∈ (g.joinAt b last).successors x ↔ y ∈ g.successors x ∨ last = some x ∧ y = b ∧ x < g.size := by
  cases last with
  | none => simp [joinAt]
  | some a =>
    simp only [joinAt, mem_successors_link, Option.some.injEq]
    constructor
    · rintro (h | ⟨rfl, h⟩)
      · exact .inl h
      · exact .inr ⟨rfl, h⟩
    · rintro (h | ⟨rfl, h⟩)
      · exact .inl h
      · exact .inr ⟨rfl, h⟩

@[simp] lemma statementsAt_joinAt (b x : Nat) (last : Option Nat) :
    (g.joinAt b last).statementsAt x = g.statementsAt x := by
  cases last <;> simp [joinAt]

@[simp] lemma statementsAt_blockAfter (a x : Nat) : (g.blockAfter a).2.statementsAt x = g.statementsAt x := by
  simp [blockAfter]

lemma mem_successors_blockAfter {a y : Nat} :
    y ∈ (g.blockAfter a).2.successors x ↔ y ∈ g.successors x ∨ x = a ∧ y = g.size ∧ a < g.size + 1 := by
  simp [blockAfter, mem_successors_link]

lemma statementsAt_of_le (h : g.size ≤ x) : g.statementsAt x = [] := by
  simp only [statementsAt, blockAt]
  rw [Array.getElem?_eq_none h]
  rfl

/-- The edges of a graph lead to its blocks, none is there twice, and the owners are the units in
them. -/
structure Sane (g : FlowGraph) : Prop where
  ends : 2 ≤ g.size
  inside : ∀ {x y}, y ∈ g.successors x → y < g.size
  nodup : ∀ x, (g.successors x).Nodup
  owned : ∀ {i x}, (i, x) ∈ g.owners ↔ ∃ u ∈ g.statementsAt x, u.ident = i

lemma Sane.entry_lt (h : g.Sane) : entry < g.size := Nat.lt_of_lt_of_le Nat.zero_lt_two h.ends

lemma Sane.ne_exit (h : g.Sane) : g.size ≠ exit := Nat.ne_of_gt h.ends

lemma Sane.ne_entry (h : g.Sane) : g.size ≠ entry := Nat.ne_of_gt h.entry_lt

lemma sane_bare : bare.Sane where
  ends := by decide
  inside {x y} h := by rcases x with _ | _ | x <;> simp [bare, successors] at h
  nodup x := by rcases x with _ | _ | x <;> simp [bare, successors]
  owned {i x} := by rcases x with _ | _ | x <;> simp [bare, statementsAt, blockAt]

lemma Sane.newBlock (h : g.Sane) : g.newBlock.2.Sane where
  ends := by simp [Nat.le_succ_of_le h.ends]
  inside hy := by
    rw [successors_newBlock] at hy
    simpa using Nat.lt_succ_of_lt (h.inside hy)
  nodup x := by
    rw [successors_newBlock]
    exact h.nodup x
  owned := by
    simp only [statementsAt_newBlock]
    exact h.owned

lemma Sane.place (h : g.Sane) (n : Node) (hx : x < g.size) : (g.place n x).Sane where
  ends := by simpa using h.ends
  inside hy := by
    rw [successors_place] at hy
    simpa using h.inside hy
  nodup y := by
    rw [successors_place]
    exact h.nodup y
  owned {i y} := by
    have owners : (g.place n x).owners = (n.ident, x) :: g.owners := rfl
    rw [owners, List.mem_cons, h.owned, statementsAt_place]
    by_cases hy : x = y
    · subst hy
      simp [hx, or_and_right, exists_or, or_comm, eq_comm]
    · simp [hy, Ne.symm hy]

lemma Sane.link {a : Nat} (h : g.Sane) (hb : b < g.size) : (g.link a b).Sane where
  ends := by simpa using h.ends
  inside hy := by
    rcases mem_successors_link.mp hy with hy | ⟨-, rfl, -⟩
    · simpa using h.inside hy
    · simpa using hb
  nodup x := by
    rw [(blockAt_link a b x).2]
    split
    · exact nodup_addNew (h.nodup x)
    · exact h.nodup x
  owned := by
    simp only [statementsAt_link]
    exact h.owned

lemma Sane.blockAfter (h : g.Sane) (x : Nat) : (g.blockAfter x).2.Sane :=
  h.newBlock.link (by rw [size_newBlock]; exact Nat.lt_succ_self _)

lemma Sane.joinAt (h : g.Sane) (hb : b < g.size) (last : Option Nat) : (g.joinAt b last).Sane := by
  cases last with
  | none => exact h
  | some a => exact h.link hb

/-- A block holds the same units in two graphs, and the same edges lead to it. -/
structure SameAt (y : Nat) (g g' : FlowGraph) : Prop where
  statements : g'.statementsAt y = g.statementsAt y
  edges : ∀ x, y ∈ g'.successors x ↔ y ∈ g.successors x

lemma SameAt.trans {y : Nat} {g'' : FlowGraph} (h : SameAt y g g') (h' : SameAt y g' g'') : SameAt y g g'' where
  statements := h'.statements.trans h.statements
  edges x := (h'.edges x).trans (h.edges x)

lemma sameAt_joinAt {y : Nat} (hy : y ≠ b) (last : Option Nat) : SameAt y g (g.joinAt b last) where
  statements := by simp
  edges x := by simp [mem_successors_joinAt, hy]

lemma sameAt_newBlock (y : Nat) : SameAt y g g.newBlock.2 where
  statements := by simp
  edges x := by simp

/-- A graph was extended: its blocks are as they were, but for edges to the exit. -/
structure Frame (g g' : FlowGraph) : Prop where
  size_le : g.size ≤ g'.size
  statements : ∀ y < g.size, g'.statementsAt y = g.statementsAt y
  same : ∀ y < g.size, y ≠ exit → SameAt y g g'

lemma Frame.refl (g : FlowGraph) : Frame g g := ⟨Nat.le_refl _, fun _ _ => rfl, fun _ _ _ => ⟨rfl, fun _ => Iff.rfl⟩⟩

lemma Frame.trans {g'' : FlowGraph} (h : Frame g g') (h' : Frame g' g'') : Frame g g'' where
  size_le := Nat.le_trans h.size_le h'.size_le
  statements y hy := (h'.statements y (Nat.lt_of_lt_of_le hy h.size_le)).trans (h.statements y hy)
  same y hy ne := (h.same y hy ne).trans (h'.same y (Nat.lt_of_lt_of_le hy h.size_le) ne)

lemma Frame.joinAt (h : Frame g g') (hb : g.size ≤ b ∨ b = exit) (last : Option Nat) : Frame g (g'.joinAt b last) where
  size_le := by simpa using h.size_le
  statements y hy := by simpa using h.statements y hy
  same y hy ne := by
    apply (h.same y hy ne).trans
    apply sameAt_joinAt
    rcases hb with hb | rfl
    · exact Nat.ne_of_lt (Nat.lt_of_lt_of_le hy hb)
    · exact ne

lemma Frame.newBlock (h : Frame g g') : Frame g g'.newBlock.2 where
  size_le := by simpa using Nat.le_succ_of_le h.size_le
  statements y hy := by simpa using h.statements y hy
  same y hy ne := (h.same y hy ne).trans (sameAt_newBlock y)

lemma Frame.lt_of_newBlock (h : Frame g.newBlock.2 g') : g.size < g'.size := by
  have le := h.size_le
  rwa [size_newBlock] at le

lemma Frame.blockAfter (h : Frame g g') (a : Nat) : Frame g (g'.blockAfter a).2 :=
  (h.newBlock).joinAt (.inl h.size_le) (some a)

lemma Frame.place (h : Frame g g') (n : Node) (hx : g.size ≤ x) : Frame g (g'.place n x) where
  size_le := by simpa using h.size_le
  statements y hy := by
    have hne : x ≠ y := Nat.ne_of_gt (Nat.lt_of_lt_of_le hy hx)
    simpa [statementsAt_place, hne] using h.statements y hy
  same y hy ne := by
    have hne : x ≠ y := Nat.ne_of_gt (Nat.lt_of_lt_of_le hy hx)
    apply (h.same y hy ne).trans
    exact ⟨by simp [statementsAt_place, hne], by simp⟩

/-- A path leads from the entry to a block and enters no block that is to be avoided. -/
inductive Live (g : FlowGraph) (avoid : Nat → Prop) : Nat → Prop
  | entry : Live g avoid entry
  | step {x y} : Live g avoid x → y ∈ g.successors x → ¬avoid y → Live g avoid y

def Holds (g : FlowGraph) (bad : Node → Prop) (x : Nat) : Prop := ∃ u ∈ g.statementsAt x, bad u

lemma live_iff {avoid : Nat → Prop} {y : Nat} (hy : y ≠ FlowGraph.entry) :
    g.Live avoid y ↔ ¬avoid y ∧ ∃ x, g.Live avoid x ∧ y ∈ g.successors x := by
  constructor
  · intro h
    cases h with
    | entry => exact absurd rfl hy
    | step pre edge free => exact ⟨free, _, pre, edge⟩
  · rintro ⟨free, x, pre, edge⟩
    exact .step pre edge free

def Settled (g g' G : FlowGraph) : Prop := ∀ y, g.size ≤ y → y < g'.size → SameAt y g' G

/-- The new blocks of a graph hold the units that are reached, each in a block of its own. -/
structure Filled (reached : Node → Prop) (units : List Node) (g g' : FlowGraph) : Prop where
  placed : ∀ {x u}, g.size ≤ x → u ∈ g'.statementsAt x → u ∈ units ∧ reached u
  found : ∀ {u}, reached u → ∃ x, g.size ≤ x ∧ u ∈ g'.statementsAt x
  one : ∀ {x y u v}, g.size ≤ x → g.size ≤ y → u ∈ g'.statementsAt x → v ∈ g'.statementsAt y → (x = y ↔ u = v)

section Filled

variable {P Q reached : Node → Prop} {U V : List Node} {g₀ g₁ : FlowGraph}

lemma Filled.of_empty (h : Filled P U g₀ g') (le : g.size ≤ g₀.size)
    (empty : ∀ x, g.size ≤ x → x < g₀.size → g'.statementsAt x = []) : Filled P U g g' := by
  have later : ∀ {x u}, g.size ≤ x → u ∈ g'.statementsAt x → g₀.size ≤ x := by
    intro x u hx hu
    rcases Nat.lt_or_ge x g₀.size with old | new
    · simp [empty x hx old] at hu
    · exact new
  refine ⟨?_, ?_, ?_⟩
  · intro x u hx hu
    exact h.placed (later hx hu) hu
  · intro u hu
    obtain ⟨x, hx, hu⟩ := h.found hu
    exact ⟨x, Nat.le_trans le hx, hu⟩
  · intro x y u v hx hy hu hv
    exact h.one (later hx hu) (later hy hv) hu hv

lemma Filled.joinAt (h : Filled P U g g') (b : Nat) (last : Option Nat) : Filled P U g (g'.joinAt b last) := by
  constructor <;> simp only [statementsAt_joinAt]
  · exact h.placed
  · exact h.found
  · exact h.one

lemma Filled.append (h : Filled P U g g₁) (h' : Filled Q V g₁ g') (frame : Frame g₁ g') (le : g.size ≤ g₁.size)
    (apart : ∀ u ∈ U, u ∉ V) (either : ∀ u, reached u ↔ P u ∨ Q u) : Filled reached (U ++ V) g g' := by
  have part : ∀ {x u}, g.size ≤ x → u ∈ g'.statementsAt x →
      x < g₁.size ∧ u ∈ g₁.statementsAt x ∧ u ∈ U ∧ P u ∨ g₁.size ≤ x ∧ u ∈ V ∧ Q u := by
    intro x u hx hu
    rcases Nat.lt_or_ge x g₁.size with old | new
    · rw [frame.statements x old] at hu
      exact .inl ⟨old, hu, h.placed hx hu⟩
    · exact .inr ⟨new, h'.placed new hu⟩
  refine ⟨?_, ?_, ?_⟩
  · intro x u hx hu
    rw [either, List.mem_append]
    rcases part hx hu with ⟨-, -, unit, hu⟩ | ⟨-, unit, hu⟩
    · exact ⟨.inl unit, .inl hu⟩
    · exact ⟨.inr unit, .inr hu⟩
  · intro u hu
    rcases (either u).mp hu with hu | hu
    · obtain ⟨x, hx, hu⟩ := h.found hu
      rcases Nat.lt_or_ge x g₁.size with old | new
      · exact ⟨x, hx, by rwa [frame.statements x old]⟩
      · simp [statementsAt_of_le new] at hu
    · obtain ⟨x, hx, hu⟩ := h'.found hu
      exact ⟨x, Nat.le_trans le hx, hu⟩
  · intro x y u v hx hy hu hv
    rcases part hx hu with ⟨oldX, hu', unitU, -⟩ | ⟨newX, unitU, -⟩ <;>
      rcases part hy hv with ⟨oldY, hv', unitV, -⟩ | ⟨newY, unitV, -⟩
    · exact h.one hx hy hu' hv'
    -- Units of the two parts are different, and so are their blocks.
    · have := apart u unitU
      grind
    · have := apart v unitV
      grind
    · exact h'.one newX newY hu hv

end Filled

end FlowGraph

end ScriptAudit
