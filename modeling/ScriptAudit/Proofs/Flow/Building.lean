import ScriptAudit.Proofs.Flow.Execution
import ScriptAudit.Proofs.Flow.Graph

/-!
# What the graph of a body holds

Once a statement was put into a graph, the edges into its blocks stay as they are.
-/

namespace ScriptAudit

open List

namespace FlowGraph

variable {g g' G : FlowGraph} {ls : List Link} {body : Node}

open Executions Node

/-- A piece of program was put into a graph after a block, and what follows it comes after `next`.
Its units are in the new blocks, and one of these is reached from the entry if the block before the
piece is and an execution of the piece reaches the unit in it. -/
structure Added (R : Executions) (units : List Node) (current : Nat) (g : FlowGraph) (next : Option Nat)
    (g' : FlowGraph) : Prop where
  within : R.Within units
  possible : R.Possible
  sane : g'.Sane
  frame : Frame g g'
  next_lt : ∀ {k}, next = some k → k < g'.size
  goesOn : next.isSome ↔ R.Passes (fun _ => False)
  filled : Filled (R.Reaches (fun _ => False)) units g g'
  live_next : ∀ {G bad k}, Settled g g' G → next = some k →
    (G.Live (G.Holds bad) k ↔ G.Live (G.Holds bad) current ∧ R.Passes bad)
  live : ∀ {G bad x u}, Settled g g' G → g.size ≤ x → u ∈ g'.statementsAt x →
    (G.Live (G.Holds bad) x ↔ G.Live (G.Holds bad) current ∧ R.Reaches bad u)

variable {R S : Executions} {U V : List Node} {current : Nat} {next : Option Nat}

lemma added_idle (sane : g.Sane) (inside : current < g.size) : Added idle [] current g (some current) g := by
  have empty : ∀ {x u}, g.size ≤ x → u ∉ g.statementsAt x := by
    intro x u hx
    simp [statementsAt_of_le hx]
  refine ⟨within_idle, possible_idle, sane, .refl g, ?_, by simp, ⟨?_, ?_, ?_⟩, ?_, ?_⟩
  · rintro k ⟨⟩
    exact inside
  · intro x u hx hu
    exact absurd hu (empty hx)
  · intro u hu
    exact absurd hu not_reaches_idle
  · intro x y u v hx _ hu
    exact absurd hu (empty hx)
  · rintro G bad k - ⟨⟩
    simp
  · intro G bad x u _ hx hu
    exact absurd hu (empty hx)

lemma live_blockAfter {bad : Node → Prop} (sane : g.Sane) (inside : current < g.size) (same : SameAt g.size g' G)
    (edges : ∀ x, g.size ∈ g'.successors x ↔ g.size ∈ (g.blockAfter current).2.successors x) :
    G.Live (G.Holds bad) g.size ↔ G.Live (G.Holds bad) current ∧ ∀ u ∈ g'.statementsAt g.size, ¬bad u := by
  have source : ∀ x, g.size ∈ G.successors x ↔ x = current := by
    intro x
    rw [same.edges, edges, mem_successors_blockAfter]
    constructor
    · rintro (old | ⟨rfl, -⟩)
      · exact absurd (sane.inside old) (Nat.lt_irrefl _)
      · rfl
    · rintro rfl
      exact .inr ⟨rfl, rfl, Nat.lt_succ_of_lt inside⟩
  rw [live_iff sane.ne_entry]
  simp only [source, Holds, same.statements, not_exists, not_and]
  constructor
  · rintro ⟨free, x, before, rfl⟩
    exact ⟨before, free⟩
  · rintro ⟨before, free⟩
    exact ⟨free, current, before, rfl⟩

lemma added_single (sane : g.Sane) (inside : current < g.size) (n : Node) (after : Bool) (last : Option Nat) :
    Added (single n after) [n] current g (if after then some g.size else none)
      (((g.blockAfter current).2.place n g.size).joinAt exit last) := by
  have unit : ∀ x, (((g.blockAfter current).2.place n g.size).joinAt exit last).statementsAt x =
      if g.size = x then [n] else g.statementsAt x := by
    intro x
    rw [statementsAt_joinAt, statementsAt_place, statementsAt_blockAfter, size_blockAfter]
    by_cases hx : g.size = x
    · subst hx
      simp [statementsAt_of_le (Nat.le_refl g.size)]
    · simp [hx]
  have block_of_mem : ∀ {x u}, g.size ≤ x →
      u ∈ (((g.blockAfter current).2.place n g.size).joinAt exit last).statementsAt x →
      x = g.size ∧ u = n := by
    intro x u hx hu
    rw [unit] at hu
    split at hu
    next h => exact ⟨h.symm, by simpa using hu⟩
    next h => simp [statementsAt_of_le hx] at hu
  have live : ∀ {G bad}, Settled g (((g.blockAfter current).2.place n g.size).joinAt exit last) G →
      (G.Live (G.Holds bad) g.size ↔ G.Live (G.Holds bad) current ∧ ¬bad n) := by
    intro G bad settled
    have same := settled g.size (Nat.le_refl _) (by simp)
    rw [live_blockAfter sane inside same (by simp [mem_successors_joinAt, sane.ne_exit]), unit]
    simp
  refine ⟨within_single, possible_single, ?_, ?_, ?_, ?_, ⟨?_, ?_, ?_⟩, ?_, ?_⟩
  · have exit_lt : exit < ((g.blockAfter current).2.place n g.size).size := by
      rw [size_place, size_blockAfter]
      exact Nat.le_succ_of_le sane.ends
    exact ((sane.blockAfter current).place n (by simp)).joinAt exit_lt last
  · exact (((Frame.refl g).blockAfter current).place n (Nat.le_refl _)).joinAt (.inr rfl) last
  · intro k hk
    split at hk <;> cases hk
    simp
  · cases after <;> simp
  · intro x u hx hu
    obtain ⟨-, rfl⟩ := block_of_mem hx hu
    simp
  · intro u hu
    obtain ⟨rfl, -⟩ := reaches_single.mp hu
    exact ⟨g.size, Nat.le_refl _, by simp [unit]⟩
  · intro x y u v hx hy hu hv
    obtain ⟨rfl, rfl⟩ := block_of_mem hx hu
    obtain ⟨rfl, rfl⟩ := block_of_mem hy hv
    simp
  · intro G bad k settled hk
    cases after <;> cases hk
    simp [live settled]
  · intro G bad x u settled hx hu
    obtain ⟨rfl, rfl⟩ := block_of_mem hx hu
    simp [live settled]

lemma Added.after_empty (h : Added R U g.size (g.blockAfter current).2 next g') (sane : g.Sane)
    (inside : current < g.size) : Added R U current g next g' := by
  have small : g.size < (g.blockAfter current).2.size := by simp
  have empty : g'.statementsAt g.size = [] := by
    rw [h.frame.statements _ small, statementsAt_blockAfter, statementsAt_of_le (Nat.le_refl _)]
  have only : ∀ x, g.size ≤ x → x < (g.blockAfter current).2.size → g'.statementsAt x = [] := by
    intro x hx hx'
    rw [size_blockAfter] at hx'
    obtain rfl : x = g.size := Nat.le_antisymm (Nat.le_of_lt_succ hx') hx
    exact empty
  have live : ∀ {G bad}, Settled g g' G → (G.Live (G.Holds bad) g.size ↔ G.Live (G.Holds bad) current) := by
    intro G bad settled
    have same := settled g.size (Nat.le_refl _) (Nat.lt_of_lt_of_le small h.frame.size_le)
    rw [live_blockAfter sane inside same (h.frame.same _ small sane.ne_exit).edges, empty]
    simp
  have settles : ∀ {G}, Settled g g' G → Settled (g.blockAfter current).2 g' G :=
    fun settled y hy => settled y (Nat.le_trans (Nat.le_of_lt small) hy)
  refine ⟨h.within, h.possible, h.sane, ((Frame.refl g).blockAfter current).trans h.frame, h.next_lt,
    h.goesOn, h.filled.of_empty (Nat.le_of_lt small) only, ?_, ?_⟩
  · intro G bad k settled hk
    rw [h.live_next (settles settled) hk, live settled]
  · intro G bad x u settled hx hu
    rcases Nat.lt_or_ge x (g.blockAfter current).2.size with old | new
    · simp [only x hx old] at hu
    · rw [h.live (settles settled) new hu, live settled]

lemma Added.stop (h : Added R U current g none g') (within : S.Within V) (possible : S.Possible) :
    Added (R.andThen S) (U ++ V) current g none g' := by
  have ends : ∀ {bad}, ¬R.Passes bad := by
    rintro bad ⟨us, run, -⟩
    simpa using h.goesOn.mpr ⟨us, run, by simp⟩
  have reaches : ∀ {bad u}, (R.andThen S).Reaches bad u ↔ R.Reaches bad u := by
    intro bad u
    constructor
    · intro hu
      rcases hu.of_andThen with hu | ⟨pass, -⟩
      · exact hu
      · exact absurd pass ends
    · intro hu
      exact hu.andThen_left possible
  refine ⟨h.within.andThen within, h.possible.andThen possible, h.sane, h.frame, h.next_lt, ?_,
    ⟨?_, ?_, h.filled.one⟩, ?_, ?_⟩
  · simp [passes_andThen, ends]
  · intro x u hx hu
    obtain ⟨unit, hu⟩ := h.filled.placed hx hu
    exact ⟨mem_append_left _ unit, reaches.mpr hu⟩
  · intro u hu
    exact h.filled.found (reaches.mp hu)
  · intro G bad k _ hk
    cases hk
  · intro G bad x u settled hx hu
    rw [h.live settled hx hu, reaches]

lemma Frame.settled {g₁ g₂ : FlowGraph} (h : Frame g₁ g₂) (settled : Settled g g₂ G) (sane : g.Sane) :
    Settled g g₁ G := by
  intro y hy hy'
  have ne : y ≠ exit := Nat.ne_of_gt (Nat.lt_of_lt_of_le sane.ends hy)
  exact (h.same y hy' ne).trans (settled y hy (Nat.lt_of_lt_of_le hy' h.size_le))

lemma Added.andThen {k : Nat} {g'' : FlowGraph} (h : Added R U current g (some k) g') (h' : Added S V k g' next g'')
    (sane : g.Sane) (apart : ∀ u ∈ U, u ∉ V) : Added (R.andThen S) (U ++ V) current g next g'' := by
  have passed : R.Passes (fun _ => False) := h.goesOn.mp rfl
  have reaches : ∀ u, (R.andThen S).Reaches (fun _ => False) u ↔
      R.Reaches (fun _ => False) u ∨ S.Reaches (fun _ => False) u := by
    intro u
    constructor
    · intro hu
      rcases hu.of_andThen with hu | ⟨-, hu⟩
      · exact .inl hu
      · exact .inr hu
    · rintro (hu | hu)
      · exact hu.andThen_left h'.possible
      · exact hu.andThen_right passed
  have settles : ∀ {G}, Settled g g'' G → Settled g' g'' G :=
    fun settled y hy hy' => settled y (Nat.le_trans h.frame.size_le hy) hy'
  refine ⟨h.within.andThen h'.within, h.possible.andThen h'.possible, h'.sane, h.frame.trans h'.frame,
    h'.next_lt, ?_, h.filled.append h'.filled h'.frame h.frame.size_le apart reaches, ?_, ?_⟩
  · rw [h'.goesOn, passes_andThen]
    simp [passed]
  · intro G bad k' settled hk'
    rw [h'.live_next (settles settled) hk', h.live_next (h'.frame.settled settled sane) rfl, passes_andThen, and_assoc]
  · intro G bad x u settled hx hu
    rcases Nat.lt_or_ge x g'.size with old | new
    · rw [h'.frame.statements x old] at hu
      have unit := (h.filled.placed hx hu).1
      rw [h.live (h'.frame.settled settled sane) hx hu, reaches_andThen_left h'.possible h'.within (apart u unit)]
    · have unit := (h'.filled.placed new hu).1
      rw [h'.live (settles settled) new hu, h.live_next (h'.frame.settled settled sane) rfl,
        reaches_andThen_right h.within fun unit' => apart u unit' unit, and_assoc]

/-! ### Branches that join -/

section Join

variable {thenEnd elseEnd : Option Nat} {g₁ g₂ : FlowGraph}

lemma mem_successors_join (sane : g.Sane) (first : Frame g.newBlock.2 g₁) (second : Frame (g₁.joinAt g.size thenEnd) g₂)
    (then_lt : ∀ {k}, thenEnd = some k → k < g₁.size) (else_lt : ∀ {k}, elseEnd = some k → k < g₂.size) (x : Nat) :
    g.size ∈ (g₂.joinAt g.size elseEnd).successors x ↔ thenEnd = some x ∨ elseEnd = some x := by
  have join_lt := first.lt_of_newBlock
  have old : g.size ∉ g₁.successors x := by
    rw [(first.same _ (by simp) sane.ne_exit).edges, successors_newBlock]
    exact fun edge => Nat.lt_irrefl _ (sane.inside edge)
  rw [mem_successors_joinAt, (second.same _ (by simpa using join_lt) sane.ne_exit).edges, mem_successors_joinAt]
  constructor
  · rintro ((edge | ⟨edge, -⟩) | ⟨edge, -⟩)
    · exact absurd edge old
    · exact .inl edge
    · exact .inr edge
  · rintro (edge | edge)
    · exact .inl (.inr ⟨edge, rfl, then_lt edge⟩)
    · exact .inr ⟨edge, rfl, else_lt edge⟩

lemma Settled.branches (settled : Settled g (g₂.joinAt g.size elseEnd) G) (sane : g.Sane)
    (first : Frame g.newBlock.2 g₁) (second : Frame (g₁.joinAt g.size thenEnd) g₂) :
    Settled g.newBlock.2 g₁ G ∧ Settled (g₁.joinAt g.size thenEnd) g₂ G := by
  have join_lt := first.lt_of_newBlock
  have le : g₁.size ≤ g₂.size := by simpa using second.size_le
  have same : ∀ y, g.size < y → y < g₂.size → SameAt y g₂ G := fun y hy hy' =>
    (sameAt_joinAt (Nat.ne_of_gt hy) _).trans (settled y (Nat.le_of_lt hy) (by simpa using hy'))
  constructor
  · intro y hy hy'
    rw [size_newBlock] at hy
    have ne : y ≠ exit := Nat.ne_of_gt (Nat.lt_of_le_of_lt (Nat.le_of_succ_le sane.ends) hy)
    exact (sameAt_joinAt (Nat.ne_of_gt hy) thenEnd).trans
      ((second.same y (by simpa using hy') ne).trans (same y hy (Nat.lt_of_lt_of_le hy' le)))
  · intro y hy hy'
    rw [size_joinAt] at hy
    exact same y (Nat.lt_of_lt_of_le join_lt hy) hy'

lemma Added.either (h : Added R U current g.newBlock.2 thenEnd g₁)
    (h' : Added S V current (g₁.joinAt g.size thenEnd) elseEnd g₂) (sane : g.Sane) (apart : ∀ u ∈ U, u ∉ V) :
    Added (R.either S) (U ++ V) current g
      (if thenEnd.isSome || elseEnd.isSome then some g.size else none) (g₂.joinAt g.size elseEnd) := by
  have first := h.frame.lt_of_newBlock
  have join_lt : g.size < g₂.size := Nat.lt_of_lt_of_le first (by simpa using h'.frame.size_le)
  have frame : Frame g g₁ := (Frame.refl g).newBlock.trans h.frame
  have only : ∀ x, g.size ≤ x → x < g.newBlock.2.size → g₁.statementsAt x = [] := by
    intro x hx hx'
    rw [h.frame.statements x hx', statementsAt_newBlock, statementsAt_of_le hx]
  have filled := (h.filled.of_empty (by simp) only).joinAt g.size thenEnd
  have both := filled.append h'.filled h'.frame (by simpa using Nat.le_of_lt first) apart fun u => reaches_either
  refine ⟨h.within.either h'.within, h.possible.either_left, h'.sane.joinAt join_lt elseEnd, ?_, ?_, ?_,
    both.joinAt _ _, ?_, ?_⟩
  · exact ((frame.joinAt (.inl (Nat.le_refl _)) thenEnd).trans h'.frame).joinAt (.inl (Nat.le_refl _)) elseEnd
  · intro k hk
    split at hk <;> cases hk
    simpa using join_lt
  · rw [passes_either, ← h.goesOn, ← h'.goesOn]
    split <;> simp_all
  · intro G bad k settled hk
    obtain ⟨settledThen, settledElse⟩ := settled.branches sane h.frame h'.frame
    split at hk <;> cases hk
    have same := settled g.size (Nat.le_refl _) (by simpa using join_lt)
    have free : ¬G.Holds bad g.size := by
      rintro ⟨u, hu, -⟩
      rw [same.statements, statementsAt_joinAt, h'.frame.statements _ (by simpa using first),
        statementsAt_joinAt, only _ (Nat.le_refl _) (by simp)] at hu
      cases hu
    rw [live_iff sane.ne_entry, passes_either]
    simp only [free, not_false_eq_true, true_and, same.edges,
      mem_successors_join sane h.frame h'.frame h.next_lt h'.next_lt]
    constructor
    · rintro ⟨x, before, hx | hx⟩
      · obtain ⟨start, pass⟩ := (h.live_next settledThen hx).mp before
        exact ⟨start, .inl pass⟩
      · obtain ⟨start, pass⟩ := (h'.live_next settledElse hx).mp before
        exact ⟨start, .inr pass⟩
    · rintro ⟨start, ⟨us, run, clean⟩ | ⟨us, run, clean⟩⟩
      · obtain ⟨x, hx⟩ := Option.isSome_iff_exists.mp (h.goesOn.mpr ⟨us, run, by simp⟩)
        exact ⟨x, (h.live_next settledThen hx).mpr ⟨start, us, run, clean⟩, .inl hx⟩
      · obtain ⟨x, hx⟩ := Option.isSome_iff_exists.mp (h'.goesOn.mpr ⟨us, run, by simp⟩)
        exact ⟨x, (h'.live_next settledElse hx).mpr ⟨start, us, run, clean⟩, .inr hx⟩
  · intro G bad x u settled hx hu
    obtain ⟨settledThen, settledElse⟩ := settled.branches sane h.frame h'.frame
    rw [statementsAt_joinAt] at hu
    rw [reaches_either]
    rcases Nat.lt_or_ge x g₁.size with old | new
    · rw [h'.frame.statements x (by simpa using old), statementsAt_joinAt] at hu
      have later : g.newBlock.2.size ≤ x := by
        by_contra small
        simp [only x hx (Nat.lt_of_not_le small)] at hu
      have unit := (h.filled.placed later hu).1
      rw [h.live settledThen later hu]
      rw [or_iff_left fun other => apart u unit (other.mem h'.within)]
    · have later : (g₁.joinAt g.size thenEnd).size ≤ x := by simpa using new
      have unit := (h'.filled.placed later hu).1
      rw [h'.live settledElse later hu]
      rw [or_iff_right fun other => apart u (other.mem h.within) unit]

end Join

def addTest (current : Nat) (g : FlowGraph) : Option Node → FlowGraph
  | some t => (g.blockAfter current).2.place t g.size
  | none => (g.blockAfter current).2

def addChoice (test : Nat) (g : FlowGraph) (ls : List Link) (alternate : Option Node) : Option Nat × FlowGraph :=
  let first := addBranch .consequent g.newBlock.2.size (g.newBlock.2.blockAfter test).2 ls
  let joined := first.2.joinAt g.size first.1
  match alternate with
  | none => (some g.size, joined.link test g.size)
  | some _ =>
    let second := addBranch .alternate joined.size (joined.blockAfter test).2 ls
    (if first.1.isSome || second.1.isSome then some g.size else none, second.2.joinAt g.size second.1)

lemma addStatement_of_if {h : Head} (hk : h.kind = .ifStatement) : addStatement current g (.mk h ls) =
      addChoice g.size (addTest current g ((Node.mk h ls).child? .test)) ls ((Node.mk h ls).child? .alternate) := by
  simp only [addStatement, hk]
  cases (Node.mk h ls).child? .test <;> cases (Node.mk h ls).child? .alternate <;> rfl

lemma addStatement_of_unit {h : Head} (hb : h.kind ≠ .blockStatement) (hi : h.kind ≠ .ifStatement) :
    addStatement current g (.mk h ls) = if h.kind = .returnStatement ∨ h.kind = .throwStatement then
        (none, (((g.blockAfter current).2.place (.mk h ls) g.size).joinAt exit (some g.size)))
      else (some g.size, ((g.blockAfter current).2.place (.mk h ls) g.size).joinAt exit none) := by
  rw [addStatement]
  split
  · contradiction
  · contradiction
  · simp only [Bool.or_eq_true, beq_iff_eq]
    rfl

lemma addBranch_of_missing {f : Field} (missing : ls.findSome? (fun l => if l.1 == f then l.2 else none) = none) :
    addBranch f current g ls = (some current, g) := by
  induction ls with
  | nil => rfl
  | cons l rest ih =>
    rw [List.findSome?_eq_none_iff] at missing ih
    rcases l with ⟨f', _ | c⟩
    · exact ih fun l hl => missing l (mem_cons_of_mem _ hl)
    · have hf : (f' == f) = false := by simpa using missing _ mem_cons_self
      rw [addBranch, hf]
      exact ih fun l hl => missing l (mem_cons_of_mem _ hl)

lemma added_addTest (sane : g.Sane) (inside : current < g.size) (test : Option Node) :
    Added (testing test) test.toList current g (some g.size) (addTest current g test) := by
  cases test with
  | none => exact (added_idle (sane.blockAfter current) (by simp)).after_empty sane inside
  | some t => exact added_single sane inside t true none

lemma added_addChoice {test : Nat} (sane : g.Sane) (inside : test < g.size)
    (first : ∀ {current g}, g.Sane → current < g.size →
      Added R U current g (addBranch .consequent current g ls).1 (addBranch .consequent current g ls).2)
    (second : ∀ {current g}, g.Sane → current < g.size →
      Added S V current g (addBranch .alternate current g ls).1 (addBranch .alternate current g ls).2)
    (apart : ∀ u ∈ U, u ∉ V) : Added (R.either S) (U ++ V) test g
      (addChoice test g ls (ls.findSome? fun l => if l.1 == .alternate then l.2 else none)).1
      (addChoice test g ls (ls.findSome? fun l => if l.1 == .alternate then l.2 else none)).2 := by
  have inNew : test < g.newBlock.2.size := by
    rw [size_newBlock]
    exact Nat.lt_succ_of_lt inside
  have taken := (@first g.newBlock.2.size _ (sane.newBlock.blockAfter test) (by simp)).after_empty sane.newBlock inNew
  have join_lt := Nat.lt_of_lt_of_le (n := g.size) (by simp) taken.frame.size_le
  have saneJoined := taken.sane.joinAt join_lt (addBranch .consequent g.newBlock.2.size
    (g.newBlock.2.blockAfter test).2 ls).1
  have inJoined := Nat.lt_of_lt_of_le inNew taken.frame.size_le
  rw [← size_joinAt] at inJoined
  cases alternate : ls.findSome? fun l => if l.1 == .alternate then l.2 else none with
  | none =>
    have skipped := second saneJoined inJoined
    rw [addBranch_of_missing alternate] at skipped
    simpa [addChoice, joinAt] using taken.either skipped sane apart
  | some c =>
    have other := (second (saneJoined.blockAfter test) (by simp)).after_empty saneJoined inJoined
    exact taken.either other sane apart

lemma apart_of_nodup (once : ((U ++ V).map ident).Nodup) : ∀ u ∈ U, u ∉ V := by
  intro u hu hv
  rw [map_append, nodup_append] at once
  exact once.2.2 _ (mem_map_of_mem hu) _ (mem_map_of_mem hv) rfl

lemma list_eq (n : Node) (f : Field) : n.list f = n.links.filterMap fun l => if l.1 == f then l.2 else none := by
  rw [list, slots, filterMap_filterMap]
  congr 1
  funext l
  split <;> rfl

mutual

lemma added_addStatement : ∀ (n : Node) {current : Nat} {g : FlowGraph}, g.Sane → current < g.size →
    (n.units.map ident).Nodup →
      Added (Runs n) n.units current g (addStatement current g n).1 (addStatement current g n).2
  | .mk h ls, current, g, sane, inside, once => by
    by_cases hb : h.kind = .blockStatement
    · simp only [units, hb] at once
      have body := added_addBody ls sane inside once
      simpa only [addStatement, units, hb, runs_of_block (s := .mk h ls) hb, list_eq, links] using body
    by_cases hi : h.kind = .ifStatement
    · simp only [units, hi] at once
      have onceAfter := (nodup_append.mp (by rwa [map_append] at once)).2.1
      have each := nodup_append.mp (by rwa [map_append] at onceAfter)
      have test := added_addTest sane inside ((Node.mk h ls).child? .test)
      rw [runs_of_if (s := .mk h ls) hi, addStatement_of_if hi]
      simp only [units, hi]
      refine test.andThen ?_ sane (apart_of_nodup once)
      exact added_addChoice test.sane (test.next_lt rfl)
        (fun sane inside => added_addBranch .consequent ls sane inside each.1)
        (fun sane inside => added_addBranch .alternate ls sane inside each.2.1) (apart_of_nodup onceAfter)
    have units : (Node.mk h ls).units = [.mk h ls] := by
      rw [units]
      split <;> simp_all
    rw [units, addStatement_of_unit hb hi]
    by_cases leaves : h.kind = .returnStatement ∨ h.kind = .throwStatement
    · rw [runs_of_leave (s := .mk h ls) leaves]
      have out := added_single sane inside (.mk h ls) false (some g.size)
      simpa [leaves] using out
    · rw [runs_of_step (s := .mk h ls) ⟨hb, hi⟩ (not_or.mp leaves)]
      have on := added_single sane inside (.mk h ls) true none
      simpa [leaves] using on

lemma added_addBranch (f : Field) : ∀ (ls : List Link) {current : Nat} {g : FlowGraph}, g.Sane →
    current < g.size → ((branchUnits f ls).map ident).Nodup →
      Added (RunsBranch (ls.findSome? fun l => if l.1 == f then l.2 else none)) (branchUnits f ls)
        current g (addBranch f current g ls).1 (addBranch f current g ls).2
  | [], current, g, sane, inside, _ => by
    rw [List.findSome?_nil, runsBranch_none]
    exact added_idle sane inside
  | (f', some c) :: rest, current, g, sane, inside, once => by
    rw [branchUnits] at once
    rw [List.findSome?_cons, addBranch, branchUnits]
    by_cases hf : f' == f
    · simp only [hf, if_true, runsBranch_some] at once ⊢
      exact added_addStatement c sane inside once
    · simp only [hf, Bool.false_eq_true, if_false] at once ⊢
      exact added_addBranch f rest sane inside once
  | (f', none) :: rest, current, g, sane, inside, once => by
    rw [List.findSome?_cons, addBranch, branchUnits]
    simp only [ite_self]
    exact added_addBranch f rest sane inside once

lemma added_addBody : ∀ (ls : List Link) {current : Nat} {g : FlowGraph}, g.Sane → current < g.size →
    ((bodyUnits ls).map ident).Nodup →
      Added (RunsAll (ls.filterMap fun l => if l.1 == .body then l.2 else none)) (bodyUnits ls)
        current g (addBody current g ls).1 (addBody current g ls).2
  | [], current, g, sane, inside, _ => by
    rw [filterMap_nil, runsAll_nil]
    exact added_idle sane inside
  | (f, some c) :: rest, current, g, sane, inside, once => by
    rw [bodyUnits] at once
    rw [addBody, bodyUnits, filterMap_cons]
    by_cases hf : f == .body
    · simp only [hf, if_true, runsAll_cons] at once ⊢
      have each := nodup_append.mp (by rwa [map_append] at once)
      have first := added_addStatement c sane inside each.1
      rcases hc : addStatement current g c with ⟨next, g'⟩
      rw [hc] at first
      cases next with
      | none =>
        have dropped := added_addBody rest sane inside each.2.1
        exact first.stop dropped.within dropped.possible
      | some next =>
        have others := added_addBody rest first.sane (first.next_lt rfl) each.2.1
        exact first.andThen others sane (apart_of_nodup once)
    · simp only [hf, Bool.false_eq_true, if_false] at once ⊢
      exact added_addBody rest sane inside once
  | (f, none) :: rest, current, g, sane, inside, once => by
    rw [addBody, bodyUnits, filterMap_cons_none (by simp)]
    exact added_addBody rest sane inside once

end

def runsOfBody (body : Node) : Executions :=
  if body.kind = .blockStatement ∨ body.kind = .program then RunsAll (body.list .body) else Runs body

lemma executes_iff {us : List Node} : body.Executes us ↔ ∃ goesOn, runsOfBody body us goesOn := by
  unfold runsOfBody
  constructor
  · intro run
    cases run with
    | statements many run =>
      rw [if_pos many]
      exact ⟨_, run⟩
    | statement one run =>
      rw [if_neg (not_or.mpr one)]
      exact ⟨_, run⟩
  · rintro ⟨goesOn, run⟩
    split at run
    next many => exact .statements many run
    next one => exact .statement (not_or.mp one) run

lemma reaches_runsOfBody {u : Node} {bad : Node → Prop} : (runsOfBody body).Reaches bad u ↔
      ∃ before after, body.Executes (before ++ u :: after) ∧ ∀ v ∈ before ++ [u], ¬bad v := by
  constructor
  · rintro ⟨before, after, goesOn, run, clean⟩
    exact ⟨before, after, executes_iff.mpr ⟨goesOn, run⟩, clean⟩
  · rintro ⟨before, after, run, clean⟩
    obtain ⟨goesOn, run⟩ := executes_iff.mp run
    exact ⟨before, after, goesOn, run, clean⟩

lemma added_body (once : body.UnitsOnce) :
    ∃ last g, Added (runsOfBody body) body.unitsOfBody entry bare last g ∧ ofBody body = g.joinAt exit last := by
  have inside : entry < bare.size := by decide
  unfold Node.UnitsOnce unitsOfBody at once
  unfold runsOfBody unitsOfBody ofBody
  by_cases many : body.kind = .blockStatement ∨ body.kind = .program
  · rw [if_pos many] at once
    have added := added_addBody body.links sane_bare inside once
    rw [← list_eq] at added
    exact ⟨_, _, by simpa only [if_pos many] using added, by simp [many]⟩
  · rw [if_neg many] at once
    have added := added_addStatement body sane_bare inside once
    exact ⟨_, _, by simpa only [if_neg many] using added, by simp [many]⟩

/-- The graph holds the units of executions, each in a block of its own, and a path to a block that
avoids bad units is an execution that reaches its unit and runs no bad one. -/
structure Represents (G : FlowGraph) (body : Node) : Prop where
  sane : G.Sane
  entry_empty : G.statementsAt entry = []
  placed : ∀ {x u}, u ∈ G.statementsAt x → u ∈ body.unitsOfBody ∧ ∃ us, body.Executes us ∧ u ∈ us
  found : ∀ {us u}, body.Executes us → u ∈ us → ∃ x, u ∈ G.statementsAt x
  one : ∀ {x y u v}, u ∈ G.statementsAt x → v ∈ G.statementsAt y → (x = y ↔ u = v)
  live : ∀ {bad x u}, u ∈ G.statementsAt x → (G.Live (G.Holds bad) x ↔
    ∃ before after, body.Executes (before ++ u :: after) ∧ ∀ v ∈ before ++ [u], ¬bad v)

lemma represents_ofBody (once : body.UnitsOnce) : (ofBody body).Represents body := by
  obtain ⟨last, g, added, eq⟩ := added_body once
  rw [eq]
  have exit_lt : exit < g.size := added.sane.ends
  -- Neither the entry nor the exit holds a unit.
  have new : ∀ {x u}, u ∈ (g.joinAt exit last).statementsAt x → bare.size ≤ x ∧ u ∈ g.statementsAt x := by
    intro x u hu
    rw [statementsAt_joinAt] at hu
    refine ⟨?_, hu⟩
    by_contra old
    rw [added.frame.statements x (Nat.lt_of_not_le old)] at hu
    rcases x with _ | _ | x <;> simp [statementsAt, blockAt, bare] at hu
  have settled : Settled bare g (g.joinAt exit last) := by
    intro y hy hy'
    exact sameAt_joinAt (Nat.ne_of_gt hy) last
  refine ⟨added.sane.joinAt exit_lt last, ?_, ?_, ?_, ?_, ?_⟩
  · apply eq_nil_iff_forall_not_mem.mpr
    intro u hu
    exact absurd (new hu).1 (by decide)
  · intro x u hu
    obtain ⟨hx, hu⟩ := new hu
    obtain ⟨unit, reached⟩ := added.filled.placed hx hu
    obtain ⟨before, after, run, -⟩ := reaches_runsOfBody.mp reached
    exact ⟨unit, _, run, by simp⟩
  · intro us u run hu
    obtain ⟨before, after, rfl⟩ := append_of_mem hu
    obtain ⟨x, -, hu⟩ := added.filled.found (reaches_runsOfBody.mpr ⟨before, after, run, by simp⟩)
    exact ⟨x, by simpa using hu⟩
  · intro x y u v hu hv
    exact added.filled.one (new hu).1 (new hv).1 (new hu).2 (new hv).2
  · intro bad x u hu
    rw [added.live settled (new hu).1 (new hu).2, reaches_runsOfBody]
    exact and_iff_right .entry

end FlowGraph

end ScriptAudit
