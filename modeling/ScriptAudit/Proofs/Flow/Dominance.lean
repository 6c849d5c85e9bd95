import Mathlib.Data.List.Perm.Subperm
import Mathlib.Data.List.Range
import ScriptAudit.Proofs.Flow.Building
import ScriptAudit.Proofs.Scope.Lexical
import ScriptAudit.Proofs.Scope.Traversal

/-!
# Sanitizers that dominate a sink

The search of a flow graph finds exactly the blocks that a path reaches.
-/

namespace ScriptAudit

open List Model

namespace FlowGraph

variable {g : FlowGraph} {avoid seen work taken : List Nat} {target fuel : Nat}

lemma live_of_reaches (started : ∀ x ∈ work, g.Live (· ∈ avoid) x) (skipped : ∀ x ∈ avoid, x ∈ seen)
    (h : g.reaches target fuel seen work = true) : g.Live (· ∈ avoid) target := by
  induction fuel generalizing seen work with
  | zero => cases h
  | succ fuel ih =>
    cases work with
    | nil => cases h
    | cons block work =>
      rw [reaches] at h
      have live := started block mem_cons_self
      split at h
      next eq =>
        rw [beq_iff_eq] at eq
        exact eq ▸ live
      next =>
        refine ih ?_ ?_ h
        · intro y hy
          rcases mem_append.mp hy with hy | hy
          · obtain ⟨edge, fresh⟩ := mem_filter.mp hy
            have unseen : y ∉ seen := by simpa using fresh
            exact .step live edge fun avoided => unseen (skipped y avoided)
          · exact started y (mem_cons_of_mem _ hy)
        · intro x hx
          exact mem_append_left _ (skipped x hx)

/-- The state of a search that has not found its target yet: what was seen is what is to be avoided,
what was taken and what waits, and all that follows a block that was taken was seen. -/
structure Searching (g : FlowGraph) (avoid : List Nat) (target fuel : Nat) (taken seen work : List Nat) : Prop where
  once : (taken ++ work).Nodup
  inside : ∀ x ∈ taken ++ work, x < g.size
  seen_iff : ∀ x, x ∈ seen ↔ x ∈ avoid ∨ x ∈ taken ++ work
  closed : ∀ x ∈ taken, ∀ y ∈ g.successors x, y ∈ seen
  started : entry ∈ taken ++ work
  missed : target ∉ taken
  enough : g.size < fuel + taken.length

lemma searching_entry (sane : g.Sane) : Searching g avoid target (g.blocks.size + 1) [] (entry :: avoid) [entry] where
  once := by simp
  inside := by simpa using sane.entry_lt
  seen_iff x := by simp [or_comm]
  closed := by simp
  started := by simp
  missed := by simp
  enough := Nat.lt_succ_self _

lemma Searching.step {block : Nat} (sane : g.Sane)
    (h : Searching g avoid target (fuel + 1) taken seen (block :: work)) (other : block ≠ target) :
    Searching g avoid target fuel (block :: taken) (seen ++ (g.successors block).filter (!seen.contains ·))
      ((g.successors block).filter (!seen.contains ·) ++ work) := by
  have mem_next : ∀ x, x ∈ (g.successors block).filter (!seen.contains ·) ↔
      x ∈ g.successors block ∧ x ∉ seen := by simp
  have next_nodup : ((g.successors block).filter (!seen.contains ·)).Nodup := (sane.nodup block).filter _
  generalize (g.successors block).filter (!seen.contains ·) = next at mem_next next_nodup ⊢
  have mem_round : ∀ x, x ∈ (block :: taken) ++ (next ++ work) ↔ x ∈ taken ++ block :: work ∨ x ∈ next := by
    intro x
    simp only [cons_append, mem_cons, mem_append]
    tauto
  refine ⟨?_, ?_, ?_, ?_, ?_, ?_, ?_⟩
  · have fresh : ∀ x ∈ next, x ∉ taken ++ block :: work := fun x hx known =>
      ((mem_next x).mp hx).2 ((h.seen_iff x).mpr (.inr known))
    have apart : (next ++ (taken ++ block :: work)).Nodup :=
      nodup_append.mpr ⟨next_nodup, h.once, fun x hx y hy eq => fresh x hx (eq ▸ hy)⟩
    refine (List.Perm.nodup_iff ?_).mp apart
    grind
  · intro x hx
    rcases (mem_round x).mp hx with old | new
    · exact h.inside x old
    · exact sane.inside ((mem_next x).mp new).1
  · intro x
    rw [mem_append, h.seen_iff, mem_round, or_assoc]
  · intro x hx y edge
    rw [mem_append]
    rcases mem_cons.mp hx with rfl | old
    · by_cases known : y ∈ seen
      · exact .inl known
      · exact .inr ((mem_next y).mpr ⟨edge, known⟩)
    · exact .inl (h.closed x old y edge)
  · exact (mem_round _).mpr (.inl h.started)
  · intro hit
    rcases mem_cons.mp hit with rfl | old
    · exact other rfl
    · exact h.missed old
  · have := h.enough
    simp only [length_cons]
    omega

lemma not_live_of_not_reaches (sane : g.Sane) (h : Searching g avoid target fuel taken seen work)
    (missed : g.reaches target fuel seen work = false) : ¬g.Live (· ∈ avoid) target := by
  induction fuel generalizing taken seen work with
  | zero =>
    -- No more blocks can have been taken than there are.
    have within : taken ⊆ List.range g.size := fun x hx => mem_range.mpr (h.inside x (mem_append_left _ hx))
    have le := ((nodup_append.mp h.once).1.subperm within).length_le
    have := h.enough
    rw [length_range] at le
    omega
  | succ fuel ih =>
    cases work with
    | nil =>
      have all : ∀ {x}, g.Live (· ∈ avoid) x → x ∈ taken := by
        intro x live
        induction live with
        | entry => simpa using h.started
        | step before edge free ih =>
          rcases (h.seen_iff _).mp (h.closed _ ih _ edge) with avoided | known
          · exact absurd avoided free
          · simpa using known
      exact fun live => h.missed (all live)
    | cons block work =>
      rw [reaches] at missed
      split at missed
      next => cases missed
      next other =>
        rw [beq_iff_eq] at other
        exact ih (h.step sane other) missed

lemma reachableAvoiding_iff (sane : g.Sane) :
    g.reachableAvoiding target avoid = true ↔ entry ∉ avoid ∧ g.Live (· ∈ avoid) target := by
  rw [reachableAvoiding]
  split
  next avoided =>
    have avoided : entry ∈ avoid := by simpa using avoided
    simp [avoided]
  next free =>
    have free : entry ∉ avoid := by simpa using free
    refine ⟨fun found => ⟨free, ?_⟩, fun live => ?_⟩
    · refine live_of_reaches ?_ (fun x hx => mem_cons_of_mem _ hx) found
      simpa using Live.entry
    · by_contra missed
      exact not_live_of_not_reaches sane (searching_entry sane) (by simpa using missed) live.2

end FlowGraph

def Node.CanRun (body u : Node) : Prop := ∃ us, body.Executes us ∧ u ∈ us

def Model.StandsIn (m : Model) (body n u : Node) : Prop :=
  body.CanRun u ∧ ∃ inner a outer, n :: m.ancestors n = inner ++ a :: outer ∧ a.ident = u.ident ∧
    ∀ b ∈ inner, ∀ v, body.CanRun v → b.ident ≠ v.ident

namespace FlowGraph

variable {G : FlowGraph} {m : Model} {body n u v : Node} {x : Nat} {i : NodeId} {sanitizers : List Node}

section

variable (h : G.Represents body)
include h

lemma Represents.canRun_iff : body.CanRun u ↔ ∃ x, u ∈ G.statementsAt x := by
  constructor
  · rintro ⟨us, run, hu⟩
    exact h.found run hu
  · rintro ⟨x, hu⟩
    exact (h.placed hu).2

lemma Represents.eq_of_ident (once : body.UnitsOnce) (hu : body.CanRun u) (hv : body.CanRun v)
    (eq : u.ident = v.ident) : u = v := by
  obtain ⟨x, hu⟩ := h.canRun_iff.mp hu
  obtain ⟨y, hv⟩ := h.canRun_iff.mp hv
  exact inj_on_of_nodup_map once (h.placed hu).1 (h.placed hv).1 eq

lemma Represents.lookup_iff (once : body.UnitsOnce) :
    G.owners.lookup i = some x ↔ ∃ u ∈ G.statementsAt x, u.ident = i := by
  have sound : ∀ {y}, G.owners.lookup i = some y → ∃ u ∈ G.statementsAt y, u.ident = i := by
    intro y found
    obtain ⟨before, after, eq, -⟩ := lookup_eq_some_iff.mp found
    exact h.sane.owned.mp (by simp [eq])
  refine ⟨sound, ?_⟩
  rintro ⟨u, hu, rfl⟩
  have owner : (u.ident, x) ∈ G.owners := h.sane.owned.mpr ⟨u, hu, rfl⟩
  cases found : G.owners.lookup u.ident with
  | none => simpa using lookup_eq_none_iff.mp found _ owner
  | some y =>
    obtain ⟨v, hv, eq⟩ := sound found
    have same := h.eq_of_ident once (h.canRun_iff.mpr ⟨y, hv⟩) (h.canRun_iff.mpr ⟨x, hu⟩) eq
    rw [(h.one hv hu).mpr same]

lemma Represents.lookup_eq_none_iff (once : body.UnitsOnce) :
    G.owners.lookup i = none ↔ ∀ v, body.CanRun v → i ≠ v.ident := by
  rw [Option.eq_none_iff_forall_ne_some]
  constructor
  · rintro missing v run rfl
    obtain ⟨x, hv⟩ := h.canRun_iff.mp run
    exact missing x ((h.lookup_iff once).mpr ⟨v, hv, rfl⟩)
  · intro missing x found
    obtain ⟨v, hv, eq⟩ := (h.lookup_iff once).mp found
    exact missing v (h.canRun_iff.mpr ⟨x, hv⟩) eq.symm

lemma Represents.blockOf?_iff (once : body.UnitsOnce) :
    G.blockOf? m n = some x ↔ ∃ u ∈ G.statementsAt x, m.StandsIn body n u := by
  rw [blockOf?, List.findSome?_eq_some_iff]
  simp only [h.lookup_iff once, h.lookup_eq_none_iff once]
  constructor
  · rintro ⟨inner, a, outer, eq, ⟨u, hu, same⟩, free⟩
    exact ⟨u, hu, h.canRun_iff.mpr ⟨x, hu⟩, inner, a, outer, eq, same.symm, free⟩
  · rintro ⟨u, hu, -, inner, a, outer, eq, same, free⟩
    exact ⟨inner, a, outer, eq, ⟨u, hu, same.symm⟩, free⟩

lemma Represents.standsIn_iff (once : body.UnitsOnce) (hu : u ∈ G.statementsAt x) :
    m.StandsIn body n u ↔ G.blockOf? m n = some x := by
  rw [h.blockOf?_iff once]
  constructor
  · intro stands
    exact ⟨u, hu, stands⟩
  · rintro ⟨v, hv, stands⟩
    rwa [(h.one hu hv).mp rfl]

lemma Represents.standsIn_unique (once : body.UnitsOnce) (hu : m.StandsIn body n u) (hv : m.StandsIn body n v) :
    u = v := by
  obtain ⟨x, placedU⟩ := h.canRun_iff.mp hu.1
  obtain ⟨y, placedV⟩ := h.canRun_iff.mp hv.1
  have found := (h.standsIn_iff once placedU).mp hu
  rw [(h.standsIn_iff once placedV).mp hv] at found
  cases found
  exact (h.one placedU placedV).mp rfl

lemma Represents.standsIn_iff_innermost {root : Node} {source : String} {isModule : Bool}
    (numbered : root.WellNumbered) (tree : root.OneParent) (hm : ofProgram root source isModule = .ok m)
    (hbody : root.Below body) (hn : root.Below n) :
    m.StandsIn body n u ↔ body.CanRun u ∧ u.Below n ∧ ∀ v, body.CanRun v → u.Below v → v.Below n → v = u := by
  have way : root.Way (m.path n) n := way_path numbered hm hn
  have unit_below : ∀ {v}, body.CanRun v → root.Below v := by
    intro v run
    obtain ⟨x, hv⟩ := h.canRun_iff.mp run
    exact hbody.mem_unitsOfBody (h.placed hv).1
  have above : ∀ {q}, q ∈ n :: m.ancestors n → root.Below q ∧ q.Below n := by
    intro q hq
    rcases mem_cons.mp hq with rfl | hq
    · exact ⟨hn, .refl⟩
    · exact way.below_of_mem hq
  constructor
  · rintro ⟨run, inner, a, outer, split, same, free⟩
    obtain rfl : a = u := numbered.unique a u (above (by simp [split])).1 (unit_below run) same
    refine ⟨run, (above (by simp [split])).2, ?_⟩
    intro v runs below inside
    have mem : v ∈ n :: m.ancestors n := by
      rcases way.mem_of_below tree (unit_below runs) inside with rfl | hv
      · exact mem_cons_self
      · exact mem_cons_of_mem _ hv
    rw [split] at mem
    rcases mem_append.mp mem with hv | hv
    · exact absurd rfl (free v hv v runs)
    · rcases mem_cons.mp hv with rfl | hv
      · rfl
      · obtain ⟨rest, up, rfl⟩ := way.rest split
        exact (up.below_of_mem hv).2.antisymm below
  · rintro ⟨run, inside, innermost⟩
    have mem : u ∈ n :: m.ancestors n := by
      rcases way.mem_of_below tree (unit_below run) inside with rfl | hu
      · exact mem_cons_self
      · exact mem_cons_of_mem _ hu
    obtain ⟨inner, outer, split, first⟩ := eq_append_cons_of_mem mem
    refine ⟨run, inner, u, outer, split, rfl, ?_⟩
    rintro q hq v runs same
    have around := above (q := q) (by simp [split, hq])
    obtain rfl := numbered.unique q v around.1 (unit_below runs) same
    obtain ⟨before, after, rfl⟩ := append_of_mem hq
    have whole : n :: m.ancestors n = before ++ q :: (after ++ u :: outer) := by simpa using split
    obtain ⟨rest, up, eq⟩ := way.rest whole
    have below : u.Below q := (up.below_of_mem (by rw [← eq]; simp)).2
    have same := innermost q runs below around.2
    exact first (by simp [same])

lemma Represents.mem_filterMap_blockOf? (once : body.UnitsOnce) :
    x ∈ sanitizers.filterMap (G.blockOf? m) ↔ G.Holds (fun v => ∃ s ∈ sanitizers, m.StandsIn body s v) x := by
  simp only [mem_filterMap, h.blockOf?_iff once, Holds]
  constructor
  · rintro ⟨s, hs, v, hv, stands⟩
    exact ⟨v, hv, s, hs, stands⟩
  · rintro ⟨v, hv, s, hs, stands⟩
    exact ⟨s, hs, v, hv, stands⟩

lemma Represents.isSanitized_iff (once : body.UnitsOnce) {sink : Node} : G.isSanitized m sink sanitizers = true ↔
      ∃ x, G.blockOf? m sink = some x ∧
        (∃ y, G.Holds (fun v => ∃ s ∈ sanitizers, m.StandsIn body s v) y) ∧
        ¬G.Live (G.Holds fun v => ∃ s ∈ sanitizers, m.StandsIn body s v) x := by
  have blocks : (· ∈ sanitizers.filterMap (G.blockOf? m)) =
      G.Holds (fun v => ∃ s ∈ sanitizers, m.StandsIn body s v) := by
    funext x
    exact propext (h.mem_filterMap_blockOf? once)
  have free : FlowGraph.entry ∉ sanitizers.filterMap (G.blockOf? m) := by
    rw [h.mem_filterMap_blockOf? once]
    rintro ⟨v, hv, -⟩
    simp [h.entry_empty] at hv
  simp only [← blocks]
  rw [isSanitized]
  cases found : G.blockOf? m sink with
  | none => simp
  | some x =>
    have ne : x ≠ FlowGraph.entry := by
      rintro rfl
      obtain ⟨u, hu, -⟩ := (h.blockOf?_iff once).mp found
      simp [h.entry_empty] at hu
    generalize sanitizers.filterMap (G.blockOf? m) = avoid at free
    have avoided : (avoid.contains x || !G.reachableAvoiding x avoid) = true ↔ ¬G.Live (· ∈ avoid) x := by
      rw [Bool.or_eq_true, Bool.not_eq_true', ← Bool.not_eq_true, reachableAvoiding_iff h.sane, contains_iff_mem]
      constructor
      · rintro (held | unreached) live
        · exact ((live_iff ne).mp live).1 held
        · exact unreached ⟨free, live⟩
      · intro dead
        exact .inr fun reached => dead reached.2
    cases avoid with
    | nil => simp
    | cons y rest =>
      simp only [isEmpty_cons, Bool.false_eq_true, if_false, avoided]
      constructor
      · intro dead
        exact ⟨x, rfl, ⟨y, mem_cons_self⟩, dead⟩
      · rintro ⟨_, ⟨⟩, -, dead⟩
        exact dead

end

end FlowGraph

open FlowGraph

/-- A sink counts as sanitized exactly when it stands in a unit that can run, a sanitizer does, and
every execution that reaches the sink has run the unit of a sanitizer by then. -/
theorem isSanitized_iff_dominated {body : Node} (once : body.UnitsOnce) (m : Model) (sink : Node)
    (sanitizers : List Node) :
    ((ofBody body).isSanitized m sink sanitizers = true ↔
      (∃ u, m.StandsIn body sink u) ∧ (∃ s ∈ sanitizers, ∃ v, m.StandsIn body s v) ∧
        ∀ u, m.StandsIn body sink u → ∀ before after, body.Executes (before ++ u :: after) →
          ∃ v ∈ before ++ [u], ∃ s ∈ sanitizers, m.StandsIn body s v) ∧
    (∀ root source isModule, root.WellNumbered → root.OneParent → ofProgram root source isModule = .ok m →
      root.Below body → ∀ n u, root.Below n → (m.StandsIn body n u ↔
        body.CanRun u ∧ u.Below n ∧ ∀ v, body.CanRun v → u.Below v → v.Below n → v = u)) ∧
    ∀ x, (ofBody body).statementsAt x ≠ [] → (ofBody body).reachableAvoiding x [] = true := by
  have h := represents_ofBody once
  refine ⟨?_, ?_, ?_⟩
  · rw [h.isSanitized_iff once]
    constructor
    · rintro ⟨x, found, ⟨y, v, hv, s, hs, stands⟩, dead⟩
      obtain ⟨u, hu, around⟩ := (h.blockOf?_iff once).mp found
      refine ⟨⟨u, around⟩, ⟨s, hs, v, stands⟩, ?_⟩
      intro u' around' before after run
      obtain rfl : u' = u := h.standsIn_unique once around' around
      by_contra none
      push Not at none
      exact dead ((h.live hu).mpr ⟨before, after, run, by simpa using none⟩)
    · rintro ⟨⟨u, around⟩, ⟨s, hs, v, stands⟩, dominated⟩
      obtain ⟨x, hu⟩ := h.canRun_iff.mp around.1
      obtain ⟨y, hv⟩ := h.canRun_iff.mp stands.1
      refine ⟨x, (h.standsIn_iff once hu).mp around, ⟨y, v, hv, s, hs, stands⟩, ?_⟩
      intro live
      obtain ⟨before, after, run, clean⟩ := (h.live hu).mp live
      obtain ⟨w, hw, sanitized⟩ := dominated u around before after run
      exact clean w hw sanitized
  · intro root source isModule numbered tree hm hbody n u hn
    exact h.standsIn_iff_innermost numbered tree hm hbody hn
  · intro x filled
    obtain ⟨u, hu⟩ := exists_mem_of_ne_nil _ filled
    obtain ⟨us, run, mem⟩ := (h.placed hu).2
    obtain ⟨before, after, rfl⟩ := append_of_mem mem
    have live := (h.live hu).mpr ⟨before, after, run, fun _ _ => not_false⟩
    rw [reachableAvoiding_iff h.sane]
    refine ⟨by simp, ?_⟩
    convert live using 2
    simp [Holds]

namespace Cleaned

def first : Node := .call 5 (.identifier 6 "clean") []

def second : Node := .call 9 (.identifier 10 "clean") []

def sink : Node := .call 12 (.identifier 13 "send") []

def body : Node :=
  .block 1 [.branch 2 .ifStatement [(.test, some (.identifier 3 "t")),
    (.consequent, some (.statement 4 first)), (.alternate, some (.block 7 [.statement 8 second]))],
    .statement 11 sink]

def program : Node := .script [body]

def check : Bool :=
  match ofProgram program "" false with
  | .ok m => (ofBody body).isSanitized m sink [first, second] && !(ofBody body).isSanitized m sink [first]
  | .error _ => false

end Cleaned

open Cleaned

/-- A sink after an `if` is sanitized if both branches sanitize. -/
theorem isSanitized_iff_dominated_branches :
    ∃ m, ofProgram program "" false = .ok m ∧
      (∀ u, m.StandsIn body sink u → ∀ before after,
        body.Executes (before ++ u :: after) →
          ∃ v ∈ before ++ [u], ∃ s ∈ [first, second], m.StandsIn body s v) ∧
      (ofBody body).isSanitized m sink [first] = false := by
  have once : body.UnitsOnce := by decide
  have check : Cleaned.check = true := by decide +kernel
  unfold Cleaned.check at check
  split at check
  next m hm =>
    rw [Bool.and_eq_true, Bool.not_eq_true'] at check
    have dominated := (isSanitized_iff_dominated once m sink [first, second]).1.mp check.1
    exact ⟨m, hm, dominated.2.2, check.2⟩
  next => cases check

end ScriptAudit
