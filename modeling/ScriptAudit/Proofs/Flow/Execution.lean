import ScriptAudit.Program.ControlFlow
import ScriptAudit.Proofs.Tree.Below

/-!
# Executions of a body

What a function body can do when it runs, told without a graph: the sequences of units that it can
run.
-/

namespace ScriptAudit

open List

mutual

/-- An execution of a statement runs these units, and then goes on or ends. -/
inductive Runs : Node → List Node → Bool → Prop
  | block {s us goesOn} (isBlock : s.kind = .blockStatement) : RunsAll (s.list .body) us goesOn → Runs s us goesOn
  | consequent {s us goesOn} (isIf : s.kind = .ifStatement) :
      RunsBranch (s.child? .consequent) us goesOn → Runs s ((s.child? .test).toList ++ us) goesOn
  | alternate {s us goesOn} (isIf : s.kind = .ifStatement) :
      RunsBranch (s.child? .alternate) us goesOn → Runs s ((s.child? .test).toList ++ us) goesOn
  | leave {s} (leaves : s.kind = .returnStatement ∨ s.kind = .throwStatement) : Runs s [s] false
  | step {s} (compound : s.kind ≠ .blockStatement ∧ s.kind ≠ .ifStatement)
      (stays : s.kind ≠ .returnStatement ∧ s.kind ≠ .throwStatement) : Runs s [s] true

/-- A branch that is missing runs nothing. -/
inductive RunsBranch : Option Node → List Node → Bool → Prop
  | missing : RunsBranch none [] true
  | given {s us goesOn} : Runs s us goesOn → RunsBranch (some s) us goesOn

/-- Statements run one after the other until one of them ends the execution. -/
inductive RunsAll : List Node → List Node → Bool → Prop
  | nil : RunsAll [] [] true
  | stop {s rest us} : Runs s us false → RunsAll (s :: rest) us false
  | cons {s rest us vs goesOn} : Runs s us true → RunsAll rest vs goesOn → RunsAll (s :: rest) (us ++ vs) goesOn

end

/-- The units that an execution of a function body or of a program runs. -/
inductive Node.Executes (body : Node) : List Node → Prop
  | statements {us goesOn} (many : body.kind = .blockStatement ∨ body.kind = .program) :
      RunsAll (body.list .body) us goesOn → body.Executes us
  | statement {us goesOn} (one : body.kind ≠ .blockStatement ∧ body.kind ≠ .program) :
      Runs body us goesOn → body.Executes us

namespace Node

mutual

def units : Node → List Node
  | mk h ls =>
    match h.kind with
    | .blockStatement => bodyUnits ls
    | .ifStatement => ((mk h ls).child? .test).toList ++ (branchUnits .consequent ls ++ branchUnits .alternate ls)
    | _ => [mk h ls]

def branchUnits (f : Field) : List Link → List Node
  | [] => []
  | (f', some c) :: rest => if f' == f then c.units else branchUnits f rest
  | (_, none) :: rest => branchUnits f rest

def bodyUnits : List Link → List Node
  | [] => []
  | (f, some c) :: rest => if f == .body then c.units ++ bodyUnits rest else bodyUnits rest
  | (_, none) :: rest => bodyUnits rest

end

def unitsOfBody (body : Node) : List Node :=
  if body.kind = .blockStatement ∨ body.kind = .program then bodyUnits body.links else body.units

def UnitsOnce (body : Node) : Prop :=
  (body.unitsOfBody.map ident).Nodup

instance (body : Node) : Decidable body.UnitsOnce := inferInstanceAs (Decidable (List.Nodup _))

section Below

variable {root u : Node}

lemma exists_of_mem_bodyUnits {n : Node} (hu : u ∈ bodyUnits n.links) :
    ∃ c, n.Below c ∧ sizeOf c < sizeOf n ∧ u ∈ c.units := by
  refine exists_child hu rfl (fun _ _ => rfl) fun g c rest hu => ?_
  rw [bodyUnits] at hu
  split at hu
  · exact mem_append.mp hu
  · exact .inr hu

lemma Below.mem_units {n : Node} (hn : Below root n) (hu : u ∈ n.units) : Below root u := by
  refine hn.of_parts hu fun n hu => ?_
  obtain ⟨h, ls⟩ := n
  have branch {f : Field} (hu : u ∈ branchUnits f ls) :
      ∃ c, Below (mk h ls) c ∧ sizeOf c < sizeOf (mk h ls) ∧ u ∈ c.units := by
    refine exists_child (n := mk h ls) hu rfl (fun _ _ => rfl) fun g c rest hu => ?_
    rw [branchUnits] at hu
    split at hu
    · exact .inl hu
    · exact .inr hu
  rw [units] at hu
  split at hu
  · exact .inr (exists_of_mem_bodyUnits (n := mk h ls) hu)
  · rcases mem_append.mp hu with test | hu
    · exact .inl (Below.refl.child? (Option.mem_toList.mp test))
    · exact .inr ((mem_append.mp hu).elim branch branch)
  · exact .inl (.of_eq (mem_singleton.mp hu))

lemma Below.mem_unitsOfBody {body : Node} (hb : Below root body) (hu : u ∈ body.unitsOfBody) : Below root u := by
  unfold unitsOfBody at hu
  split at hu
  · obtain ⟨c, hc, -, hu⟩ := exists_of_mem_bodyUnits hu
    exact (hb.trans hc).mem_units hu
  · exact hb.mem_units hu

end Below

end Node

abbrev Executions := List Node → Bool → Prop

namespace Executions

variable {R S : Executions} {U V : List Node} {bad : Node → Prop} {u : Node} {after : Bool}

def idle : Executions := fun us goesOn => us = [] ∧ goesOn = true

def single (u : Node) (after : Bool) : Executions := fun us goesOn => us = [u] ∧ goesOn = after

def andThen (R S : Executions) : Executions := fun us goesOn =>
  R us false ∧ goesOn = false ∨ ∃ vs ws, us = vs ++ ws ∧ R vs true ∧ S ws goesOn

def either (R S : Executions) : Executions := fun us goesOn => R us goesOn ∨ S us goesOn

def Possible (R : Executions) : Prop := ∃ us goesOn, R us goesOn

def Within (R : Executions) (U : List Node) : Prop := ∀ us goesOn, R us goesOn → ∀ u ∈ us, u ∈ U

def Passes (R : Executions) (bad : Node → Prop) : Prop := ∃ us, R us true ∧ ∀ u ∈ us, ¬bad u

def Reaches (R : Executions) (bad : Node → Prop) (u : Node) : Prop :=
  ∃ before after goesOn, R (before ++ u :: after) goesOn ∧ ∀ v ∈ before ++ [u], ¬bad v

lemma Reaches.mem (h : R.Reaches bad u) (within : R.Within U) : u ∈ U := by
  obtain ⟨before, after, goesOn, run, -⟩ := h
  exact within _ _ run u (by simp)

@[simp] lemma passes_idle : idle.Passes bad := ⟨[], ⟨rfl, rfl⟩, by simp⟩

@[simp] lemma not_reaches_idle : ¬idle.Reaches bad u := by
  rintro ⟨before, after, goesOn, ⟨empty, -⟩, -⟩
  simp at empty

@[simp] lemma passes_single {v : Node} : (single v after).Passes bad ↔ after = true ∧ ¬bad v := by
  simp [Passes, single, and_assoc, eq_comm]

@[simp] lemma reaches_single {v : Node} : (single v after).Reaches bad u ↔ u = v ∧ ¬bad v := by
  constructor
  · rintro ⟨before, rest, goesOn, ⟨eq, -⟩, clean⟩
    obtain ⟨rfl, rfl, rfl⟩ : before = [] ∧ u = v ∧ rest = [] := by cases before <;> simp_all
    exact ⟨rfl, clean u (by simp)⟩
  · rintro ⟨rfl, clean⟩
    exact ⟨[], [], after, ⟨rfl, rfl⟩, by simpa using clean⟩

lemma possible_idle : idle.Possible := ⟨[], true, rfl, rfl⟩

lemma possible_single {after : Bool} : (single u after).Possible := ⟨[u], after, rfl, rfl⟩

lemma within_idle : idle.Within [] := by
  rintro us goesOn ⟨rfl, -⟩
  simp

lemma within_single : (single u after).Within [u] := by
  rintro us goesOn ⟨rfl, -⟩
  simp

/-! ### One piece after the other -/

lemma passes_andThen : (R.andThen S).Passes bad ↔ R.Passes bad ∧ S.Passes bad := by
  constructor
  · rintro ⟨us, ⟨-, ended⟩ | ⟨vs, ws, rfl, first, second⟩, clean⟩
    · cases ended
    · exact ⟨⟨vs, first, fun u hu => clean u (mem_append_left _ hu)⟩,
        ⟨ws, second, fun u hu => clean u (mem_append_right _ hu)⟩⟩
  · rintro ⟨⟨vs, first, cleanFirst⟩, ⟨ws, second, cleanSecond⟩⟩
    refine ⟨vs ++ ws, .inr ⟨vs, ws, rfl, first, second⟩, ?_⟩
    intro u hu
    rcases mem_append.mp hu with h | h
    · exact cleanFirst u h
    · exact cleanSecond u h

lemma Reaches.andThen_left (h : R.Reaches bad u) (possible : S.Possible) : (R.andThen S).Reaches bad u := by
  obtain ⟨before, after, goesOn, run, clean⟩ := h
  cases goesOn with
  | false => exact ⟨before, after, false, .inl ⟨run, rfl⟩, clean⟩
  | true =>
    obtain ⟨ws, goesOn, rest⟩ := possible
    exact ⟨before, after ++ ws, goesOn, .inr ⟨_, ws, by simp, run, rest⟩, clean⟩

lemma Reaches.andThen_right (pass : R.Passes bad) (h : S.Reaches bad u) : (R.andThen S).Reaches bad u := by
  obtain ⟨vs, first, cleanFirst⟩ := pass
  obtain ⟨before, after, goesOn, second, clean⟩ := h
  refine ⟨vs ++ before, after, goesOn, .inr ⟨vs, _, by simp, first, second⟩, ?_⟩
  intro v hv
  rw [append_assoc] at hv
  rcases mem_append.mp hv with h | h
  · exact cleanFirst v h
  · exact clean v h

lemma Reaches.of_andThen (h : (R.andThen S).Reaches bad u) : R.Reaches bad u ∨ R.Passes bad ∧ S.Reaches bad u := by
  obtain ⟨before, after, goesOn, run, clean⟩ := h
  rcases run with ⟨run, -⟩ | ⟨vs, ws, eq, first, second⟩
  · exact .inl ⟨before, after, false, run, clean⟩
  · rcases append_eq_append_iff.mp eq with ⟨more, rfl, rest⟩ | ⟨more, rfl, rest⟩
    -- The unit is in the first piece, unless the piece ends right before it.
    · cases more with
      | nil =>
        rw [append_nil] at first
        refine .inr ⟨⟨before, first, fun v hv => clean v (mem_append_left _ hv)⟩, ?_⟩
        exact ⟨[], after, goesOn, by simpa [rest] using second, by simpa using clean u (by simp)⟩
      | cons v more =>
        obtain ⟨rfl, rfl⟩ := List.cons.inj rest
        exact .inl ⟨before, more, true, first, clean⟩
    · refine .inr ⟨⟨vs, first, fun v hv => clean v (by simp [hv])⟩, ?_⟩
      exact ⟨more, after, goesOn, by rwa [rest] at second, fun v hv => clean v (by simp_all)⟩

lemma reaches_andThen_left (possible : S.Possible) (within : S.Within V) (hu : u ∉ V) :
    (R.andThen S).Reaches bad u ↔ R.Reaches bad u := by
  constructor
  · intro h
    rcases h.of_andThen with h | ⟨-, h⟩
    · exact h
    · exact absurd (h.mem within) hu
  · intro h
    exact h.andThen_left possible

lemma reaches_andThen_right (within : R.Within U) (hu : u ∉ U) :
    (R.andThen S).Reaches bad u ↔ R.Passes bad ∧ S.Reaches bad u := by
  constructor
  · intro h
    rcases h.of_andThen with h | h
    · exact absurd (h.mem within) hu
    · exact h
  · rintro ⟨pass, h⟩
    exact h.andThen_right pass

lemma Within.andThen (hR : R.Within U) (hS : S.Within V) : (R.andThen S).Within (U ++ V) := by
  rintro us goesOn (⟨run, -⟩ | ⟨vs, ws, rfl, first, second⟩) u hu
  · exact mem_append_left _ (hR _ _ run u hu)
  · rcases mem_append.mp hu with h | h
    · exact mem_append_left _ (hR _ _ first u h)
    · exact mem_append_right _ (hS _ _ second u h)

lemma Possible.andThen (hR : R.Possible) (hS : S.Possible) : (R.andThen S).Possible := by
  obtain ⟨us, goesOn, run⟩ := hR
  cases goesOn with
  | false => exact ⟨us, false, .inl ⟨run, rfl⟩⟩
  | true =>
    obtain ⟨ws, goesOn, rest⟩ := hS
    exact ⟨us ++ ws, goesOn, .inr ⟨us, ws, rfl, run, rest⟩⟩

lemma passes_either : (R.either S).Passes bad ↔ R.Passes bad ∨ S.Passes bad := by
  simp [Passes, either, or_and_right, exists_or]

lemma reaches_either : (R.either S).Reaches bad u ↔ R.Reaches bad u ∨ S.Reaches bad u := by
  simp [Reaches, either, or_and_right, exists_or]

lemma Within.either (hR : R.Within U) (hS : S.Within V) : (R.either S).Within (U ++ V) := by
  rintro us goesOn (run | run) u hu
  · exact mem_append_left _ (hR _ _ run u hu)
  · exact mem_append_right _ (hS _ _ run u hu)

lemma Possible.either_left (hR : R.Possible) : (R.either S).Possible := by
  obtain ⟨us, goesOn, run⟩ := hR
  exact ⟨us, goesOn, .inl run⟩

end Executions

open Executions

def testing : Option Node → Executions
  | some t => single t true
  | none => idle

variable {s : Node}

lemma runs_of_block (hk : s.kind = .blockStatement) : Runs s = RunsAll (s.list .body) := by
  ext us goesOn
  constructor
  · intro run
    cases run with
    | block _ run => exact run
    | _ => simp_all
  · exact .block hk

lemma runs_of_if (hk : s.kind = .ifStatement) : Runs s = (testing (s.child? .test)).andThen
      (either (RunsBranch (s.child? .consequent)) (RunsBranch (s.child? .alternate))) := by
  have tested : testing (s.child? .test) (s.child? .test).toList true := by cases s.child? .test <;> exact ⟨rfl, rfl⟩
  ext us goesOn
  constructor
  · intro run
    cases run with
    | consequent _ run => exact .inr ⟨_, _, rfl, tested, .inl run⟩
    | alternate _ run => exact .inr ⟨_, _, rfl, tested, .inr run⟩
    | _ => simp_all
  · rintro (⟨run, -⟩ | ⟨vs, ws, rfl, first, second⟩)
    · cases ht : s.child? .test <;> rw [ht] at run <;> exact absurd run.2 (by decide)
    · obtain rfl : vs = (s.child? .test).toList := by cases ht : s.child? .test <;> rw [ht] at first <;> exact first.1
      rcases second with run | run
      · exact .consequent hk run
      · exact .alternate hk run

lemma runs_of_leave (hk : s.kind = .returnStatement ∨ s.kind = .throwStatement) : Runs s = single s false := by
  ext us goesOn
  constructor
  · intro run
    cases run with
    | leave => exact ⟨rfl, rfl⟩
    | _ => simp_all
  · rintro ⟨rfl, rfl⟩
    exact .leave hk

lemma runs_of_step (compound : s.kind ≠ .blockStatement ∧ s.kind ≠ .ifStatement)
    (stays : s.kind ≠ .returnStatement ∧ s.kind ≠ .throwStatement) : Runs s = single s true := by
  ext us goesOn
  constructor
  · intro run
    cases run with
    | step => exact ⟨rfl, rfl⟩
    | _ => simp_all
  · rintro ⟨rfl, rfl⟩
    exact .step compound stays

lemma runsBranch_none : RunsBranch none = idle := by
  ext us goesOn
  constructor
  · rintro ⟨⟩
    exact ⟨rfl, rfl⟩
  · rintro ⟨rfl, rfl⟩
    exact .missing

lemma runsBranch_some (s : Node) : RunsBranch (some s) = Runs s := by
  ext us goesOn
  constructor
  · rintro ⟨⟩
    assumption
  · exact .given

lemma runsAll_nil : RunsAll [] = idle := by
  ext us goesOn
  constructor
  · rintro ⟨⟩
    exact ⟨rfl, rfl⟩
  · rintro ⟨rfl, rfl⟩
    exact .nil

lemma runsAll_cons (s : Node) (rest : List Node) : RunsAll (s :: rest) = andThen (Runs s) (RunsAll rest) := by
  ext us goesOn
  constructor
  · intro run
    cases run with
    | stop run => exact .inl ⟨run, rfl⟩
    | cons first second => exact .inr ⟨_, _, rfl, first, second⟩
  · rintro (⟨run, rfl⟩ | ⟨vs, ws, rfl, first, second⟩)
    · exact .stop run
    · exact .cons first second

end ScriptAudit
