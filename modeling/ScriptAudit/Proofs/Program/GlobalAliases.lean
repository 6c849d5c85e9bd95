import ScriptAudit.Proofs.Program.Inside
import ScriptAudit.Proofs.Scope.Params

/-!
# Names that hold the global object

A variable is taken to hold the global object if it is set once, to the global object, and a
parameter if the global object stands at its position among the arguments of a call in place.
-/

namespace ScriptAudit

open List Model
variable {m : Model} {b : Binding} {known more : List Nat} {n : Node}

lemma Model.isGlobalRoot_mono (h : known ⊆ more) (hn : m.isGlobalRoot known n = true) :
    m.isGlobalRoot more n = true := by
  unfold isGlobalRoot at hn ⊢
  split
  next hk =>
    rw [hk] at hn
    cases hb : m.binding? n with
    | none => simpa [hb] using hn
    | some b =>
      simp only [hb, contains_iff_mem] at hn ⊢
      exact h hn
  next hk => simpa [hk] using hn
  next hid hthis =>
    split at hn
    · exact absurd ‹_› hid
    · exact absurd ‹_› hthis
    · cases hn

lemma Model.isGlobalObjectWith_mono (h : known ⊆ more) (hn : m.isGlobalObjectWith known n = true) :
    m.isGlobalObjectWith more n = true := by
  unfold isGlobalObjectWith at hn ⊢
  rw [all_eq_true] at hn ⊢
  intro c hc
  have holds := hn c hc
  split at holds
  next hk => rw [if_pos hk, holds]
  next hk =>
    rw [if_neg hk]
    exact isGlobalRoot_mono h holds

mutual

lemma isGlobalExpr_mono (h : known ⊆ more) : ∀ {n : Node}, isGlobalExpr m known n = true → isGlobalExpr m more n = true
  | .mk head ls, hn => by
    unfold isGlobalExpr at hn ⊢
    split at hn
    · rw [Bool.or_eq_true] at hn ⊢
      exact hn.imp (isGlobalExprAt_mono h) (isGlobalExprAt_mono h)
    · rw [Bool.or_eq_true] at hn ⊢
      exact hn.imp (isGlobalExprAt_mono h) (isGlobalExprAt_mono h)
    · exact isGlobalObjectWith_mono h hn

lemma isGlobalExprAt_mono (h : known ⊆ more) : ∀ {f : Field} {ls : List Link},
    isGlobalExprAt m known f ls = true → isGlobalExprAt m more f ls = true
  | _, [], hn => by
    cases hn
  | f, (g, some c) :: rest, hn => by
    unfold isGlobalExprAt at hn ⊢
    split at hn
    next hg =>
      rw [if_pos hg]
      exact isGlobalExpr_mono h hn
    next hg =>
      rw [if_neg hg]
      exact isGlobalExprAt_mono h hn
  | f, (g, none) :: rest, hn => by
    unfold isGlobalExprAt at hn ⊢
    exact isGlobalExprAt_mono h hn

end

namespace Model

/-- A variable that is set once, to the global object. -/
structure SetToGlobal (m : Model) (known : List Nat) (b : Binding) : Prop where
  sort : b.sort.isVariable = true
  constant : b.violations = []
  initial : ∃ value, b.initial = some value ∧ isGlobalExpr m known value = true

/-- A parameter of a function expression called in place, with the global object at its position. -/
structure GlobalAtPosition (m : Model) (known : List Nat) (b : Binding) (call : Node) (i : Nat) (t : PatternTarget) :
    Prop where
  listed : call ∈ m.calls
  callee : ∃ f, call.child? .callee = some f ∧ (f.kind = .functionExpression ∨ f.kind = .arrowFunctionExpression) ∧
    b.DeclaredBy f i t
  argument : ∃ value, (call.list .arguments)[i]? = some value ∧ isGlobalExpr m known value = true

/-- The parameter is whole, nothing writes to it, and no argument up to its position is spread. -/
structure KeepsArgument (b : Binding) (call : Node) (i : Nat) (t : PatternTarget) : Prop where
  whole : t.place.depth = 0
  constant : b.violations = []
  plain : ∀ a ∈ (call.list .arguments).take (i + 1), a.kind ≠ .spreadElement

/-- A name that holds the global object, given some that do. -/
inductive HoldsGlobal (m : Model) (known : List Nat) (b : Binding) : Prop
  | set (once : m.SetToGlobal known b)
  | passed (call : Node) (i : Nat) (t : PatternTarget) (position : m.GlobalAtPosition known b call i t)
      (kept : KeepsArgument b call i t)

def GlobalInDoubt (m : Model) (known : List Nat) (b : Binding) : Prop :=
  ∃ call i t, m.GlobalAtPosition known b call i t ∧ t.place.key = none ∧
    (b.violations ≠ [] ∨ 0 < t.place.depth ∨ ∃ a ∈ (call.list .arguments).take (i + 1), a.kind = .spreadElement)

lemma SetToGlobal.mono (h : m.SetToGlobal known b) (hsub : known ⊆ more) : m.SetToGlobal more b := by
  obtain ⟨value, initial, global⟩ := h.initial
  exact ⟨h.sort, h.constant, value, initial, isGlobalExpr_mono hsub global⟩

lemma GlobalAtPosition.mono {call : Node} {i : Nat} {t : PatternTarget} (h : m.GlobalAtPosition known b call i t)
    (hsub : known ⊆ more) : m.GlobalAtPosition more b call i t := by
  obtain ⟨value, argument, global⟩ := h.argument
  exact ⟨h.listed, h.callee, value, argument, isGlobalExpr_mono hsub global⟩

lemma GlobalAtPosition.holds_or_inDoubt {call : Node} {i : Nat} {t : PatternTarget}
    (h : m.GlobalAtPosition known b call i t) (key : t.place.key = none) :
    m.HoldsGlobal known b ∨ m.GlobalInDoubt known b := by
  by_cases kept : KeepsArgument b call i t
  · exact .inl (.passed call i t h kept)
  · refine .inr ⟨call, i, t, h, key, ?_⟩
    by_contra hno
    simp only [not_or, not_not, not_exists, not_and, Nat.not_lt, Nat.le_zero] at hno
    exact kept ⟨hno.2.1, hno.1, hno.2.2⟩

def Grounded (reason : List Nat → Nat → Prop) (us : List Nat) : Prop :=
  ∀ before u after, us = before ++ u :: after → reason before u

variable {reason : List Nat → Nat → Prop} {us : List Nat}

lemma Grounded.addNew (h : Grounded reason us) {u : Nat} (hu : reason us u) : Grounded reason (addNew us u) := by
  unfold ScriptAudit.addNew
  split
  · exact h
  · intro before v after split
    rcases eq_nil_or_concat after with rfl | ⟨after, w, rfl⟩
    · obtain ⟨rfl, heq⟩ := append_inj' split rfl
      obtain rfl : u = v := by simpa using heq
      exact hu
    · rw [concat_eq_append, ← cons_append, ← append_assoc] at split
      exact h before v after (append_inj' split rfl).1

def Reason (m : Model) (before : List Nat) (u : Nat) : Prop :=
  ∃ y, m.bindings[u]? = some y ∧ (m.SetToGlobal before y ∨ ∃ call i t, m.GlobalAtPosition before y call i t ∧
    t.place.key = none)

section Program

variable {root : Node} {source : String} {isModule : Bool}

lemma getElem?_uid (h : ofProgram root source isModule = .ok m) {u : Nat} (hb : m.bindings[u]? = some b) :
    m.bindings[b.uid]? = some b := by
  rw [uid_of_getElem?_bindings h hb, hb]

lemma grounded_aliasParams (numbered : root.WellNumbered) (h : ofProgram root source isModule = .ok m)
    (hus : Grounded m.Reason us) : Grounded m.Reason (m.aliasParams us) := by
  have inside := inside_ofProgram h
  refine List.foldlRecOn _ _ hus fun us hus call hcall => ?_
  split
  next f hf =>
    split
    next inPlace =>
      have below : root.Below f := by
        rw [← (eq_of_ofProgram h).1]
        exact (inside.calls call hcall).child? hf
      refine List.foldlRecOn _ _ hus fun us hus y hy => ?_
      split
      next passes =>
        apply hus.addNew
        obtain ⟨u, -, found⟩ := mem_filterMap.mp hy
        obtain ⟨i, t, declared⟩ := declaredBy_params numbered h below hy
        simp only [passesGlobal, declared.key, declared.paramIndex, Bool.and_eq_true,
          Option.isNone_iff_eq_none] at passes
        obtain ⟨value, argument, global⟩ := (Option.any_eq_true _ _).mp passes.2
        refine ⟨y, getElem?_uid h found,
          .inr ⟨call, i, t, ⟨hcall, ⟨f, hf, ?_, declared⟩, value, argument, global⟩, passes.1⟩⟩
        simpa using inPlace
      next => exact hus
    next => exact hus
  next => exact hus

lemma grounded_aliasVariables (h : ofProgram root source isModule = .ok m) (hus : Grounded m.Reason us) :
    Grounded m.Reason (m.aliasVariables us) := by
  refine List.foldlRecOn _ _ hus fun us hus s _ => List.foldlRecOn _ _ hus fun us hus y hy => ?_
  split
  next taken =>
    apply hus.addNew
    obtain ⟨u, -, found⟩ := mem_filterMap.mp hy
    simp only [Bool.and_eq_true, Binding.isConstant, List.isEmpty_iff] at taken
    obtain ⟨value, initial, global⟩ := (Option.any_eq_true _ _).mp taken.2
    exact ⟨y, getElem?_uid h found, .inl ⟨taken.1.1, taken.1.2, value, initial, global⟩⟩
  next => exact hus

lemma grounded_globalAliases (numbered : root.WellNumbered) (h : ofProgram root source isModule = .ok m) :
    Grounded m.Reason m.globalAliases := by
  have round {us : List Nat} (hus : Grounded m.Reason us) : Grounded m.Reason (m.aliasRound us) :=
    grounded_aliasVariables h (grounded_aliasParams numbered h hus)
  refine round (round fun before u after split => ?_)
  simp at split

end Program

end Model

namespace Globals

variable {g : Globals}

structure Of (m : Model) (g : Globals) : Prop where
  model : g.model = m
  aliases : g.aliases = m.globalAliases

lemma Of.define (h : g.Of m) (name : String) (definition : Node) (via : Via) : (g.define name definition via).Of m := by
  unfold Globals.define
  split
  · exact h
  · exact { h with }

lemma Of.noteNode (h : g.Of m) (n : Node) : (g.noteNode n).Of m := by
  refine noteNode_induction (fun name d h => ?_) (fun name via _ h => h.define name _ via) (fun _ h => { h with }) h
  unfold export_
  split
  · exact h
  · exact { h with }

lemma Of.foldl_noteNode (ns : List Node) :
    (ns.foldl Globals.noteNode { model := m, aliases := m.globalAliases }).Of m :=
  foldlRecOn _ _ ⟨rfl, rfl⟩ fun _ hg n _ => hg.noteNode n

lemma aliases_ofModel (m : Model) : (ofModel m).aliases = m.globalAliases := by
  unfold ofModel noteDeclarations
  split
  · refine (foldlRecOn (motive := Of m) _ _ (.foldl_noteNode _) fun g hg b _ => ?_).aliases
    split
    iterate 2 exact hg.define _ _ _
    · exact hg
  · exact (Of.foldl_noteNode _).aliases

end Globals

/-- Every name is taken for a reason that only names taken before it give. It holds the global
object, or it is a parameter in doubt: one that is written to, that takes a part of its argument
under no recorded key, or whose position is behind a spread argument. -/
theorem Globals.holdsGlobal_or_inDoubt {root : Node} {source : String} {isModule : Bool}
    (numbered : root.WellNumbered) (h : ofProgram root source isModule = .ok m) {u : Nat}
    (hb : m.bindings[u]? = some b) (taken : (ofModel m).isAlias b = true) :
    ∃ before after, (ofModel m).aliases = before ++ b.uid :: after ∧ ∀ known, before ⊆ known →
      m.HoldsGlobal known b ∨ m.GlobalInDoubt known b := by
  rw [isAlias, contains_iff_mem, aliases_ofModel] at taken
  obtain ⟨before, after, split⟩ := append_of_mem taken
  obtain ⟨y, hy, reason⟩ := grounded_globalAliases numbered h before b.uid after split
  obtain rfl : b = y := Option.some.inj ((getElem?_uid h hb).symm.trans hy)
  refine ⟨before, after, (aliases_ofModel m).trans split, fun known sub => ?_⟩
  rcases reason with once | ⟨call, i, t, passed, key⟩
  · exact .inl (.set (once.mono sub))
  · exact (passed.mono sub).holds_or_inDoubt key

namespace Wrapped

def program (statement : Node) : Node :=
  .script [.statement 1 (.call 2 (.branch 3 .functionExpression [(.params,
    some (.identifier 4 "w")), (.body, some (.block 5 [statement]))]) [.identifier 6 "window"])]

def copied : Node := .declaration 7 "v" (.identifier 10 "w")

def overwritten : Node :=
  .statement 7 (.branch 8 .assignmentExpression [(.left, some (.identifier 9 "w")),
    (.right, some (.object 10 []))])

def taken? (statement : Node) (u : Nat) : Option Binding :=
  match ofProgram (program statement) "" false with
  | .ok m => (m.bindings[u]?).filter (Globals.ofModel m).isAlias
  | .error _ => none

end Wrapped

open Wrapped

/-- A variable that is set to a parameter holds the global object since the parameter does. -/
theorem Globals.holdsGlobal_or_inDoubt_copied : ∃ m b, ofProgram (program copied) "" false = .ok m ∧
    m.bindings[1]? = some b ∧ b.name = "v" ∧ (ofModel m).isAlias b = true ∧
    ∃ before after, (ofModel m).aliases = before ++ b.uid :: after ∧ m.HoldsGlobal before b := by
  have hroot : (program copied).WellFormed := Node.wellFormed_check (by decide)
  obtain ⟨m, hm⟩ := exists_ofProgram hroot.toWellNamed "" false
  have taken : (taken? copied 1).any (fun b => b.name == "v" && b.sort == .var) = true := by
    decide +kernel
  obtain ⟨b, hb, facts⟩ := (Option.any_eq_true _ _).mp taken
  simp only [taken?, hm, Option.filter_eq_some_iff] at hb
  simp only [Bool.and_eq_true, beq_iff_eq] at facts
  obtain ⟨before, after, split, reason⟩ := holdsGlobal_or_inDoubt hroot.toWellNumbered hm hb.1 hb.2
  refine ⟨m, b, hm, hb.1, facts.1, hb.2, before, after, split, ?_⟩
  rcases reason before (List.Subset.refl _) with holds | ⟨call, i, t, passed, -⟩
  · exact holds
  · obtain ⟨f, -, -, declared⟩ := passed.callee
    rw [declared.sort] at facts
    cases facts.2

/-- A parameter that is written to is taken to hold the global object all the same. -/
theorem Globals.not_holdsGlobal_overwritten : ∃ m b,
    ofProgram (program overwritten) "" false = .ok m ∧ m.bindings[0]? = some b ∧ b.name = "w" ∧
    (ofModel m).isAlias b = true ∧ ∀ known, ¬m.HoldsGlobal known b := by
  have hroot : (program overwritten).WellFormed := Node.wellFormed_check (by decide)
  obtain ⟨m, hm⟩ := exists_ofProgram hroot.toWellNamed "" false
  have taken : (taken? overwritten 0).any (fun b => b.name == "w" && !b.isConstant) = true := by
    decide +kernel
  obtain ⟨b, hb, facts⟩ := (Option.any_eq_true _ _).mp taken
  simp only [taken?, hm, Option.filter_eq_some_iff] at hb
  simp only [Bool.and_eq_true, beq_iff_eq, Binding.isConstant, Bool.not_eq_true', isEmpty_eq_false_iff] at facts
  refine ⟨m, b, hm, hb.1, facts.1, hb.2, fun known holds => ?_⟩
  cases holds with
  | set once => exact facts.2 once.constant
  | passed call i t position kept => exact facts.2 kept.constant

end ScriptAudit
