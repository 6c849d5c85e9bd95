import ScriptAudit.Proofs.Program.GlobalAliases
import ScriptAudit.Proofs.Scope.Traversal

/-!
# The order of global definitions

Under a global name stand first the values that are assigned to it, and then those with which a
script declares it.
-/

namespace ScriptAudit

open List Table Model Option

variable {root n : Node} {source : String} {isModule : Bool} {m : Model} {x : String}

namespace Model

def globalEntry (m : Model) (x : String) (definition : Node) (via : Via) : GlobalEntry :=
  ⟨x, definition, m.scopeChain definition, via⟩

/-- How an assignment defines a global name: its target is the name, and nothing declares it, or a
property of the global object. -/
def assignedVia? (m : Model) (x : String) (left : Node) : Option Via :=
  if left.kind = .identifier then
    if left.name = some x ∧ x ≠ "" ∧ (m.binding? left).isNone then some .implicit else none
  else if left.reads x ∧ x ≠ "" ∧ (left.child? .object).any (m.isGlobalObjectWith m.globalAliases) then some .property
  else none

def assignedGlobal? (m : Model) (x : String) (n : Node) : Option GlobalEntry :=
  if n.kind = .assignmentExpression ∧ n.operator = "=" then
    match n.child? .left, n.child? .right with
    | some left, some right => (m.assignedVia? x left).map (m.globalEntry x right)
    | _, _ => none
  else none

/-- What a variable or function of this name is declared with. -/
def declaredBy? (m : Model) (x : String) (b : Binding) : Option GlobalEntry :=
  if b.name = x ∧ x ≠ "" ∧ (b.sort = .var ∨ b.sort = .function) then b.initial.map
    (m.globalEntry x · .declaration) else none

/-- What a script declares outside of functions. -/
def declaredGlobals (m : Model) (x : String) : List GlobalEntry :=
  if m.isModule then [] else ((m.scopes[0]?).toList.flatMap m.scopeBindings).filterMap (m.declaredBy? x)

end Model

namespace Globals

variable {g : Globals}

lemma lookup_export_ (name : String) (d : Node) : (g.export_ name d).lookup x = g.lookup x := by
  unfold export_
  split <;> rfl

lemma Of.lookup_define (h : g.Of m) (name : String) (d : Node) (via : Via) : (g.define name d via).lookup x =
    g.lookup x ++ (if name = x ∧ x ≠ "" then some (m.globalEntry x d via) else none).toList := by
  unfold Globals.define
  split
  next empty =>
    obtain rfl := String.isEmpty_iff.mp empty
    rw [if_neg fun eq => eq.2 eq.1.symm]
    simp
  next named =>
    rw [lookup, getD_push, ← h.model]
    have nonempty : name ≠ "" := mt String.isEmpty_iff.mpr named
    by_cases eq : name = x
    · subst eq
      rw [if_pos rfl, if_pos ⟨rfl, nonempty⟩]
      rfl
    · rw [if_neg eq, if_neg (eq ·.1)]
      rfl

lemma Of.lookup_noteAssignment (h : g.Of m) (hn : n.kind = .assignmentExpression ∧ n.operator = "=") :
    (g.noteAssignment n).lookup x = g.lookup x ++ (m.assignedGlobal? x n).toList := by
  unfold noteAssignment assignedGlobal?
  rw [if_pos hn]
  cases n.child? .left <;> cases n.child? .right
  case some.some left right =>
    dsimp only
    unfold assignedVia?
    split
    next hk =>
      rw [if_pos hk, h.model]
      cases left.name <;> split <;> simp_all [h.lookup_define, map_if]
    next hk =>
      rw [if_neg (by simp [hk])]
      split
      next name object hname hobj =>
        rw [isGlobalObject, h.model, h.aliases, hobj, any_some, Node.reads, hname]
        split
        next global => simp [h.lookup_define, global, map_if]
        next other => split <;> simp [lookup_export_, other]
      next missing =>
        rw [if_neg]
        · simp
        · cases hname : left.memberName? <;> cases hobj : left.child? .object <;> simp_all [Node.reads]
    next hid hmem =>
      have unread : left.memberName? = none := if_neg (by simpa using hmem)
      simp [if_neg hid, Node.reads, unread]
  all_goals simp

lemma Of.lookup_noteNode (h : g.Of m) (n : Node) :
    (g.noteNode n).lookup x = g.lookup x ++ (m.assignedGlobal? x n).toList := by
  by_cases hn : n.kind = .assignmentExpression ∧ n.operator = "="
  · rw [← h.lookup_noteAssignment hn, Globals.noteNode]
    simp [hn]
  · rw [assignedGlobal?, if_neg hn, toList_none, append_nil, Globals.noteNode]
    have exported : (g.noteExport n).lookup x = g.lookup x :=
      noteExport_induction (P := (lookup · x = _)) (fun name d h => (lookup_export_ name d).trans h) rfl
    split
    · rw [if_neg (by simp_all)]
    · exact exported
    · exact exported
    · split <;> rfl
    · rfl

lemma lookup_foldl {α : Type} {step : Globals → α → Globals} {f : α → Option GlobalEntry} (hstep : ∀ g a, Of m g →
    (step g a).Of m ∧ (step g a).lookup x = g.lookup x ++ (f a).toList) (as : List α) (h : g.Of m) :
    (as.foldl step g).Of m ∧ (as.foldl step g).lookup x = g.lookup x ++ as.filterMap f := by
  induction as generalizing g with
  | nil => simpa using h
  | cons a rest ih =>
    obtain ⟨of, found⟩ := hstep g a h
    obtain ⟨of', found'⟩ := ih of
    rw [foldl_cons, found', found, append_assoc, filterMap_cons]
    cases f a <;> exact ⟨of', rfl⟩

lemma Of.lookup_noteDeclarations (h : g.Of m) : g.noteDeclarations.lookup x = g.lookup x ++ m.declaredGlobals x := by
  unfold noteDeclarations declaredGlobals
  rw [h.model]
  split
  next s script hs =>
    rw [script, hs]
    refine (lookup_foldl (f := m.declaredBy? x) (fun g b h => ?_) _ h).2.trans (by simp)
    unfold declaredBy?
    split
    next hsort hval => exact ⟨h.define _ _ _, by simp [h.lookup_define, hsort, hval]⟩
    next hsort hval => exact ⟨h.define _ _ _, by simp [h.lookup_define, hsort, hval]⟩
    next var function =>
      refine ⟨h, ?_⟩
      cases hval : b.initial with
      | none => simp
      | some value => simp [mt (var value · hval), mt (function value · hval)]
  next other =>
    cases hmodule : m.isModule <;> cases hs : m.scopes[0]? <;> simp_all

/-- Under a name are listed the values assigned to it, in the order of the walk, and then those of
its declarations in a script. So this is source order only if nothing is assigned to the name after
a declaration. -/
theorem lookup_assigned_then_declared (numbered : root.WellNumbered) (h : ofProgram root source isModule = .ok m)
    (x : String) : (ofModel m).lookup x =
      (distinct root.walk).filterMap (m.assignedGlobal? x) ++ m.declaredGlobals x := by
  obtain ⟨-, -, -, -, nodes⟩ := exists_traced numbered h
  obtain ⟨of, found⟩ := lookup_foldl (g := { model := m, aliases := m.globalAliases }) (f := m.assignedGlobal? x)
    (fun g n h => ⟨h.noteNode n, h.lookup_noteNode n⟩) m.nodes ⟨rfl, rfl⟩
  rw [ofModel, of.lookup_noteDeclarations, found, nodes]
  rfl

end Globals

namespace Redefined

def window : Node := .member 7 (.identifier 9 "window") "x"

/-- `var x = "a"; window.x = "b";` -/
def program : Node :=
  .script [.declaration 1 "x" (.textLiteral 4 "a"), .statement 5 (.assign 6 window (.textLiteral 10
    "b"))]

lemma wellFormed : program.WellFormed := Node.wellFormed_check (by decide)

def definitions : Option (List (NodeId × Via)) :=
  (ofProgram program "" false).toOption.map fun m =>
    ((Globals.ofModel m).lookup "x").map fun e => (e.definition.ident, e.via)

end Redefined

theorem Globals.lookup_assigned_then_declared_redefined : ∃ m, ofProgram Redefined.program "" false = .ok m ∧
    (ofModel m).lookup "x" = (distinct Redefined.program.walk).filterMap (m.assignedGlobal? "x") ++
      m.declaredGlobals "x" := by
  obtain ⟨m, hm⟩ := exists_ofProgram Redefined.wellFormed.toWellNamed "" false
  exact ⟨m, hm, lookup_assigned_then_declared Redefined.wellFormed.toWellNumbered hm "x"⟩

/-- The assigned value stands before the declared one, which comes first in the source. -/
theorem Redefined.assigned_listed_first : definitions = some [(.listed 10, .property), (.listed 4, .declaration)] ∧
    (program.walk.map Node.ident).filter (· ∈ [NodeId.listed 10, .listed 4]) = [.listed 4, .listed 10] := by
  decide +kernel

end ScriptAudit
