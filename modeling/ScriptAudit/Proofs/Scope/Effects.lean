import ScriptAudit.Proofs.Scope.Ways

/-!
# What entering a node does to names

Entering a node is a sequence of effects: the names it declares outside, the scope it opens, the
names it declares inside, the body that shares its scope, what it writes to, and whether it is a use
of a name itself.
-/

namespace ScriptAudit.Build

open BindingSort Build List Node

variable {b : Build} {n k : Node} {path : List (Node × Field)} {scope : Nat}

inductive Effect where
  | opens (sort : ScopeSort) (node : Node) (outer : List Nat)
  | declares (scope : Nat) (ident : Node) (d : Declaration)
  | shares (body : Node)
  | writes (scope : Nat) (writer target : Node)
  | reads (scope : Nat) (ident : Node)

def apply (b : Build) : Effect → Build
  | .opens sort node outer => (b.openScope sort node outer).2
  | .declares scope ident d => (b.declare scope ident d).2
  | .shares body => b.shareBody body
  | .writes scope writer target => b.noteWrite scope writer target
  | .reads scope ident => { b with reads := (ident, scope) :: b.reads }

def core (b : Build) : Build :=
  { b with chains := .empty, calls := [], functions := [], params := [], functionScopes := [] }

def opening? (b : Build) (n : Node) : Option ScopeSort :=
  if n.kind.isFunction then some .function
  else if n.kind.opensBlock && !b.sharedBodies.contains n then some .block
  else if n.kind == .catchClause then some .caught
  else none

def reached (b : Build) (scope : Nat) : Reach → Nat
  | .around => scope
  | .hoisted => b.varScope scope
  | .inside => b.scopes.size
  | .program => 0

def declaring (scope : Nat) (d : NameDeclaration) : Effect := .declares scope d.ident d.entry

def effects (b : Build) (n : Node) (path : List (Node × Field)) (scope : Nat) : List Effect :=
  n.outerNames.map (fun d => declaring (b.reached scope d.reach) d) ++
    ((b.opening? n).toList.map (.opens · n (b.scopeChain scope)) ++ (n.innerNames.map (declaring b.scopes.size) ++
        (n.sharedBody?.toList.map .shares ++ ((n.writtenBy (b.sharedBodies.contains n)).map (.writes scope n) ++
            if n.kind == .identifier && b.isRead n path then [.reads scope n] else []))))

lemma core_declare (b : Build) (scope : Nat) (ident : Node) (d : Declaration) :
    (b.declare scope ident d).2.core = (b.core.declare scope ident d).2 := by
  unfold declare
  cases ident.name with
  | none => rfl
  | some name =>
    dsimp only [core]
    split
    · split <;> rfl
    · rfl

@[simp] lemma core_apply (b : Build) (e : Effect) : (b.apply e).core = b.core.apply e := by
  cases e with
  | declares scope ident d => exact core_declare b scope ident d
  | _ => rfl

@[simp] lemma core_foldl (b : Build) (es : List Effect) : (es.foldl apply b).core = es.foldl apply b.core := by
  induction es generalizing b with
  | nil => rfl
  | cons e rest ih => rw [foldl_cons, ih, core_apply, foldl_cons]

lemma declarePattern_snd (b : Build) (scope : Nat) (reach : Reach) (pattern : Node) (d : Declaration) :
    (b.declarePattern scope pattern d).2 = ((patternNames reach pattern d).map (declaring scope)).foldl apply b := by
  unfold declarePattern patternNames
  generalize pattern.targets {} = ts
  generalize ([] : List Nat) = uids
  induction ts generalizing b uids with
  | nil => rfl
  | cons t rest ih => exact ih _ _

lemma declareParams_snd (b : Build) (scope : Nat) (n : Node) :
    (b.declareParams scope n).2 = (n.paramNames.map (declaring scope)).foldl apply b := by
  unfold declareParams paramNames
  generalize (n.list .params).zipIdx = ps
  generalize ([] : List Nat) = uids
  induction ps generalizing b uids with
  | nil => rfl
  | cons p rest ih =>
    rw [foldl_cons, ih, flatMap_cons, map_append, foldl_append]
    rw [← declarePattern_snd]

lemma declareFunctionName_eq (b : Build) (n : Node) (reach : Reach) (kind : Kind) (scope : Nat) :
    b.declareFunctionName n kind scope =
      ((if n.kind == kind then n.ownName reach .function else []).map (declaring scope)).foldl apply b := by
  unfold declareFunctionName ownName
  cases n.child? .id with
  | none => simp
  | some ident =>
    dsimp only
    split <;> rfl

/-- A scope without its names. -/
structure Outline where
  sort : ScopeSort
  node : Node
  chain : List Nat

def outlines (b : Build) : List Outline :=
  b.scopes.toList.map fun s => ⟨s.sort, s.node, s.chain⟩

@[simp] lemma length_outlines (b : Build) : b.outlines.length = b.scopes.size := by
  simp [outlines]

lemma getElem?_outlines (b : Build) (u : Nat) :
    b.outlines[u]? = (b.scopes[u]?).map fun s => ⟨s.sort, s.node, s.chain⟩ := by
  simp [outlines]

lemma scopeChain_eq (b : Build) (u : Nat) : b.scopeChain u = ((b.outlines[u]?).map (·.chain)).getD [] := by
  rw [scopeChain, getElem?_outlines]
  cases b.scopes[u]? <;> rfl

lemma varScope_eq (b : Build) (u : Nat) : b.varScope u = ((((b.outlines[u]?).map (·.chain)).getD []).find? fun v =>
      (b.outlines[v]?).any fun o => o.sort == .function || o.sort == .program).getD u := by
  rw [varScope, scopeChain_eq]
  congr 2
  funext v
  rw [getElem?_outlines]
  cases b.scopes[v]? <;> rfl

lemma outlines_declare (b : Build) (scope : Nat) (ident : Node) (d : Declaration) :
    (b.declare scope ident d).2.outlines = b.outlines := by
  unfold declare
  cases ident.name with
  | none => rfl
  | some name =>
    dsimp only
    split
    · split <;> rfl
    · apply ext_getElem?
      intro u
      simp only [getElem?_outlines, Array.getElem?_modify]
      split
      · cases b.scopes[u]? <;> rfl
      · rfl

def Effect.outlines (size : Nat) : Effect → List Outline
  | .opens sort node outer => [⟨sort, node, size :: outer⟩]
  | _ => []

lemma outlines_apply (b : Build) (e : Effect) : (b.apply e).outlines = b.outlines ++ e.outlines b.scopes.size := by
  cases e with
  | opens sort node outer => simp [apply, openScope, outlines, Effect.outlines, Scope.chain]
  | declares scope ident d => simp [apply, outlines_declare, Effect.outlines]
  | _ => simp [apply, Effect.outlines, outlines, shareBody, noteWrite]

lemma outlines_foldl_of_nil (b : Build) {es : List Effect} (h : ∀ e ∈ es, ∀ size, e.outlines size = []) :
    (es.foldl apply b).outlines = b.outlines := by
  induction es generalizing b with
  | nil => rfl
  | cons e rest ih =>
    rw [foldl_cons, ih _ fun e he => h e (mem_cons_of_mem _ he), outlines_apply, h e mem_cons_self, append_nil]

lemma outlines_foldl_declaring (b : Build) (scope : NameDeclaration → Nat) (ds : List NameDeclaration) :
    ((ds.map fun d => declaring (scope d) d).foldl apply b).outlines = b.outlines := by
  apply outlines_foldl_of_nil
  intro e he size
  obtain ⟨d, -, rfl⟩ := mem_map.mp he
  rfl

lemma size_eq_of_outlines {c : Build} (h : c.outlines = b.outlines) : c.scopes.size = b.scopes.size := by
  rw [← length_outlines, ← length_outlines, h]

lemma isFunction_iff {k : Kind} : k.isFunction = true ↔
    k = .functionDeclaration ∨ k = .functionExpression ∨ k = .arrowFunctionExpression := by
  cases k <;> simp [Kind.isFunction]

lemma effects_of_isFunction (hk : n.kind.isFunction = true) : b.effects n path scope =
      (if n.kind == .functionDeclaration then n.ownName .hoisted .function else []).map
          (declaring (b.varScope scope)) ++ (.opens .function n (b.scopeChain scope) ::
          ((if n.kind == .functionExpression then n.ownName .inside .function else []).map (declaring b.scopes.size) ++
            (n.paramNames.map (declaring b.scopes.size) ++
              ((n.child? .body).filter (·.kind == .blockStatement)).toList.map .shares))) := by
  have opening : b.opening? n = some .function := by simp [opening?, hk]
  have shared : n.sharedBody? = (n.child? .body).filter (·.kind == .blockStatement) := by simp [sharedBody?, hk]
  rcases isFunction_iff.mp hk with hk | hk | hk <;>
    simp [effects, opening, shared, outerNames, innerNames, writtenBy, hk, ownName, reached, declaring]

lemma core_shareBody (b : Build) (body : Node) : (b.shareBody body).core = b.core.apply (.shares body) := rfl

lemma core_shareFunctionBody (b : Build) (n : Node) : (b.shareFunctionBody n).core =
      (((n.child? .body).filter (·.kind == .blockStatement)).toList.map Effect.shares).foldl apply b.core := by
  unfold shareFunctionBody
  cases n.child? .body with
  | none => rfl
  | some body =>
    by_cases hk : body.kind == .blockStatement
    · simp only [hk, if_true, Option.filter_some]
      rfl
    · simp [Option.filter, hk]

lemma core_enterFunction (b : Build) (path : List (Node × Field)) (scope : Nat) (hk : n.kind.isFunction = true) :
    (b.enterFunction n scope).2.core = (b.effects n path scope).foldl apply b.core ∧
      (b.enterFunction n scope).1 = b.scopes.size := by
  rw [effects_of_isFunction hk]
  have named := declareFunctionName_eq (b.noteFunction n) n .hoisted .functionDeclaration (b.varScope scope)
  have same : ((b.noteFunction n).declareFunctionName n .functionDeclaration (b.varScope scope)).outlines =
      b.outlines := by
    rw [named]
    exact outlines_foldl_declaring (b.noteFunction n) (fun _ => b.varScope scope) _
  have size := size_eq_of_outlines same
  have cored : ((b.noteFunction n).declareFunctionName n .functionDeclaration (b.varScope scope)).core =
      ((if n.kind == .functionDeclaration then n.ownName .hoisted .function else []).map
        (declaring (b.varScope scope))).foldl apply b.core := by
    rw [named, core_foldl]
    rfl
  unfold enterFunction
  generalize (b.noteFunction n).declareFunctionName n .functionDeclaration (b.varScope scope) = b₁
    at same size cored ⊢
  have inner : (b₁.openScope .function n (b₁.scopeChain scope)).1 = b.scopes.size := size
  refine ⟨?_, inner⟩
  rw [core_shareFunctionBody, inner, scopeChain_eq, same, ← scopeChain_eq, foldl_append, foldl_cons, foldl_append,
    foldl_append, ← cored]
  congr 1
  have params := declareParams_snd (((b₁.openScope .function n (b.scopeChain scope)).2.noteFunctionScope n
    b.scopes.size).declareFunctionName n .functionExpression b.scopes.size) b.scopes.size n
  rw [declareFunctionName_eq _ n .inside] at params
  rw [show ∀ c : Build, ∀ ps, (c.noteParams n ps).core = c.core from fun _ _ => rfl]
  rw [declareFunctionName_eq _ n .inside, params, core_foldl, core_foldl]
  rfl

lemma core_enterCatch (b : Build) (path : List (Node × Field)) (scope : Nat) (hk : n.kind = .catchClause) :
    (b.enterCatch n scope).2.core = (b.effects n path scope).foldl apply b.core ∧
      (b.enterCatch n scope).1 = b.scopes.size := by
  have effects : b.effects n path scope = .opens .caught n (b.scopeChain scope) ::
        (((n.child? .param).toList.flatMap fun pattern =>
            patternNames .inside pattern { sort := .caught, declarator := n }).map (declaring b.scopes.size) ++
          (n.child? .body).toList.map .shares) := by
    simp [effects, opening?, sharedBody?, outerNames, innerNames, writtenBy, hk, Kind.isFunction, Kind.opensBlock]
  refine ⟨?_, rfl⟩
  rw [effects, foldl_cons, foldl_append]
  unfold enterCatch
  have declared : ∀ p, ((b.openScope .caught n (b.scopeChain scope)).2.declarePattern
      (b.openScope .caught n (b.scopeChain scope)).1 p { sort := .caught, declarator := n }).2.core =
      ((patternNames .inside p { sort := .caught, declarator := n }).map (declaring b.scopes.size)).foldl apply
        (b.core.apply (.opens .caught n (b.scopeChain scope))) := by
    intro p
    rw [declarePattern_snd _ _ .inside, core_foldl]
    rfl
  cases n.child? .param with
  | none => cases n.child? .body <;> rfl
  | some p =>
    have eq := declared p
    cases n.child? .body with
    | none => simpa using eq
    | some body =>
      rw [core_shareBody, eq]
      simp

lemma foldl_eq_flatMap {α : Type} {step : Build → α → Build} (es : α → List Effect)
    (h : ∀ b x, step b x = (es x).foldl apply b) (b : Build) (xs : List α) :
    xs.foldl step b = (xs.flatMap es).foldl apply b := by
  induction xs generalizing b with
  | nil => rfl
  | cons x rest ih => rw [foldl_cons, ih, h, flatMap_cons, foldl_append]

lemma enterVariables_eq (hk : n.kind = .variableDeclaration) :
    b.enterVariables n scope = (n.outerNames.map fun d => declaring (b.reached scope d.reach) d).foldl apply b := by
  have reached : ∀ sort : BindingSort, b.reached scope (if sort == .var then .hoisted else .around) =
      if sort == .var then b.varScope scope else scope := by
    intro sort
    split <;> rfl
  unfold enterVariables
  rw [foldl_eq_flatMap (fun d => ((d.child? .id).toList.flatMap fun pattern =>
    patternNames (if ofWord n.sort == .var then .hoisted else .around) pattern
      { sort := ofWord n.sort, declarator := d, initial := d.child? .initial }).map
      (declaring (if ofWord n.sort == .var then b.varScope scope else scope)))]
  · simp only [outerNames, hk, map_flatMap, patternNames, map_map, Function.comp_def, reached]
  · intro c d
    cases d.child? .id with
    | none => rfl
    | some pattern =>
      dsimp only
      rw [declarePattern_snd _ _ (if ofWord n.sort == .var then .hoisted else .around)]
      simp

lemma sharedBody?_of_note (hf : n.kind.isFunction = false) (hb : b.opening? n = none) :
    n.sharedBody? = none ∧ n.innerNames = [] := by
  have hc : n.kind ≠ .catchClause := by
    intro hk
    simp [opening?, hk, Kind.isFunction, Kind.opensBlock] at hb
  constructor
  · simp [sharedBody?, hf, hc]
  · unfold innerNames
    split <;> simp_all [Kind.isFunction]

lemma core_noteNode (hf : n.kind.isFunction = false) (hb : b.opening? n = none) :
    (b.noteNode n path scope).core = (b.effects n path scope).foldl apply b.core := by
  obtain ⟨shared, inner⟩ := sharedBody?_of_note hf hb
  have effects : b.effects n path scope = (n.outerNames.map fun d => declaring (b.reached scope d.reach) d) ++
        ((n.writtenBy (b.sharedBodies.contains n)).map (.writes scope n) ++
          if n.kind == .identifier && b.isRead n path then [.reads scope n] else []) := by
    simp [effects, hb, shared, inner]
  have left : n.writtenBy (b.sharedBodies.contains n) = (n.child? .left).toList.flatMap writtenNames →
      n.outerNames = [] → (n.kind == .identifier) = false →
      (b.noteLeft n scope).core = (b.effects n path scope).foldl apply b.core := by
    intro written outer other
    rw [effects, written, outer, other]
    unfold noteLeft
    cases n.child? .left with
    | none => rfl
    | some left =>
      dsimp only
      have noted : left.writtenNames.foldl (fun c t => c.noteWrite scope n t) b =
          (left.writtenNames.map (.writes scope n)).foldl apply b := by
        rw [foldl_map]
        rfl
      rw [noted, core_foldl]
      simp
  rw [effects] at left ⊢
  unfold noteNode
  split
  next hk =>
    rw [enterVariables_eq hk, core_foldl]
    simp [writtenBy, hk]
  next hk =>
    cases hid : n.child? .id with
    | none => simp [outerNames, ownName, writtenBy, hk, hid]
    | some ident => simp [outerNames, ownName, writtenBy, hk, hid, reached, declaring, core_declare, apply]
  next hk =>
    rw [foldl_eq_flatMap (fun spec => (spec.child? .localName).toList.map fun ident =>
      Effect.declares 0 ident { sort := .imported, declarator := spec }), core_foldl]
    · simp [outerNames, writtenBy, hk, map_flatMap, declaring, reached, Function.comp_def]
    · intro c spec
      cases spec.child? .localName <;> rfl
  next hk => exact left (by simp [writtenBy, hk]) (by simp [outerNames, hk]) (by simp [hk])
  iterate 2 next hk =>
    have shared : b.sharedBodies.contains n = true := by
      simpa [opening?, hk, Kind.isFunction, Kind.opensBlock] using hb
    exact left (by simp [writtenBy, hk, shared]) (by simp [outerNames, hk]) (by simp [hk])
  next hk =>
    cases ha : n.child? .argument with
    | none => simp [outerNames, writtenBy, hk, ha]
    | some a =>
      by_cases hi : a.kind == .identifier
      · simp [outerNames, writtenBy, hk, ha, hi]
        rfl
      · simp [outerNames, writtenBy, hk, ha, hi]
  next hk =>
    by_cases read : b.isRead n path
    · simp [outerNames, writtenBy, hk, read]
      rfl
    · simp [outerNames, writtenBy, hk, read]
  next hk =>
    have none : n.outerNames = [] ∧ n.writtenBy (b.sharedBodies.contains n) = [] := by
      simp [outerNames, writtenBy, hk]
    cases n.dotted? with
    | none => simp [none, hk]
    | some chain =>
      simp [none, hk]
      rfl
  next hk =>
    simp [outerNames, writtenBy, hk]
    rfl
  next hk =>
    simp [outerNames, writtenBy, hk]
    rfl
  next =>
    have outer : n.outerNames = [] := by
      unfold outerNames
      split <;> simp_all [Kind.isFunction]
    have written : n.writtenBy (b.sharedBodies.contains n) = [] := by
      unfold writtenBy
      split <;> simp_all
    have ident : (n.kind == .identifier) = false := by simpa
    simp [outer, written, ident]

lemma core_enter (b : Build) (n : Node) (path : List (Node × Field)) (scope : Nat) :
    (b.enter n path scope).2.core = (b.effects n path scope).foldl apply b.core ∧
      (b.enter n path scope).1 = if (b.opening? n).isSome then b.scopes.size else scope := by
  unfold enter
  split
  next hk =>
    obtain ⟨eq, inner⟩ := core_enterFunction b path scope hk
    exact ⟨eq, by simp [inner, opening?, hk]⟩
  next hk =>
    have hf : n.kind.isFunction = false := by simpa using hk
    split
    next hb =>
      have opening : b.opening? n = some .block := by simp [opening?, hf, hb]
      have effects : b.effects n path scope = [.opens .block n (b.scopeChain scope)] := by
        have kind : n.kind.opensBlock = true := by simp_all
        have alone : b.sharedBodies.contains n = false := by simp_all
        have none : n.outerNames = [] ∧ n.innerNames = [] ∧ n.sharedBody? = none ∧ n.writtenBy false = [] ∧
            (n.kind == .identifier) = false := by
          cases hk : n.kind <;> simp [hk, Kind.opensBlock] at kind <;>
            simp [outerNames, innerNames, sharedBody?, writtenBy, hk, Kind.isFunction]
        simp [effects, opening, none, alone]
      rw [effects, opening]
      exact ⟨rfl, rfl⟩
    next hb =>
      split
      next hc =>
        have hc : n.kind = .catchClause := by simpa using hc
        obtain ⟨eq, inner⟩ := core_enterCatch b path scope hc
        exact ⟨eq, by simp [inner, opening?, hc, Kind.isFunction, Kind.opensBlock]⟩
      next hc =>
        have opening : b.opening? n = none := by simp [opening?, hf, hb, hc]
        exact ⟨core_noteNode hf opening, by simp [opening]⟩

lemma outlines_foldl_effects (b : Build) (n : Node) (path : List (Node × Field)) (scope : Nat) :
    ((b.effects n path scope).foldl apply b).outlines =
      b.outlines ++ (b.opening? n).toList.map fun sort => ⟨sort, n, b.scopes.size :: b.scopeChain scope⟩ := by
  have pre : ((n.outerNames.map fun d => declaring (b.reached scope d.reach) d).foldl apply b).outlines =
      b.outlines := outlines_foldl_declaring b _ _
  have size := size_eq_of_outlines pre
  unfold effects
  rw [foldl_append, foldl_append, outlines_foldl_of_nil]
  · generalize (n.outerNames.map fun d => declaring (b.reached scope d.reach) d).foldl apply b = c at pre size
    cases b.opening? n with
    | none => simpa using pre
    | some sort => simp [outlines_apply, Effect.outlines, pre, size]
  · intro e he size
    simp only [mem_append, mem_map, Option.mem_toList] at he
    rcases he with ⟨d, -, rfl⟩ | ⟨body, -, rfl⟩ | ⟨t, -, rfl⟩ | he
    · rfl
    · rfl
    · rfl
    · split at he
      · obtain rfl := mem_singleton.mp he
        rfl
      · cases he

section Views

variable {α : Type}

lemma foldl_apply_of_keeps (view : Build → α) (keeps : ∀ b e, view (apply b e) = view b) (b : Build)
    (es : List Effect) : view (es.foldl apply b) = view b := by
  induction es generalizing b with
  | nil => rfl
  | cons e rest ih => rw [foldl_cons, ih, keeps]

lemma foldl_apply_of_adds (view : Build → List α) (entries : Effect → List α)
    (step : ∀ b e, view (apply b e) = entries e ++ view b) (b : Build) (es : List Effect) :
    view (es.foldl apply b) = es.reverse.flatMap entries ++ view b := by
  induction es generalizing b with
  | nil => rfl
  | cons e rest ih => simp [ih, step]

end Views

lemma foldl_apply_keeps (b : Build) (es : List Effect) :
    (es.foldl apply b).nodes = b.nodes ∧ (es.foldl apply b).places = b.places ∧ (es.foldl apply b).paths = b.paths ∧
      (es.foldl apply b).globals = b.globals ∧ (es.foldl apply b).implicitGlobals = b.implicitGlobals := by
  have keeps := foldl_apply_of_keeps (fun b => (b.nodes, b.places, b.paths, b.globals, b.implicitGlobals)) ?_ b es
  · simpa using keeps
  · intro b e
    cases e with
    | declares scope ident d =>
      obtain ⟨places, nodes⟩ := sameNodes_declare b scope ident d
      simp [apply, declare_keeps b scope ident d, places, nodes]
    | _ => rfl

@[simp] lemma nodes_foldl (b : Build) (es : List Effect) : (es.foldl apply b).nodes = b.nodes :=
  (foldl_apply_keeps b es).1

/-! ### Sets of nodes -/

def Effect.declared? : Effect → Option Node
  | .declares _ ident _ => some ident
  | _ => none

def Effect.shared? : Effect → Option Node
  | .shares body => some body
  | _ => none

def Effect.written? : Effect → Option Node
  | .writes _ _ target => some target
  | _ => none

lemma declared_apply (b : Build) (e : Effect) :
    (b.apply e).declared = e.declared?.elim b.declared (b.declared.insert · ()) := by
  cases e with
  | declares scope ident d => simp [apply, Effect.declared?, declare_keeps b scope ident d]
  | _ => rfl

lemma sharedBodies_apply (b : Build) (e : Effect) :
    (b.apply e).sharedBodies = e.shared?.elim b.sharedBodies (b.sharedBodies.insert · ()) := by
  cases e with
  | declares scope ident d => simp [apply, Effect.shared?, declare_keeps b scope ident d]
  | _ => rfl

lemma written_apply (b : Build) (e : Effect) :
    (b.apply e).written = e.written?.elim b.written (b.written.insert · ()) := by
  cases e with
  | declares scope ident d => simp [apply, Effect.written?, declare_keeps b scope ident d]
  | _ => rfl

section Fits

variable {root : Node}

lemma contains_foldl_apply {view : Build → NodeMap Unit} {key : Effect → Option Node}
    (step : ∀ b e, view (apply b e) = (key e).elim (view b) ((view b).insert · ())) (numbered : root.WellNumbered)
    {es : List Effect} (below : ∀ e ∈ es, ∀ n, key e = some n → root.Below n) (fits : Fits root (view b)) :
    Fits root (view (es.foldl apply b)) ∧ ∀ k, root.Below k → ((view (es.foldl apply b)).contains k = true ↔
        (view b).contains k = true ∨ ∃ e ∈ es, key e = some k) := by
  induction es generalizing b with
  | nil => exact ⟨fits, by simp⟩
  | cons e rest ih =>
    have next : Fits root (view (apply b e)) ∧ ∀ k, root.Below k →
        ((view (apply b e)).contains k = true ↔ (view b).contains k = true ∨ key e = some k) := by
      rw [step]
      cases hkey : key e with
      | none => exact ⟨fits, by simp⟩
      | some n =>
        have hn := below e mem_cons_self n hkey
        refine ⟨fits.insert n (), fun k hk => ?_⟩
        rw [Option.elim_some, fits.contains_insert numbered hn hk, Option.some.injEq, or_comm, @eq_comm _ n k]
    obtain ⟨fits', others⟩ := ih (fun e he => below e (mem_cons_of_mem _ he)) next.1
    refine ⟨fits', fun k hk => ?_⟩
    rw [foldl_cons, others k hk, next.2 k hk, or_assoc]
    simp

end Fits

/-! ### The effects of a node -/

lemma exists_effect_declared : (∃ e ∈ b.effects n path scope, e.declared? = some k) ↔ ∃ d ∈ n.names, d.ident = k := by
  rw [← mem_filterMap, effects]
  split <;> simp [filterMap_map, Function.comp_def, Effect.declared?, declaring, names, or_and_right, exists_or]

lemma exists_effect_shared : (∃ e ∈ b.effects n path scope, e.shared? = some k) ↔ n.sharedBody? = some k := by
  rw [← mem_filterMap, effects]
  split <;> simp [filterMap_map, Function.comp_def, Effect.shared?, declaring]

lemma exists_effect_written :
    (∃ e ∈ b.effects n path scope, e.written? = some k) ↔ k ∈ n.writtenBy (b.sharedBodies.contains n) := by
  rw [← mem_filterMap, effects]
  split <;> simp [filterMap_map, Function.comp_def, Effect.written?, declaring]

def Effect.read : Effect → List (Node × Nat)
  | .reads scope ident => [(ident, scope)]
  | _ => []

lemma reads_apply (b : Build) (e : Effect) : (b.apply e).reads = e.read ++ b.reads := by
  cases e with
  | declares scope ident d => simp [apply, Effect.read, declare_keeps b scope ident d]
  | _ => rfl

lemma reads_foldl_effects (b : Build) (n : Node) (path : List (Node × Field)) (scope : Nat) :
    ((b.effects n path scope).foldl apply b).reads =
      (if n.kind == .identifier && b.isRead n path then [(n, scope)] else []) ++ b.reads := by
  rw [foldl_apply_of_adds reads Effect.read reads_apply]
  have none {β : Type} (xs : List β) : xs.flatMap (fun _ => ([] : List (Node × Nat))) = [] := by simp
  unfold effects
  split <;> simp [Effect.read, declaring, ← map_reverse, flatMap_map, none]

def Effect.write : Effect → List (Node × Node × Nat)
  | .writes scope writer target => [(target, writer, scope)]
  | _ => []

lemma writes_apply (b : Build) (e : Effect) : (b.apply e).writes = e.write ++ b.writes := by
  cases e with
  | declares scope ident d => simp [apply, Effect.write, declare_keeps b scope ident d]
  | _ => rfl

lemma mem_writes_foldl_effects (b : Build) (n : Node) (path : List (Node × Field)) (scope : Nat)
    {t w : Node} {s : Nat} : (t, w, s) ∈ ((b.effects n path scope).foldl apply b).writes ↔
      (t, w, s) ∈ b.writes ∨ t ∈ n.writtenBy (b.sharedBodies.contains n) ∧ w = n ∧ s = scope := by
  rw [foldl_apply_of_adds writes Effect.write writes_apply, mem_append, or_comm, effects]
  split <;> simp [← map_reverse, flatMap_map, Effect.write, declaring, and_left_comm]

end ScriptAudit.Build
