import ScriptAudit.Proofs.Scope.Listed

/-!
# Ways through a program

The way from a node up to the root, the scopes that are opened along it, and what each node
declares, writes and shares, all read off the tree alone.
-/

namespace ScriptAudit.Node

open List

variable {root n p q c : Node} {path path' : List (Node × Field)}

def OneParent (root : Node) : Prop :=
  ∀ p q c f g, root.Below p → root.Below q → (f, some c) ∈ p.links → (g, some c) ∈ q.links → p = q

def checkOneParent (root : Node) : Bool :=
  root.walk.all fun p => root.walk.all fun q => p.ident == q.ident ||
    p.links.all fun l => q.links.all fun k => l.2.all fun c => k.2.all fun d => c.ident != d.ident

lemma oneParent_of_check (numbered : root.WellNumbered) (check : root.checkOneParent = true) : root.OneParent := by
  intro p q c f g hp hq hpc hqc
  simp only [checkOneParent, all_eq_true, Bool.or_eq_true, beq_iff_eq] at check
  rcases check p (mem_walk_of_below numbered .refl hp) q (mem_walk_of_below numbered .refl hq) with same | apart
  · exact numbered.unique p q hp hq same
  · simpa using apart _ hpc _ hqc

/-- A way from a node up to the root: its parent with a field that holds the node, and so on. -/
inductive Way (root : Node) : List (Node × Field) → Node → Prop
  | root : Way root [] root
  | link {path p f c} : Way root path p → (f, some c) ∈ p.links → Way root ((p, f) :: path) c

lemma Way.below_root (way : root.Way path n) : root.Below n := by
  induction way with
  | root => exact .refl
  | link _ hc ih => exact ih.link hc

lemma Below.sizeOf_le (h : p.Below c) : sizeOf c ≤ sizeOf p := by
  induction h with
  | refl => exact Nat.le_refl _
  | link _ hc ih => exact Nat.le_trans (Nat.le_of_lt (sizeOf_link_lt hc)) ih

lemma Below.antisymm (h : p.Below c) (h' : c.Below p) : p = c := by
  rcases h.eq_or_link with rfl | ⟨f, d, hd, below⟩
  · rfl
  · have smaller := Nat.lt_of_le_of_lt below.sizeOf_le (sizeOf_link_lt hd)
    exact absurd h'.sizeOf_le (Nat.not_le_of_lt smaller)

lemma not_mem_links_root (hp : root.Below p) {f : Field} : (f, some root) ∉ p.links := by
  intro h
  have smaller := sizeOf_link_lt h
  exact Nat.lt_irrefl _ (Nat.lt_of_lt_of_le smaller hp.sizeOf_le)

lemma Way.eq_cons (tree : root.OneParent) (way : root.Way path c) (hp : root.Below p) {f : Field}
    (hc : (f, some c) ∈ p.links) : ∃ g rest, path = (p, g) :: rest ∧ root.Way rest p := by
  cases way with
  | root => exact absurd hc (not_mem_links_root hp)
  | link way hlink =>
    obtain rfl := tree _ _ _ _ _ way.below_root hp hlink hc
    exact ⟨_, _, rfl, way⟩

lemma Way.mem_of_below (tree : root.OneParent) (hq : root.Below q) (h : q.Below n)
    (way : root.Way path n) : q = n ∨ q ∈ path.map (·.1) := by
  induction h generalizing path with
  | refl => exact .inl rfl
  | @link p c f hp hc ih =>
    obtain ⟨g, rest, rfl, up⟩ := way.eq_cons tree (hq.trans hp) hc
    rcases ih up with rfl | above
    · exact .inr (by simp)
    · exact .inr (by simp [above])

lemma Way.below_of_mem (way : root.Way path n) (hq : q ∈ path.map (·.1)) : root.Below q ∧ q.Below n := by
  induction way with
  | root => simp at hq
  | link way hc ih =>
    rcases mem_cons.mp hq with rfl | hq
    · exact ⟨way.below_root, Below.refl.link hc⟩
    · obtain ⟨above, below⟩ := ih hq
      exact ⟨above, below.link hc⟩

lemma Way.rest (way : root.Way path n) {inner outer : List Node}
    (h : n :: path.map (·.1) = inner ++ q :: outer) : ∃ rest, root.Way rest q ∧ outer = rest.map (·.1) := by
  induction way generalizing inner with
  | @root =>
    cases inner with
    | nil =>
      obtain ⟨rfl, rfl⟩ := List.cons.inj h
      exact ⟨[], .root, rfl⟩
    | cons a inner => simp at h
  | @link path p f c way hc ih =>
    cases inner with
    | nil =>
      obtain ⟨rfl, rfl⟩ := List.cons.inj h
      exact ⟨(p, f) :: path, way.link hc, rfl⟩
    | cons a inner => exact ih (List.cons.inj h).2

lemma Way.nodes_eq (tree : root.OneParent) (way : root.Way path n) (way' : root.Way path' n) :
    path.map (·.1) = path'.map (·.1) := by
  induction way generalizing path' with
  | root =>
    cases way' with
    | root => rfl
    | link way' hc => exact absurd hc (not_mem_links_root way'.below_root)
  | link way hc ih =>
    obtain ⟨g, rest, rfl, up⟩ := way'.eq_cons tree way.below_root hc
    simp [ih up]

def sharedBody? (n : Node) : Option Node :=
  if n.kind.isFunction then (n.child? .body).filter (·.kind == .blockStatement)
  else if n.kind == .catchClause then n.child? .body
  else none

def isSharedBody (parent : Option Node) (n : Node) : Bool := (parent.bind sharedBody?).any (· == n)

def opened? (parent : Option Node) (n : Node) : Option ScopeSort :=
  if n.kind.isFunction then some .function
  else if n.kind.opensBlock && !n.isSharedBody parent then some .block
  else if n.kind == .catchClause then some .caught
  else none

def scopesOn : List (Node × Field) → List (ScopeSort × Node)
  | [] => []
  | (p, _) :: rest => ((p.opened? (rest.head?.map (·.1))).map (·, p)).toList ++ scopesOn rest

lemma scopesOn_congr (h : path.map (·.1) = path'.map (·.1)) : scopesOn path = scopesOn path' := by
  induction path generalizing path' with
  | nil =>
    obtain rfl : path' = [] := by simpa using h.symm
    rfl
  | cons e rest ih =>
    cases path' with
    | nil => cases h
    | cons e' rest' =>
      simp only [map_cons, List.cons.injEq] at h
      have heads : rest.head?.map (·.1) = rest'.head?.map (·.1) := by rw [← List.head?_map, ← List.head?_map, h.2]
      rw [scopesOn, scopesOn, h.1, heads, ih h.2]

def scopesAround (root : Node) (path : List (Node × Field)) : List (ScopeSort × Node) :=
  scopesOn path ++ [(.program, root)]

/-- The scope that a declaration enters its name in: that around the declaring node, the nearest one
of a function or of the program, the one that the node opens, or that of the program. -/
inductive Reach where
  | around | hoisted | inside | program
  deriving DecidableEq

/-- A name that a node declares. -/
structure NameDeclaration where
  reach : Reach
  ident : Node
  entry : Build.Declaration

def NameDeclaration.writer (d : NameDeclaration) : Node := d.entry.declarator.getD d.ident

def patternNames (reach : Reach) (pattern : Node) (d : Build.Declaration) : List NameDeclaration :=
  (pattern.targets {}).map fun t => ⟨reach, t.identifier, { d with place := t.place }⟩

def ownName (n : Node) (reach : Reach) (sort : BindingSort) : List NameDeclaration :=
  (n.child? .id).toList.map fun ident => ⟨reach, ident, { sort := sort, declarator := n, initial := n }⟩

def outerNames (n : Node) : List NameDeclaration :=
  match n.kind with
  | .functionDeclaration => n.ownName .hoisted .function
  | .classDeclaration => n.ownName .around .classDecl
  | .variableDeclaration =>
    let sort := BindingSort.ofWord n.sort
    (n.list .declarations).flatMap fun d => (d.child? .id).toList.flatMap fun pattern =>
      patternNames (if sort == .var then .hoisted else .around) pattern
        { sort := sort, declarator := d, initial := d.child? .initial }
  | .importDeclaration =>
    (n.list .specifiers).flatMap fun spec => (spec.child? .localName).toList.map fun ident =>
      ⟨.program, ident, { sort := .imported, declarator := spec }⟩
  | _ => []

def paramNames (n : Node) : List NameDeclaration :=
  ((n.list .params).zipIdx).flatMap fun (pattern, i) =>
    patternNames .inside pattern { sort := .param, declarator := n, function := n, paramIndex := i }

def innerNames (n : Node) : List NameDeclaration :=
  match n.kind with
  | .functionDeclaration | .arrowFunctionExpression => n.paramNames
  | .functionExpression => n.ownName .inside .function ++ n.paramNames
  | .catchClause => (n.child? .param).toList.flatMap fun pattern =>
      patternNames .inside pattern { sort := .caught, declarator := n }
  | _ => []

def names (n : Node) : List NameDeclaration := n.outerNames ++ n.innerNames

def writtenBy (shared : Bool) (n : Node) : List Node :=
  match n.kind with
  | .assignmentExpression => (n.child? .left).toList.flatMap writtenNames
  | .forInStatement | .forOfStatement => if shared then (n.child? .left).toList.flatMap writtenNames else []
  | .updateExpression => (n.child? .argument).toList.filter (·.kind == .identifier)
  | _ => []

def assigned (parent : Option Node) (n : Node) : List Node := n.writtenBy (n.isSharedBody parent)

section Below

variable {d : NameDeclaration} {reach : Reach} {entry : Build.Declaration} {pattern : Node}

lemma below_patternNames (hp : n.Below pattern) (hd : d ∈ patternNames reach pattern entry) :
    n.Below d.ident := by
  obtain ⟨t, ht, rfl⟩ := mem_map.mp hd
  exact (hp.mem_targets (fun _ he => by cases he) ht).1.1

lemma below_of_mem_ownName {sort : BindingSort} (hd : d ∈ n.ownName reach sort) : n.Below d.ident := by
  simp only [ownName, mem_map, Option.mem_toList] at hd
  obtain ⟨ident, hid, rfl⟩ := hd
  exact Below.refl.child? hid

lemma below_of_mem_outerNames (hd : d ∈ n.outerNames) : n.Below d.ident := by
  unfold outerNames at hd
  split at hd
  iterate 2 exact below_of_mem_ownName hd
  · simp only [mem_flatMap, Option.mem_toList] at hd
    obtain ⟨declarator, hdecl, pattern, hid, hd⟩ := hd
    exact below_patternNames ((Below.refl.mem_list hdecl).child? hid) hd
  · simp only [mem_flatMap, mem_map, Option.mem_toList] at hd
    obtain ⟨spec, hspec, ident, hid, rfl⟩ := hd
    exact (Below.refl.mem_list hspec).child? hid
  · cases hd

lemma below_of_mem_paramNames (hd : d ∈ n.paramNames) : n.Below d.ident := by
  simp only [paramNames, mem_flatMap] at hd
  obtain ⟨p, hp, hd⟩ := hd
  exact below_patternNames (Below.refl.mem_list (fst_mem_of_mem_zipIdx hp)) hd

lemma below_of_mem_innerNames (hd : d ∈ n.innerNames) : n.Below d.ident := by
  unfold innerNames at hd
  split at hd
  iterate 2 exact below_of_mem_paramNames hd
  · rcases mem_append.mp hd with hd | hd
    · exact below_of_mem_ownName hd
    · exact below_of_mem_paramNames hd
  · simp only [mem_flatMap, Option.mem_toList] at hd
    obtain ⟨pattern, hp, hd⟩ := hd
    exact below_patternNames (Below.refl.child? hp) hd
  · cases hd

lemma below_of_mem_names (hd : d ∈ n.names) : n.Below d.ident := by
  rcases mem_append.mp hd with hd | hd
  · exact below_of_mem_outerNames hd
  · exact below_of_mem_innerNames hd

lemma mem_writtenBy_true {shared : Bool} (hc : c ∈ n.writtenBy shared) : c ∈ n.writtenBy true := by
  cases shared with
  | true => exact hc
  | false =>
    unfold writtenBy at hc ⊢
    split at hc <;> simp_all

lemma below_of_mem_writtenBy {shared : Bool} (hc : c ∈ n.writtenBy shared) : n.Below c := by
  have left : c ∈ (n.child? .left).toList.flatMap writtenNames → n.Below c := by
    intro hc
    simp only [mem_flatMap, Option.mem_toList] at hc
    obtain ⟨left, hl, hc⟩ := hc
    exact ((Below.refl.child? hl).mem_writtenNames hc).1
  have hc := mem_writtenBy_true hc
  unfold writtenBy at hc
  split at hc
  iterate 3 exact left hc
  · have ha := (mem_filter.mp hc).1
    exact Below.refl.child? (Option.mem_toList.mp ha)
  · cases hc

lemma outerNames_apart (hd : d ∈ n.outerNames) : d.reach ≠ .inside ∧ d.entry.sort ≠ .param := by
  have word : ∀ w, BindingSort.ofWord w ≠ .param := by
    intro w
    unfold BindingSort.ofWord
    split <;> simp
  unfold outerNames ownName patternNames at hd
  split at hd
  · simp only [mem_map] at hd
    obtain ⟨_, _, rfl⟩ := hd
    simp
  · simp only [mem_map] at hd
    obtain ⟨_, _, rfl⟩ := hd
    simp
  · simp only [mem_flatMap, mem_map] at hd
    obtain ⟨_, _, _, _, _, _, rfl⟩ := hd
    refine ⟨?_, word _⟩
    split <;> simp
  · simp only [mem_flatMap, mem_map] at hd
    obtain ⟨_, _, _, _, rfl⟩ := hd
    simp
  · cases hd

lemma innerNames_inside (hd : d ∈ n.innerNames) :
    d.reach = .inside ∧ (d.entry.initial = none ∨ d.entry.sort = .function) := by
  have params : d ∈ n.paramNames → d.reach = .inside ∧ (d.entry.initial = none ∨ d.entry.sort = .function) := by
    intro hd
    simp only [paramNames, patternNames, mem_flatMap, mem_map] at hd
    obtain ⟨_, _, _, _, rfl⟩ := hd
    simp
  unfold innerNames at hd
  split at hd
  · exact params hd
  · exact params hd
  · rcases mem_append.mp hd with hd | hd
    · simp only [ownName, mem_map] at hd
      obtain ⟨_, _, rfl⟩ := hd
      simp
    · exact params hd
  · simp only [patternNames, mem_flatMap, mem_map] at hd
    obtain ⟨_, _, _, _, rfl⟩ := hd
    simp
  · cases hd

lemma mem_links_of_sharedBody? (hc : n.sharedBody? = some c) : (.body, some c) ∈ n.links := by
  unfold sharedBody? at hc
  split at hc
  · exact child?_mem_links (Option.filter_eq_some_iff.mp hc).1
  · split at hc
    · exact child?_mem_links hc
    · cases hc

end Below

def landing? (root : Node) (path : List (Node × Field)) (p : Node) : Reach → Option (ScopeSort × Node)
  | .around => (root.scopesAround path).head?
  | .hoisted => (root.scopesAround path).find? fun e => e.1 == .function || e.1 == .program
  | .inside => (p.opened? (path.head?.map (·.1))).map (·, p)
  | .program => some (.program, root)

lemma landing?_congr (h : path.map (·.1) = path'.map (·.1)) (reach : Reach) :
    root.landing? path p reach = root.landing? path' p reach := by
  have heads : path.head?.map (·.1) = path'.head?.map (·.1) := by rw [← List.head?_map, ← List.head?_map, h]
  cases reach <;> simp only [landing?, scopesAround, scopesOn_congr h, heads]

def DeclaresIn (root : Node) (e : ScopeSort × Node) (d : NameDeclaration) : Prop :=
  ∃ p path, root.Way path p ∧ d ∈ p.names ∧ root.landing? path p d.reach = some e

def usesName : List (Node × Field) → Bool
  | [] => true
  | (p, f) :: _ =>
    match p.kind with
    | .memberExpression => f != .property || p.computed
    | .property | .methodDefinition => f != .key || p.computed
    | .labeledStatement | .breakStatement | .continueStatement | .metaProperty => false
    | .functionDeclaration | .functionExpression | .arrowFunctionExpression
    | .classExpression | .classDeclaration => f != .id
    | .importSpecifier => f != .imported
    | .exportSpecifier => f != .exported
    | _ => true

def Declared (root k : Node) : Prop := ∃ p, root.Below p ∧ ∃ d ∈ p.names, d.ident = k

def Assigned (root k : Node) : Prop := ∃ p path, root.Way path p ∧ k ∈ p.assigned (path.head?.map (·.1))

/-- An identifier that is a use of its name: it stands where a name is used and is neither declared
nor written to. -/
structure IsUse (root : Node) (path : List (Node × Field)) (k : Node) : Prop where
  identifier : k.kind = .identifier
  used : usesName path = true
  undeclared : ¬root.Declared k
  unassigned : ¬root.Assigned k

def checkUse (root k : Node) : Bool :=
  k.kind == .identifier && root.walk.all fun p =>
    p.names.all (·.ident.ident != k.ident) && (p.writtenBy true).all (·.ident != k.ident)

lemma isUse_of_check (numbered : root.WellNumbered) (check : root.checkUse c = true) (used : usesName path = true) :
    root.IsUse path c := by
  simp only [checkUse, Bool.and_eq_true, all_eq_true, beq_iff_eq, bne_iff_ne] at check
  obtain ⟨identifier, others⟩ := check
  refine ⟨identifier, used, ?_, ?_⟩
  · rintro ⟨p, hp, d, hd, rfl⟩
    exact (others p (mem_walk_of_below numbered .refl hp)).1 d hd rfl
  · rintro ⟨p, path, way, hc⟩
    exact (others p (mem_walk_of_below numbered .refl way.below_root)).2 c (mem_writtenBy_true hc) rfl

end ScriptAudit.Node
