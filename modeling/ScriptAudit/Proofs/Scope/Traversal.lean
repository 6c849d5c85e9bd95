import Mathlib.Data.List.Perm.Subperm
import ScriptAudit.Proofs.Scope.WellFormed

/-!
# Walking down and climbing up

Each way that a model keeps leads up through parents that were listed before, to the root.
-/

namespace ScriptAudit

open Build List Node Option

variable {root n k f body : Node} {b : Build} {path : List (Node × Field)} {m : Model}
  {source : String} {isModule : Bool}

namespace Node

lemma mem_links_of_mem_children {f : Field} (h : (f, k) ∈ n.children) : (f, some k) ∈ n.links := by
  obtain ⟨⟨g, c⟩, hl, hk⟩ := mem_filterMap.mp h
  split at hk
  · cases hk
  · obtain ⟨d, rfl, hd⟩ := Option.map_eq_some_iff.mp hk
    cases hd
    exact hl

lemma Way.getLast? (way : root.Way path n) : (n :: path.map (·.1)).getLast? = some root := by
  induction way with
  | root => rfl
  | link _ _ ih => rwa [map_cons, getLast?_cons_cons]

lemma Way.exists_append (way : root.Way path n) (hk : n.Below k) :
    ∃ inner, root.Way (inner ++ path) k ∧ ∀ e ∈ inner, n.Below e.1 := by
  induction hk with
  | refl => exact ⟨[], way, by simp⟩
  | @link p c g hp hc ih =>
    obtain ⟨inner, way, below⟩ := ih
    exact ⟨(p, g) :: inner, way.link hc, forall_mem_cons.mpr ⟨hp, below⟩⟩

end Node

lemma Build.Traced.way (h : Traced root b) {newer older : List Node} (split : b.nodes = newer ++ n :: older)
    (found : b.paths.get? n = some path) : root.Way path n := by
  induction hlen : older.length using Nat.strongRecOn generalizing n path newer older with
  | ind length ih =>
    obtain ⟨path', found', leads⟩ := h.leadsUp newer n older split
    cases found.symm.trans found'
    cases path with
    | nil =>
      obtain rfl : n = root := leads
      exact .root
    | cons e rest =>
      obtain ⟨hp, child, up⟩ := leads
      obtain ⟨between, before, rfl⟩ := append_of_mem hp
      have shorter : before.length < length := by simp [← hlen]; omega
      have earlier : b.nodes = (newer ++ n :: between) ++ e.1 :: before := by simp [split]
      exact (ih _ shorter earlier up rfl).link (mem_links_of_mem_children child)

namespace Model

/-- The model of a program has the nodes and the paths of a pass that is traced. -/
lemma exists_traced (numbered : root.WellNumbered) (h : ofProgram root source isModule = .ok m) :
    ∃ b, Traced root b ∧ m.nodes = b.nodes.reverse ∧ m.paths = b.paths ∧ m.nodes = distinct root.walk := by
  have traced := (traced_visit_root numbered).1
  obtain ⟨-, nodes, paths, -⟩ := eq_of_ofProgram h
  rw [ofProgram_eq] at nodes paths
  rw [(resolves_foldl _ _).nodes.2] at nodes
  rw [(resolves_foldl _ _).paths] at paths
  exact ⟨_, traced, nodes, paths, nodes.trans (nodes_pass numbered)⟩

lemma way_path (numbered : root.WellNumbered) (h : ofProgram root source isModule = .ok m) (hn : root.Below n) :
    root.Way (m.path n) n := by
  obtain ⟨b, traced, nodes, paths, -⟩ := exists_traced numbered h
  have listed := mem_nodes numbered h hn
  rw [nodes, mem_reverse] at listed
  obtain ⟨newer, older, split⟩ := append_of_mem listed
  obtain ⟨path, found, -⟩ := traced.leadsUp newer n older split
  rw [Model.path, paths, found]
  exact traced.way split found

/-- The nodes of a program are listed once each, in the order in which a walk first comes to them.
Each node apart from the root is a child of its parent, which is listed before it, and the way up
goes on from there. -/
theorem listed_below_parents (numbered : root.WellNumbered) (h : ofProgram root source isModule = .ok m) :
    m.nodes = distinct root.walk ∧ ((root.walk.map ident).Nodup → m.nodes = root.walk) ∧
    (m.nodes.map ident).Nodup ∧ (∀ n, n ∈ m.nodes ↔ root.Below n) ∧ m.path root = [] ∧
    ∀ before n after, m.nodes = before ++ n :: after → (n :: m.ancestors n).getLast? = some root ∧
      (n ≠ root → ∃ p ∈ before, ∃ f, m.parent? n = some p ∧ m.fieldOf? n = some f ∧ (f, n) ∈ p.children ∧
        m.ancestors n = p :: m.ancestors p) := by
  obtain ⟨b, traced, nodes, paths, listed⟩ := exists_traced numbered h
  have below (n : Node) : n ∈ m.nodes ↔ root.Below n :=
    ⟨fun hn => traced.below n (mem_reverse.mp (nodes ▸ hn)), mem_nodes numbered h⟩
  refine ⟨listed, fun once => ?_, ?_, below, ?_, fun before n after split => ?_⟩
  · exact listed.trans (freshBy_eq_self beq_iff_ident once (by simp))
  · rw [listed]
    exact (marks_freshBy beq_iff_ident id [] root.walk).1
  · generalize hpath : m.path root = path
    have way := way_path numbered h .refl
    rw [hpath] at way
    cases way with
    | root => rfl
    | link way link => exact absurd link (not_mem_links_root way.below_root)
  · have hn := (below n).mp (split ▸ by simp)
    refine ⟨(way_path numbered h hn).getLast?, fun ne => ?_⟩
    obtain ⟨path, found, leads⟩ := traced.leadsUp after.reverse n before.reverse (by
      rw [← reverse_reverse b.nodes, ← nodes, split]
      simp)
    have hpath : m.path n = path := by rw [Model.path, paths, found, getD_some]
    cases path with
    | nil => exact absurd leads ne
    | cons e rest =>
      obtain ⟨hp, child, up⟩ := leads
      have hrest : m.path e.1 = rest := by rw [Model.path, paths, up, getD_some]
      exact ⟨e.1, mem_reverse.mp hp, e.2, by simp [parent?, hpath], by simp [fieldOf?, hpath], child,
        by simp [ancestors, hpath, hrest]⟩

end Model

namespace Nesting

def returned : Node := .textLiteral 10 "b"

def block : Node :=
  .block 3 [.function 4 (.identifier 5 "g") [] (.block 6 [.returning 7 (.textLiteral 8 "a")]),
    .returning 9 returned]

def outer : Node := .function 1 (.identifier 2 "f") [] block

def program : Node := .script [outer]

lemma wellFormed : program.WellFormed := wellFormed_check (by decide)

end Nesting

theorem Model.listed_below_parents_nested : Nesting.program.WellNumbered ∧
    ∃ m, ofProgram Nesting.program "" false = .ok m ∧ m.nodes = Nesting.program.walk := by
  obtain ⟨m, hm⟩ := exists_ofProgram Nesting.wellFormed.toWellNamed "" false
  have numbered := Nesting.wellFormed.toWellNumbered
  exact ⟨numbered, m, hm, (listed_below_parents numbered hm).2.1 (by decide)⟩

namespace Node

def functionOn (path : List (Node × Field)) : Option Node :=
  (path.map (·.1)).find? (·.kind.isFunction)

/-- A node that stands in several places stands in one function. -/
def OneFunction (root : Node) : Prop :=
  ∀ path path' n, root.Way path n → root.Way path' n → functionOn path = functionOn path'

/-- A node that stands in several places has one nearest node above it at which a walk stops. -/
def OneStop (root : Node) (stops : Node → Bool) : Prop :=
  ∀ path path' n, root.Way path n → root.Way path' n → (path.map (·.1)).find? stops = (path'.map (·.1)).find? stops

lemma OneParent.oneStop (tree : root.OneParent) (stops : Node → Bool) : root.OneStop stops :=
  fun _ _ _ way way' => by rw [way.nodes_eq tree way']

lemma OneParent.oneFunction (tree : root.OneParent) : root.OneFunction := tree.oneStop _

lemma walkOwn_eq_walkOutside (h : n.kind.isFunction = false) : n.walkOwn = n.walkOutside := by
  obtain ⟨hd, ls⟩ := n
  rw [walkOwn, walkOutside, if_neg (by rw [show hd.kind.isFunction = false from h]; exact Bool.false_ne_true)]
  rfl

end Node

namespace Model

def encloses (m : Model) (f n : Node) : Bool :=
  (m.enclosingFunction? n).any (· == f)

def stopsAt (m : Model) (stops : Node → Bool) (f n : Node) : Bool :=
  ((m.ancestors n).find? stops).any (· == f)

section Walks

variable {stops shown : Node → Bool} {visits : Node → List Node} (numbered : root.WellNumbered)
  (single : root.OneStop stops) (h : ofProgram root source isModule = .ok m)
include numbered single h

lemma stopsAt_iff (hf : root.Below f) (way : root.Way path n) :
    m.stopsAt stops f n = true ↔ (path.map (·.1)).find? stops = some f := by
  have same : (m.ancestors n).find? stops = (path.map (·.1)).find? stops :=
    single _ _ n (way_path numbered h way.below_root) way
  rw [stopsAt, same]
  cases found : (path.map (·.1)).find? stops with
  | none => simp
  | some g =>
    have hg : root.Below g := (way.below_of_mem (mem_of_find?_eq_some found)).1
    simpa [beq_iff_ident] using ⟨numbered.unique g f hg hf, congrArg ident⟩

/-- What stands below a stop has that stop or one below it as its nearest. -/
lemma not_stopsAt (hf : root.Below f) (way : root.Way path n) (stop : stops n = true) (smaller : sizeOf n < sizeOf f)
    {g : Field} {c : Node} (hc : (g, some c) ∈ n.links) (hk : k ∈ c.walk) : m.stopsAt stops f k = false := by
  obtain ⟨inner, way, below⟩ := (way.link hc).exists_append (Below.refl.mem_walk hk)
  rw [← Bool.not_eq_true, stopsAt_iff numbered single h hf way]
  intro found
  simp only [map_append, map_cons, find?_append, find?_cons, stop, Option.or_eq_some_iff] at found
  rcases found with inside | ⟨-, same⟩
  · obtain ⟨e, he, rfl⟩ := mem_map.mp (mem_of_find?_eq_some inside)
    have inner := (below e he).sizeOf_le
    have outer := sizeOf_link_lt hc
    omega
  · exact absurd smaller (some.inj same ▸ Nat.lt_irrefl _)

/-- Below a stop, a walk shows those nodes from which the way up meets this stop first. -/
lemma visits_eq_filter (walks : WalksUntil stops shown visits) (hf : root.Below f) (way : root.Way path n)
    (own : (path.map (·.1)).find? stops = some f) (smaller : sizeOf n < sizeOf f) :
    visits n = n.walk.filter fun k => shown k && m.stopsAt stops f k := by
  induction hsize : sizeOf n using Nat.strongRecOn generalizing n path with
  | ind size ih =>
    have here : m.stopsAt stops f n = true := (stopsAt_iff numbered single h hf way).mpr own
    rw [walk_eq, ← singleton_append, filter_append, filter_flatMap, walks]
    congr 1
    · simp [filter_cons, here]
    split
    next stop =>
      refine (flatMap_eq_nil_iff.mpr fun e he => filter_eq_nil_iff.mpr fun k hk => ?_).symm
      simp [not_stopsAt numbered single h hf way stop smaller (mem_followed.mp he).1 hk]
    next other =>
      refine flatMap_congr fun e he => ?_
      have link := (mem_followed.mp he).1
      have lt := sizeOf_link_lt link
      exact ih _ (hsize ▸ lt) (way.link link) (by simpa [other] using own) (by omega) rfl

end Walks

variable (numbered : root.WellNumbered) (shared : root.OneFunction) (h : ofProgram root source isModule = .ok m)
include numbered shared h

/-- A walk within a function comes to the nodes of its body that the function encloses, in order, so
its returned expressions are those of the return statements that it encloses. -/
theorem own_nodes_enclosed (hf : root.Below f) (function : f.kind.isFunction = true)
    (hbody : f.child? .body = some body)
    (block : body.kind = .blockStatement) : body.walkOwn = body.walk.filter (m.encloses f) ∧
    returnsOf f =
      (body.walk.filter fun n => n.kind == .returnStatement && m.encloses f n).filterMap (·.child? .argument) := by
  have link := child?_mem_links hbody
  have way := (way_path numbered h hf).link link
  have own : body.walkOwn = body.walk.filter (m.encloses f) := by
    rw [walkOwn_eq_walkOutside (by rw [block]; rfl)]
    exact visits_eq_filter numbered shared h walksUntil_walkOutside hf way (by simp [function]) (sizeOf_link_lt link)
  have hbody' : f.bodyNode? = some body := by
    unfold bodyNode?
    split
    all_goals simp_all [Kind.isFunction]
  refine ⟨own, ?_⟩
  rw [returnsOf, hbody']
  simp only [block, own, filterMap_filter]
  refine filterMap_congr fun n _ => ?_
  cases m.encloses f n <;> simp

end Model

section

open Nesting

theorem Model.own_nodes_enclosed_nested : program.WellNumbered ∧ program.OneFunction ∧
    ∃ m, ofProgram program "" false = .ok m ∧ program.Below outer ∧
      [returned] = (block.walk.filter fun n =>
        n.kind == .returnStatement && m.encloses outer n).filterMap (·.child? .argument) := by
  obtain ⟨m, hm⟩ := exists_ofProgram wellFormed.toWellNamed "" false
  have numbered := wellFormed.toWellNumbered
  have shared : program.OneFunction := (oneParent_of_check numbered (by decide)).oneFunction
  have below : program.Below outer := Below.refl.link mem_cons_self
  exact ⟨numbered, shared, m, hm, below, (own_nodes_enclosed numbered shared hm below rfl rfl rfl).2⟩

end

lemma Node.find?_endsThis (binds : f.kind.bindsThis = true) {ns : List Node} : ns.find? endsThis = some f ↔
    ns.find? (·.kind.bindsThis) = some f ∧ (ns.find? endsThis).any (·.kind.bindsThis) = true := by
  induction ns with
  | nil => simp
  | cons n rest ih => grind [endsThis]

namespace Model

def ownsThis (m : Model) (f n : Node) : Bool :=
  n.kind == .thisExpression && (m.thisFunction? n).any (· == f)

/-- The node stands in the body of the function, and the way up from it meets a function before any
class. -/
def inOpenBody (m : Model) (f n : Node) : Bool :=
  ((m.ancestors n).find? endsThis).any (·.kind.bindsThis) && f.bodyNode?.any (·.walk.any (· == n))

section This

variable (numbered : root.WellNumbered) (tree : root.OneParent) (h : ofProgram root source isModule = .ok m)
include numbered tree h

lemma owns_in_body_iff (hf : root.Below f) (binds : f.kind.bindsThis = true) (hbody : f.bodyNode? = some body)
    (hn : root.Below n) : (m.ownsThis f n && m.inOpenBody f n) = true ↔
      n ∈ body.walk ∧ (n.kind == .thisExpression && m.stopsAt endsThis f n) = true := by
  have way := way_path numbered h hn
  have owner : (m.thisFunction? n).any (· == f) = true ↔ _ := stopsAt_iff numbered (tree.oneStop _) h hf way
  have inside : body.walk.any (· == n) = true ↔ n ∈ body.walk := by
    rw [List.any_eq_true]
    constructor
    · rintro ⟨k, hk, same⟩
      rwa [← numbered.unique k n ((hf.bodyNode? hbody).mem_walk hk) hn ((beq_iff_ident k n).mp same)]
    · exact fun hn => ⟨n, hn, (beq_iff_ident n n).mpr rfl⟩
  simp only [ownsThis, inOpenBody, hbody, Option.any_some, Bool.and_eq_true, inside, owner,
    stopsAt_iff numbered (tree.oneStop endsThis) h hf way, find?_endsThis binds]
  tauto

lemma reverse_thisWithin (once : (root.walk.filter (·.kind == .thisExpression)).Nodup) (hf : root.Below f)
    (binds : f.kind.bindsThis = true) (hbody : f.bodyNode? = some body) :
    body.thisWithin.reverse = root.walk.filter fun n => m.ownsThis f n && m.inOpenBody f n := by
  have link := bodyNode?_mem_links hbody
  have hb := hf.link link
  have inside : body.thisWithin.reverse = body.walk.filter fun n => n.kind == .thisExpression &&
    m.stopsAt endsThis f n :=
    visits_eq_filter numbered (tree.oneStop _) h walksUntil_thisWithin hf ((way_path numbered h hf).link link)
      (by simp [endsThis, binds]) (sizeOf_link_lt link)
  have owns (n : Node) (hn : root.Below n) := owns_in_body_iff numbered tree h hf binds hbody hn
  have same : ∀ n ∈ body.walk, (n.kind == .thisExpression && m.stopsAt endsThis f n) =
    (m.ownsThis f n && m.inOpenBody f n) := by
    intro n hn
    rw [Bool.eq_iff_iff, owns n (hb.mem_walk hn)]
    simp [hn]
  have sublist := (Below.walk_sublist numbered .refl hb).filter fun n => m.ownsThis f n && m.inOpenBody f n
  rw [inside, filter_congr same]
  refine sublist.eq_of_length_le (Subperm.length_le (Nodup.subperm ?_ fun n hn => ?_))
  · exact once.sublist (monotone_filter_right _ fun n hn => (Bool.and_eq_true_iff.mp (Bool.and_eq_true_iff.mp hn).1).1)
  · obtain ⟨hn, holds⟩ := mem_filter.mp hn
    exact mem_filter.mpr ⟨((owns n (Below.refl.mem_walk hn)).mp holds).1, holds⟩

/-- For each function listed, the search for `this` gives the `this` expressions that the function
owns and that stand in its body outside of classes, last first. These are all that the functions own
exactly if none stands among their parameters, or in a class but outside of its methods. -/
theorem this_nodes_owned (once : (root.walk.filter (·.kind == .thisExpression)).Nodup) {functions : List Node}
    (hfs : ∀ f ∈ functions, root.Below f ∧ f.kind.bindsThis = true) :
    thisNodes functions =
      functions.flatMap (fun f => (root.walk.filter fun n => m.ownsThis f n && m.inOpenBody f n).reverse) ∧
    ((thisNodes functions).Perm (functions.flatMap fun f => root.walk.filter (m.ownsThis f)) ↔
      ∀ f ∈ functions, ∀ n ∈ root.walk, m.ownsThis f n = true → m.inOpenBody f n = true) := by
  have listed : thisNodes functions =
      functions.flatMap (fun f => (root.walk.filter fun n => m.ownsThis f n && m.inOpenBody f n).reverse) := by
    refine flatMap_congr fun f hf => ?_
    obtain ⟨below, binds⟩ := hfs f hf
    cases hbody : f.bodyNode? with
    | none => simp [inOpenBody, hbody]
    | some body => rw [← reverse_thisWithin numbered tree h once below binds hbody]; simp
  refine ⟨listed, fun perm f hf n hn owned => ?_, fun inside => ?_⟩
  · have found := perm.mem_iff.mpr (mem_flatMap.mpr ⟨f, hf, mem_filter.mpr ⟨hn, owned⟩⟩)
    rw [listed] at found
    simp only [mem_flatMap, mem_reverse, mem_filter, Bool.and_eq_true] at found
    obtain ⟨g, hg, -, owned', inside⟩ := found
    have hn := Below.refl.mem_walk hn
    have owner {f} (hf : f ∈ functions) (owned : m.ownsThis f n = true) : m.thisFunction? n = some f :=
      (stopsAt_iff numbered (tree.oneStop _) h (hfs f hf).1 (way_path numbered h hn)).mp
        (Bool.and_eq_true_iff.mp owned).2
    cases (owner hf owned).symm.trans (owner hg owned')
    exact inside
  · rw [listed]
    refine Perm.flatMap_left _ fun f hf => (reverse_perm _).trans (.of_eq (filter_congr fun n hn => ?_))
    cases owned : m.ownsThis f n with
    | false => rfl
    | true => rw [inside f hf n hn owned, Bool.and_self]

end This

end Model

namespace Scattered

def this (i : Nat) : Node := .branch i .thisExpression []

def method : Node :=
  .branch 14 .functionExpression [(.body, some (.block 15 [.statement 16 (this 17)]))]

/-- `this` as the default of a parameter, in an arrow function, and as superclass and computed key
of a class. -/
def outer : Node :=
  .branch 1 .functionDeclaration [
    (.params, some (.branch 2 .assignmentPattern [(.left, some (.identifier 3 "a")),
      (.right, some (this 4))])),
    (.body, some (.block 5 [.statement 6 (.branch 7 .arrowFunctionExpression [(.body, some (this 8))]),
      .branch 9 .classDeclaration [(.superClass, some (this 10)),
        (.body, some (.branch 11 .classBody [(.body,
          some (.mk { ident := .listed 12, kind := .methodDefinition, computed := true }
            [(.key, some (this 13)), (.value, some method)]))]))]]))]

def program : Node := .script [outer]

end Scattered

open Scattered

theorem Model.this_nodes_owned_scattered : program.WellNumbered ∧ program.OneParent ∧
    (program.walk.filter (·.kind == .thisExpression)).Nodup ∧ ∃ m, ofProgram program "" false = .ok m ∧
      [this 8, this 8] = [outer, outer].flatMap fun f =>
        (program.walk.filter fun n => m.ownsThis f n && m.inOpenBody f n).reverse := by
  have formed : program.WellFormed := wellFormed_check (by decide)
  obtain ⟨m, hm⟩ := exists_ofProgram formed.toWellNamed "" false
  have numbered := formed.toWellNumbered
  have tree : program.OneParent := oneParent_of_check numbered (by decide)
  have once : (program.walk.filter (·.kind == .thisExpression)).Nodup := .of_map ident (by decide)
  have below : program.Below outer := Below.refl.link mem_cons_self
  have owners : ∀ f ∈ [outer, outer], program.Below f ∧ f.kind.bindsThis = true := by
    simp [below, show outer.kind.bindsThis = true from rfl]
  exact ⟨numbered, tree, once, m, hm, (this_nodes_owned numbered tree hm once owners).1⟩

/-- Of the four `this` that the outer function owns, only that of the arrow function is found. -/
theorem Model.this_nodes_missed : (ofProgram program "" false).toOption.map (fun m =>
      (program.walk.filter (m.ownsThis outer)).map ident) =
        some [.listed 4, .listed 8, .listed 10, .listed 13] ∧
    (thisNodes [outer]).map ident = [.listed 8] := by
  decide +kernel

end ScriptAudit
