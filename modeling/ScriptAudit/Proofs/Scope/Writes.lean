import ScriptAudit.Proofs.Scope.Lexical

/-!
# Writes to names

Recorded are the writes of assignments and updates and of declarations that give a name a value once
more.
-/

namespace ScriptAudit

open Build List Node Option

namespace Model

def Assigns (m : Model) (w : Node) (x : String) : Prop :=
  m.root.Below w ∧ ∃ t ∈ w.assigned (m.parent? w), t.name = some x

def Initializes (m : Model) (u : Nat) (x : String) (d : NameDeclaration) : Prop :=
  (∃ e, m.opener? u = some e ∧ m.root.DeclaresIn e d) ∧ d.ident.name = some x ∧ d.entry.rewrites = true

variable {root n k w t : Node} {b : Build} {m : Model} {size u i : Nat} {x : String} {y : Binding}
  {d : NameDeclaration}

section

variable (ok : Scannable root size) (h : Scanned root size b) (built : Built root b m)
include ok h built

lemma Built.initializes_iff :
    m.Initializes u x d ↔ b.Declares u d ∧ d.ident.name = some x ∧ d.entry.rewrites = true := by
  rw [Initializes, h.declares_iff ok built.visited, built.opener?_eq, built.program]

lemma Built.mem_mentions_write {s : Nat} :
    .write t w s ∈ b.mentions ↔ root.Below w ∧ t ∈ w.assigned (m.parent? w) ∧ s = m.scopeOf w := by
  rw [Build.mem_mentions_write, h.writes_iff ok]
  constructor
  · rintro ⟨path, visited, ht⟩
    have below := h.below_of_mem visited.mem
    obtain ⟨rfl, rfl⟩ := visited.unique (built.visitedAt ok h below)
    exact ⟨below, ht, rfl⟩
  · rintro ⟨below, ht, rfl⟩
    exact ⟨_, built.visitedAt ok h below, ht⟩

lemma Built.mem_writers (P : Mention → Bool) :
    w ∈ (b.mentions.filter P).flatMap (·.writers) ↔ root.Below w ∧ ∃ t ∈ w.assigned (m.parent? w), P (.write t w
      (m.scopeOf w)) = true := by
  simp only [mem_flatMap, mem_filter]
  constructor
  · rintro ⟨e, ⟨he, holds⟩, hw⟩
    cases e with
    | read k s => cases hw
    | write t v s =>
      obtain rfl := mem_singleton.mp hw
      obtain ⟨below, ht, rfl⟩ := (built.mem_mentions_write ok h).mp he
      exact ⟨below, t, ht, holds⟩
  · rintro ⟨below, t, ht, holds⟩
    exact ⟨_, ⟨(built.mem_mentions_write ok h).mpr ⟨below, ht, rfl⟩, holds⟩, mem_singleton.mpr rfl⟩

lemma Built.lookup?_eq_some (hy : m.bindings[i]? = some y) :
    m.lookup? x n = some y ↔ b.lookup (m.scopeOf n) x = some i := by
  rw [built.lookup?_eq]
  constructor
  · intro found
    obtain ⟨j, hj, hy'⟩ := Option.bind_eq_some_iff.mp found
    rw [hj, ← (built.getElem?_bindings ok h hy').1, (built.getElem?_bindings ok h hy).1]
  · intro found
    rw [found, bind_some, hy]

lemma Built.lookup?_eq_none : m.lookup? x n = none ↔ b.lookup (m.scopeOf n) x = none := by
  rw [built.lookup?_eq]
  constructor
  · intro none
    cases found : b.lookup (m.scopeOf n) x with
    | none => rfl
    | some i =>
      obtain ⟨_, _, _, y, -, -, -, hy, -⟩ := built.lookup_eq_some ok h found
      simp [found, hy] at none
  · intro none
    rw [none, bind_none]

lemma Built.mem_writers_hits (hy : m.bindings[i]? = some y) :
    w ∈ (b.hits i b.mentions).flatMap (·.writers) ↔ m.Assigns w y.name ∧ m.lookup? y.name w = some y := by
  rw [hits, built.mem_writers ok h, Assigns, built.program, and_assoc]
  apply and_congr_right
  intro below
  simp only [referent?, Mention.ident, Mention.scope, beq_iff_eq, bind_eq_some_iff]
  constructor
  · rintro ⟨t, ht, x, name, found⟩
    obtain ⟨_, _, _, z, -, -, -, hz, -, named, -⟩ := built.lookup_eq_some ok h found
    obtain rfl : y = z := by simpa [hy] using hz
    rw [named]
    exact ⟨⟨t, ht, name⟩, (built.lookup?_eq_some ok h hy).mpr found⟩
  · rintro ⟨⟨t, ht, name⟩, found⟩
    exact ⟨t, ht, y.name, name, (built.lookup?_eq_some ok h hy).mp found⟩

lemma Built.exists_before (hy : m.bindings[i]? = some y) :
    ∃ z, b.bindings[i]? = some z ∧ y.name = z.name ∧ y.scope = z.scope ∧ y.identifier = z.identifier ∧ ∀ w, w ∈
      y.violations ↔ w ∈ z.violations ∨ m.Assigns w y.name ∧ m.lookup? y.name w = some y := by
  have found := hy
  rw [built.bindings] at found
  obtain ⟨z, hz, eq⟩ := Option.map_eq_some_iff.mp found
  have writes : y.violations = z.violations ++ (b.hits i b.mentions).flatMap (·.writers) := by
    rw [← eq]
    rfl
  refine ⟨z, hz, by rw [← eq]; rfl, by rw [← eq]; rfl, by rw [← eq]; rfl, fun w => ?_⟩
  rw [writes, mem_append, built.mem_writers_hits ok h hy]

lemma Built.mem_violations_of_assigns (assigns : m.Assigns w x) (found : m.lookup? x w = some y) :
    w ∈ y.violations := by
  obtain ⟨i, hi, hy⟩ := Option.bind_eq_some_iff.mp (built.lookup?_eq w x ▸ found)
  obtain ⟨_, _, _, z, -, -, -, hz, -, named, -⟩ := built.lookup_eq_some ok h hi
  obtain rfl : y = z := by simpa [hy] using hz
  obtain ⟨_, -, -, -, -, writes⟩ := built.exists_before ok h hy
  rw [writes, named]
  exact .inr ⟨assigns, found⟩

lemma Built.mem_implicitGlobals : w ∈ m.implicitGlobals.getD x [] ↔ m.Assigns w x ∧ m.lookup? x w = none := by
  rw [built.implicitGlobals, built.mem_writers ok h, Assigns, built.program, and_assoc, built.lookup?_eq_none ok h]
  apply and_congr_right
  intro below
  simp only [misses, Mention.ident, Mention.scope, Bool.and_eq_true, beq_iff_eq, isNone_iff_eq_none]
  constructor
  · rintro ⟨t, ht, name, none⟩
    exact ⟨⟨t, ht, name⟩, none⟩
  · rintro ⟨⟨t, ht, name⟩, none⟩
    exact ⟨t, ht, name, none⟩

lemma Built.binding?_of_assigned (below : root.Below w) (ht : t ∈ w.assigned (m.parent? w))
    (name : t.name = some x) (undeclared : ¬root.Declared t)
    (only : ∀ v, root.Below v → t ∈ v.assigned (m.parent? v) → v = w) : m.binding? t = m.lookup? x w := by
  have mention : ∀ e, e ∈ b.mentions ∧ e.ident = t ↔ e = .write t w (m.scopeOf w) := by
    intro e
    constructor
    · rintro ⟨he, rfl⟩
      cases e with
      | read k s =>
        obtain ⟨path, -, use⟩ := (h.reads_iff ok).mp (mem_mentions_read.mp he)
        exact absurd ⟨w, _, (h.located ok (built.visitedAt ok h below)).1, ht⟩ use.unassigned
      | write t' v s =>
        obtain ⟨hv, ht', rfl⟩ := (built.mem_mentions_write ok h).mp he
        rw [only v hv ht']
        rfl
    · rintro rfl
      exact ⟨(built.mem_mentions_write ok h).mpr ⟨below, ht, rfl⟩, rfl⟩
  have bound := built.bound_of_mention ok h (below.trans (below_of_mem_writtenBy ht)) undeclared mention
  rw [binding?, bound, built.lookup?_eq]
  simp [referent?, Mention.ident, Mention.scope, name]

lemma Built.recorded_of_initializes (initializes : m.Initializes u x d) :
    ∃ y, m.bindingIn? u x = some y ∧ y.name = x ∧ y.scope = u ∧
      (y.identifier = d.ident ∨ d.writer ∈ y.violations) := by
  obtain ⟨declares, name, rewrites⟩ := (built.initializes_iff ok h).mp initializes
  have outer : d.reach ≠ .inside := by
    obtain ⟨p, hd, -⟩ := declares
    rcases mem_append.mp hd with hd | hd
    · exact (outerNames_apart hd).1
    · rcases (innerNames_inside hd).2 with h | h <;> simp [Declaration.rewrites, h] at rewrites
  obtain ⟨i, z, hi, hz, made⟩ := (h.entered ok).recorded u d x declares outer name rewrites
  obtain ⟨y, hy, stored, named, scope, -⟩ := built.bindingIn?_of_namesAt ok h hi
  obtain ⟨z', hz', -, -, identifier, writes⟩ := built.exists_before ok h hy
  obtain rfl : z = z' := by simpa [hz] using hz'
  refine ⟨y, stored, named, scope, ?_⟩
  rw [identifier, writes]
  exact made.imp id .inl

lemma Built.of_mem_violations (hy : m.bindings[i]? = some y) (hw : w ∈ y.violations) :
    (m.Assigns w y.name ∧ m.lookup? y.name w = some y) ∨ ∃ d, m.Initializes y.scope y.name d ∧ w = d.writer := by
  obtain ⟨z, hz, name, scope, -, writes⟩ := built.exists_before ok h hy
  rcases (writes w).mp hw with noted | resolved
  · obtain ⟨d, declares, named, rewrites, writer⟩ := (h.entered ok).violations i z w hz noted
    rw [← scope] at declares
    rw [← name] at named
    exact .inr ⟨d, (built.initializes_iff ok h).mpr ⟨declares, named, rewrites⟩, writer⟩
  · exact .inl resolved

lemma Built.not_listed (hk : root.Declared k ∨ root.Assigned k) :
    (∀ (i : Nat) y, m.bindings[i]? = some y → k ∉ y.references) ∧ ∀ x, k ∉ m.globals.getD x [] := by
  have unused : ¬m.IsReference k := by
    rintro ⟨-, use⟩
    rw [built.program] at use
    rcases hk with declared | assigned
    · exact use.undeclared declared
    · exact use.unassigned assigned
  constructor
  · intro i y hy listed
    exact unused (((built.references ok h hy).2 k).mp listed).1
  · intro x listed
    rw [built.globals] at listed
    exact unused (((built.flatMap_references ok h _).2 k).mp listed).1

lemma Built.isReference_of_head (below : root.Below w) (kind : w.kind = .forInStatement ∨ w.kind = .forOfStatement)
    (ht : (.left, some t) ∈ w.links) (identifier : t.kind = .identifier) (undeclared : ¬root.Declared t)
    (unassigned : ¬root.Assigned t) : m.IsReference t := by
  obtain ⟨way, -⟩ := h.located ok (built.visitedAt ok h (below.link ht))
  obtain ⟨f, rest, path, -⟩ := way.eq_cons ok.tree below ht
  have used : usesName (m.path t) = true := by
    rw [path]
    rcases kind with kind | kind <;> simp [usesName, kind]
  rw [IsReference, built.program]
  exact ⟨below.link ht, identifier, used, undeclared, unassigned⟩

lemma Built.of_isConstant (constant : y.isConstant = true) : (∀ w x, m.Assigns w x → m.lookup? x w ≠ some y) ∧
      ∀ u x d, m.Initializes u x d → m.bindingIn? u x = some y → y.identifier = d.ident := by
  have none : y.violations = [] := List.isEmpty_iff.mp constant
  constructor
  · intro w x assigns found
    have written := built.mem_violations_of_assigns ok h assigns found
    rw [none] at written
    cases written
  · intro u x d initializes stored
    obtain ⟨z, stored', -, -, made⟩ := built.recorded_of_initializes ok h initializes
    obtain rfl : y = z := by simpa [stored] using stored'
    rw [none] at made
    exact made.resolve_right not_mem_nil

end

/-- Writes by assignments, updates and repeated declarations are recorded, and nothing else is: such
a write stands with the binding that its name has there, or among the implicit globals, and its
target is no reference. A plain name in the head of a loop is a reference like any other. -/
theorem writes_recorded {root : Node} {source : String} {isModule : Bool} {m : Model}
    (numbered : root.WellNumbered) (tree : root.OneParent) (h : ofProgram root source isModule = .ok m) :
    (∀ w t, root.Below w → t ∈ w.assigned (m.parent? w) → ∃ x, t.name = some x ∧
      (∀ y, m.lookup? x w = some y → w ∈ y.violations) ∧
      (m.lookup? x w = none → w ∈ m.implicitGlobals.getD x []) ∧
      (¬root.Declared t → (∀ v, root.Below v → t ∈ v.assigned (m.parent? v) → v = w) →
        m.binding? t = m.lookup? x w)) ∧
    (∀ u x d, m.Initializes u x d → ∃ y, m.bindingIn? u x = some y ∧ y.name = x ∧ y.scope = u ∧
      (y.identifier = d.ident ∨ d.writer ∈ y.violations)) ∧
    (∀ k, root.Declared k ∨ root.Assigned k →
      (∀ (i : Nat) y, m.bindings[i]? = some y → k ∉ y.references) ∧ ∀ x, k ∉ m.globals.getD x []) ∧
    (∀ y, y.isConstant = true → (∀ w x, m.Assigns w x → m.lookup? x w ≠ some y) ∧
      ∀ u x d, m.Initializes u x d → m.bindingIn? u x = some y → y.identifier = d.ident) ∧
    (∀ (i : Nat) y, m.bindings[i]? = some y → ∀ w ∈ y.violations,
      (m.Assigns w y.name ∧ m.lookup? y.name w = some y) ∨
        ∃ d, m.Initializes y.scope y.name d ∧ w = d.writer) ∧
    (∀ x, ∀ w ∈ m.implicitGlobals.getD x [], m.Assigns w x ∧ m.lookup? x w = none) ∧
    (∀ w, w.kind = .forInStatement ∨ w.kind = .forOfStatement → w.isSharedBody (m.parent? w) = false →
      w.assigned (m.parent? w) = [] ∧ ∀ t, root.Below w → (.left, some t) ∈ w.links → t.kind = .identifier →
        ¬root.Declared t → ¬root.Assigned t → m.IsReference t) := by
  obtain ⟨b, size, ok, scanned, built⟩ := exists_built numbered tree h
  refine ⟨?_, ?_, ?_, ?_, ?_, ?_, ?_⟩
  · intro w t below ht
    obtain ⟨x, name⟩ := built.named (.write t w _) ((built.mem_mentions_write ok scanned).mpr ⟨below, ht, rfl⟩)
    have assigns : m.Assigns w x := ⟨built.program ▸ below, t, ht, name⟩
    refine ⟨x, name, ?_, ?_, ?_⟩
    · exact fun y found => built.mem_violations_of_assigns ok scanned assigns found
    · exact fun none => (built.mem_implicitGlobals ok scanned).mpr ⟨assigns, none⟩
    · exact built.binding?_of_assigned ok scanned below ht name
  · exact fun u x d => built.recorded_of_initializes ok scanned
  · exact fun k => built.not_listed ok scanned
  · exact fun y => built.of_isConstant ok scanned
  · exact fun i y hy w => built.of_mem_violations ok scanned hy
  · exact fun x w => (built.mem_implicitGlobals ok scanned).mp
  · intro w kind opens
    refine ⟨?_, fun t below => built.isReference_of_head ok scanned below kind⟩
    rcases kind with kind | kind <;> simp [assigned, writtenBy, kind, opens]

end Model

namespace Rewritten

def target : Node := .identifier 7 "a"

def assignment : Node :=
  .assign 6 target (.textLiteral 8 "y")

def program : Node :=
  .script [.declaration 1 "a" (.textLiteral 4 "x"), .statement 5 assignment]

lemma wellFormed : program.WellFormed := Node.wellFormed_check (by decide)

lemma oneParent : program.OneParent := Node.oneParent_of_check wellFormed.toWellNumbered (by decide)

def check : Bool :=
  match Model.ofProgram program "" false with
  | .ok m => (m.lookup? "a" assignment).isSome
  | .error _ => false

end Rewritten

open Rewritten

/-- An assignment is a write to the variable. -/
theorem writes_recorded_assignment : ∃ m y, Model.ofProgram program "" false = .ok m ∧
    m.lookup? "a" assignment = some y ∧ assignment ∈ y.violations := by
  have check : Rewritten.check = true := by decide +kernel
  unfold Rewritten.check at check
  split at check
  next m hm =>
    obtain ⟨y, found⟩ := Option.isSome_iff_exists.mp check
    have below : program.Below assignment :=
      (Node.Below.refl.link (mem_cons_of_mem _ mem_cons_self)).link mem_cons_self
    have written : target ∈ assignment.assigned (m.parent? assignment) :=
      mem_cons_self
    obtain ⟨x, name, recorded, -⟩ :=
      (Model.writes_recorded wellFormed.toWellNumbered oneParent hm).1 _ _ below written
    obtain rfl : "a" = x := some.inj name
    exact ⟨m, y, hm, found, recorded y found⟩
  next => cases check

namespace LoopHead

def declared : Node := .declaration 1 "a" (.textLiteral 4 "x")

def loop : Node :=
  .branch 5 .forOfStatement
    [(.left, some (.identifier 6 "a")), (.right, some (.identifier 7 "xs")),
      (.body, some (.block 8 []))]

def program : Node := .script [declared, loop]

end LoopHead

def Destructured.again : Node :=
  .mk { ident := .listed 5, kind := .variableDeclaration, sort := "var" } [(.declarations,
    some (.branch 6 .variableDeclarator [(.id, some (.branch 7 .objectPattern [(.properties,
        some (.mk { ident := .listed 8, kind := .property, sort := "init", shorthand := true }
          [(.key, some (.identifier 9 "a")), (.value, some (.identifier 10 "a"))]))])),
      (.initial, some (.identifier 11 "o"))]))]

def Destructured.program : Node := .script [LoopHead.declared, again]

def constantWith (program ident : Node) (references : List NodeId) : Bool :=
  match Model.ofProgram program "" false with
  | .ok m => (m.binding? ident).any fun y => y.isConstant && y.references.map Node.ident == references
  | .error _ => false

/-- Neither the head of a loop nor taking a name out of a value counts as a write: both variables
are reported constant. -/
theorem unrecorded_writes :
    constantWith LoopHead.program (.identifier 6 "a") [.listed 6] = true ∧
      constantWith Destructured.program (.identifier 10 "a") [] = true := by
  constructor <;> decide +kernel

end ScriptAudit
