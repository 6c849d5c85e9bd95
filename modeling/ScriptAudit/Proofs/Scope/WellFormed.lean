import Mathlib.Data.List.Nodup
import ScriptAudit.Proofs.Scope.Resolved

/-!
# Well-formed programs

The pass over a tree fails only at an identifier without a name.
-/

namespace ScriptAudit

open Node List

/-- What names something is an identifier, and identifiers have names. -/
structure Node.WellNamed (root : Node) : Prop where
  identifiers : ∀ n, root.Below n → n.kind = .identifier → n.name.isSome = true
  declared : ∀ n c, root.Below n → (n.kind.isFunction = true ∨ n.kind = .classDeclaration) →
    n.child? .id = some c → c.kind = .identifier
  imported : ∀ n spec c, root.Below n → n.kind = .importDeclaration → spec ∈ n.list .specifiers →
    spec.child? .localName = some c → c.kind = .identifier

lemma Node.WellNamed.name_of_names {root n ident : Node} (hroot : root.WellNamed) (hn : root.Below n)
    (hident : root.Below ident) (h : n.Names ident) : ident.name.isSome = true := by
  refine hroot.identifiers ident hident ?_
  obtain hkind | ⟨hkind, hid⟩ | ⟨hkind, spec, hspec, hid⟩ := h
  · exact hkind
  · exact hroot.declared n ident hn hkind hid
  · exact hroot.imported n spec ident hn hkind hspec hid

namespace Build

/-- No name has been missed so far, and none will be. -/
structure Named (b : Build) : Prop where
  nameless : b.nameless = false
  reads : ∀ r ∈ b.reads, r.1.name.isSome = true
  writes : ∀ w ∈ b.writes, w.1.name.isSome = true

variable {root n : Node} {b : Build}

lemma Named.declare (h : b.Named) (scope : Nat) {ident : Node} (hident : ident.name.isSome = true)
    (d : Declaration) : (b.declare scope ident d).2.Named := by
  unfold Build.declare
  dsimp only
  split
  next hname => simp [hname] at hident
  · split
    · split <;> exact ⟨h.nameless, h.reads, h.writes⟩
    · exact ⟨h.nameless, h.reads, h.writes⟩

lemma Named.change (hroot : root.WellNamed) {c : Build} (hbc : Change root n b c) (hn : root.Below n)
    (h : b.Named) : c.Named := by
  cases hbc with
  | declares _ scope hnames hident => exact h.declare scope (hroot.name_of_names hn hident hnames) _
  | writes _ scope hkind hbelow =>
    exact ⟨h.nameless, h.reads, forall_mem_cons.mpr ⟨hroot.identifiers _ hbelow hkind, h.writes⟩⟩
  | reads _ scope hkind =>
    exact ⟨h.nameless, forall_mem_cons.mpr ⟨hroot.identifiers n hn hkind, h.reads⟩, h.writes⟩
  | _ => exact ⟨h.nameless, h.reads, h.writes⟩

lemma kept_named (hroot : root.WellNamed) : Kept root Named := by
  intro b n path scope hn _ h
  have hplaced : (b.place n path scope).Named := ⟨h.nameless, h.reads, h.writes⟩
  exact enter_induction (fun hbc hb => hb.change hroot hbc hn) hplaced path scope hn

lemma nameless_ofProgram (hroot : root.WellNamed) (size : Nat) : (ofProgram root size).nameless = false := by
  have named : (pass root size).Named :=
    (kept_named hroot).visit 0 .refl (by simp) ⟨rfl, by simp [start, openScope], by simp [start, openScope]⟩
  rw [ofProgram_eq, (resolves_foldl _ _).nameless, named.nameless, Bool.false_or, any_eq_false]
  intro e he
  rcases mem_append.mp he with he | he <;> obtain ⟨w, hw, rfl⟩ := mem_map.mp he
  · simpa [Mention.ident, Option.isSome_iff_ne_none] using named.reads w (mem_reverse.mp hw)
  · simpa [Mention.ident, Option.isSome_iff_ne_none] using named.writes w (mem_reverse.mp hw)

end Build

lemma Model.exists_ofProgram {root : Node} (hroot : root.WellNamed) (source : String)
    (isModule : Bool) : ∃ m, ofProgram root source isModule = .ok m := by
  unfold ofProgram
  dsimp only
  rw [Build.nameless_ofProgram hroot]
  exact ⟨_, rfl⟩

namespace Node

/-- A tree as a parser makes it. -/
structure WellFormed (root : Node) : Prop extends root.WellNumbered, root.WellNamed

def checkNumber (n : Node) : Bool :=
  n.number?.isSome && !n.sharesKey && decide ((n.list .key).length ≤ 1)

def checkNames (n : Node) : Bool :=
  (n.kind != .identifier || n.name.isSome) &&
    (!(n.kind.isFunction || n.kind == .classDeclaration) || (n.child? .id).all (·.kind == .identifier)) &&
    (n.kind != .importDeclaration ||
      (n.list .specifiers).all fun spec => (spec.child? .localName).all (·.kind == .identifier))

def checkProgram (root : Node) : Bool :=
  root.walk.all (fun n => n.checkNumber && n.checkNames) && decide (root.walk.map ident).Nodup

def branch (i : Nat) (kind : Kind) (links : List Link) : Node :=
  mk { ident := .listed i, kind := kind } links

def identifier (i : Nat) (name : String) : Node :=
  mk { ident := .listed i, kind := .identifier, name := some name } []

def textLiteral (i : Nat) (text : String) : Node :=
  mk { ident := .listed i, kind := .literal, literal := some (.text text) } []

def number (i : Nat) (value : Int) : Node :=
  mk { ident := .listed i, kind := .literal, literal := some (.number (.whole value)) } []

def member (i : Nat) (object : Node) (name : String) : Node :=
  branch i .memberExpression [(.object, some object), (.property, some (identifier (i + 1) name))]

def entry (i : Nat) (key : String) (value : Node) : Node :=
  branch i .property [(.key, some (identifier (i + 1) key)), (.value, some value)]

def declaration (i : Nat) (name : String) (initial : Node) : Node :=
  mk { ident := .listed i, kind := .variableDeclaration, sort := "var" } [(.declarations,
    some (branch (i + 1) .variableDeclarator [(.id, some (identifier (i + 2) name)), (.initial, some initial)]))]

def statement (i : Nat) (expression : Node) : Node :=
  branch i .expressionStatement [(.expression, some expression)]

def call (i : Nat) (callee : Node) (arguments : List Node) : Node :=
  branch i .callExpression ((.callee, some callee) :: arguments.map ((.arguments, some ·)))

def keyed (i : Nat) (object key : Node) : Node :=
  mk { ident := .listed i, kind := .memberExpression, computed := true }
    [(.object, some object), (.property, some key)]

def binary (i : Nat) (operator : String) (left right : Node) : Node :=
  mk { ident := .listed i, kind := .binaryExpression, operator } [(.left, some left), (.right, some right)]

def assign (i : Nat) (left right : Node) : Node :=
  mk { ident := .listed i, kind := .assignmentExpression, operator := "=" }
    [(.left, some left), (.right, some right)]

def object (i : Nat) (properties : List Node) : Node :=
  branch i .objectExpression (properties.map ((.properties, some ·)))

def array (i : Nat) (elements : List Node) : Node :=
  branch i .arrayExpression (elements.map ((.elements, some ·)))

def returning (i : Nat) (value : Node) : Node :=
  branch i .returnStatement [(.argument, some value)]

def block (i : Nat) (statements : List Node) : Node :=
  branch i .blockStatement (statements.map ((.body, some ·)))

def function (i : Nat) (name : Node) (params : List Node) (body : Node) : Node :=
  branch i .functionDeclaration
    ((.id, some name) :: params.map ((.params, some ·)) ++ [(.body, some body)])

def script (statements : List Node) : Node :=
  branch 0 .program (statements.map ((.body, some ·)))

variable {root m n c : Node} {f : Field}

lemma mem_walk_of_mem_links (hc : (f, some c) ∈ n.links) (hn : n.sharesKey = false) (hm : m ∈ c.walk) : m ∈ n.walk := by
  exact mem_walk_iff.mpr (.inr ⟨f, c, hc, by simp [hn], hm⟩)

lemma Below.mem_walk_of_sharesKey (hm : n.Below m) (hn : ∀ k ∈ n.walk, k.sharesKey = false) : m ∈ n.walk := by
  induction hsize : sizeOf n using Nat.strongRecOn generalizing n with
  | ind size ih =>
    have hself : n ∈ n.walk := mem_walk_iff.mpr (.inl rfl)
    rcases hm.eq_or_link with rfl | ⟨f, c, hc, hm⟩
    · exact hself
    · have hkept := hn n hself
      have hsub : ∀ k ∈ c.walk, k.sharesKey = false := fun k hk => hn k (mem_walk_of_mem_links hc hkept hk)
      have hwalk := ih (sizeOf c) (hsize ▸ sizeOf_link_lt hc) hm hsub rfl
      exact mem_walk_of_mem_links hc hkept hwalk

lemma Below.mem_walk_of_checkProgram (h : root.checkProgram = true) (hn : root.Below n) : n ∈ root.walk := by
  simp only [checkProgram, Bool.and_eq_true, all_eq_true, checkNumber, Bool.not_eq_true'] at h
  exact hn.mem_walk_of_sharesKey fun k hk => (h.1 k hk).1.1.2

lemma wellFormed_check (h : root.checkProgram = true) : root.WellFormed := by
  have hcheck := h
  simp only [checkProgram, Bool.and_eq_true, all_eq_true, decide_eq_true_eq] at h
  obtain ⟨hall, hnodup⟩ := h
  have hnumber (k : Node) (hk : k ∈ root.walk) : k.checkNumber = true := (hall k hk).1
  simp only [checkNumber, Bool.and_eq_true, Bool.not_eq_true', decide_eq_true_eq] at hnumber
  have hwalk (k : Node) (hk : root.Below k) : k ∈ root.walk := hk.mem_walk_of_checkProgram hcheck
  have hnames (k : Node) (hk : root.Below k) : k.checkNames = true := (hall k (hwalk k hk)).2
  simp only [checkNames, Bool.and_eq_true, Bool.or_eq_true, Bool.not_eq_true', Bool.or_eq_false_iff,
    bne_iff_ne, beq_eq_false_iff_ne] at hnames
  refine {
    numbered := fun k hk => Option.isSome_iff_exists.mp (hnumber k (hwalk k hk)).1.1
    unique := fun k l hk hl heq => inj_on_of_nodup_map hnodup (hwalk k hk) (hwalk l hl) heq
    oneKey := fun k hk c d hc hd => ?_
    identifiers := fun k hk hkind => (hnames k hk).1.1.resolve_left (· hkind)
    declared := fun k c hk hkind hc => ?_
    imported := fun k spec c hk hkind hspec hc => ?_ }
  · have hle := (hnumber k (hwalk k hk)).2
    rw [← mem_list_iff] at hc hd
    match hkeys : k.list .key, hle with
    | [], _ => simp [hkeys] at hc
    | [e], _ => simp_all
  · have hid := (hnames k hk).1.2
    simp only [hc, Option.all_some, beq_iff_eq] at hid
    refine hid.resolve_left fun hneither => ?_
    rcases hkind with hkind | hkind
    · simp [hkind] at hneither
    · exact hneither.2 hkind
  · have hspecs := (hnames k hk).2.resolve_left (· hkind)
    have hlocal := all_eq_true.mp hspecs spec hspec
    simpa [hc] using hlocal

end Node

end ScriptAudit
