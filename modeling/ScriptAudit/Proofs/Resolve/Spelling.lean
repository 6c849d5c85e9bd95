import ScriptAudit.Proofs.Engine.Gives

/-!
# What expressions spell under a call

Expressions of literals, operators, global functions, members of object literals and names with a
known literal can be read without the program around them.
-/

namespace ScriptAudit

open Engine Option

variable {calls : Memo NodeId (List CallSite)}

namespace Node

def ownText? (n : Node) : Option String :=
  n.literalText?.orElse fun _ => plainTemplate? n

def ownTexts (n : Node) : List String :=
  n.ownText?.toList

def isWritten (n : Node) : Bool :=
  n.kind == .literal || n.ownText?.isSome

def isPlainObject (n : Node) : Bool :=
  n.kind == .objectExpression && (n.list .properties).all fun p =>
    !p.kind.isSpreadProperty && (p.propertyKey?.isSome || !p.computed)

def enter (t : Table String Node) (p : Node) : Table String Node :=
  match p.child? .value, p.propertyKey? with
  | some value, some key => t.insert key value
  | _, _ => t

def literalProperties (n : Node) : Table String Node :=
  (n.list .properties).foldl enter Table.empty

def plainShape (n : Node) : Shape :=
  ⟨n.literalProperties, some n⟩

end Node

def globalTransform? (name : String) : Option (String → String) :=
  if name == "String" then some id else (encoderSafe? name).map Text.percentEncode

/-- What a name stands for. -/
inductive Meaning where
  | argument (text : Option String) (fallback : Option Node)
  | supplied (groups : List (List String)) (fallback : Option Node)
  | fixed (initial : Option Node)
  | foreign (name : String)

abbrev Reading := List (Node × Meaning)

/-- A rule answers for the texts of the expression: it has none of its own, the depth is in bounds,
and the question is not open. -/
structure Opens (limits : Limits) (opened : List Key) (depth : Nat) (n : Node) : Prop where
  ownText : n.ownText? = none
  depth : depth ≤ limits.maxDepth
  fresh : ⟨.values, n.ident, none⟩ ∉ opened

/-- `n` holds the object literal `held`, or no object. -/
inductive HoldsObject (limits : Limits) (reading : Reading) (depth : Nat) : Node → Option Node → Prop
  | literal {n} : n.isPlainObject = true → depth ≤ limits.maxDepth → HoldsObject limits reading depth n (some n)
  | named {n literal} : n.kind = .identifier → (n, .fixed (some literal)) ∈ reading → literal.isPlainObject = true →
      literal.ident ≠ n.ident → depth < limits.maxDepth → HoldsObject limits reading depth n (some literal)
  | written {n} : n.isWritten = true → HoldsObject limits reading depth n none
  | argument {n text fallback} : n.kind = .identifier → (n, .argument text fallback) ∈ reading →
      HoldsObject limits reading depth n none

/-- While the questions in `opened` are open `n` has these texts at this depth, if its names stand
for what `reading` says. -/
inductive Spells (limits : Limits) (reading : Reading) : List Key → Nat → Node → List String → Prop
  | written {opened depth n} : n.isWritten = true → Spells limits reading opened depth n n.ownTexts
  | cut {opened depth n} : n.ownText? = none → limits.maxDepth < depth → Spells limits reading opened depth n []
  | refused {opened depth n} : n.ownText? = none → ⟨.values, n.ident, none⟩ ∈ opened →
      Spells limits reading opened depth n []
  | given {opened depth n texts} : Opens limits opened depth n → Ask.valuesRule n depth = some (pure texts) →
      Spells limits reading opened depth n texts
  | silent {opened depth n} : n.ownText? = none → Ask.valuesRule n depth = none →
      Spells limits reading opened depth n []
  | concat {opened depth n} (f : Node → List String) : Opens limits opened depth n → n.kind = .binaryExpression →
      n.operator = "+" →
      (∀ e ∈ n.concatTerms, Spells limits reading (⟨.values, n.ident, none⟩ :: opened) depth e (f e)) →
      Spells limits reading opened depth n (concatTexts limits.maxValues (n.concatTerms.map f))
  | template {opened depth n} (f : Node → List String) : Opens limits opened depth n → n.kind = .templateLiteral →
      (∀ e ∈ n.list .expressions, Spells limits reading (⟨.values, n.ident, none⟩ :: opened) (depth + 1) e (f e)) →
      Spells limits reading opened depth n (((templateTexts? (n.list .quasis) ((n.list .expressions).map f)).map
        (joinTexts limits.maxValues)).getD [n.placeholder])
  | branches {opened depth n} (f : Node → List String) : Opens limits opened depth n → n.kind.isBranching = true →
      n.branches.map Node.ident ≠ [n.ident] →
      (∀ b ∈ n.branches, Spells limits reading (⟨.values, n.ident, none⟩ :: opened) (depth + 1) b (f b)) →
      Spells limits reading opened depth n (unite limits.maxValues (n.branches.map f))
  | assignment {opened depth n e texts} : Opens limits opened depth n → n.kind = .assignmentExpression →
      n.operator = "=" → n.child? .right = some e →
      Spells limits reading (⟨.values, n.ident, none⟩ :: opened) (depth + 1) e texts →
      Spells limits reading opened depth n texts
  | sequence {opened depth n e texts} : Opens limits opened depth n → n.kind = .sequenceExpression →
      n.last? .expressions = some e → Spells limits reading (⟨.values, n.ident, none⟩ :: opened) (depth + 1) e texts →
      Spells limits reading opened depth n texts
  | globalCall {opened depth n callee e name g texts} : Opens limits opened depth n → n.kind = .callExpression →
      n.child? .callee = some callee → (callee, .foreign name) ∈ reading → globalTransform? name = some g →
      (n.list .arguments).head? = some e →
      Spells limits reading (⟨.values, n.ident, none⟩ :: opened) (depth + 1) e texts →
      Spells limits reading opened depth n (texts.map g)
  | member {opened depth n object literal e name texts} : Opens limits opened depth n → n.kind = .memberExpression →
      n.memberName? = some name → n.child? .object = some object → object.kind = .identifier →
      HoldsObject limits reading (depth + 2) object (some literal) → ⟨.values, object.ident, some name⟩ ∉ opened →
      name ≠ "length" → Text.isDigits name = false → literal.literalProperties.get? name = some e → texts ≠ [] →
      Spells limits reading (⟨.values, object.ident, some name⟩ :: ⟨.values, n.ident,
        none⟩ :: opened) (depth + 2) e texts → Spells limits reading opened depth n texts
  | foreign {opened depth n name} : Opens limits opened depth n → (n, .foreign name) ∈ reading →
      Spells limits reading opened depth n []
  | passed {opened depth n t fallback} : Opens limits opened depth n → n.kind = .identifier →
      (n, .argument (some t) fallback) ∈ reading → Spells limits reading opened depth n [t]
  | blank {opened depth n fallback} (f : Node → List String) : Opens limits opened depth n → n.kind = .identifier →
      (n, .argument none fallback) ∈ reading →
      (∀ e, fallback = some e → Spells limits reading (⟨.values, n.ident, none⟩ :: opened) (depth + 1) e (f e)) →
      Spells limits reading opened depth n ((fallback.map f).getD [])
  | supplied {opened depth n groups fallback} (f : Node → List String) : Opens limits opened depth n →
      n.kind = .identifier → (n, .supplied groups fallback) ∈ reading →
      (∀ e, fallback = some e → Spells limits reading (⟨.values, n.ident, none⟩ :: opened) (depth + 1) e (f e)) →
      Spells limits reading opened depth n ((fallback.map fun e =>
        unite limits.maxValues [unite limits.maxValues groups, f e]).getD (unite limits.maxValues groups))
  | fixed {opened depth n initial} (f : Node → List String) : Opens limits opened depth n → n.kind = .identifier →
      (n, .fixed initial) ∈ reading →
      (∀ e, initial = some e → Spells limits reading (⟨.values, n.ident, none⟩ :: opened) (depth + 1) e (f e)) →
      Spells limits reading opened depth n ((initial.map f).getD [])

def argumentsAt (index : Nat) (sites : List CallSite) : List Node :=
  (sites.flatMap (pathsAt index false)).map (·.argument)

def Meaning.HoldsOf (F : Facts) (frame : Frame) (calls : Memo NodeId (List CallSite)) (n : Node) : Meaning → Prop
  | .argument text fallback => ∃ b argument, F.model.binding? n = some b ∧
      frame.arguments.lookup b.uid = some ⟨argument, none⟩ ∧ argument.isWritten = true ∧
      argument.ownText? = text ∧ b.fallback = fallback
  | .supplied groups fallback => ∃ b function index sites, F.model.binding? n = some b ∧
      frame.arguments.lookup b.uid = none ∧ b.sort = .param ∧ b.initial = none ∧ b.key = none ∧
      b.rest = false ∧ b.function = some function ∧ b.paramIndex = some index ∧
      b.fallback = fallback ∧ calls.get? function.ident = some sites ∧
      (∀ a ∈ argumentsAt index sites, a.isWritten = true) ∧
      (argumentsAt index sites).map Node.ownTexts = groups
  | .fixed initial => ∃ b, F.model.binding? n = some b ∧ frame.arguments.lookup b.uid = none ∧
      b.sort.isVariable = true ∧ b.violations = [] ∧ b.key = none ∧ b.initial = initial ∧
      (F.model.memberAssignments b).isEmpty = true ∧ F.isGlobalObject (some n) = false
  | .foreign name => n.name = some name ∧ F.model.isUnbound n = true ∧
      F.isGlobalName (some n) name = true ∧ ∀ g, F.globals = some g → g.lookup name = []

def Reading.HoldsIn (F : Facts) (frame : Frame) (calls : Memo NodeId (List CallSite))
    (reading : Reading) : Prop := ∀ n meaning, (n, meaning) ∈ reading → meaning.HoldsOf F frame calls n

def Meaning.check (F : Facts) (frame : Frame) (calls : Memo NodeId (List CallSite)) (n : Node) : Meaning → Bool
  | .argument text none => (F.model.binding? n).any fun b =>
      b.fallback.isNone && (frame.arguments.lookup b.uid).any fun passed =>
        passed.key.isNone && passed.argument.isWritten && passed.argument.ownText? == text
  | .supplied groups none => (F.model.binding? n).any fun b =>
      (frame.arguments.lookup b.uid).isNone && b.sort == .param && b.initial.isNone &&
        b.key.isNone && !b.rest && b.fallback.isNone &&
        b.function.any fun function => b.paramIndex.any fun index =>
          (calls.get? function.ident).any fun sites =>
            (argumentsAt index sites).all Node.isWritten && (argumentsAt index sites).map Node.ownTexts == groups
  | .foreign name => n.name == some name && F.model.isUnbound n && F.isGlobalName (some n) name &&
      F.globals.all fun g => (g.lookup name).isEmpty
  | _ => false

lemma Meaning.holdsOf_of_check {F : Facts} {frame : Frame} {n : Node} {meaning : Meaning}
    (h : meaning.check F frame calls n = true) : meaning.HoldsOf F frame calls n := by
  unfold Meaning.check at h
  split at h
  · obtain ⟨b, hb, h⟩ := any_eq_true _ _ |>.mp h
    simp only [Bool.and_eq_true, isNone_iff_eq_none] at h
    obtain ⟨hfall, hpass⟩ := h
    obtain ⟨⟨argument, key⟩, hlook, hpass⟩ := any_eq_true _ _ |>.mp hpass
    simp only [Bool.and_eq_true, isNone_iff_eq_none, beq_iff_eq] at hpass
    obtain ⟨⟨rfl, hwrote⟩, hown⟩ := hpass
    exact ⟨b, argument, hb, hlook, hwrote, hown, hfall⟩
  · obtain ⟨b, hb, h⟩ := any_eq_true _ _ |>.mp h
    simp only [Bool.and_eq_true, isNone_iff_eq_none, beq_iff_eq, Bool.not_eq_true'] at h
    obtain ⟨⟨⟨⟨⟨⟨hlook, hsort⟩, hinit⟩, hkey⟩, hrest⟩, hfall⟩, hfun⟩ := h
    obtain ⟨function, hfun, hidx⟩ := any_eq_true _ _ |>.mp hfun
    obtain ⟨index, hidx, hsites⟩ := any_eq_true _ _ |>.mp hidx
    obtain ⟨sites, hsites, hargs⟩ := any_eq_true _ _ |>.mp hsites
    simp only [Bool.and_eq_true, List.all_eq_true, beq_iff_eq] at hargs
    exact ⟨b, function, index, sites, hb, hlook, hsort, hinit, hkey, hrest, hfun, hidx,
      hfall, hsites, hargs⟩
  · simp only [Bool.and_eq_true, beq_iff_eq, all_eq_true, List.isEmpty_iff] at h
    obtain ⟨⟨⟨hname, hfree⟩, hglo⟩, hlook⟩ := h
    exact ⟨hname, hfree, hglo, hlook⟩
  · cases h

end ScriptAudit
