import ScriptAudit.Proofs.Resolve.DirectAliases
import ScriptAudit.Proofs.Resolve.Judged

/-!
# What the program settles

The answers to many questions can be read off the program.
-/

namespace ScriptAudit

open Ask Engine ScriptAudit.Frame Model Node Shape

def Frame.bound? (frames : List Frame) (b : Binding) : Option (Nat × Passed) :=
  frames.zipIdx.reverse.findSome? fun (f, i) => (f.arguments.lookup b.uid).map (i, ·)

/-- What an object will always have under a key: nothing if there is no object, or the value of a
key of its own. -/
inductive Shape.Keyed : Option Shape → String → Option Node → Prop
  | missing {key} : Keyed none key none
  | own {shape key value} : shape.properties.get? key = some value → Keyed (some shape) key (some value)

def Shape.copy (shape : Shape) : Shape :=
  merge { origin := shape.origin } shape false

def foldReturned {β : Type} (frames : List Frame) (step : β → Node → Node → β) (start : β)
    (targets : List (Node × Nat)) : β :=
  targets.foldl (fun acc t =>
    if frames.any (·.function == t.1) then acc else (returnsOf t.1).foldl (step · t.1) acc) start

def returnedTexts (limits : Limits) (frames : List Frame) (f : Node → Node → List String)
    (targets : List (Node × Nat)) : List String :=
  foldReturned frames (fun found function r => unite limits.maxValues [found, f function r]) [] targets

namespace Facts

def Unbound (F : Facts) (frames : List Frame) (object : Node) : Prop :=
  ∀ b, F.model.rootBinding? object = some b → bound? frames b = none

mutual

/-- While the calls of `frames` are being gone through, `n` has the texts `texts`. -/
inductive HasTexts (F : Facts) : List Frame → Node → List String → Prop
  | own {frames n text} : n.ownText? = some text → HasTexts F frames n [text]
  | silent {frames n} : n.ownText? = none → (∀ depth, valuesRule n depth = none) → HasTexts F frames n []
  | given {frames n texts} : n.ownText? = none → (∀ depth, valuesRule n depth = some (pure texts)) →
      HasTexts F frames n texts
  | template {frames n} (f : Node → List String) : n.kind = .templateLiteral → n.ownText? = none →
      (∀ e ∈ n.list .expressions, HasTexts F frames e (f e)) →
      HasTexts F frames n (((templateTexts? (n.list .quasis) ((n.list .expressions).map f)).map
        (joinTexts F.limits.maxValues)).getD [n.placeholder])
  | concat {frames n} (f : Node → List String) : n.kind = .binaryExpression → n.operator = "+" →
      (∀ e ∈ n.concatTerms, HasTexts F frames e (f e)) →
      HasTexts F frames n (concatTexts F.limits.maxValues (n.concatTerms.map f))
  | branches {frames n} (f : Node → List String) : n.kind.isBranching = true → n.branches.map ident ≠ [n.ident] →
      (∀ b ∈ n.branches, HasTexts F frames b (f b)) →
      HasTexts F frames n (unite F.limits.maxValues (n.branches.map f))
  | assignment {frames n} (f : Node → List String) : n.kind = .assignmentExpression → n.operator = "=" →
      (∀ e, n.child? .right = some e → HasTexts F frames e (f e)) →
      HasTexts F frames n (((n.child? .right).map f).getD [])
  | sequence {frames n} (f : Node → List String) : n.kind = .sequenceExpression →
      (∀ e, n.last? .expressions = some e → HasTexts F frames e (f e)) →
      HasTexts F frames n (((n.last? .expressions).map f).getD [])
  | undefined {frames n} : n.kind = .identifier → F.model.isUnboundName n "undefined" = true → HasTexts F frames n []
  | declared {frames n b} : n.kind = .identifier → F.model.binding? n = some b → bound? frames b = none →
      b.sort = .function ∨ b.sort = .classDecl ∨ b.sort = .imported → HasTexts F frames n []
  | named {frames n b} (f : Node → List String) : n.kind = .identifier → F.model.binding? n = some b →
      bound? frames b = none → b.sort.isLocal = true →
      (b.violations = [] → (b.initial.map f).getD [] = [] → b.key = none) →
      (∀ e ∈ b.initial.toList ++ b.violations.filterMap writtenValue?, HasTexts F frames e (f e)) →
      HasTexts F frames n (b.textsWith F.limits f)
  | picked {frames n source b key texts} : n.kind = .identifier → F.model.binding? n = some b →
      bound? frames b = none → b.sort.isLocal = true → b.violations = [] →
      (∀ e, b.initial = some e → HasTexts F frames e []) → b.source = some source → b.key = some key →
      HasMember F frames source key texts → HasTexts F frames n texts
  | passed {frames n b index passed texts} (f : Node → List String) : n.kind = .identifier →
      F.model.binding? n = some b → bound? frames b = some (index, passed) →
      (passed.key = none → HasTexts F (frames.take index) passed.argument texts) →
      (∀ key, passed.key = some key → HasMember F (frames.take index) passed.argument key texts) →
      (texts = [] → ∀ e, b.fallback = some e → HasTexts F frames e (f e)) →
      HasTexts F frames n (if texts.isEmpty then (b.fallback.map f).getD [] else texts)
  | global {frames n name} (f : Node → List String) : n.kind = .identifier →
      F.model.isUnboundName n "undefined" = false → F.model.binding? n = none → n.name = some name →
      (∀ e ∈ F.definitions name, HasTexts F frames e (f e)) →
      HasTexts F frames n (unite F.limits.maxValues ((F.definitions name).map f))
  | member {frames n object name texts} : n.kind = .memberExpression → n.memberName? = some name →
      (∀ g, F.globalMember? n = some g → ∀ e ∈ F.definitions g, HasTexts F frames e []) → name ≠ "length" →
      n.child? .object = some object → HasMember F frames object name texts → HasTexts F frames n texts
  | length {frames n} : n.kind = .memberExpression → n.memberName? = some "length" →
      (∀ g, F.globalMember? n = some g → ∀ e ∈ F.definitions g, HasTexts F frames e []) → HasTexts F frames n []
  | globalMember {frames n name g} (f : Node → List String) : n.kind = .memberExpression → n.memberName? = some name →
      F.globalMember? n = some g → (∀ e ∈ F.definitions g, HasTexts F frames e (f e)) →
      unite F.limits.maxValues ((F.definitions g).map f) ≠ [] →
      HasTexts F frames n (unite F.limits.maxValues ((F.definitions g).map f))
  | computed {frames n object key names} (f : String → List String) : n.kind = .memberExpression →
      n.memberName? = none → n.child? .object = some object → n.child? .property = some key →
      HasTexts F frames key names → names ≠ [] → (∀ name ∈ names, HasMember F frames object name (f name)) →
      HasTexts F frames n (unite F.limits.maxValues (names.map f))
  | element {frames n object elements} (f : Node → List String) : n.kind = .memberExpression → n.memberName? = none →
      n.child? .object = some object → (∀ e, n.child? .property = some e → HasTexts F frames e []) →
      HasShape F frames object none → HasElements F frames object elements →
      (∀ es, elements = some es → ∀ e ∈ es, HasTexts F frames e (f e)) →
      HasTexts F frames n ((elements.map fun es => unite F.limits.maxValues (es.map f)).getD [])
  | returned {frames n texts} : n.kind = .callExpression → HasReturned F frames n texts → texts ≠ [] →
      HasTexts F frames n texts
  | silentCall {frames n} : n.kind = .callExpression → HasReturned F frames n [] → n.isSilentCall F.model = true →
      HasTexts F frames n []
  | globalCall {frames n callee e name g texts} : n.kind = .callExpression → HasReturned F frames n [] →
      n.child? .callee = some callee → F.model.isUnbound callee = true → callee.name = some name →
      globalTransform? name = some g → (n.list .arguments).head? = some e → HasTexts F frames e texts →
      HasTexts F frames n (texts.map g)
  | method {frames n callee name g} (f : Node → List String) : n.kind = .callExpression → HasReturned F frames n [] →
      n.child? .callee = some callee → callee.memberName? = some name →
      methodEffect? name (n.list .arguments) = some g →
      (∀ e, callee.child? .object = some e → HasTexts F frames e (f e)) →
      HasTexts F frames n (g (((callee.child? .object).map f).getD []))
  | appended {frames n callee receiver} (f : Node → List String) : n.kind = .callExpression →
      HasReturned F frames n [] → n.child? .callee = some callee → callee.memberName? = some "concat" →
      callee.child? .object = some receiver → receiver.kind ≠ .arrayExpression →
      (∀ e ∈ receiver :: n.list .arguments, HasTexts F frames e (f e)) →
      HasTexts F frames n (concatTexts F.limits.maxValues ((receiver :: n.list .arguments).map f))
  | joined {frames n callee receiver elements separator} (f : Node → List String) : n.kind = .callExpression →
      HasReturned F frames n [] → n.child? .callee = some callee → callee.memberName? = some "join" →
      callee.child? .object = some receiver → HasElements F frames receiver (some elements) →
      joinSeparator? (n.list .arguments) = some separator → (∀ e ∈ elements, HasTexts F frames e (f e)) →
      HasTexts F frames n (separatedTexts F.limits.maxValues separator (elements.map f))
  | unjoined {frames n callee receiver elements} : n.kind = .callExpression → HasReturned F frames n [] →
      n.child? .callee = some callee → callee.memberName? = some "join" → callee.child? .object = some receiver →
      HasElements F frames receiver elements → elements = none ∨ joinSeparator? (n.list .arguments) = none →
      HasTexts F frames n []

/-- The functions of the program that the call `n` runs return these texts. -/
inductive HasReturned (F : Facts) : List Frame → Node → List String → Prop
  | of_targets {frames n targets} (f : Node → Node → List String) : HasTargets F frames n targets →
      (∀ t ∈ targets, frames.any (·.function == t.1) = false → ∀ r ∈ returnsOf t.1,
        HasTexts F (frames ++ [ofCall F.model t.1 n t.2]) r (f t.1 r)) →
      HasReturned F frames n (returnedTexts F.limits frames f targets)

/-- The property `key` of `object` has these texts. -/
inductive HasMember (F : Facts) : List Frame → Node → String → List String → Prop
  | element {frames object e key elements i texts} : object.kind ≠ .thisExpression → F.Unbound frames object →
      Text.isDigits key = true → HasElements F frames object (some elements) → Number.numeral key = .ok i →
      elements[i.toNat]? = some e → HasTexts F frames e texts → HasMember F frames object key texts
  | property {frames object key elements shape value} (f : Node → List String) : object.kind ≠ .thisExpression →
      F.Unbound frames object → (Text.isDigits key = true → HasElements F frames object elements) →
      (∀ es, Text.isDigits key = true → elements = some es → ∃ i, Number.numeral key = .ok i ∧ es[i.toNat]? = none) →
      HasShape F frames object shape → Shape.Keyed shape key value →
      (∀ e, value = some e → HasTexts F frames e (f e)) →
      ((value.map f).getD [] = [] → ∀ e ∈ F.model.assignedMembers object key, HasTexts F frames e (f e)) →
      (definedTexts F.limits f value (F.model.assignedMembers object key) = [] → F.isOriginless object = true) →
      HasMember F frames object key (definedTexts F.limits f value (F.model.assignedMembers object key))
  | passed {frames object b index passed value key} (f : Node → List String) : F.model.rootBinding? object = some b →
      bound? frames b = some (index, passed) → HasTaken F (frames.take index) passed value →
      (∀ e, value = some e → HasMember F (frames.take index) e key (f e)) →
      HasMember F frames object key ((value.map f).getD [])

/-- What a parameter takes from an argument: all of it, or what it holds under a key. -/
inductive HasTaken (F : Facts) : List Frame → Passed → Option Node → Prop
  | whole {frames argument} : HasTaken F frames ⟨argument, none⟩ (some argument)
  | part {frames argument key shape value} : HasShape F frames argument shape → Shape.Keyed shape key value →
      HasTaken F frames ⟨argument, some key⟩ value

/-- `n` holds an object whose properties begin with those of `shape`, or no object. -/
inductive HasShape (F : Facts) : List Frame → Node → Option Shape → Prop
  | shapeless {frames n} : (∀ depth, objectRule n depth = none) → HasShape F frames n none
  | literal {frames n} (f : Node → List String) : n.kind = .objectExpression →
      (∀ p ∈ n.list .properties, p.kind.isSpreadProperty = true → ∀ e, p.child? .argument = some e →
        HasShape F frames e none) →
      (∀ p ∈ n.list .properties, p.propertyKey? = none → p.computed = true → ∀ e, p.child? .key = some e →
        HasTexts F frames e (f e)) → HasShape F frames n (some (n.shapeWith f))
  | declared {frames n b shape} : n.kind = .identifier → F.model.binding? n = some b → bound? frames b = none →
      HasDeclared F frames b (some shape) → HasShape F frames n (some shape)
  | written {frames n b shape} : n.kind = .identifier → F.model.binding? n = some b → bound? frames b = none →
      HasDeclared F frames b none → HasFirst F frames (b.violations.filterMap assignedValue?) (some shape) →
      HasShape F frames n (some shape.copy)
  | assigned {frames n b} : n.kind = .identifier → F.model.binding? n = some b → bound? frames b = none →
      HasDeclared F frames b none → HasFirst F frames (b.violations.filterMap assignedValue?) none →
      HasShape F frames n (b.assignedShape? F.model)
  | passed {frames n b index passed value} (f : Node → Option Shape) : n.kind = .identifier →
      F.model.binding? n = some b → bound? frames b = some (index, passed) →
      HasTaken F (frames.take index) passed value → (∀ e, value = some e → HasShape F (frames.take index) e (f e)) →
      HasShape F frames n (value.bind f)
  | global {frames n name shape} : n.kind = .identifier → F.model.binding? n = none → n.name = some name →
      HasFirst F frames (F.definitions name) shape → HasShape F frames n (shape.map copy)
  | globalMember {frames n object name g shape} : n.kind = .memberExpression → n.memberName? = some name →
      n.child? .object = some object → F.globalMember? n = some g → HasFirst F frames (F.definitions g) shape →
      HasShape F frames n (shape.map copy)
  | member {frames n object value name whole shape} : n.kind = .memberExpression → n.memberName? = some name →
      n.child? .object = some object → F.globalMember? n = none → object.kind ≠ .thisExpression →
      HasShape F frames object (some whole) → whole.properties.get? name = some value →
      HasShape F frames value shape → HasShape F frames n shape
  | assignedMember {frames n object name shape} : n.kind = .memberExpression → n.memberName? = some name →
      n.child? .object = some object → F.globalMember? n = none → object.kind ≠ .thisExpression →
      HasShape F frames object none → HasFirst F frames (F.model.assignedMembers object name) shape →
      HasShape F frames n shape
  | computed {frames n} : n.kind = .memberExpression → n.memberName? = none → HasShape F frames n none
  | assignment {frames n} (f : Node → Option Shape) : n.kind = .assignmentExpression →
      (∀ e, n.child? .right = some e → HasShape F frames e (f e)) → HasShape F frames n ((n.child? .right).bind f)
  | sequence {frames n} (f : Node → Option Shape) : n.kind = .sequenceExpression →
      (∀ e, n.last? .expressions = some e → HasShape F frames e (f e)) →
      HasShape F frames n ((n.last? .expressions).bind f)
  | branches {frames n shape} : n.kind.isBranching = true → HasFirst F frames (n.branches.filter (· != n)) shape →
      HasShape F frames n (shape.map copy)
  | returned {frames n targets shape} : n.kind = .callExpression →
      (n.copiesMembers = true → ∀ a ∈ mergeArguments (n.list .arguments), HasShape F frames a none) →
      HasTargets F frames n targets → HasFirstReturned F frames n targets shape →
      HasShape F frames n (shape.map copy)

/-- The name `b` holds an object with the shape from its declaration. -/
inductive HasDeclared (F : Facts) : List Frame → Binding → Option Shape → Prop
  | initial {frames b e shape} : b.sort.isVariable = true → b.initial = some e → HasShape F frames e shape →
      HasDeclared F frames b shape
  | picked {frames b source key whole value} (f : Node → Option Shape) :
      (b.sort.isVariable = true → b.initial = none) → b.source = some source → b.key = some key →
      HasShape F frames source whole → Shape.Keyed whole key value →
      (∀ e, value = some e → HasShape F frames e (f e)) → HasDeclared F frames b (value.bind f)
  | bare {frames b} : (b.sort.isVariable = true → b.initial = none) → b.isParam = false → b.key = none →
      HasDeclared F frames b none

/-- The first of the expressions that holds an object has the shape. -/
inductive HasFirst (F : Facts) : List Frame → List Node → Option Shape → Prop
  | nil {frames} : HasFirst F frames [] none
  | here {frames e rest shape} : HasShape F frames e (some shape) → HasFirst F frames (e :: rest) (some shape)
  | later {frames e rest shape} : HasShape F frames e none → HasFirst F frames rest shape →
      HasFirst F frames (e :: rest) shape

/-- The first object that the functions `targets` return to the call `n` has the shape. -/
inductive HasFirstReturned (F : Facts) : List Frame → Node → List (Node × Nat) → Option Shape → Prop
  | nil {frames n} : HasFirstReturned F frames n [] none
  | gone {frames n t rest shape} : frames.any (·.function == t.1) = true → HasFirstReturned F frames n rest shape →
      HasFirstReturned F frames n (t :: rest) shape
  | here {frames n t rest shape} : frames.any (·.function == t.1) = false →
      HasFirst F (frames ++ [ofCall F.model t.1 n t.2]) (returnsOf t.1) (some shape) →
      HasFirstReturned F frames n (t :: rest) (some shape)
  | later {frames n t rest shape} : frames.any (·.function == t.1) = false →
      HasFirst F (frames ++ [ofCall F.model t.1 n t.2]) (returnsOf t.1) none →
      HasFirstReturned F frames n rest shape → HasFirstReturned F frames n (t :: rest) shape

/-- `F.HasElements frames n elements` says that `n` holds an array with these elements, or no array.
-/
inductive HasElements (F : Facts) : List Frame → Node → Option (List Node) → Prop
  | elementless {frames n} : (∀ depth, arrayRule n depth = none) → HasElements F frames n none
  | literal {frames n} (f : Node → Option (List Node)) : n.kind = .arrayExpression →
      (∀ e ∈ n.list .elements, e.kind = .spreadElement →
        ∀ a, e.child? .argument = some a → HasElements F frames a (f a)) →
      HasElements F frames n (some ((n.list .elements).flatMap (spreadOut f)))
  | named {frames n b} (f : Node → Option (List Node)) :
      n.kind = .identifier → F.model.binding? n = some b → bound? frames b = none →
      b.isParam = false →
      (∀ e, b.sort.isVariable = true → b.initial = some e → HasElements F frames e (f e)) →
      HasElements F frames n ((if b.sort.isVariable then b.initial.bind f else none).map fun es =>
        (es ++ addedElements F.model b).take (F.limits.maxValues * 5))
  | passed {frames n b index passed value} (f : Node → Option (List Node)) : n.kind = .identifier →
      F.model.binding? n = some b → bound? frames b = some (index, passed) →
      HasTaken F (frames.take index) passed value →
      (∀ e, value = some e → HasElements F (frames.take index) e (f e)) →
      HasElements F frames n (value.bind f)
  | global {frames n name} (f : Node → Option (List Node)) :
      n.kind = .identifier → F.model.binding? n = none → n.name = some name →
      (∀ e ∈ F.definitions name, HasElements F frames e (f e)) →
      HasElements F frames n ((F.definitions name).findSome? f)
  | member {frames n object name shape value} (f : Node → Option (List Node)) : n.kind = .memberExpression →
      n.memberName? = some name → n.child? .object = some object → HasShape F frames object shape →
      Shape.Keyed shape name value → (∀ e, value = some e → HasElements F frames e (f e)) →
      HasElements F frames n (value.bind f)
  | computed {frames n} : n.kind = .memberExpression → n.memberName? = none → HasElements F frames n none
  | branches {frames n} (f : Node → Option (List Node)) : n.kind.isBranching = true →
      (∀ b ∈ n.branches.filter (· != n), HasElements F frames b (f b)) →
      HasElements F frames n ((n.branches.filter (· != n)).foldl (fun found b => appendElements found (f b)) none)
  | appended {frames n callee receiver base}
      (f : Node → Option (List Node)) : n.kind = .callExpression → n.child? .callee = some callee →
      callee.memberName? = some "concat" → callee.child? .object = some receiver →
      HasElements F frames receiver base →
      (base ≠ none → ∀ a ∈ n.list .arguments, HasElements F frames a (f a)) →
      HasElements F frames n (base.map fun es => es ++ (n.list .arguments).flatMap fun a => (f a).getD [a])
  | split {frames n callee receiver separator rest texts} : n.kind = .callExpression →
      n.child? .callee = some callee → callee.memberName? = some "split" → callee.child? .object = some receiver →
      n.list .arguments = separator :: rest → HasTexts F frames receiver texts →
      HasElements F frames n (splitPieces separator.literalText? texts)
  | returned {frames n targets}
      (f : Node → Node → Option (List Node)) : n.kind = .callExpression →
      (n.child? .callee).bind memberName? ≠ some "concat" →
      ((n.child? .callee).bind memberName? = some "split" → n.list .arguments = []) →
      HasTargets F frames n targets →
      (∀ t ∈ targets, frames.any (·.function == t.1) = false → ∀ r ∈ returnsOf t.1,
        HasElements F (frames ++ [ofCall F.model t.1 n t.2]) r (f t.1 r)) →
      HasElements F frames n (foldReturned frames
        (fun found function r => appendElements found (f function r)) none targets)

/-- `F.HasFunctions frames n fs` says that `n` evaluates to one of the functions and classes `fs`.
-/
inductive HasFunctions (F : Facts) : List Frame → Node → List Node → Prop
  | functionless {frames n} : (∀ depth, functionsRule n depth = none) → HasFunctions F frames n []
  | itself {frames n} : (∀ depth, functionsRule n depth = some (pure [n])) → HasFunctions F frames n [n]
  | declared {frames n b} : n.kind = .identifier → F.model.binding? n = some b → bound? frames b = none →
      b.sort = .function ∨ b.sort = .classDecl → HasFunctions F frames n b.initial.toList
  | named {frames n b} (f : Node → List Node) : n.kind = .identifier → F.model.binding? n = some b →
      bound? frames b = none → b.isParam = false → b.sort ≠ .function → b.sort ≠ .classDecl →
      (b.initial = none → b.key = none) → (∀ e ∈ b.functionValues F.limits, HasFunctions F frames e (f e)) →
      HasFunctions F frames n (mergedFunctions F.limits ((b.functionValues F.limits).map f))
  | picked {frames n source b key shape value} (f : Node → List Node) : n.kind = .identifier →
      F.model.binding? n = some b → bound? frames b = none → b.isParam = false → b.sort ≠ .function →
      b.sort ≠ .classDecl → b.initial = none → b.source = some source → b.key = some key →
      HasShape F frames source shape → Shape.Keyed shape key value →
      (∀ e, value = some e → HasFunctions F frames e (f e)) →
      (∀ e ∈ b.functionWrites F.limits, HasFunctions F frames e (f e)) →
      HasFunctions F frames n (mergedFunctions F.limits ((value.map f).getD [] :: (b.functionWrites F.limits).map f))
  | passed {frames n b index passed value} (f : Node → List Node) : n.kind = .identifier →
      F.model.binding? n = some b → bound? frames b = some (index, passed) →
      HasTaken F (frames.take index) passed value →
      (∀ e, value = some e → HasFunctions F (frames.take index) e (f e)) →
      HasFunctions F frames n ((value.map f).getD [])
  | global {frames n name} (f : Node → List Node) : n.kind = .identifier → F.model.binding? n = none →
      n.name = some name → (∀ e ∈ F.definitions name, HasFunctions F frames e (f e)) →
      HasFunctions F frames n (mergedFunctions F.limits ((F.definitions name).map f))
  | globalMember {frames n object name g} (f : Node → List Node) : n.kind = .memberExpression →
      n.memberName? = some name → n.child? .object = some object → F.globalMember? n = some g →
      (∀ e ∈ F.definitions g, HasFunctions F frames e (f e)) →
      HasFunctions F frames n (mergedFunctions F.limits ((F.definitions g).map f))
  | member {frames n object name shape value} (f : Node → List Node) : n.kind = .memberExpression →
      n.memberName? = some name → n.child? .object = some object → F.globalMember? n = none →
      object.kind ≠ .thisExpression → object.reads "prototype" = false →
      (∀ t ∈ instanceSources F.model object, t.kind ≠ .newExpression) → HasShape F frames object shape →
      Shape.Keyed shape name value → (∀ e, value = some e → HasFunctions F frames e (f e)) →
      (∀ e ∈ F.model.assignedMembers object name, HasFunctions F frames e (f e)) →
      HasFunctions F frames n (mergedFunctions F.limits ((value.map f).getD [] ::
        (F.model.assignedMembers object name).map f ++ (instanceSources F.model object).map (staticMembers · name)))
  | computed {frames n object key names shape} (value : String → Option Node) (f : Node → List Node) :
      n.kind = .memberExpression → n.memberName? = none → n.child? .object = some object →
      n.child? .property = some key → HasTexts F frames key names → HasShape F frames object shape →
      (∀ name ∈ names, Shape.Keyed shape name (value name)) →
      (∀ name ∈ names, ∀ e, value name = some e → HasFunctions F frames e (f e)) →
      HasFunctions F frames n (mergedFunctions F.limits (names.map fun name => ((value name).map f).getD []))
  | branches {frames n} (f : Node → List Node) : n.kind.isBranching = true →
      (∀ b ∈ n.branches.filter (· != n), HasFunctions F frames b (f b)) →
      HasFunctions F frames n (mergedFunctions F.limits ((n.branches.filter (· != n)).map f))
  | assignment {frames n} (f : Node → List Node) : n.kind = .assignmentExpression →
      (∀ e, n.child? .right = some e → HasFunctions F frames e (f e)) →
      HasFunctions F frames n (((n.child? .right).map f).getD [])
  | sequence {frames n} (f : Node → List Node) : n.kind = .sequenceExpression →
      (∀ e, n.last? .expressions = some e → HasFunctions F frames e (f e)) →
      HasFunctions F frames n (((n.last? .expressions).map f).getD [])
  | adapted {frames n callee} (f : Node → List Node) : n.kind = .callExpression → n.child? .callee = some callee →
      callee.reads "bind" = true → (∀ e, callee.child? .object = some e → HasFunctions F frames e (f e)) →
      HasFunctions F frames n (((callee.child? .object).map f).getD [])
  | returned {frames n callee targets} (f : Node → Node → List Node) : n.kind = .callExpression →
      n.child? .callee = some callee → callee.reads "bind" = false → HasTargets F frames n targets →
      (∀ t ∈ targets, frames.any (·.function == t.1) = false → ∀ r ∈ returnsOf t.1,
        HasFunctions F (frames ++ [ofCall F.model t.1 n t.2]) r (f t.1 r)) →
      HasFunctions F frames n (mergedFunctions F.limits (foldReturned frames (fun groups function r =>
        groups ++ [f function r]) [] targets))

/-- The call `n` runs the functions `targets`, each with the number of leading arguments that are
not for its parameters. -/
inductive HasTargets (F : Facts) : List Frame → Node → List (Node × Nat) → Prop
  | direct {frames n callee fs} : n.child? .callee = some callee → callee.reads "call" = false →
      HasFunctions F frames callee fs → HasTargets F frames n ((distinct (fs.filterMap callableOf?)).map (·, 0))
  | through {frames n callee receiver fs} : n.kind = .callExpression → n.child? .callee = some callee →
      callee.reads "call" = true → callee.child? .object = some receiver → HasFunctions F frames receiver fs →
      HasTargets F frames n ((distinct (fs.filterMap callableOf?)).map (·, 1))

end

lemma HasShape.plain {F : Facts} {frames : List Frame} {n : Node} (h : n.isPlainObject = true) :
    F.HasShape frames n (some n.plainShape) := by
  have hprop := property_of_plain h
  rw [← shapeWith_of_isPlainObject h fun _ => []]
  refine .literal _ (kind_of_isPlainObject h) (fun p hp hspread => ?_) fun p hp hname hcomp => ?_
  · rw [(hprop p hp).1] at hspread
    cases hspread
  · rw [(hprop p hp).2 hname] at hcomp
    cases hcomp

end Facts

def Memory.Shows (m : Memory) : Option ShapeRef → Option Shape → Prop
  | none, none => True
  | some ref, some shape => ∃ wider, m.shapes[ref]? = some wider ∧ shape.Gains wider
  | _, _ => False

def Memory.Widens (m m' : Memory) : Prop :=
  ∀ (ref : Nat) (shape : Shape), m.shapes[ref]? = some shape → ∃ wider, m'.shapes[ref]? = some wider ∧ shape.Gains wider

namespace Memory

variable {m m' m'' : Memory} {ref : Option ShapeRef}

lemma Widens.refl (m : Memory) : m.Widens m := fun _ shape href => ⟨shape, href, .refl shape⟩

lemma Widens.trans (h : m.Widens m') (h' : m'.Widens m'') : m.Widens m'' := by
  intro ref shape href
  obtain ⟨wider, hwider, hgains⟩ := h ref shape href
  obtain ⟨widest, hwidest, hgains'⟩ := h' ref wider hwider
  exact ⟨widest, hwidest, hgains.trans hgains'⟩

lemma Shows.widen {shape : Option Shape} (h : m.Shows ref shape) (hm : m.Widens m') : m'.Shows ref shape := by
  cases ref with
  | none =>
    cases shape with
    | none => trivial
    | some shape => exact h.elim
  | some ref =>
    cases shape with
    | none => exact h.elim
    | some shape =>
      obtain ⟨wider, hwider, hgains⟩ := h
      obtain ⟨widest, hwidest, hgains'⟩ := hm ref wider hwider
      exact ⟨widest, hwidest, hgains.trans hgains'⟩

lemma shows_none_iff : m.Shows ref none ↔ ref = none := by
  cases ref <;> simp [Shows]

lemma shows_some_iff {shape : Shape} :
    m.Shows ref (some shape) ↔ ∃ r wider, ref = some r ∧ m.shapes[r]? = some wider ∧ shape.Gains wider := by
  cases ref <;> simp [Shows]

end Memory

namespace Question

variable {α β : Type} {F : Facts} {frames : List Frame} {m m' : Memory}

def Right (F : Facts) (frames : List Frame) : {α : Type} → Question α → α → Memory → Prop
  | _, .values n none _, a, _ => ∀ texts, F.HasTexts frames n texts → a = texts
  | _, .values n (some key) _, a, _ => ∀ texts, F.HasMember frames n key texts → a = texts
  | _, .object n _, a, m => ∀ shape, F.HasShape frames n shape → m.Shows a shape
  | _, .array n _, a, _ => ∀ elements, F.HasElements frames n elements → a = elements
  | _, .functions n _, a, _ => ∀ fs, F.HasFunctions frames n fs → a = fs
  | _, .aliases n, a, _ => F.AliasesOf n a

lemma Right.widen {q : Question α} {a : α} (h : q.Right F frames a m) (hm : m.Widens m') : q.Right F frames a m' := by
  cases q with
  | values n property depth => cases property <;> exact h
  | object n depth => exact fun shape hshape => (h shape hshape).widen hm
  | array | functions | aliases => exact h

lemma widens_remember (q : Question α) (a : α) (m : Memory) : m.Widens (q.remember a m) := by
  intro ref shape href
  rw [shapes_remember]
  exact ⟨shape, href, .refl shape⟩

def node : {α : Type} → Question α → Node
  | _, .values n _ _ => n
  | _, .object n _ => n
  | _, .array n _ => n
  | _, .functions n _ => n
  | _, .aliases n => n

lemma Right.of_remember {q : Question α} {p : Question β} {a : α} {b : β}
    (h : q.Right F frames a m') (hkey : p.key = q.key) (hnode : p.node = q.node)
    (hb : p.remembered (q.remember a m) = some b) : p.Right F frames b m' := by
  cases q with
  | values n property depth =>
    cases p with
    | values k other _ =>
      obtain rfl : k = n := hnode
      obtain rfl : other = property := (Key.mk.inj hkey).2.2
      obtain rfl : a = b := Option.some.inj (Memo.get?_insert_self.symm.trans hb)
      cases other <;> exact h
    | _ => simp [key] at hkey
  | object | array | functions | aliases =>
    -- the keys of two questions of different sorts differ, which leaves the question asked again
    cases p <;> simp only [key, Key.mk.injEq, reduceCtorEq, false_and] at hkey
    obtain rfl := hnode
    cases Memo.get?_insert_self.symm.trans hb
    exact h

end Question

def Memory.Faithful (F : Facts) (m : Memory) : Prop :=
  ∀ (α : Type) (q : Question α) (a : α), F.Has q.node → q.remembered m = some a → q.Right F [] a m

namespace Memory.Faithful

variable {F : Facts} {m m' : Memory} {α : Type}

lemma empty : Faithful F {} := by
  intro α q a _ ha
  cases q <;> cases ha

lemma stable : Memory.Stable (Faithful F) := by
  intro m m' hquiet h α q a hq ha
  rw [q.remembered_of_quiet hquiet] at ha
  exact (h α q a hq ha).widen hquiet.shapes

lemma remember (huniq : F.Unique) (h : m.Faithful F) {q : Question α} (hq : F.Has q.node) {a : α}
    (ha : q.Right F [] a m) : (q.remember a m).Faithful F := by
  have hwidens := q.widens_remember a m
  intro β p b hp hb
  by_cases hkey : p.key = q.key
  · have hnode : p.node = q.node := by
      refine huniq _ _ hp hq ?_
      cases q <;> cases p <;> simp_all [Question.key, Question.node]
    exact (ha.widen hwidens).of_remember hkey hnode hb
  · rw [Question.remembered_other hkey] at hb
    exact (h β p b hp hb).widen hwidens

end Memory.Faithful

end ScriptAudit
