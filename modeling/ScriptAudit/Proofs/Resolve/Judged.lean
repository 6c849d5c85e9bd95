import Mathlib.Data.List.Basic
import ScriptAudit.Proofs.Resolve.Spelling

/-!
# What the rules make of answers

What the rules of resolution put together from answers is stated here for every judgement of what a
computation comes to, so that it holds under a frame as well as in a session with answers that are
remembered.
-/

namespace ScriptAudit

open Ask Binding Engine List Node Facts Text

variable {F : Facts} {n : Node} {depth : Nat} {texts : List String} {elements : Option (List Node)} {index : Nat}

def Binding.textsWith (b : Binding) (limits : Limits) (f : Node → List String) : List String :=
  if b.violations.isEmpty then (b.initial.map f).getD []
  else if limits.maxMutations < b.violations.length then []
  else unite limits.maxValues ((b.initial.toList ++ b.violations.filterMap writtenValue?).map f)

def Binding.functionWrites (b : Binding) (limits : Limits) : List Node :=
  if b.violations.length ≤ limits.maxMutations then b.violations.filterMap functionWrite? else []

def Binding.functionValues (b : Binding) (limits : Limits) : List Node :=
  b.initial.toList ++ b.functionWrites limits

def mergedFunctions (limits : Limits) (groups : List (List Node)) : List Node :=
  (distinct groups.flatten).take limits.maxCallers

def definedTexts (limits : Limits) (f : Node → List String) (value : Option Node) (assigned : List Node) :
    List String :=
  if ((value.map f).getD []).isEmpty then unite limits.maxValues (assigned.map f) else (value.map f).getD []

def replacedTexts (pattern replacement : Node) (everywhere : Bool) (texts : List String) : List String :=
  match pattern.literalText?, replacement.literalText? with
  | some p, some new => texts.map fun s => replace s p new (if everywhere then none else some 1)
  | _, _ => texts

def methodEffect? (method : String) (arguments : List Node) : Option (List String → List String) :=
  match stringTransform? method with
  | some transform => some (List.map transform)
  | none =>
    match method, arguments with
    | "replace", pattern :: replacement :: _ => some (replacedTexts pattern replacement false)
    | "replaceAll", pattern :: replacement :: _ => some (replacedTexts pattern replacement true)
    | "slice", _ :: _ | "substring", _ :: _ | "substr", _ :: _ =>
      ((arguments.take 2).mapM wholeLiteral?).map fun bounds => List.map (cutOut method bounds)
    | _, _ => none

def silentMethod (method : String) (receiver : Option Node) (arguments : List Node) : Bool :=
  (methodEffect? method arguments).isNone && method != "join" &&
    (method != "concat" || receiver.any (·.kind == .arrayExpression))

def Node.isSilentCall (m : Model) (n : Node) : Bool :=
  match n.child? .callee with
  | none => true
  | some callee =>
    if m.isUnbound callee then
      (globalTransform? (callee.name.getD "")).isNone || (n.list .arguments).isEmpty
    else
      match callee.memberName? with
      | some method => silentMethod method (callee.child? .object) (n.list .arguments)
      | none => true

def joinSeparator? (arguments : List Node) : Option String :=
  (arguments.head?.map literalText?).getD (some ",")

def separatedTexts (cap : Nat) (separator : String) (columns : List (List String)) : List String :=
  if columns.any List.isEmpty then []
  else if columns.isEmpty then [""]
  else joinTexts cap (columns.intersperse [separator])

namespace Node

def spreadOut (f : Node → Option (List Node)) (e : Node) : List Node :=
  if e.kind == .spreadElement then ((e.child? .argument).bind f).getD [] else [e]

def enterWith (f : Node → List String) (t : Table String Node) (p : Node) : Table String Node :=
  if p.kind.isSpreadProperty then t
  else
    match p.child? .value with
    | none => t
    | some value =>
      match p.propertyKey? with
      | some key => t.insert key value
      | none =>
        if p.computed then (((p.child? .key).map f).getD []).foldl (fun t name => t.insert name value) t
        else t

def shapeWith (f : Node → List String) (n : Node) : Shape :=
  ⟨(n.list .properties).foldl (enterWith f) Table.empty, some n⟩

lemma kind_of_isPlainObject (h : n.isPlainObject = true) : n.kind = .objectExpression := by
  simp only [isPlainObject, Bool.and_eq_true, beq_iff_eq] at h
  exact h.1

lemma property_of_plain (h : n.isPlainObject = true) (p : Node) (hp : p ∈ n.list .properties) :
    p.kind.isSpreadProperty = false ∧ (p.propertyKey? = none → p.computed = false) := by
  simp only [isPlainObject, Bool.and_eq_true, all_eq_true] at h
  simpa [Option.isSome_iff_ne_none, or_iff_not_imp_left] using h.2 p hp

lemma shapeWith_of_isPlainObject (h : n.isPlainObject = true) (f : Node → List String) :
    n.shapeWith f = n.plainShape := by
  have henter (t : Table String Node) (p : Node) (hp : p ∈ n.list .properties) : enterWith f t p = enter t p := by
    obtain ⟨hspread, hkey⟩ := property_of_plain h p hp
    unfold enterWith enter
    simp only [hspread]
    cases p.child? .value with
    | none => rfl
    | some value =>
      cases hname : p.propertyKey? with
      | some key => rfl
      | none => simp [hkey hname]
  simp only [shapeWith, plainShape, literalProperties, foldl_ext _ _ _ henter]

def copiesMembers (call : Node) : Bool :=
  ((call.child? .callee).bind memberName?).any mergeMethods.contains

end Node

def splitPieces (separator : Option String) (texts : List String) : Option (List Node) :=
  separator.bind fun separator => texts.head?.bind fun s =>
    if (pieces s separator).isEmpty then none else some (pieces s separator)

def Binding.assignedShape? (m : Model) (b : Binding) : Option Shape :=
  if (m.memberAssignments b).isEmpty then none
  else some {
    properties := (m.memberAssignments b).entries.foldl (fun t e => t.insertNew e.1 e.2) Table.empty
    origin := b.initial }

def BindingSort.isLocal : BindingSort → Bool
  | var | lexical | constant | caught => true
  | _ => false

lemma BindingSort.isLocal_of_isVariable {sort : BindingSort} (h : sort.isVariable = true) : sort.isLocal = true := by
  cases sort <;> simp [isVariable, isLocal] at h ⊢

lemma Binding.isParam_of_isLocal {b : Binding} (h : b.sort.isLocal = true) : b.isParam = false := by
  cases hb : b.sort <;> simp [BindingSort.isLocal, isParam, hb] at h ⊢

namespace Facts

def definitions (F : Facts) (name : String) : List Node :=
  (F.globals.map fun g => (g.lookup name).map (·.definition)).getD []

lemma definitions_eq_nil {name : String} (h : ∀ g, F.globals = some g → g.lookup name = []) :
    F.definitions name = [] := by
  unfold definitions
  cases hg : F.globals with
  | none => rfl
  | some g => simp [h g hg]

def globalMember? (F : Facts) (n : Node) : Option String :=
  F.globals.bind (·.globalMember? n)

def isOriginless (F : Facts) (object : Node) : Bool :=
  match F.model.rootBinding? object with
  | some b => !b.isParam && !(b.isConstant && b.initial.any (·.kind == .newExpression))
  | none => object.kind != .newExpression

end Facts

lemma overloaded_of_mem_pathsAt {site : CallSite} {path : ArgumentPath} (h : path ∈ pathsAt index false site) :
    path.overloaded = false := by
  unfold pathsAt at h
  dsimp only at h
  split at h
  · cases h
  · split at h
    · obtain rfl := mem_singleton.mp h
      rfl
    · cases h

lemma any_isEmpty_intersperse (separator : String) {columns : List (List String)}
    (h : columns.any List.isEmpty = false) : (columns.intersperse [separator]).any List.isEmpty = false := by
  induction columns with
  | nil => rfl
  | cons c rest ih =>
    cases rest with
    | nil => exact h
    | cons d rest =>
      rw [intersperse_cons_cons]
      simp only [any_cons, Bool.or_eq_false_iff] at h ⊢
      exact ⟨h.1, rfl, ih (by simpa using h.2)⟩

namespace Engine.Judges

variable {J : (α : Type) → Engine α → α → Prop} (hJ : Judges F J) {f : Node → List String} {name : String}
  {object : Node}
include hJ

lemma zip {columns : List (List String)} (h : columns.any List.isEmpty = false) :
    J _ (Engine.zip columns) (joinTexts F.limits.maxValues columns) := by
  refine hJ.bind hJ.limits ?_
  rw [zipColumns_eq h]
  exact hJ.pure _

lemma union (groups : List (List String)) :
    J _ (Engine.union groups) (unite F.limits.maxValues groups) := hJ.bind hJ.limits (hJ.pure _)

lemma columns {parts : List Node} (h : ∀ e ∈ parts, J _ (ask (.values e none depth)) (f e)) : J _ (columns depth parts)
      (if (parts.map f).any List.isEmpty then none else some (parts.map f)) := by
  induction parts with
  | nil => exact hJ.pure (some [])
  | cons e rest ih =>
    obtain ⟨he, hrest⟩ := forall_mem_cons.mp h
    refine hJ.bind he ?_
    by_cases hempty : (f e).isEmpty = true
    · simp only [hempty, if_true, map_cons, any_cons, Bool.true_or]
      exact hJ.pure none
    · simp only [hempty, map_cons, any_cons, Bool.false_or]
      refine hJ.bind (ih hrest) ?_
      split
      · exact hJ.pure none
      · exact hJ.pure (some (f e :: rest.map f))

lemma concatenated {parts : List Node} (h : ∀ e ∈ parts, J _ (ask (.values e none depth)) (f e)) :
    J _ (concatenated parts depth) (concatTexts F.limits.maxValues (parts.map f)) := by
  refine hJ.bind (hJ.columns h) ?_
  unfold concatTexts
  by_cases hempty : (parts.map f).any List.isEmpty = true
  · simp only [hempty, if_true]
    exact hJ.pure []
  · simp only [hempty]
    exact hJ.zip (Bool.not_eq_true _ ▸ hempty)

lemma templateColumns {quasis expressions : List Node} (h : ∀ e ∈ expressions, J _ (ask (.values e none depth)) (f e)) :
    J _ (templateColumns depth quasis expressions) (templateTexts? quasis (expressions.map f)) := by
  induction quasis generalizing expressions with
  | nil => exact hJ.pure (some [])
  | cons q qs ih =>
    cases expressions with
    | nil => exact hJ.bind (ih (forall_mem_nil _)) (hJ.pure _)
    | cons e es =>
      obtain ⟨he, hes⟩ := forall_mem_cons.mp h
      rw [Ask.templateColumns, map_cons, templateTexts?]
      refine hJ.bind he ?_
      split
      · exact hJ.pure none
      · exact hJ.bind (ih hes) (hJ.pure _)

lemma templateValues (h : ∀ e ∈ n.list .expressions, J _ (ask (.values e none (depth + 1))) (f e)) :
    J _ (templateValues n depth) (((templateTexts? (n.list .quasis) ((n.list .expressions).map f)).map
        (joinTexts F.limits.maxValues)).getD [n.placeholder]) := by
  refine hJ.bind (hJ.templateColumns h) ?_
  cases htexts : templateTexts? (n.list .quasis) ((n.list .expressions).map f) with
  | none => exact hJ.pure [n.placeholder]
  | some columns => exact hJ.zip (any_isEmpty_texts htexts)

lemma anyOf {nodes : List Node} (h : ∀ e ∈ nodes, J _ (ask (.values e none depth)) (f e)) :
    J _ (anyOf nodes depth) (unite F.limits.maxValues (nodes.map f)) := hJ.bind (hJ.mapM h) (hJ.union _)

lemma branchValues (hself : n.branches.map ident ≠ [n.ident])
    (h : ∀ b ∈ n.branches, J _ (ask (.values b none (depth + 1))) (f b)) :
    J _ (branchValues n depth) (unite F.limits.maxValues (n.branches.map f)) := by
  have hany := hJ.anyOf h
  unfold Ask.branchValues
  split
  next b hbr =>
    rw [hbr] at hself hany ⊢
    have hb : (b == n) = false := by
      refine Bool.eq_false_iff.mpr fun heq => hself ?_
      have hid : b.ident = n.ident := eq_of_beq heq
      simp [hid]
    rw [hb]
    exact hany
  · exact hany

lemma readArguments {sites : List CallSite}
    (h : ∀ a ∈ argumentsAt index sites, J _ (ask (.values a none (depth + 1))) (f a)) :
    J _ (readPaths [] depth none (sites.flatMap (pathsAt index false))) ((argumentsAt index sites).map f) := by
  have hread {paths : List ArgumentPath} (hpaths : ∀ p ∈ paths, p.overloaded = false ∧
      J _ (ask (.values p.argument none (depth + 1))) (f p.argument)) :
      J _ (readPaths [] depth none paths) ((paths.map (·.argument)).map f) := by
    induction paths with
    | nil => exact hJ.pure []
    | cons path rest ih =>
      obtain ⟨hpath, hrest⟩ := forall_mem_cons.mp hpaths
      rw [readPaths, if_neg (by simp [hpath.1])]
      exact hJ.bind hpath.2 (hJ.bind (ih hrest) (hJ.pure _))
  refine hread fun p hp => ⟨?_, h _ (mem_map_of_mem hp)⟩
  obtain ⟨site, -, hsite⟩ := mem_flatMap.mp hp
  exact overloaded_of_mem_pathsAt hsite

lemma values {found : Option Node} (h : ∀ e, found = some e → J _ (ask (.values e none depth)) (f e)) :
    J _ (values found depth) ((found.map f).getD []) := by
  cases found with
  | none => exact hJ.pure []
  | some e => exact h e rfl

lemma identifierValues {b : Binding} (hb : F.model.binding? n = some b) (h : J _ (bindingValues b depth) texts) :
    J _ (identifierValues n depth) texts := by
  have hname : F.model.isUnboundName n "undefined" = false := by
    simp [Model.isUnboundName, Model.isUnbound_of_binding? hb]
  refine hJ.bind hJ.model ?_
  simp only [hname, hb]
  exact h

lemma globalValues (h : ∀ e ∈ F.definitions name, J _ (ask (.values e none (depth + 1))) (f e)) :
    J _ (globalValues name depth) (unite F.limits.maxValues ((F.definitions name).map f)) := by
  refine hJ.bind hJ.globals ?_
  unfold definitions at h ⊢
  cases hg : F.globals with
  | none => exact hJ.pure []
  | some g =>
    simp only [hg, Option.map_some, Option.getD_some] at h ⊢
    exact hJ.anyOf h

lemma identifierValues_global (hundef : F.model.isUnboundName n "undefined" = false)
    (hb : F.model.binding? n = none) (hname : n.name = some name)
    (h : ∀ e ∈ F.definitions name, J _ (ask (.values e none (depth + 1))) (f e)) :
    J _ (Ask.identifierValues n depth) (unite F.limits.maxValues ((F.definitions name).map f)) := by
  refine hJ.bind hJ.model ?_
  simp only [hundef, hb]
  exact hJ.bind (hJ.nameOf hname) (hJ.globalValues h)

section Binding

variable {b : Binding}

lemma bindingValues_local {declared rewritten : List String} (hbound : J _ (boundArgument? b) none)
    (hsort : b.sort.isLocal = true) (hdecl : J _ (declaredValues b depth) declared)
    (hrewr : J _ (rewrittenValues b depth) rewritten) :
    J _ (bindingValues b depth) (if declared.isEmpty then rewritten else declared) := by
  refine hJ.bind hbound ?_
  cases hb : b.sort with
  | var | lexical | constant | caught =>
    refine hJ.bind hdecl ?_
    simp only [isParam, hb]
    cases declared with
    | nil => exact hrewr
    | cons t rest => exact hJ.pure (t :: rest)
  | param | function | classDecl | imported =>
    rw [hb] at hsort
    cases hsort

lemma bindingValues_named (hbound : J _ (boundArgument? b) none) (hsort : b.sort.isLocal = true)
    (hkey : b.violations = [] → (b.initial.map f).getD [] = [] → b.key = none)
    (h : ∀ e ∈ b.initial.toList ++ b.violations.filterMap writtenValue?, J _ (ask (.values e none (depth + 1))) (f e)) :
    J _ (bindingValues b depth) (b.textsWith F.limits f) := by
  have hdecl : J _ (declaredValues b depth) (if b.violations.isEmpty then (b.initial.map f).getD [] else []) := by
    unfold declaredValues isConstant
    by_cases hconstant : b.violations.isEmpty = true
    · simp only [hconstant, if_true]
      refine hJ.bind (hJ.values fun e he => h e ?_) ?_
      · exact mem_append_left _ (Option.mem_toList.mpr he)
      · cases htexts : (b.initial.map f).getD [] with
        | nil =>
          simp only [hkey (List.isEmpty_iff.mp hconstant) htexts]
          exact hJ.pure []
        | cons t rest => exact hJ.pure (t :: rest)
    · simp only [hconstant]
      exact hJ.pure []
  have hrewr : J _ (rewrittenValues b depth)
      (if b.violations.isEmpty || F.limits.maxMutations < b.violations.length then [] else unite F.limits.maxValues
          ((b.initial.toList ++ b.violations.filterMap writtenValue?).map f)) := by
    refine hJ.bind hJ.limits ?_
    split
    · exact hJ.pure []
    · exact hJ.anyOf h
  have hvals := hJ.bindingValues_local hbound hsort hdecl hrewr
  unfold textsWith
  by_cases hconstant : b.violations.isEmpty = true
  · cases htexts : (b.initial.map f).getD [] <;> simpa [hconstant, htexts] using hvals
  · simpa [hconstant] using hvals

lemma bindingValues_picked {source : Node} {key : String} (hbound : J _ (boundArgument? b) none)
    (hsort : b.sort.isLocal = true) (hviols : b.violations = [])
    (hinit : ∀ e, b.initial = some e → J _ (ask (.values e none (depth + 1))) [])
    (hsrc : b.source = some source) (hkey : b.key = some key)
    (h : J _ (ask (.values source (some key) (depth + 1))) texts) : J _ (bindingValues b depth) texts := by
  have hdecl : J _ (declaredValues b depth) texts := by
    have hnil : J _ (Ask.values b.initial (depth + 1)) [] := by
      cases hb : b.initial with
      | none => exact hJ.pure []
      | some e => exact hinit e hb
    unfold declaredValues isConstant
    simp only [hviols, hkey, hsrc]
    exact hJ.bind hnil h
  have hrewr : J _ (rewrittenValues b depth) [] := by
    refine hJ.bind hJ.limits ?_
    simp only [hviols]
    exact hJ.pure []
  have hvals := hJ.bindingValues_local hbound hsort hdecl hrewr
  cases texts <;> exact hvals

lemma bindingValues_passed {passed : Passed} (hbound : J _ (boundArgument? b) (some (index, passed)))
    (hpass : J _ (underOuter index (ask (.values passed.argument passed.key (depth + 1)))) texts)
    (h : texts = [] → ∀ e, b.fallback = some e → J _ (ask (.values e none (depth + 1))) (f e)) :
    J _ (bindingValues b depth) (if texts.isEmpty then (b.fallback.map f).getD [] else texts) := by
  refine hJ.bind hbound (hJ.bind hpass ?_)
  cases texts with
  | nil => exact hJ.values (h rfl)
  | cons t rest => exact hJ.pure (t :: rest)

lemma bindingValues_declared (hbound : J _ (boundArgument? b) none)
    (hsort : b.sort = .function ∨ b.sort = .classDecl ∨ b.sort = .imported) : J _ (bindingValues b depth) [] := by
  refine hJ.bind hbound ?_
  rcases hsort with hsort | hsort | hsort
  · rw [hsort]
    exact hJ.pure []
  · rw [hsort]
    exact hJ.pure []
  · rw [hsort]
    exact hJ.pure []

end Binding

lemma globalMemberValues {global : String} (hglo : F.globalMember? n = some global)
    (h : ∀ e ∈ F.definitions global, J _ (ask (.values e none (depth + 1))) (f e)) :
    J _ (globalMemberValues n depth) (unite F.limits.maxValues ((F.definitions global).map f)) := by
  unfold globalMember? at hglo
  refine hJ.bind hJ.globals ?_
  rw [hglo]
  exact hJ.globalValues h

lemma globalMemberValues_nil (h : ∀ name, F.globalMember? n = some name → ∀ e ∈ F.definitions name,
      J _ (ask (.values e none (depth + 1))) []) : J _ (Ask.globalMemberValues n depth) [] := by
  cases hname : F.globalMember? n with
  | none =>
    unfold globalMember? at hname
    refine hJ.bind hJ.globals ?_
    rw [hname]
    exact hJ.pure []
  | some name =>
    have hvals := hJ.globalMemberValues (f := fun _ => []) hname (h name hname)
    have hnil : unite F.limits.maxValues ((F.definitions name).map fun _ => []) = [] := by
      rw [unite, flatten_eq_nil_iff.mpr (by simp)]
      rfl
    rwa [hnil] at hvals

lemma memberValues (hname : n.memberName? = some name) (hofGlobal : J _ (Ask.globalMemberValues n depth) [])
    (hlen : name ≠ "length") (hobj : n.child? .object = some object)
    (h : J _ (ask (.values object (some name) (depth + 1))) texts) : J _ (memberValues n depth) texts := by
  unfold Ask.memberValues
  simp only [hname]
  refine hJ.bind hofGlobal ?_
  simp only [isEmpty_nil, Bool.not_true, beq_iff_eq, hlen, if_false, hobj]
  exact h

section Property

variable {key : String}

lemma elementAt?_none (h : isDigits key = true → J _ (ask (.array object (depth + 1))) elements)
    (hbeyond : ∀ es, isDigits key = true → elements = some es →
      ∃ i, Number.numeral key = .ok i ∧ es[i.toNat]? = none) : J _ (elementAt? object key depth) none := by
  unfold elementAt?
  by_cases hdig : isDigits key = true
  · simp only [hdig]
    refine hJ.bind (h hdig) ?_
    cases elements with
    | none => exact hJ.pure none
    | some es =>
      obtain ⟨i, hi, hnone⟩ := hbeyond es hdig rfl
      simp only [hi, hnone]
      exact hJ.pure none
  · simp only [hdig]
    exact hJ.pure none

lemma elementAt? {elements : List Node} {i : Int} (hdig : isDigits key = true)
    (h : J _ (ask (.array object (depth + 1))) (some elements)) (hi : Number.numeral key = .ok i) :
    J _ (elementAt? object key depth) elements[i.toNat]? := by
  unfold Ask.elementAt?
  simp only [hdig]
  refine hJ.bind h ?_
  simp only [hi]
  exact hJ.pure _

lemma definedPropertyValues {value : Option Node} (hval : J _ (objectProperty (some object) key (depth + 1)) value)
    (h : ∀ e, value = some e → J _ (ask (.values e none (depth + 1))) (f e))
    (hassigned : (value.map f).getD [] = [] → ∀ e ∈ F.model.assignedMembers object key,
      J _ (ask (.values e none (depth + 1))) (f e)) : J _ (definedPropertyValues object key depth)
      (definedTexts F.limits f value (F.model.assignedMembers object key)) := by
  refine hJ.bind hval (hJ.bind (hJ.values h) ?_)
  unfold definedTexts
  cases htexts : (value.map f).getD [] with
  | nil => exact hJ.bind hJ.model (hJ.anyOf (hassigned htexts))
  | cons t rest => exact hJ.pure (t :: rest)

lemma originPropertyValues (h : F.isOriginless object = true) :
    J _ (originPropertyValues object (F.model.rootBinding? object) key depth) [] := by
  unfold isOriginless at h
  unfold Ask.originPropertyValues
  cases hb : F.model.rootBinding? object with
  | none =>
    rw [hb] at h
    simp only [bne_iff_ne] at h
    simp only [beq_iff_eq, h, if_false]
    exact hJ.pure []
  | some b =>
    rw [hb] at h
    simp only [Bool.and_eq_true, Bool.not_eq_true'] at h
    simp only [h.1]
    cases hinit : b.initial with
    | none => exact hJ.pure []
    | some value =>
      have hnew : (b.isConstant && value.kind == .newExpression) = false := by simpa [hinit] using h.2
      simp only [hnew]
      exact hJ.pure []

section

variable (hthis : object.kind ≠ .thisExpression)
  (hbound : J _ (boundOf? (F.model.rootBinding? object)) none)
include hthis hbound

lemma propertyValues (helem : J _ (Ask.elementAt? object key depth) none)
    (h : J _ (Ask.definedPropertyValues object key depth) texts) (horig : texts = [] → F.isOriginless object = true) :
    J _ (propertyValues object key depth) texts := by
  unfold Ask.propertyValues
  rw [if_neg (by simpa using hthis)]
  refine hJ.bind hJ.model (hJ.bind hbound (hJ.bind helem (hJ.bind h ?_)))
  cases texts with
  | nil => exact hJ.originPropertyValues (horig rfl)
  | cons t rest => exact hJ.pure (t :: rest)

end

end Property

section BuiltIn

variable {callee : Node} (hcal : n.child? .callee = some callee)
  (hret : J _ (returnedValues n depth) [])
include hcal hret

lemma callValues_global {e : Node} {g : String → String} (hfree : F.model.isUnbound callee = true)
    (hname : callee.name = some name) (hg : globalTransform? name = some g) (he : (n.list .arguments).head? = some e)
    (h : J _ (ask (.values e none (depth + 1))) texts) : J _ (callValues n depth) (texts.map g) := by
  refine hJ.bind hret ?_
  simp only [isEmpty_nil, Bool.not_true, hcal]
  refine hJ.bind hJ.model ?_
  simp only [hfree, if_true, hname, Option.getD_some]
  obtain ⟨rest, hrest⟩ : ∃ rest, n.list .arguments = e :: rest := List.head?_eq_some_iff.mp he
  simp only [globalCallValues, hrest]
  unfold globalTransform? at hg
  split at hg
  next hstring =>
    cases hg
    simp only [hstring, if_true, map_id]
    exact h
  next hstring =>
    obtain ⟨safe, hsafe, rfl⟩ := Option.map_eq_some_iff.mp hg
    simp only [hstring, hsafe]
    exact hJ.bind h (hJ.pure _)

lemma callValues_method (hname : callee.memberName? = some name)
    (h : J _ (methodCallValues name (callee.child? .object) (n.list .arguments) depth) texts) :
    J _ (callValues n depth) texts := by
  have hfree : F.model.isUnbound callee = false := by
    have hkind : callee.kind = .memberExpression := by
      unfold memberName? at hname
      split at hname
      next hkind => exact eq_of_beq hkind
      · cases hname
    simp [Model.isUnbound, hkind]
  refine hJ.bind hret ?_
  simp only [isEmpty_nil, Bool.not_true, hcal]
  refine hJ.bind hJ.model ?_
  simp only [hfree, hname]
  exact h

end BuiltIn

section Method

variable {receiver : Node} {arguments : List Node}

lemma replacedValues {receiver : Option Node} (pattern replacement : Node) (everywhere : Bool)
    (h : ∀ e, receiver = some e → J _ (ask (.values e none (depth + 1))) (f e)) :
    J _ (replacedValues receiver pattern replacement everywhere depth)
      (replacedTexts pattern replacement everywhere ((receiver.map f).getD [])) := by
  unfold Ask.replacedValues replacedTexts
  refine hJ.bind (hJ.values h) ?_
  cases pattern.literalText? with
  | none => exact hJ.pure _
  | some p =>
    cases replacement.literalText? with
    | none => exact hJ.pure _
    | some new => exact hJ.pure _

lemma methodCallValues_effect {receiver : Option Node} {g : List String → List String}
    (hg : methodEffect? name arguments = some g)
    (h : ∀ e, receiver = some e → J _ (ask (.values e none (depth + 1))) (f e)) :
    J _ (methodCallValues name receiver arguments depth) (g ((receiver.map f).getD [])) := by
  have hvals := hJ.values h
  unfold methodEffect? at hg
  unfold methodCallValues
  cases htransform : stringTransform? name with
  | some transform =>
    simp only [htransform, Option.some.injEq] at hg
    subst hg
    exact hJ.bind hvals (hJ.pure _)
  | none =>
    simp only [htransform] at hg
    split at hg
    · cases hg
      exact hJ.replacedValues _ _ false h
    · cases hg
      exact hJ.replacedValues _ _ true h
    case h_6 => cases hg
    all_goals
      obtain ⟨bounds, hbounds, rfl⟩ := Option.map_eq_some_iff.mp hg
      simp only [hbounds]
      exact hJ.bind hvals (hJ.pure _)

lemma globalCallValues_silent (h : globalTransform? name = none ∨ arguments = []) :
    J _ (globalCallValues name arguments depth) [] := by
  unfold globalCallValues
  cases arguments with
  | nil => exact hJ.pure []
  | cons a rest =>
    obtain h | h := h
    · unfold globalTransform? at h
      split at h
      · cases h
      next hstring =>
        simp only [hstring, Option.map_eq_none_iff.mp h]
        exact hJ.pure []
    · cases h

lemma methodCallValues_silent {receiver : Option Node} (h : silentMethod name receiver arguments = true) :
    J _ (methodCallValues name receiver arguments depth) [] := by
  simp only [silentMethod, Bool.and_eq_true, Bool.or_eq_true, Option.isNone_iff_eq_none, bne_iff_ne] at h
  obtain ⟨⟨hg, hjoin⟩, hconcat⟩ := h
  unfold methodEffect? at hg
  unfold methodCallValues
  cases htransform : stringTransform? name with
  | some transform => simp [htransform] at hg
  | none =>
    dsimp only
    split
    · cases hg
    · cases hg
    case h_6 =>
      obtain hconcat | harray := hconcat
      · contradiction
      · simp only [harray, if_true]
        exact hJ.pure []
    case h_7 => contradiction
    case h_8 => exact hJ.pure []
    all_goals
      simp only [Option.map_eq_none_iff.mp hg]
      exact hJ.pure []

lemma methodCallValues_concat (hrecv : receiver.kind ≠ .arrayExpression)
    (h : ∀ e ∈ receiver :: arguments, J _ (ask (.values e none (depth + 1))) (f e)) :
    J _ (methodCallValues "concat" (some receiver) arguments depth)
      (concatTexts F.limits.maxValues ((receiver :: arguments).map f)) := by
  have harray : (some receiver).any (·.kind == .arrayExpression) = false := by simpa using hrecv
  simp only [methodCallValues, stringTransform?, harray]
  exact hJ.concatenated h

lemma methodCallValues_join {elements : List Node} {separator : String}
    (helems : J _ (ask (.array receiver (depth + 1))) (some elements))
    (hseparator : joinSeparator? arguments = some separator)
    (h : ∀ e ∈ elements, J _ (ask (.values e none (depth + 1))) (f e)) :
    J _ (methodCallValues "join" (some receiver) arguments depth)
      (separatedTexts F.limits.maxValues separator (elements.map f)) := by
  refine hJ.bind helems ?_
  cases arguments
  case' nil => cases hseparator
  case' cons a rest =>
    have hlit : a.literalText? = some separator := hseparator
    simp only [hlit]
  all_goals
    refine hJ.bind (hJ.columns h) ?_
    unfold separatedTexts
    by_cases hempty : (elements.map f).any List.isEmpty = true
    · simp only [hempty, if_true]
      exact hJ.pure []
    · simp only [hempty]
      cases htexts : elements.map f with
      | nil => exact hJ.pure [""]
      | cons first rest =>
        rw [htexts] at hempty
        exact hJ.zip (any_isEmpty_intersperse _ (Bool.eq_false_iff.mpr hempty))

lemma methodCallValues_join_nil (helems : J _ (ask (.array receiver (depth + 1))) elements)
    (h : elements = none ∨ joinSeparator? arguments = none) :
    J _ (methodCallValues "join" (some receiver) arguments depth) [] := by
  refine hJ.bind helems ?_
  cases elements with
  | none => exact hJ.pure []
  | some es =>
    obtain h | h := h
    · cases h
    · cases arguments with
      | nil => cases h
      | cons a rest =>
        have hlit : a.literalText? = none := h
        simp only [hlit]
        exact hJ.pure []

end Method

lemma callValues_silent (hret : J _ (returnedValues n depth) [])
    (h : n.isSilentCall F.model = true) : J _ (callValues n depth) [] := by
  unfold isSilentCall at h
  refine hJ.bind hret ?_
  cases hcal : n.child? .callee with
  | none => exact hJ.pure []
  | some callee =>
    simp only [hcal] at h
    refine hJ.bind hJ.model ?_
    by_cases hfree : F.model.isUnbound callee = true
    · simp only [hfree, if_true, Bool.or_eq_true, Option.isNone_iff_eq_none, List.isEmpty_iff] at h ⊢
      exact hJ.globalCallValues_silent h
    · simp only [hfree] at h ⊢
      cases hname : callee.memberName? with
      | none => exact hJ.pure []
      | some name =>
        simp only [hname] at h
        exact hJ.methodCallValues_silent h

lemma mergeFunctions (groups : List (List Node)) :
    J _ (mergeFunctions groups) (mergedFunctions F.limits groups) := hJ.bind hJ.limits (hJ.pure _)

section Functions

variable {g : Node → List Node}

lemma functionsOfAny {nodes : List Node} (h : ∀ e ∈ nodes, J _ (ask (.functions e depth)) (g e)) :
    J _ (functionsOfAny nodes depth) (mergedFunctions F.limits (nodes.map g)) :=
  hJ.bind (hJ.mapM h) (hJ.mergeFunctions _)

lemma identifierFunctions_global (hb : F.model.binding? n = none) (hname : n.name = some name)
    (h : ∀ e ∈ F.definitions name, J _ (ask (.functions e (depth + 1))) (g e)) :
    J _ (identifierFunctions n depth) (mergedFunctions F.limits ((F.definitions name).map g)) := by
  refine hJ.bind hJ.facts ?_
  simp only [hb]
  unfold definitions at h ⊢
  cases hg : F.globals with
  | none =>
    have hnil : mergedFunctions F.limits [] = [] := take_nil
    simp only [Option.map_none, Option.getD_none, map_nil, hnil]
    exact hJ.pure []
  | some globals =>
    simp only [hg, Option.map_some, Option.getD_some] at h ⊢
    exact hJ.bind (hJ.nameOf hname) (hJ.functionsOfAny h)

end Functions

lemma literalProperties (hspread : ∀ p ∈ n.list .properties, p.kind.isSpreadProperty = true →
      J _ (Ask.object (p.child? .argument) (depth + 1)) none)
    (h : ∀ p ∈ n.list .properties, p.propertyKey? = none → p.computed = true →
      ∀ e, p.child? .key = some e → J _ (ask (.values e none (depth + 1))) (f e)) :
    J Shape ((n.list .properties).foldlM (fun shape p => addProperty shape p depth)
      { origin := some n }) (n.shapeWith f) := by
  let step (shape : Shape) (p : Node) : Shape :=
    { shape with properties := enterWith f shape.properties p }
  have hstep (shape : Shape) (p : Node) (hp : p ∈ n.list .properties) :
      J Shape (addProperty shape p depth) (step shape p) := by
    unfold addProperty
    dsimp only [step, enterWith]
    by_cases hkind : p.kind.isSpreadProperty = true
    · simp only [hkind, if_true]
      exact hJ.bind (hspread p hp hkind) (hJ.pure shape)
    · simp only [hkind]
      cases p.child? .value with
      | none => exact hJ.pure shape
      | some value =>
        cases hname : p.propertyKey? with
        | some key => exact hJ.pure _
        | none =>
          by_cases hcomp : p.computed = true
          · simp only [hcomp, if_true]
            exact hJ.bind (hJ.values (h p hp hname hcomp)) (hJ.pure _)
          · simp only [hcomp]
            exact hJ.pure shape
  have hshape (ps : List Node) (t : Table String Node) :
      ps.foldl step ⟨t, some n⟩ = ⟨ps.foldl (enterWith f) t, some n⟩ := by
    induction ps generalizing t with
    | nil => rfl
    | cons p rest ih => exact ih _
  have hfold := hJ.foldlM (a := { origin := some n }) hstep
  rw [hshape] at hfold
  exact hfold

lemma plainProperties (hplain : n.isPlainObject = true) :
    J Shape ((n.list .properties).foldlM (fun shape p => addProperty shape p depth)
      { origin := some n }) n.plainShape := by
  rw [← shapeWith_of_isPlainObject hplain fun _ => []]
  have hprop := property_of_plain hplain
  refine hJ.literalProperties (fun p hp hspread => ?_) fun p hp hname hcomp => ?_
  · rw [(hprop p hp).1] at hspread
    cases hspread
  · rw [(hprop p hp).2 hname] at hcomp
    cases hcomp

end Engine.Judges

end ScriptAudit
