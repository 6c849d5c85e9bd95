import ScriptAudit.Proofs.Resolve.Bound
import ScriptAudit.Proofs.Resolve.StringExpr

/-!
# String expressions over parameters

Putting arguments in place of the parameters makes a string expression of what a function returns.
-/

namespace ScriptAudit

open List ScriptAudit.Frame
/-- A string expression over the parameters of a function, which are known by their positions. -/
inductive StringTerm where
  | literal (text : String)
  | gap (text : String) (t rest : StringTerm)
  | plus (left right : StringTerm)
  | choice (left right : StringTerm)
  | last (right : StringTerm)
  | named (initial : StringTerm)
  | param (i : Nat)

namespace StringTerm

def ofTemplate : List String → List StringTerm → StringTerm
  | text :: texts, t :: ts => gap text t (ofTemplate texts ts)
  | texts, _ => literal (String.join texts)

def subst (args : List StringExpr) : StringTerm → StringExpr
  | literal text => .literal text
  | gap text t rest => .gap text (t.subst args) (rest.subst args)
  | plus left right => .plus (left.subst args) (right.subst args)
  | choice left right => .choice (left.subst args) (right.subst args)
  | last right => .last (right.subst args)
  | named initial => .named (initial.subst args)
  | param i => .named (args.getD i (.literal ""))

lemma subst_ofTemplate (args : List StringExpr) (texts : List String) (ts : List StringTerm) :
    (ofTemplate texts ts).subst args = .ofTemplate texts (ts.map (subst args)) := by
  induction texts generalizing ts with
  | nil => rfl
  | cons text texts ih =>
    cases ts with
    | nil => rfl
    | cons t ts => rw [ofTemplate, subst, ih, map_cons, StringExpr.ofTemplate]

end StringTerm

/-- The node `n` is the string expression `t` over the parameters of `f`. -/
inductive Model.ExpressesIn (m : Model) (f : Node) : Node → StringTerm → Prop
  | literal {n : Node} {text} : n.literalText? = some text → ExpressesIn m f n (.literal text)
  | template {n : Node} (g : Node → StringTerm) : n.kind = .templateLiteral →
      (n.list .expressions).length < (n.list .quasis).length → (∀ k ∈ n.list .expressions, ExpressesIn m f k (g k)) →
      ExpressesIn m f n (.ofTemplate ((n.list .quasis).map Node.cookedText) ((n.list .expressions).map g))
  | plus {n l r : Node} {a b : StringTerm} : n.kind = .binaryExpression → n.operator = "+" → n.child? .left = some l →
      n.child? .right = some r → ExpressesIn m f l a → ExpressesIn m f r b → ExpressesIn m f n (.plus a b)
  | conditional {n l r : Node} {a b : StringTerm} : n.kind = .conditionalExpression → n.child? .consequent = some l →
      n.child? .alternate = some r → ExpressesIn m f l a → ExpressesIn m f r b → ExpressesIn m f n (.choice a b)
  | either {n l r : Node} {a b : StringTerm} : n.kind = .logicalExpression →
      n.operator = "||" ∨ n.operator = "??" → n.child? .left = some l → n.child? .right = some r →
      ExpressesIn m f l a → ExpressesIn m f r b → ExpressesIn m f n (.choice a b)
  | both {n r : Node} {b : StringTerm} : n.kind = .logicalExpression → n.operator = "&&" →
      n.child? .right = some r → ExpressesIn m f r b → ExpressesIn m f n (.last b)
  | named {n init : Node} {b : Binding} {t} : n.kind = .identifier → m.binding? n = some b →
      b.sort.isVariable = true → b.violations = [] → b.initial = some init → ExpressesIn m f init t →
      ExpressesIn m f n (.named t)
  | param {n p : Node} {b : Binding} {i} : n.kind = .identifier → m.binding? n = some b → b ∈ m.paramsOf f →
      b.DeclaredBy f i ⟨p, {}⟩ → ExpressesIn m f n (.param i)

def Binding.holding (b : Binding) : Option Passed → Binding
  | some ⟨argument, none⟩ => { b with sort := .var, initial := some argument, violations := [] }
  | _ => b

def Model.holding (m : Model) (frame : Frame) : Model :=
  { m with bindings := m.bindings.map fun b => b.holding (frame.arguments.lookup b.uid) }

def Facts.holding (F : Facts) (frame : Frame) : Facts :=
  { F with model := F.model.holding frame }

variable {F : Facts} {m : Model} {frame : Frame} {n f call : Node} {b : Binding} {e : StringExpr}

lemma Model.binding?_holding (m : Model) (frame : Frame) (n : Node) :
    (m.holding frame).binding? n = (m.binding? n).map fun b => b.holding (frame.arguments.lookup b.uid) := by
  cases h : m.bound.get? n <;> simp [binding?, holding, h]

/-- A frame binds no variables, and what it binds to parameters are closed expressions. -/
structure Frame.IsClosed (frame : Frame) (m : Model) : Prop where
  spares : ∀ n b, m.binding? n = some b → b.sort.isVariable = true → frame.arguments.lookup b.uid = none
  closed : ∀ u passed, frame.arguments.lookup u = some passed →
    m.root.Below passed.argument ∧ ∃ e, m.Expresses passed.argument e

lemma Model.binding?_variable (hframe : frame.IsClosed m) (hb : m.binding? n = some b)
    (hsort : b.sort.isVariable = true) : (m.holding frame).binding? n = some b := by
  rw [binding?_holding, hb, Option.map_some, hframe.spares n b hb hsort]
  rfl

lemma Model.Expresses.holding (hframe : frame.IsClosed m) (h : m.Expresses n e) : (m.holding frame).Expresses n e := by
  induction h with
  | template g hk hlen _ ih => exact .template g hk hlen ih
  | either hk hop hl hr _ _ iha ihb => exact .either hk hop hl hr iha ihb
  | named hk hb hsort hviols hinit _ ih =>
    exact .named hk (binding?_variable hframe hb hsort) hsort hviols hinit ih
  | _ => constructor <;> assumption

/-- A frame binds plain parameters to arguments that are the given expressions. -/
structure Frame.Passes (frame : Frame) (m : Model) (f : Node) (args : List StringExpr) : Prop
    extends frame.IsClosed m where
  argument : ∀ b i p, b ∈ m.paramsOf f → b.DeclaredBy f i ⟨p, {}⟩ → ∃ k e,
    frame.arguments.lookup b.uid = some ⟨k, none⟩ ∧ args[i]? = some e ∧ m.Expresses k e

lemma Model.ExpressesIn.holding {args : List StringExpr} {t : StringTerm} (hpas : frame.Passes m f args)
    (h : m.ExpressesIn f n t) : (m.holding frame).Expresses n (t.subst args) := by
  induction h with
  | template g hk hlen _ ih =>
    rw [StringTerm.subst_ofTemplate, map_map]
    exact .template _ hk hlen ih
  | either hk hop hl hr _ _ iha ihb => exact .either hk hop hl hr iha ihb
  | named hk hb hsort hviols hinit _ ih =>
    exact .named hk (binding?_variable hpas.toIsClosed hb hsort) hsort hviols hinit ih
  | @param n p b i hk hb hparam hdecl =>
    obtain ⟨k, e, hlook, harg, he⟩ := hpas.argument b i p hparam hdecl
    have hheld : (m.holding frame).binding? n = some (b.holding (some ⟨k, none⟩)) := by
      rw [binding?_holding, hb, Option.map_some, hlook]
    rw [StringTerm.subst, getD_eq_getElem?_getD, harg]
    exact .named hk hheld rfl rfl rfl (he.holding hpas.toIsClosed)
  | _ => constructor <;> assumption

lemma Model.Expresses.kind_ne_spread (h : m.Expresses n e) : n.kind ≠ .spreadElement := by
  cases h with
  | literal htext => simp [Node.kind_of_literalText? htext]
  | template _ hk | plus hk | conditional hk | either hk | both hk | named hk => simp [hk]

lemma Facts.Describes.passes {root : Node} (hroot : root.WellNumbered) (hF : F.Describes root) (hf : F.Has f)
    (hcall : F.Has call) {args : List StringExpr} (hargs : List.Forall₂ F.model.Expresses (call.list .arguments) args)
    (hcover : (f.list .params).length ≤ args.length) : (ofCall F.model f call 0).Passes F.model f args := by
  obtain ⟨source, isModule, hm⟩ := hF.model
  have hbelow : root.Below f := hF.root_eq ▸ hf
  have hexpr {j : Nat} (hj : j < (call.list .arguments).length) :
      ∃ e, args[j]? = some e ∧ F.model.Expresses (call.list .arguments)[j] e :=
    ⟨_, List.getElem?_eq_getElem (hargs.length_eq ▸ hj), hargs.get hj _⟩
  refine ⟨⟨fun n b hb hsort => ?_, fun u passed hlook => ?_⟩, fun b i p hb hdecl => ?_⟩
  · cases hlook : (ofCall F.model f call 0).arguments.lookup b.uid with
    | none => rfl
    | some passed =>
      obtain ⟨c, hparam, huid, -⟩ := exists_of_lookup_ofCall hlook
      obtain rfl := hF.eq_of_uid hb hparam huid
      obtain ⟨i, t, hdecl⟩ := Model.declaredBy_params hroot hm hbelow hparam
      rw [hdecl.sort] at hsort
      cases hsort
  · obtain ⟨pre, after, hsplit, -⟩ := lookup_eq_some_iff.mp hlook
    have hmem : (u, passed) ∈ (ofCall F.model f call 0).arguments := by
      rw [hsplit]
      exact mem_append_right _ mem_cons_self
    have harg := mem_arguments_of_mem hmem
    obtain ⟨j, hj, heq⟩ := getElem_of_mem harg
    obtain ⟨e, -, he⟩ := hexpr hj
    exact ⟨hcall.mem_list harg, e, heq ▸ he⟩
  · obtain ⟨pattern, hpos, -⟩ := hdecl.pattern
    have hi : i < (call.list .arguments).length := by
      rw [hargs.length_eq]
      exact Nat.lt_of_lt_of_le (List.getElem?_eq_some_iff.mp hpos).1 hcover
    obtain ⟨e, harg, he⟩ := hexpr hi
    refine ⟨(call.list .arguments)[i], e, ?_, harg, he⟩
    apply lookup_ofCall hb fun c hc => hF.eq_of_mem_paramsOf hb hc
    -- No argument is spread, as all are expressions.
    have hplain : hidesPosition (call.list .arguments) i = false := by
      rw [hidesPosition, any_eq_false]
      intro a ha
      obtain ⟨j, hj, rfl⟩ := getElem_of_mem (mem_of_mem_take ha)
      obtain ⟨e, -, he⟩ := hexpr hj
      simpa using he.kind_ne_spread
    simp [passed?, hdecl.rest, hdecl.key, hdecl.paramIndex, hplain, hi]

section Settled

variable (hsound : F.Sound) (huniq : F.Unique) (hcap : 0 < F.limits.maxValues) (hframe : frame.IsClosed F.model)

include hframe in
lemma Facts.named_holding {b : Binding} {init : Node} (hb : (F.model.holding frame).binding? n = some b)
    (hsort : b.sort.isVariable = true) (hviols : b.violations = []) (hinit : b.initial = some init) :
    (∃ c, F.model.binding? n = some c ∧ frame.arguments.lookup c.uid = some ⟨init, none⟩) ∨
      F.model.binding? n = some b ∧ frame.arguments.lookup b.uid = none := by
  rw [Model.binding?_holding, Option.map_eq_some_iff] at hb
  obtain ⟨c, hc, rfl⟩ := hb
  cases hlook : frame.arguments.lookup c.uid with
  | none => exact .inr ⟨hc, hlook⟩
  | some passed =>
    obtain ⟨argument, key⟩ := passed
    cases key with
    | none =>
      simp only [hlook, Binding.holding, Option.some.injEq] at hinit
      exact .inl ⟨c, hc, hinit ▸ hlook⟩
    | some key =>
      simp only [hlook, Binding.holding] at hsort
      rw [hframe.spares n c hc hsort] at hlook
      cases hlook

include hsound huniq hcap hframe in
lemma Model.Expresses.hasTexts_holding (hn : F.Has n) (h : (F.model.holding frame).Expresses n e) :
    F.HasTexts [frame] n (e.value F.limits.maxValues) := by
  refine h.hasTexts_under huniq hcap (fun {n init b e} hk hb hsort hviols hinit he hinitial => ?_) hn
  have hne : e.value F.limits.maxValues ≠ [] := e.value_ne_nil hcap
  rcases Facts.named_holding hframe hb hsort hviols hinit with ⟨c, hc, hlook⟩ | ⟨hb, hlook⟩
  · -- The argument is a closed expression and is resolved outside of the call.
    obtain ⟨hbelow, e', he'⟩ := hframe.closed _ _ hlook
    obtain rfl := (he'.holding hframe).unique he
    have hbound : bound? [frame] c = some (0, ⟨init, none⟩) := by
      rw [bound?_singleton, hlook, Option.map_some]
    have hpass : F.HasTexts [frame] n _ := .passed (fun _ => []) hk hc hbound
      (fun _ => he'.hasTexts hsound huniq hcap hbelow) (fun _ hkey => by cases hkey) fun hnil => absurd hnil hne
    rwa [if_neg (by simpa using hne)] at hpass
  · have hbound : bound? [frame] b = none := by rw [bound?_singleton, hlook, Option.map_none]
    exact .of_initial hk hb hbound hsort hviols hinit hne (hinitial ((hsound.model.binding? hb).initial _ hinit))

end Settled

end ScriptAudit
