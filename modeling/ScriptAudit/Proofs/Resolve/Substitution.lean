import ScriptAudit.Proofs.Resolve.StringResolution
import ScriptAudit.Proofs.Resolve.StringTerm

/-!
# Calls resolve by substitution

A call of a function that returns a string expression over its parameters resolves to the value of
that expression with the arguments in place of the parameters.
-/

namespace ScriptAudit

open Ask Engine Facts List Node ScriptAudit.Frame

variable {F : Facts} {α : Type} {n f call callee : Node} {e : StringExpr} {depth : Nat} {opened : List Key}
  {frames : List Frame} {frame : Frame}

namespace Engine

variable {x : Engine α} {a : α}

lemma settles_isBound (function : Node) :
    (isBound function).Settles F frames opened (frames.any (·.function == function)) := by
  intro s hs
  refine ⟨s, ?_, hs, rfl, rfl⟩
  rw [← hs.frames]
  exact .bind (.session s) (evaluates_pure _)

lemma settles_underOuter {index : Nat} (h : x.Settles F (frames.take index) opened a) :
    (underOuter index x).Settles F frames opened a := by
  intro s hs
  have houter : Session.Calm F (frames.take index) opened { s with frames := s.frames.take index } :=
    ⟨⟨hs.within.memory, fun g hg => hs.within.frames g (mem_of_mem_take hg)⟩, hs.faithful,
      congrArg (List.take index) hs.frames, hs.visited⟩
  obtain ⟨t, heval, ht, huncut⟩ := h _ houter
  have hframes : t.frames ++ s.frames.drop index = s.frames := by rw [ht.frames, ← hs.frames, take_append_drop]
  refine ⟨_, .underOuter heval, ⟨⟨ht.within.memory, ?_⟩, ht.faithful, hframes.trans hs.frames, ht.visited⟩, huncut⟩
  intro g hg
  exact hs.within.frames g (hframes ▸ hg)

lemma settles_withCall {offset : Nat} (hcall : F.Has call)
    (h : x.Settles F (frames ++ [ofCall F.model f call offset]) opened a) :
    (withCall f call offset x).Settles F frames opened a := by
  intro s hs
  have hwithin := within_ofCall hcall F.model f offset
  have hinner : Session.Calm F (frames ++ [ofCall F.model f call offset]) opened
      { s with frames := s.frames ++ [ofCall F.model f call offset] } := by
    refine ⟨⟨hs.within.memory, fun g hg => ?_⟩, hs.faithful, congrArg (· ++ _) hs.frames, hs.visited⟩
    rcases mem_append.mp hg with hg | hg
    · exact hs.within.frames g hg
    · exact mem_singleton.mp hg ▸ hwithin
  obtain ⟨t, heval, ht, huncut⟩ := h _ hinner
  have hframes : t.frames.dropLast = s.frames := by rw [ht.frames, dropLast_concat, hs.frames]
  refine ⟨_, .bind (.andThen (.facts s) (.done _ s)) (.underFrame heval), ?_, huncut⟩
  exact ⟨⟨ht.within.memory, fun g hg => hs.within.frames g (hframes ▸ hg)⟩, ht.faithful,
    hframes.trans hs.frames, ht.visited⟩

end Engine

section Resolution

variable (hsound : F.Sound) (huniq : F.Unique) (hcap : 0 < F.limits.maxValues) (hframe : frame.IsClosed F.model)

include hframe in
lemma Facts.Larger.of_holding (h : (F.holding frame).Larger opened e) : F.Larger opened e :=
  fun k e' hopen hk he' => h k e' hopen hk (he'.holding hframe)

include hsound huniq hcap hframe in
lemma Model.Expresses.settles_under (hn : F.Has n) (h : (F.model.holding frame).Expresses n e)
    (hd : depth + e.levels false ≤ F.limits.maxDepth + 1) (hopen : (F.holding frame).Larger opened e) :
    (ask (.values n none depth)).Settles F [frame] opened (e.value F.limits.maxValues) := by
  refine h.settles_of_named (m := F.model.holding frame) hsound huniq .rfl hcap (fun hframes => by cases hframes)
    (fun {n init b e depth opened} hb hsort hviols hinit he hd hopen hinitial => ?_) hn hd hopen
  have hne : e.value F.limits.maxValues ≠ [] := e.value_ne_nil hcap
  rcases named_holding hframe hb hsort hviols hinit with ⟨c, hc, hlook⟩ | ⟨hb, hlook⟩
  · -- The argument is a closed expression and is resolved outside of the call.
    obtain ⟨hbelow, e', he'⟩ := hframe.closed _ _ hlook
    obtain rfl := (he'.holding hframe).unique he
    have houter : (ask (.values init none (depth + 1))).Settles F [] opened _ :=
      he'.settles hsound huniq hcap hbelow hd (.of_holding hframe hopen)
    have harg : (boundArgument? c).Settles F [frame] opened (some (0, ⟨init, none⟩)) := by
      rw [← Option.map_some (f := (0, ·)), ← hlook, ← bound?_singleton]
      exact settles_bound c
    have hpass : (bindingValues c depth).Settles F [frame] opened _ :=
      settling.bindingValues_passed (f := fun _ => []) harg
        (settles_underOuter houter) fun hnil => absurd hnil hne
    rw [if_neg (by simpa using hne)] at hpass
    exact settling.identifierValues hc hpass
  · have hbound : bound? [frame] b = none := by rw [bound?_singleton, hlook, Option.map_none]
    exact settles_identifierValues hb hbound hsort hviols hinit hne
      (hinitial ((hsound.model.binding? hb).initial _ hinit))

end Resolution

/-- The name `n` stands for the function `f`, by a declaration of the function or as a variable that
keeps it. -/
inductive Model.NamesFunction (m : Model) (n f : Node) : Nat → Prop
  | declared {b} : n.kind = .identifier → m.binding? n = some b → b.sort = .function → b.initial = some f →
      NamesFunction m n f 0
  | held {b} : n.kind = .identifier → m.binding? n = some b → b.sort.isVariable = true → b.violations = [] →
      b.initial = some f → NamesFunction m n f 1

lemma Ask.functionsRule_of_isFunction (hf : f.kind.isFunction = true) (depth : Nat) :
    functionsRule f depth = some (pure [f]) := by
  rcases Build.isFunction_iff.mp hf with hk | hk | hk <;> simp only [functionsRule, hk]

lemma mergedFunctions_singleton {limits : Limits} (hcallers : 0 < limits.maxCallers) (f : Node) :
    mergedFunctions limits [[f]] = [f] := by
  have hdist : distinct [f] = [f] := rfl
  rw [mergedFunctions, flatten_singleton, hdist]
  exact take_of_length_le hcallers

namespace Model.NamesFunction

variable {below : Nat} (hcallers : 0 < F.limits.maxCallers) (hf : f.kind.isFunction = true)

lemma kind_eq (h : F.model.NamesFunction n f below) : n.kind = .identifier := by
  cases h with
  | declared hk | held hk => exact hk

include hcallers hf in
lemma hasFunctions (h : F.model.NamesFunction n f below) : F.HasFunctions [] n [f] := by
  cases h with
  | @declared b hk hb hsort hinit =>
    have hfuns : F.HasFunctions [] n b.initial.toList := .declared hk hb rfl (.inl hsort)
    rwa [hinit] at hfuns
  | @held b hk hb hsort hviols hinit =>
    have hvals : b.functionValues F.limits = [f] := by
      simp [Binding.functionValues, Binding.functionWrites, hinit, hviols]
    have hfuns : F.HasFunctions [] n (mergedFunctions F.limits ((b.functionValues F.limits).map fun k => [k])) := by
      refine .named _ hk hb rfl ?_ ?_ ?_ (fun hnone => ?_) fun k hk => ?_
      · exact Binding.isParam_of_isLocal (BindingSort.isLocal_of_isVariable hsort)
      · rintro hfun
        rw [hfun] at hsort
        cases hsort
      · rintro hclass
        rw [hclass] at hsort
        cases hsort
      · rw [hinit] at hnone
        cases hnone
      · rw [hvals, mem_singleton] at hk
        exact hk ▸ .itself (functionsRule_of_isFunction hf)
    rwa [hvals, map_singleton, mergedFunctions_singleton hcallers] at hfuns

include hcallers hf in
lemma settles (hsound : F.Sound) (huniq : F.Unique) (h : F.model.NamesFunction n f below) (hn : F.Has n)
    (hd : depth + below ≤ F.limits.maxDepth)
    (hopen : ∀ k ∈ opened, k.topic ≠ .functions) : (ask (.functions n depth)).Settles F [] opened [f] := by
  have hfresh (k : Node) : (⟨.functions, k.ident, none⟩ : Key) ∉ opened := fun hmem => hopen _ hmem rfl
  have hk := h.kind_eq
  have hrule : functionsRule n depth = some (identifierFunctions n depth) := by
    simp only [functionsRule, hk]
  refine settles_askFunctions hsound huniq hn (h.hasFunctions hcallers hf) hrule (by omega) (hfresh n) ?_
  cases h with
  | @declared b _ hb hsort hinit =>
    refine settling.bind settling.facts ?_
    simp only [hb]
    refine settling.bind (b := none) (settles_bound b) ?_
    simp only [hsort, hinit]
    exact settling.pure [f]
  | @held b _ hb hsort hviols hinit =>
    have hf' : F.Has f := (hsound.model.binding? hb).initial f hinit
    have hne : f.ident ≠ n.ident := by
      intro heq
      obtain rfl := huniq f n hf' hn heq
      rw [hk] at hf
      cases hf
    have hval : (ask (.functions f (depth + 1))).Settles F [] (⟨.functions, n.ident, none⟩ :: opened) [f] := by
      have hitself := functionsRule_of_isFunction hf
      refine settles_askFunctions hsound huniq hf' (.itself hitself) (hitself _) (by omega) ?_
        (settling.pure [f])
      simpa [hne] using hfresh f
    have hdecl : (declaredFunctions b depth).Settles F [] (⟨.functions, n.ident, none⟩ :: opened) [[f]] := by
      unfold declaredFunctions
      rw [hinit]
      exact settling.bind hval (settling.pure _)
    have hbind : (bindingFunctions b depth).Settles F [] (⟨.functions, n.ident, none⟩ :: opened) [f] := by
      refine settling.bind hdecl (settling.bind settling.limits ?_)
      have hmerged : (mergeFunctions [[f]]).Settles F [] (⟨.functions, n.ident, none⟩ :: opened)
          (mergedFunctions F.limits [[f]]) := settling.mergeFunctions [[f]]
      rw [mergedFunctions_singleton hcallers] at hmerged
      refine settling.bind (a := [f]) (b := []) ?_ ?_
      · simp only [hviols]
        exact settling.pure []
      · simpa using hmerged
    refine settling.bind settling.facts ?_
    simp only [hb]
    refine settling.bind (b := none) (settles_bound b) ?_
    cases hb' : b.sort <;> simp only [hb', BindingSort.isVariable] at hsort <;> first
      | exact hbind
      | cases hsort

end Model.NamesFunction

/-- The call calls by its name the function `f`, which returns just `r`, the string expression `t`
over its parameters, with the closed expressions `args` as arguments, at least one for each
parameter. -/
structure Facts.Applies (F : Facts) (call f r : Node) (t : StringTerm) (args : List StringExpr)
    (below : Nat) : Prop where
  has : F.Has call
  kind : call.kind = .callExpression
  callee : ∃ callee, call.child? .callee = some callee ∧ F.model.NamesFunction callee f below
  function : f.kind.isFunction = true
  returns : Model.returnsOf f = [r]
  returned : F.model.ExpressesIn f r t
  arguments : List.Forall₂ F.model.Expresses (call.list .arguments) args
  covered : (f.list .params).length ≤ args.length

lemma Ask.callableOf?_of_isFunction (hf : f.kind.isFunction = true) : callableOf? f = some f := by
  rcases Build.isFunction_iff.mp hf with hk | hk | hk <;> simp [callableOf?, hk, Kind.isClass, Kind.isFunction]

namespace Facts.Applies

variable {r : Node} {t : StringTerm} {args : List StringExpr} {below : Nat} {root : Node}

lemma has_function (hsound : F.Sound) (h : F.Applies call f r t args below) : F.Has f := by
  obtain ⟨callee, -, hnames⟩ := h.callee
  cases hnames with
  | declared _ hb _ hinit => exact (hsound.model.binding? hb).initial f hinit
  | held _ hb _ _ hinit => exact (hsound.model.binding? hb).initial f hinit

lemma has_returned (hsound : F.Sound) (h : F.Applies call f r t args below) : F.Has r :=
  Model.below_of_mem_returnsOf (h.has_function hsound) (h.returns ▸ mem_singleton_self r)

lemma ownText? (h : F.Applies call f r t args below) : call.ownText? = none :=
  ownText?_eq_none (by simp [h.kind]) (by simp [h.kind])

lemma callables_eq (h : F.Applies call f r t args below) : distinct ([f].filterMap callableOf?) = [f] := by
  rw [filterMap_cons, callableOf?_of_isFunction h.function]
  rfl

lemma not_expresses {m : Model} (h : F.Applies call f r t args below) (e : StringExpr) : ¬m.Expresses call e := by
  intro he
  have hk := h.kind
  cases he with
  | literal htext => simp [kind_of_literalText? htext] at hk
  | template _ hk' | plus hk' | conditional hk' | either hk' | both hk' | named hk' => simp [hk'] at hk

variable (hroot : root.WellNumbered) (hF : F.Describes root) (hcap : 0 < F.limits.maxValues)
  (hcallers : 0 < F.limits.maxCallers)

include hroot hF in
lemma passes (h : F.Applies call f r t args below) : (ofCall F.model f call 0).Passes F.model f args :=
  hF.passes hroot (h.has_function (hF.sound hroot)) h.has h.arguments h.covered

include hroot hF hcap hcallers in
lemma hasTexts (h : F.Applies call f r t args below) :
    F.HasTexts [] call (cutTexts F.limits.maxValues ((t.subst args).value F.limits.maxValues)) := by
  have hsound := hF.sound hroot
  obtain ⟨callee, hcal, hnames⟩ := h.callee
  have hreads : callee.reads "call" = false := by simp [reads, memberName?, hnames.kind_eq]
  have htargets : F.HasTargets [] call ((distinct ([f].filterMap callableOf?)).map (·, 0)) :=
    .direct hcal hreads (hnames.hasFunctions hcallers h.function)
  rw [h.callables_eq, map_singleton] at htargets
  have hpas := h.passes hroot hF
  have hret := (h.returned.holding hpas).hasTexts_holding hsound (hF.unique hroot) hcap hpas.toIsClosed
    (h.has_returned hsound)
  have hcall : F.HasReturned [] call (returnedTexts F.limits []
      (fun _ _ => (t.subst args).value F.limits.maxValues) [(f, 0)]) := by
    refine .of_targets _ htargets fun target htgt _ k hk => ?_
    obtain rfl := mem_singleton.mp htgt
    obtain rfl : k = r := by simpa [h.returns] using hk
    exact hret
  have htexts : returnedTexts F.limits [] (fun _ _ => (t.subst args).value F.limits.maxValues) [(f, 0)] =
      cutTexts F.limits.maxValues ((t.subst args).value F.limits.maxValues) := by
    simp [returnedTexts, foldReturned, h.returns, unite_eq_cut hcap]
  rw [htexts] at hcall
  exact .returned h.kind hcall (cutTexts_ne_nil hcap ((t.subst args).value_ne_nil hcap))

include hroot hF hcap hcallers in
lemma settles (h : F.Applies call f r t args below) (hnames : depth + 1 + below ≤ F.limits.maxDepth)
    (hlevels : depth + (t.subst args).levels false ≤ F.limits.maxDepth) :
    (ask (.values call none depth)).Settles F [] []
      (cutTexts F.limits.maxValues ((t.subst args).value F.limits.maxValues)) := by
  have hsound := hF.sound hroot
  have huniq := hF.unique hroot
  have hne := cutTexts_ne_nil hcap ((t.subst args).value_ne_nil hcap)
  have hrule : valuesRule call depth = some (callValues call depth) := by simp only [valuesRule, h.kind]
  obtain ⟨callee, hcal, hfun⟩ := h.callee
  have hreads : callee.reads "call" = false := by simp [reads, memberName?, hfun.kind_eq]
  have hfuns : (ask (.functions callee (depth + 1))).Settles F [] [⟨.values, call.ident, none⟩] [f] :=
    hfun.settles hcallers h.function hsound huniq (h.has.child? _ _ hcal) (by omega) (by simp)
  have htargets := settles_callTargets hcal hreads hfuns
  rw [h.callables_eq] at htargets
  have hpas := h.passes hroot hF
  have hret : (ask (.values r none (depth + 1))).Settles F [ofCall F.model f call 0]
      [⟨.values, call.ident, none⟩] ((t.subst args).value F.limits.maxValues) := by
    refine (h.returned.holding hpas).settles_under hsound huniq hcap hpas.toIsClosed (h.has_returned hsound)
      (by omega) fun k e hopen hk he => ?_
    obtain rfl := huniq k call hk h.has (by simpa using hopen)
    exact absurd he (h.not_expresses e)
  have hvals : (returnedValues call depth).Settles F [] [⟨.values, call.ident, none⟩]
      (cutTexts F.limits.maxValues ((t.subst args).value F.limits.maxValues)) := by
    refine settling.bind htargets ?_
    rw [map_singleton, foldlM_cons]
    refine settling.bind (settling.bind (settles_isBound f) ?_) (settling.pure _)
    simp only [any_nil, h.returns]
    refine settles_withCall h.has (settling.bind ?_ (settling.pure _))
    have hunited : (Engine.union [[], (t.subst args).value F.limits.maxValues]).Settles F
        [ofCall F.model f call 0] [⟨.values, call.ident, none⟩] _ := settling.union _
    rw [unite_eq_cut hcap, flatten_cons, flatten_singleton, nil_append] at hunited
    exact settling.bind hret hunited
  refine settles_ask hsound huniq h.has (fun _ => h.hasTexts hroot hF hcap hcallers) h.ownText?
    hrule (by omega) (by simp) ?_
  refine settling.bind hvals ?_
  simp only [isEmpty_eq_false_iff.mpr hne, Bool.not_false, if_true]
  exact settling.pure _

end Facts.Applies

/-- In every state that queries can leave, a call of a function that returns a string expression
over its parameters resolves to the texts of that expression with the arguments in place of the
parameters, whatever other calls pass. -/
theorem call_resolves_by_substitution {root : Node} (hroot : root.WellNumbered) (hF : F.Describes root)
    (hcap : 0 < F.limits.maxValues) (hcallers : 0 < F.limits.maxCallers) {r : Node} {t : StringTerm}
    {args : List StringExpr} {below : Nat} (h : F.Applies call f r t args below)
    (hnames : depth + 1 + below ≤ F.limits.maxDepth)
    (hlevels : depth + (t.subst args).levels false ≤ F.limits.maxDepth) {s : Session} (hs : s.Reachable F)
    (hframes : s.frames = []) (hvisited : s.visited = []) :
    ∃ u, (ask (.values call none depth)).run F s =
      .ok (cutTexts F.limits.maxValues ((t.subst args).value F.limits.maxValues)) u ∧ s.Uncut u := by
  exact (h.settles hroot hF hcap hcallers hnames hlevels).run hroot hF h.has hs hframes hvisited

namespace Joined

def use (i : Nat) (name : String) : Node := .identifier i name

def template : Node :=
  .branch 8 .templateLiteral [(.quasis, some (Routes.stretch 9 "")), (.quasis, some (Routes.stretch 10 "/")),
    (.expressions, some (use 11 "p"))]

def returned : Node :=
  .binary 7 "+" template (use 12 "q")

def function : Node :=
  .function 1 (.identifier 2 "join") [.identifier 3 "p", .identifier 4 "q"]
    (.block 5 [.returning 6 returned])

def conditional (i : Nat) (left right : String) : Node :=
  .branch i .conditionalExpression [(.test, some (.identifier (i + 1) "c")),
    (.consequent, some (.textLiteral (i + 2) left)), (.alternate, some (.textLiteral (i + 3) right))]

def otherCall : Node := .call 21 (.identifier 22 "join") [.textLiteral 23 "x", .textLiteral 24 "y"]

def base : Node := .identifier 28 "base"

def asked : Node := .call 26 (.identifier 27 "join") [base, conditional 29 "p" "q"]

def program : Node :=
  .script [function, .declaration 13 "base" (conditional 16 "/a" "/b"), .statement 20 otherCall,
    .statement 25 asked]

def term : StringTerm := .plus (.gap "" (.param 0) (.literal "/")) (.param 1)

def arguments : List StringExpr :=
  [.named (.choice (.literal "/a") (.literal "/b")), .choice (.literal "p") (.literal "q")]

def resolved (F : Facts) : Session :=
  Outcome.session ((Query.ask (.values otherCall none 0)).engine.run F {})

def isParam (m : Model) (name : Node) (i : Nat) : Bool :=
  (m.binding? name).any fun b => (m.paramsOf function).any (·.uid == b.uid) && b.paramIndex == some i

def check : Bool :=
  match Model.ofProgram program "" false with
  | .ok m =>
    isParam m (use 11 "p") 0 && isParam m (use 12 "q") 1 && Routes.keeps m base (conditional 16 "/a" "/b") &&
      (m.binding? (.identifier 27 "join")).any fun b =>
        b.sort == .function && b.initial.any (·.ident == function.ident)
  | .error _ => false

lemma expressesIn_of_isParam (hF : F.Describes program) {name : Node} {i : Nat} {p : Node}
    (hk : name.kind = .identifier) (hp : (function.list .params)[i]? = some p) (htargets : p.targets {} = [⟨p, {}⟩])
    (h : isParam F.model name i = true) : F.model.ExpressesIn function name (.param i) := by
  have hroot : program.WellNumbered :=
    have hwell : program.WellFormed := wellFormed_check (by decide)
    hwell.toWellNumbered
  obtain ⟨b, hb, h⟩ := (Option.any_eq_true _ _).mp h
  simp only [Bool.and_eq_true, any_eq_true, beq_iff_eq] at h
  obtain ⟨⟨c, hc, huid⟩, hidx⟩ := h
  obtain rfl := hF.eq_of_uid hb hc huid
  obtain ⟨source, isModule, hm⟩ := hF.model
  have hf : program.Below function := Node.Below.mem_walk .refl (mem_of_getElem? (i := 1) rfl)
  exact .param hk hb hc (Model.declaredBy_name hroot hm hf hc hidx hp htargets)

end Joined

open ScriptAudit.Joined

/-- Two branches of a variable and two of a conditional are joined side by side, after another call
was resolved. -/
theorem call_resolves_by_substitution_joined :
    program.WellNumbered ∧ ∃ F : Facts, F.Describes program ∧ (resolved F).Reachable F ∧
      F.Applies asked function returned term arguments 0 ∧
      ∃ u, (ask (.values asked none 0)).run F (resolved F) = .ok ["/a/p", "/b/q"] u ∧
        (resolved F).Uncut u := by
  obtain ⟨hroot, m, hm, hF⟩ := program.exists_described (by decide)
  have hsound := hF.sound hroot.toWellNumbered
  have huniq := hF.unique hroot.toWellNumbered
  have hres : (resolved (ofModel m {})).Reachable (ofModel m {}) :=
    .query .start (hF.has_walk (n := otherCall) 21 rfl).knows
  have hcheck : check = true := by decide +kernel
  unfold check at hcheck
  simp only [hm, Bool.and_eq_true] at hcheck
  obtain ⟨⟨⟨hp, hq⟩, hbase⟩, hjoin⟩ := hcheck
  have happlies : (ofModel m {}).Applies asked function returned term
      arguments 0 := by
    refine ⟨hF.has_walk 26 rfl, rfl, ⟨_, rfl, ?_⟩, rfl, rfl, ?_, ?_, by decide⟩
    · obtain ⟨b, hb, hfun⟩ := (Option.any_eq_true _ _).mp hjoin
      simp only [Bool.and_eq_true, beq_iff_eq, Option.any_eq_true] at hfun
      obtain ⟨hsort, k, hk, hid⟩ := hfun
      obtain rfl := huniq k _ ((hsound.model.binding? hb).initial k hk) (hF.has_walk 1 rfl) hid
      exact .declared rfl hb hsort hk
    · refine .plus rfl rfl rfl rfl (.template (fun _ => .param 0) rfl (by decide) ?_)
        (expressesIn_of_isParam hF rfl rfl rfl hq)
      intro k hk
      obtain rfl : k = use 11 "p" := mem_singleton.mp hk
      exact expressesIn_of_isParam hF rfl rfl rfl hp
    · refine .cons (Routes.expresses_of_keeps hsound huniq rfl (hF.has_walk 16 rfl) ?_ hbase) (.cons ?_ .nil) <;>
        exact .conditional rfl rfl rfl (.literal rfl) (.literal rfl)
  have hframes : (resolved (ofModel m {})).frames = [] :=
    (session_runWith _ (balanced_answer _) _ _).2
  have hvisited : (resolved (ofModel m {})).visited = [] :=
    (session_runWith _ (balanced_answer _) _ _).1
  have htexts : cutTexts ({} : Limits).maxValues
      ((term.subst arguments).value ({} : Limits).maxValues) = ["/a/p", "/b/q"] := by decide +kernel
  have hlevels : 0 + (term.subst arguments).levels false ≤ ({} : Limits).maxDepth := by decide
  have hruns := call_resolves_by_substitution hroot.toWellNumbered hF (Nat.zero_lt_succ _) (Nat.zero_lt_succ _) happlies
    (show 0 + 1 + 0 ≤ ({} : Limits).maxDepth by decide) hlevels hres hframes hvisited
  rw [show (ofModel m {}).limits = {} from rfl, htexts] at hruns
  exact ⟨hroot.toWellNumbered, _, hF, hres, happlies, hruns⟩

end ScriptAudit
