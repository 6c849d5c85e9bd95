import Mathlib.Data.List.Forall2
import ScriptAudit.Proofs.Engine.Recall

/-!
# Where the value of a function declaration goes first

The references of its name are found before anything that other routes lead to, as long as there are
not more of them than may be found.
-/

namespace ScriptAudit

open List Kind

def Kind.holdsDeclarations : Kind → Bool
  | .program | .blockStatement | .switchCase | .ifStatement | .labeledStatement | .withStatement | .whileStatement
  | .doWhileStatement | .forStatement | .forInStatement | .forOfStatement | .exportNamedDeclaration
  | .exportDefaultDeclaration | .unknown => true
  | _ => false

/-- A function declaration, as a statement, of the name with the binding `b`. -/
structure Facts.DeclaresFunction (F : Facts) (f : Node) (b : Binding) : Prop where
  kind : f.kind = .functionDeclaration
  named : (f.child? .id).bind F.model.binding? = some b
  statement : ∀ p, F.model.parent? f = some p → p.kind.holdsDeclarations = true

/-- The references of a binding are names that can be told apart, and from the node `f`. -/
structure Binding.Apart (b : Binding) (f : Node) : Prop where
  nodup : (f.ident :: b.references.map Node.ident).Nodup
  plain : ∀ r ∈ b.references, r.kind = .identifier

lemma Binding.Apart.aliases {b : Binding} {f : Node} (h : b.Apart f) (route : Route) :
    ((b.references.map fun r => (⟨r, route⟩ : Alias)).map (·.node.ident)).Nodup ∧
      ∀ a ∈ b.references.map fun r => (⟨r, route⟩ : Alias), a.node.ident ∉ [f.ident] := by
  obtain ⟨hother, hnodup⟩ := nodup_cons.mp h.nodup
  rw [mem_map] at hother
  refine ⟨by simpa [Function.comp_def] using hnodup, fun a ha hid => ?_⟩
  obtain ⟨r, hr, rfl⟩ := mem_map.mp ha
  exact hother ⟨r, hr, mem_singleton.mp hid⟩

def Model.CalledBy (m : Model) (n call : Node) : Prop :=
  m.parent? n = some call ∧ m.fieldOf? n = some .callee ∧ call.kind.isCall = true

/-- A function declaration whose name is used only as the callee of the given calls, which are not
too many. -/
structure Facts.OnlyCalled (F : Facts) (f : Node) (b : Binding) (calls : List Node) : Prop
    extends F.DeclaresFunction f b where
  called : List.Forall₂ F.model.CalledBy b.references calls
  distinct : calls.Nodup
  notRead : F.model.isModule = false → b.scope = 0 → ∀ g, F.globals = some g → g.memberReads.getD b.name [] = []
  few : calls.length ≤ F.limits.maxCallers

/-- What is known of the expressions that the value of a function declaration reaches. -/
structure Facts.AliasesOf (F : Facts) (f : Node) (as : List Alias) : Prop where
  begins : ∀ b, F.DeclaresFunction f b → b.Apart f → b.references.length ≤ F.limits.maxCallers * 4 →
    b.references.map (⟨·, bindingRoute F f⟩) <+: as
  only : ∀ b calls, F.OnlyCalled f b calls → b.Apart f → as = b.references.map (⟨·, bindingRoute F f⟩)

namespace Flow

variable (cap maxDepth dist : Nat) (fl : Flow)

def taken (a : Alias) : Flow :=
  { fl with
    seen := a.node.ident :: fl.seen
    found := fl.found ++ [a]
    work := if dist + 1 < maxDepth then fl.work ++ [(a, dist + 1)] else fl.work }

lemma prefix_take (as : List Alias) : fl.found <+: (fl.take cap maxDepth dist as).found := by
  induction as generalizing fl with
  | nil => exact prefix_refl _
  | cons a rest ih =>
    unfold take
    split
    · exact ih _
    · dsimp only
      split
      · exact prefix_append _ _
      · exact (prefix_append fl.found [a]).trans (ih (taken maxDepth dist fl a))

lemma append_prefix_take {as : List Alias} (more : List Alias) (hnew : (as.map (·.node.ident)).Nodup)
    (hseen : ∀ a ∈ as, a.node.ident ∉ fl.seen) (hroom : fl.found.length + as.length ≤ cap) :
    fl.found ++ as <+: (fl.take cap maxDepth dist (as ++ more)).found := by
  induction as generalizing fl with
  | nil => simpa using prefix_take cap maxDepth dist fl more
  | cons a rest ih =>
    simp only [map_cons, nodup_cons, mem_map, not_exists, not_and] at hnew
    simp only [forall_mem_cons] at hseen
    simp only [length_cons] at hroom
    rw [cons_append, take, if_neg (by simpa using hseen.1)]
    dsimp only
    split
    next hfull =>
      simp only [length_append, length_singleton] at hfull
      obtain rfl : rest = [] := eq_nil_of_length_eq_zero (by omega)
      exact prefix_refl _
    · rw [show fl.found ++ a :: rest = (fl.found ++ [a]) ++ rest by simp]
      refine ih (taken maxDepth dist fl a) hnew.2 (fun x hx => ?_)
        (by simp only [taken, length_append, length_singleton]; omega)
      simpa [taken, not_or] using ⟨hnew.1 x hx, hseen.2 x hx⟩

lemma take_of_room {as : List Alias} (hnew : (as.map (·.node.ident)).Nodup)
    (hseen : ∀ a ∈ as, a.node.ident ∉ fl.seen) (hroom : fl.found.length + as.length < cap) :
    (fl.take cap maxDepth dist as).found = fl.found ++ as ∧ (fl.take cap maxDepth dist as).full = fl.full ∧
      ∀ w ∈ (fl.take cap maxDepth dist as).work, w ∈ fl.work ∨ w.1 ∈ as := by
  induction as generalizing fl with
  | nil => exact ⟨(append_nil _).symm, rfl, fun w hw => .inl hw⟩
  | cons a rest ih =>
    simp only [map_cons, nodup_cons, mem_map, not_exists, not_and] at hnew
    simp only [forall_mem_cons] at hseen
    simp only [length_cons] at hroom
    rw [take, if_neg (by simpa using hseen.1)]
    rw [if_neg (by simp only [length_append, length_singleton]; omega)]
    obtain ⟨hfound, hfull, hwork⟩ := ih (taken maxDepth dist fl a) hnew.2
      (fun x hx => by simpa [taken, not_or] using ⟨hnew.1 x hx, hseen.2 x hx⟩)
      (by simp only [taken, length_append, length_singleton]; omega)
    refine ⟨hfound.trans (by simp [taken]), hfull, fun w hw => ?_⟩
    rcases hwork w hw with hw | hw
    · unfold taken at hw
      split at hw
      · simp only [mem_append, mem_singleton] at hw
        exact hw.imp id fun hw => by simp [hw]
      · exact .inl hw
    · exact .inr (mem_cons_of_mem _ hw)

end Flow

open Ask Engine ScriptAudit.Flow

variable {reply : Reply} {F : Facts} {s t : Session} {f : Node} {b : Binding} {calls : List Node}
  {fl fl' : Flow} {cap maxDepth : Nat}

namespace Ask

lemma follow_of_full (h : cap ≤ fl.found.length) : follow cap maxDepth fl = pure fl := by
  rw [follow]
  split
  · rfl
  · rw [dif_pos h]

lemma follow_cons {a : Alias} {dist : Nat} {work : List (Alias × Nat)} (hwork : fl.work = (a, dist) :: work)
    (hroom : fl.found.length < cap) : follow cap maxDepth fl = (do
      let next ← flowStep a.node a.route let taken := take cap maxDepth dist { fl with work := work } next
      if taken.full then
        Engine.truncate
        return taken
      else follow cap maxDepth taken) := by
  rw [follow]
  split
  next hnil =>
    rw [hwork] at hnil
    cases hnil
  next hcons =>
    rw [hwork] at hcons
    cases hcons
    rw [dif_neg (Nat.not_le.mpr hroom)]

lemma prefix_of_follow (h : (follow cap maxDepth fl).runWith reply F s = .ok fl' t) : fl.found <+: fl'.found := by
  fun_induction follow cap maxDepth fl generalizing s with
  | case1 | case2 =>
    cases h
    exact prefix_refl _
  | case3 fl a dist work hwork _ ih =>
    obtain ⟨next, u, -, h⟩ := runWith_bind_ok h
    have htaken : fl.found <+: (take cap maxDepth dist { fl with work := work } next).found :=
      prefix_take cap maxDepth dist { fl with work := work } next
    dsimp only at h
    split at h
    · obtain ⟨_, v, -, h⟩ := runWith_bind_ok h
      cases h
      exact htaken
    · exact htaken.trans (ih next h)

lemma runWith_follow_of_silent (cap maxDepth : Nat) (s : Session) (hfull : fl.full = false)
    (hsilent : ∀ w ∈ fl.work, ∀ s, (flowStep w.1.node w.1.route).runWith reply F s = .ok [] s) :
    ∃ fl' : Flow, (follow cap maxDepth fl).runWith reply F s = .ok fl' s ∧ fl'.found = fl.found := by
  fun_induction follow cap maxDepth fl with
  | case1 fl | case2 fl => exact ⟨fl, rfl, rfl⟩
  | case3 fl a dist work hwork _ ih =>
    rw [hwork] at hsilent
    obtain ⟨ha, hrest⟩ := forall_mem_cons.mp hsilent
    obtain ⟨fl', hrun, hfound⟩ := ih [] hfull hrest
    refine ⟨fl', ?_, hfound⟩
    change (andThen _ _).runWith reply F s = _
    rw [runWith_andThen, ha s]
    simp only [Flow.take.eq_def, hfull, Bool.false_eq_true, if_false] at hrun ⊢
    exact hrun

end Ask

namespace Facts.DeclaresFunction

section

variable (h : F.DeclaresFunction f b)
include h

lemma bindingRoute_eq : bindingRoute F f = .directName := by
  unfold bindingRoute
  dsimp only
  split
  next p field hp _ =>
    have hholds := h.statement p hp
    split <;> simp_all [holdsDeclarations]
  · rfl

lemma searchFrom_eq :
    F.searchFrom f = follow (F.limits.maxCallers * 4) F.limits.maxDepth { seen := [f.ident], work := [(⟨f,
      bindingRoute F f⟩, 0)] } := by
  simp [searchFrom, h.kind, isFunction]

lemma invocation?_eq (route : Route) : invocation? F.model ⟨f, route⟩ = none := by
  unfold invocation?
  cases hp : F.model.parent? f with
  | none => rfl
  | some p =>
    have hholds := h.statement p hp
    have hcall : p.kind.isCall = false := by cases hk : p.kind <;> simp_all [holdsDeclarations, isCall]
    have hmem : F.model.memberOf? f = none := by
      unfold Model.memberOf?
      simp only [hp]
      cases hk : p.kind <;> simp_all [holdsDeclarations]
    simp [hcall, hmem]

lemma exists_of_flowStep {route : Route} {next : List Alias} (hrun : (flowStep f route).runWith reply F s = .ok next t)
    : ∃ more, next = b.references.map (⟨·, route⟩) ++ more := by
  have hdecl : identifierReads F (f.child? .id) route = bindingReads F b route := by
    unfold identifierReads
    rw [h.named]
  have hreads : ∃ more, bindingReads F b route = b.references.map (⟨·, route⟩) ++ more := by
    unfold bindingReads
    rw [map_append]
    exact ⟨_, rfl⟩
  obtain ⟨more, hmore⟩ := hreads
  obtain ⟨_, u, hfacts, hrun⟩ := runWith_bind_ok hrun
  cases hfacts
  simp only [h.kind, beq_self_eq_true, Bool.true_or, if_true, hdecl, hmore] at hrun
  split at hrun
  · obtain ⟨others, v, -, hrun⟩ := runWith_bind_ok hrun
    cases hrun
    exact ⟨more ++ others, append_assoc ..⟩
  · cases hrun
    exact ⟨more, rfl⟩

lemma begins_of_searchFrom (hapart : b.Apart f) (hfew : b.references.length ≤ F.limits.maxCallers * 4)
    (hrun : (F.searchFrom f).runWith reply F s = .ok fl t) : b.references.map (⟨·, bindingRoute F f⟩) <+: fl.found := by
  obtain ⟨hnew, hseen⟩ := hapart.aliases (bindingRoute F f)
  rw [h.searchFrom_eq] at hrun
  rcases Nat.eq_zero_or_pos (F.limits.maxCallers * 4) with hzero | hcap
  · have hnil : b.references = [] := eq_nil_of_length_eq_zero (by omega)
    simp [hnil]
  · rw [follow_cons rfl hcap] at hrun
    obtain ⟨next, u, hstep, hrun⟩ := runWith_bind_ok hrun
    obtain ⟨more, rfl⟩ := h.exists_of_flowStep hstep
    have htaken := append_prefix_take (F.limits.maxCallers * 4) F.limits.maxDepth 0
      { seen := [f.ident], work := [] } more hnew hseen
      (by simpa using hfew)
    dsimp only at hrun
    split at hrun
    · obtain ⟨_, v, -, hrun⟩ := runWith_bind_ok hrun
      cases hrun
      exact htaken
    · exact htaken.trans (prefix_of_follow hrun)

end

end Facts.DeclaresFunction

namespace Facts.OnlyCalled

lemma exists_call (h : F.OnlyCalled f b calls) {r : Node} (hr : r ∈ b.references) : ∃ call,
    F.model.CalledBy r call := by
  obtain ⟨i, hi, rfl⟩ := mem_iff_getElem.mp hr
  obtain ⟨hlen, hcalled⟩ := forall₂_iff_get.mp h.called
  exact ⟨_, hcalled i hi (hlen ▸ hi)⟩

lemma flowStep_reference (h : F.OnlyCalled f b calls) (hapart : b.Apart f) {r : Node}
    (hr : r ∈ b.references) (route : Route) (s : Session) :
    (flowStep r route).runWith reply F s = .ok [] s := by
  obtain ⟨call, hpar, hfield, hcall⟩ := h.exists_call hr
  have hkind := hapart.plain r hr
  have hfrom : (flowFrom r call .callee route).runWith reply F s = .ok [] s := by
    unfold flowFrom
    cases hk : call.kind <;> simp_all [isCall] <;> rfl
  change (andThen _ _).runWith reply F s = _
  simp only [runWith_andThen, runWith, hpar, hfield, hkind]
  change (andThen _ _).runWith reply F s = _
  rw [runWith_andThen, hfrom]
  rfl

lemma flowStep_declaration (h : F.OnlyCalled f b calls) (route : Route) (s : Session) :
    (flowStep f route).runWith reply F s = .ok (b.references.map (⟨·, route⟩)) s := by
  have hreads : bindingReads F b route = b.references.map (⟨·, route⟩) := by
    unfold bindingReads
    split
    next htop =>
      simp only [Bool.and_eq_true, Bool.not_eq_true', beq_iff_eq] at htop
      cases hg : F.globals with
      | none => simp
      | some g => simp [h.notRead htop.1.1 htop.1.2 g hg]
    · simp
  have hdecl : identifierReads F (f.child? .id) route = b.references.map (⟨·, route⟩) := by
    unfold identifierReads
    rw [h.named]
    exact hreads
  change (andThen _ _).runWith reply F s = _
  simp only [runWith_andThen, runWith, h.kind, beq_self_eq_true, Bool.true_or, if_true, hdecl]
  split
  next p field hp hfield =>
    have hholds := h.statement p hp
    have hfrom : (flowFrom f p field route).runWith reply F s = .ok [] s := by
      unfold flowFrom
      cases hk : p.kind <;> simp_all [holdsDeclarations] <;> rfl
    change (andThen _ _).runWith reply F s = _
    rw [runWith_andThen, hfrom]
    simp [runWith, pure]
  · rfl

lemma runWith_searchFrom (h : F.OnlyCalled f b calls) (hapart : b.Apart f) (reply : Reply) (s : Session) :
    ∃ fl : Flow, (F.searchFrom f).runWith reply F s = .ok fl s ∧
      fl.found = b.references.map (⟨·, bindingRoute F f⟩) := by
  have hfew : b.references.length ≤ F.limits.maxCallers := h.called.length_eq ▸ h.few
  obtain ⟨hnew, hseen⟩ := hapart.aliases (bindingRoute F f)
  rw [h.searchFrom_eq]
  rcases Nat.eq_zero_or_pos F.limits.maxCallers with hzero | hpos
  · have hnil : b.references = [] := eq_nil_of_length_eq_zero (by omega)
    exact ⟨_, by rw [follow_of_full (by simp [hzero])]; rfl, by simp [hnil]⟩
  · rw [follow_cons rfl (by simpa using hpos)]
    obtain ⟨hfound, hfull, hwork⟩ := take_of_room (F.limits.maxCallers * 4) F.limits.maxDepth 0
      { seen := [f.ident], work := [] } hnew hseen (by simp; omega)
    have hsilent : ∀ w ∈ (take (F.limits.maxCallers * 4) F.limits.maxDepth 0 { seen := [f.ident], work := [] }
        (b.references.map (⟨·, bindingRoute F f⟩))).work, ∀ s, (flowStep w.1.node w.1.route).runWith
          reply F s = .ok [] s := by
      intro w hw s
      rcases hwork w hw with hw | hw
      · cases hw
      · obtain ⟨r, hr, hr'⟩ := mem_map.mp hw
        rw [← hr']
        exact h.flowStep_reference hapart hr _ s
    obtain ⟨fl, hrun, heq⟩ := runWith_follow_of_silent (F.limits.maxCallers * 4) F.limits.maxDepth s hfull hsilent
    refine ⟨fl, ?_, heq.trans (by simpa using hfound)⟩
    change (andThen _ _).runWith reply F s = _
    rw [runWith_andThen, h.flowStep_declaration]
    simp only [hfull, Bool.false_eq_true, if_false]
    exact hrun

end Facts.OnlyCalled

lemma Facts.aliasesOf_searchFrom (h : (F.searchFrom f).runWith reply F s = .ok fl t) : F.AliasesOf f fl.found := by
  refine ⟨fun b hb hapart hfew => hb.begins_of_searchFrom hapart hfew h, fun b calls hb hapart => ?_⟩
  obtain ⟨found, hrun, hfound⟩ := hb.runWith_searchFrom hapart reply s
  obtain rfl : fl = found := by
    cases h.symm.trans hrun
    rfl
  exact hfound

end ScriptAudit
