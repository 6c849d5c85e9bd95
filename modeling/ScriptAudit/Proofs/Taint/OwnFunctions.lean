import ScriptAudit.Proofs.Engine.Balance
import ScriptAudit.Proofs.Scope.WellFormed
import ScriptAudit.Taint.Trace

/-!
# Functions of the program are not trusted

A call that hangs on a name of the program's own is no sanitizer call.
-/

namespace ScriptAudit

open Engine List Model Option

variable {F : Facts} {m : Model} {call callee n : Node} {s t : Session} {trace : Option Node → Engine Taint}

def Model.owns (m : Model) (callee : Node) : Bool :=
  if callee.kind == .identifier then (m.binding? callee).isSome
  else (sanitizerRoot? callee).all fun r =>
    (m.binding? r).any (·.sort != .imported) && !r.name.any sanitizerLibraries.contains

lemma isSanitizerCall_of_owns (hcallee : call.child? .callee = some callee)
    (howns : m.owns callee = true) : isSanitizerCall m call = false := by
  unfold isSanitizerCall
  simp only [hcallee]
  unfold owns at howns
  by_cases hkind : (callee.kind == .identifier) = true
  · rw [if_pos hkind] at howns ⊢
    obtain ⟨b, hb⟩ := isSome_iff_exists.mp howns
    simp [isUnbound_of_binding? hb]
  · rw [if_neg hkind] at howns ⊢
    have hroot : (sanitizerRoot? callee).any (trustsRoot m) = false := by
      cases hr : sanitizerRoot? callee with
      | none => rfl
      | some r =>
        rw [hr, all_some, Bool.and_eq_true] at howns
        obtain ⟨hdecl, hname⟩ := howns
        obtain ⟨b, hb, hsort⟩ := (any_eq_true _ _).mp hdecl
        simp_all [trustsRoot, isUnbound_of_binding? hb]
    cases callee.memberName? with
    | none => rfl
    | some name => simp [hroot]

def TracedReturn (F : Facts) (trace : Option Node → Engine Taint) (call : Node) (s : Session)
    (target : Node × Nat) (returned : Node) (taint : Taint) : Prop :=
  ∃ w u, w.frames = s.frames ++ [Frame.ofCall F.model target.1 call target.2] ∧
    (trace (some returned)).run F w = .ok taint u

lemma traced_foldlM {nodes : List Node} {pre after : List Taint}
    (hrun : (nodes.foldlM (fun found n => do return found ++ [← trace (some n)]) pre).run F s = .ok after t) :
    ∃ new, after = pre ++ new ∧
      (∀ n ∈ nodes, ∃ c ∈ new, ∃ w u, w.frames = s.frames ∧ (trace (some n)).run F w = .ok c u) ∧
      ∀ c ∈ new, ∃ n ∈ nodes, ∃ w u, w.frames = s.frames ∧ (trace (some n)).run F w = .ok c u := by
  induction nodes generalizing pre s with
  | nil =>
    cases hrun
    exact ⟨[], by simp⟩
  | cons n rest ih =>
    obtain ⟨found, v, hstep, hrest⟩ := run_bind_ok hrun
    obtain ⟨c, w, hc, hfound⟩ := run_bind_ok hstep
    cases hfound
    have hframes : v.frames = s.frames := frames_run_ok hc
    obtain ⟨new, hafter, hall, hnew⟩ := ih hrest
    rw [hframes] at hall hnew
    refine ⟨c :: new, by simpa using hafter, ?_, ?_⟩
    · intro k hk
      rcases mem_cons.mp hk with rfl | hk
      · exact ⟨c, mem_cons_self, s, v, rfl, hc⟩
      · obtain ⟨d, hd, htraced⟩ := hall k hk
        exact ⟨d, mem_cons_of_mem _ hd, htraced⟩
    · intro d hd
      rcases mem_cons.mp hd with rfl | hd
      · exact ⟨n, mem_cons_self, s, v, rfl, hc⟩
      · obtain ⟨k, hk, htraced⟩ := hnew d hd
        exact ⟨k, mem_cons_of_mem _ hk, htraced⟩

lemma traced_targets {targets : List (Node × Nat)} {pre after : List Taint}
    (hrun : (targets.foldlM (fun acc (function, offset) => do
      if ← isBound function then return acc
      withCall function call offset ((returnsOf function).foldlM
        (fun found n => do return found ++ [← trace (some n)]) acc)) pre).run F s = .ok after t) :
    ∃ new, after = pre ++ new ∧
      (∀ target ∈ targets, s.isBound target.1 = false → ∀ n ∈ returnsOf target.1,
        ∃ c ∈ new, TracedReturn F trace call s target n c) ∧
      ∀ c ∈ new, ∃ target ∈ targets, ∃ n ∈ returnsOf target.1,
        TracedReturn F trace call s target n c := by
  induction targets generalizing pre s with
  | nil =>
    cases hrun
    exact ⟨[], by simp⟩
  | cons target rest ih =>
    obtain ⟨found, v, hstep, hrest⟩ := run_bind_ok hrun
    have hframes : v.frames = s.frames := frames_run_ok hstep
    obtain ⟨new, hafter, hall, hnew⟩ := ih hrest
    simp only [TracedReturn, Session.isBound, hframes] at hall hnew
    obtain ⟨bound, w, hbound, hstep⟩ := run_bind_ok hstep
    cases hbound
    by_cases htgt : s.isBound target.1 = true
    · -- A function whose call is being gone through adds nothing.
      rw [if_pos htgt] at hstep
      cases hstep
      refine ⟨new, hafter, ?_, ?_⟩
      · intro k hk hfree
        rcases mem_cons.mp hk with rfl | hk
        · rw [htgt] at hfree
          cases hfree
        · exact hall k hk hfree
      · intro c hc
        obtain ⟨k, hk, htraced⟩ := hnew c hc
        exact ⟨k, mem_cons_of_mem _ hk, htraced⟩
    · rw [if_neg htgt] at hstep
      obtain ⟨u, hstep⟩ := exists_of_run_withCall_eq_ok hstep
      obtain ⟨first, rfl, hfirst, hback⟩ := traced_foldlM hstep
      refine ⟨first ++ new, by simpa using hafter, ?_, ?_⟩
      · intro k hk hfree n hn
        rcases mem_cons.mp hk with rfl | hk
        · obtain ⟨c, hc, htraced⟩ := hfirst n hn
          exact ⟨c, mem_append_left _ hc, htraced⟩
        · obtain ⟨c, hc, htraced⟩ := hall k hk hfree n hn
          exact ⟨c, mem_append_right _ hc, htraced⟩
      · intro c hc
        rcases mem_append.mp hc with hc | hc
        · exact ⟨target, mem_cons_self, hback c hc⟩
        · obtain ⟨k, hk, htraced⟩ := hnew c hc
          exact ⟨k, mem_cons_of_mem _ hk, htraced⟩

lemma sanitizes_of_isSanitizedAt {sink value : Node} (h : isSanitizedAt m sink value = true) :
    ∃ other, sanitizes m (accessPaths m false value) other = true := by
  unfold isSanitizedAt at h
  dsimp only at h
  split at h
  · cases h
  next body _ =>
    unfold FlowGraph.isSanitized at h
    split at h
    · cases h
    · dsimp only at h
      split at h
      · cases h
      next hblocks =>
        -- Without a block that holds a sanitizer the answer would be no.
        obtain ⟨block, hblock⟩ := exists_mem_of_ne_nil _ (mt List.isEmpty_iff.mpr hblocks)
        obtain ⟨other, hother, -⟩ := mem_filterMap.mp hblock
        exact ⟨other, (mem_filter.mp hother).2⟩

/-- A call that hangs on a name of the program's own is traced through what it returns, unless it is
a source or passes its arguments through, and no sink counts as sanitized because of it. -/
theorem own_call_followed (hkind : call.kind = .callExpression)
    (hcallee : call.child? .callee = some callee) (howns : F.model.owns callee = true) :
    isSanitizerCall F.model call = false ∧
    (callSource? F call = none → passedThrough? F callee (call.list .arguments) = none →
      ∀ (trace : Option Node → Engine Taint) (depth : Nat) (s t : Session) (taint : Taint),
        (taintRule trace depth call).run F s = .ok taint t →
        ∃ targets u, (Ask.callTargets call (depth + 1)).run F s = .ok targets u ∧ ∃ classes,
          (∀ target ∈ targets, s.isBound target.1 = false → ∀ n ∈ returnsOf target.1,
            ∃ c ∈ classes, TracedReturn F trace call s target n c) ∧
          (∀ c ∈ classes, ∃ target ∈ targets, ∃ n ∈ returnsOf target.1,
            TracedReturn F trace call s target n c) ∧
          (classes ≠ [] → taint = Taint.combine classes)) ∧
    (∀ paths, sanitizes F.model paths call = false) ∧
    ∀ sink value, isSanitizedAt F.model sink value = true →
      ∃ other, other ≠ call ∧ sanitizes F.model (accessPaths F.model false value) other = true := by
  have htrusted := isSanitizerCall_of_owns hcallee howns
  have hsanitizes (paths : List AccessPath) : sanitizes F.model paths call = false := by simp [sanitizes, htrusted]
  refine ⟨htrusted, ?_, hsanitizes, ?_⟩
  · intro hsrc hpass trace depth s t taint hrun
    simp only [taintRule, hkind] at hrun
    obtain ⟨facts, u, hfacts, hrun⟩ := run_bind_ok hrun
    cases hfacts
    simp only [hcallee, htrusted, Bool.false_eq_true, if_false, hsrc, hpass] at hrun
    obtain ⟨classes, v, hclasses, hrun⟩ := run_bind_ok hrun
    obtain ⟨targets, w, htargets, hclasses⟩ := run_bind_ok hclasses
    have hframes : w.frames = s.frames := frames_run_ok htargets
    obtain ⟨new, hnew, hall, hback⟩ := traced_targets hclasses
    rw [nil_append] at hnew
    subst hnew
    simp only [TracedReturn, Session.isBound, hframes] at hall hback
    refine ⟨targets, w, htargets, classes, hall, hback, fun hne => ?_⟩
    rw [if_pos (by simpa using hne)] at hrun
    cases hrun
    rfl
  · intro sink value hsanitized
    obtain ⟨other, hother⟩ := sanitizes_of_isSanitizedAt hsanitized
    refine ⟨other, ?_, hother⟩
    rintro rfl
    rw [hsanitizes] at hother
    cases hother

namespace Purifier

def identity : Node :=
  .branch 7 .functionExpression [(.params, some (.identifier 8 "s")),
    (.body, some (.block 9 [.returning 10 (.identifier 11 "s")]))]

def object : Node :=
  .object 4 [.entry 5 "sanitize" identity]

def method (name : String) : Node := .member 18 (.identifier 20 name) "sanitize"

def use (name : String) : Node :=
  .call 17 (method name) [.member 21 (.identifier 23 "location") "hash"]

def program (definition : Node) (name : String) : Node :=
  .script [definition, .statement 12 (.assign 13 (.member 14 (.identifier 16 "el") "innerHTML")
    (use name))]

def declared (name : String) : Node := .declaration 1 name object

def assigned (name : String) : Node := .statement 1 (.assign 2 (.identifier 3 name) object)

def verdict (definition : Node) (name : String) : Option (Bool × Bool × Bool) :=
  match ofProgram (program definition name) "" false with
  | .ok m =>
    let F := Facts.ofModel m {}
    match (Ask.callTargets (use name) 1).run F {}, (taintRule (traceWithin 4 1) 0 (use name)).run F {} with
    | .ok targets _, .ok taint _ =>
      some (targets.any (·.1 == identity), isSanitizerCall m (use name), taint.isUserControlled)
    | _, _ => none
  | .error _ => none

def check (definition : Node) (name : String) : Bool :=
  match ofProgram (program definition name) "" false with
  | .ok m =>
    let F := Facts.ofModel m {}
    F.model.owns (method name) && (callSource? F (use name)).isNone &&
      (passedThrough? F (method name) ((use name).list .arguments)).isNone &&
      match (taintRule (traceWithin 4 1) 0 (use name)).run F {} with
      | .ok taint _ => taint.isUserControlled
      | .error _ _ => false
  | .error _ => false

end Purifier

open Purifier

/-- A function that returns its input is followed, and what goes into it comes out of it. -/
theorem own_call_followed_tools :
    ∃ F : Facts, F.model.root = program (declared "tools") "tools" ∧
      F.model.owns (method "tools") = true ∧
      isSanitizerCall F.model (use "tools") = false ∧ ∃ taint t,
        (taintRule (traceWithin 4 1) 0 (use "tools")).run F {} = .ok taint t ∧
        taint.isUserControlled = true ∧ ∃ targets u,
          (Ask.callTargets (use "tools") 1).run F {} = .ok targets u ∧ ∃ classes,
            (∀ c ∈ classes, ∃ target ∈ targets, ∃ n ∈ returnsOf target.1,
              TracedReturn F (traceWithin 4 1) (use "tools") {} target n c) ∧
            (classes ≠ [] → taint = Taint.combine classes) := by
  have hroot : (program (declared "tools") "tools").WellFormed :=
    Node.wellFormed_check (by decide)
  obtain ⟨m, hm⟩ := exists_ofProgram hroot.toWellNamed "" false
  have hcheck : check (declared "tools") "tools" = true := by decide +kernel
  simp only [check, hm, Bool.and_eq_true, isNone_iff_eq_none] at hcheck
  obtain ⟨⟨⟨howns, hsrc⟩, hpass⟩, huser⟩ := hcheck
  have hkind : (use "tools").kind = .callExpression := rfl
  have hcallee : (use "tools").child? .callee = some (method "tools") := rfl
  obtain ⟨htrusted, hfollowed, -, -⟩ := own_call_followed (F := Facts.ofModel m {}) hkind hcallee howns
  refine ⟨Facts.ofModel m {}, (eq_of_ofProgram hm).1, howns, htrusted, ?_⟩
  split at huser
  next taint t hrun =>
    obtain ⟨targets, u, htargets, classes, -, hback, hcombine⟩ := hfollowed hsrc hpass _ 0 {} t taint hrun
    exact ⟨taint, t, hrun, huser, targets, u, htargets, classes, hback, hcombine⟩
  · cases huser

/-- Methods that hang on a library's name are trusted although the program declares it or makes it a
global. -/
theorem Purifier.trusts_own_function :
    verdict (declared "DOMPurify") "DOMPurify" = some (true, true, false) ∧
      verdict (assigned "tools") "tools" = some (true, true, false) := by
  decide +kernel

end ScriptAudit
