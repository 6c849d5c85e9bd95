import ScriptAudit.Proofs.Resolve.Bound
import ScriptAudit.Proofs.Resolve.Spelled
import ScriptAudit.Proofs.Resolve.StringResolution
import ScriptAudit.Proofs.Taint.Shown

/-!
# Parameters that are taken out of an argument

Outside of calls, what the callers pass is looked for, and the value under the key is traced.
-/

namespace ScriptAudit

open Ask Engine Facts List Node Option Outcome ScriptAudit.Frame Taint

variable {F : Facts} {s t u : Session} {n f literal value : Node} {b : Binding} {site : CallSite} {key : String}
  {depth : Nat} {outer : List Frame}

def Node.propertyValues (n : Node) : List (Option Node) :=
  (n.list .properties).map (·.child? .value)

lemma Node.mem_propertyValues (h : n.literalProperties.get? key = some value) : some value ∈ n.propertyValues := by
  have hall : n.literalProperties.All fun v => some v ∈ n.propertyValues := by
    apply List.foldlRecOn
    · exact Table.all_empty
    · intro t ht p hp
      unfold enter
      split
      next v k hv _ => exact ht.insert (mem_map.mpr ⟨p, hp, hv⟩)
      · exact ht
  exact hall.get? h

section Plain

variable {root : Node} (hroot : root.WellNumbered) (hF : F.Describes root) (hs : s.Reachable F)
  (hframes : s.frames = []) (hn : F.Has n) (hplain : n.isPlainObject = true)
  (hdepth : depth ≤ F.limits.maxDepth) (hopen : (Question.object n depth).key ∉ s.visited)
include hroot hF hs hframes hn hplain hdepth hopen

lemma exists_run_askObject :
    ∃ ref wider t, (ask (.object n depth)).run F s = .ok (some ref) t ∧ t.shapes[ref]? = some wider ∧
      n.plainShape.Gains wider := by
  let q := Question.object n depth
  have hsound := hF.sound hroot
  have hrule : q.rule = consider q.key depth none q.remembered q.remember (some (literalShape n depth)) := by
    simp only [q, Question.rule, objectRule, kind_of_isPlainObject hplain]
    rfl
  suffices heval : ∃ ref wider t, q.rule.Evaluates F s (.ok (some ref) t) ∧ t.shapes[ref]? = some wider ∧
      n.plainShape.Gains wider by
    obtain ⟨ref, wider, t, heval, hshape⟩ := heval
    have hmeets := meets_ask (I := fun _ => True) (q := q) hn q.after_start
    exact ⟨ref, wider, t, (hmeets.evaluates_iff hsound (hs.within hsound) _).mp (.ask heval), hshape⟩
  rw [hrule]
  cases hknown : q.remembered s.toMemory with
  | some a =>
    have hright : q.Right F [] a s.toMemory := hs.faithful hroot hF _ q a hn hknown
    obtain ⟨ref, wider, rfl, hshape⟩ := Memory.shows_some_iff.mp (hright _ (.plain hplain))
    exact ⟨ref, wider, s, evaluates_consider_known hdepth hframes hknown, hshape⟩
  | none =>
    obtain ⟨_, t, heval, -, ref, rfl, hshape⟩ := finds_literalShape hplain _ (.refl _)
    obtain ⟨u, heval, hmemo⟩ : ∃ u, (consider q.key depth none q.remembered q.remember _).Evaluates F s
        (.ok (some ref) u) ∧ (u.toMemory = t.toMemory ∨ u.toMemory = q.remember (some ref) t.toMemory) :=
      evaluates_consider_kept hdepth hknown (by simpa using hopen) heval
    have hshapes : u.shapes = t.shapes := by
      rcases hmemo with h | h <;> rw [h]
      rfl
    exact ⟨ref, _, u, heval, hshapes ▸ hshape, .refl _⟩

lemma exists_run_objectProperty (hval : n.literalProperties.get? key = some value) : ∃ t,
    (objectProperty (some n) key depth).run F s = .ok (some value) t ∧ t.Reachable F := by
  obtain ⟨ref, wider, t, hrun, hshape, hgains⟩ := exists_run_askObject hroot hF hs hframes hn hplain hdepth hopen
  refine ⟨t, ?_, hs.query_eq_ok (q := .ask (.object n depth)) hn hrun⟩
  rw [objectProperty, Ask.object, run_bind hrun]
  have hshapeAt : (shapeAt ref).run F t = .ok wider t := by
    rw [shapeAt, run_bind (b := t) (t := t) rfl, hshape]
    rfl
  rw [propertyOf?, run_bind hshapeAt, hgains.get? hval]
  rfl

end Plain

lemma answer_traceSource_literal (hkind : n.kind = .objectExpression)
    (hprops : ∀ p ∈ n.list .properties, p.kind = .property) (hdepth : depth ≤ F.limits.maxDepth)
    (hmiss : s.frames = [] → s.taints.get? n.ident = none) (hopen : n.taintKey ∉ s.visited) :
    answer ((traceSource (some n) depth).run F s) = (answer ((n.propertyValues.mapM (traceSource · (depth + 1))).run F
        { s with visited := n.taintKey :: s.visited })).map combine := by
  rw [answer_traceSource_fresh (by simp [hkind]) hdepth hmiss hopen]
  simp only [taintRule, hkind]
  rw [answer_bind_pure, Node.propertyValues]
  congr 2
  apply run_mapM_map
  intro p hp t
  rw [hprops p hp]
  exact run_traceWithin_below _

section Steps

variable {trace : Option Node → Engine Taint}

lemma run_taintRule_bound {index : Nat} {passed : Passed} (hkind : n.kind = .identifier)
    (hb : F.model.binding? n = some b) (hbound : s.boundArgument? b = some (index, passed)) :
    (taintRule trace depth n).run F s = reframe (· ++ s.frames.drop index)
      ((trace (some passed.argument)).run F { s with frames := s.frames.take index }) := by
  have hstep : (boundArgument? b).run F s = .ok (some (index, passed)) s := by
    rw [← hbound]
    rfl
  simp only [taintRule, hkind]
  rw [traceIdentifier, run_bind (b := F) rfl]
  simp only [hb]
  rw [run_bind hstep]
  exact runWith_underOuter _ _

lemma run_taintRule_param (hkind : n.kind = .identifier) (hb : F.model.binding? n = some b)
    (hbound : s.boundArgument? b = none) (hsort : b.sort = .param) :
    (taintRule trace depth n).run F s = (traceParam trace depth b).run F s := by
  have hstep : (boundArgument? b).run F s = .ok none s := by
    rw [← hbound]
    rfl
  simp only [taintRule, hkind]
  rw [traceIdentifier, run_bind (b := F) rfl]
  simp only [hb]
  rw [run_bind hstep]
  simp only [hsort]

lemma run_traceParam (hf : b.function = some f) (hevent : b.uid ∉ s.eventParams) (hhandler : f.ident ∉ s.handlers)
    (hcallback : callbackSource? F.model f b = none) :
    (traceParam trace depth b).run F s = (traceSupplied trace depth b).run F s := by
  rw [traceParam, run_bind (b := F) rfl, run_bind (b := s) rfl]
  simp [hf, hevent, hhandler, hcallback]

lemma run_traceProperty (hloc : F.isLocation (some literal) = false)
    (hprop : (objectProperty (some literal) key (depth + 1)).run F s = .ok (some value) t) :
    (traceProperty trace depth literal key).run F s = (trace (some value)).run F t := by
  rw [traceProperty, run_bind (b := F) rfl, if_neg (by simp [hloc]), run_bind hprop]

lemma answer_traceSupplied {path : ArgumentPath} (hkey : b.key = some key) (hfall : b.fallback = none)
    (hpaths : (argumentPaths b none).run F s = .ok [path] t) (hpath : path.overloaded = false)
    (hcallers : 0 < F.limits.maxCallers) : answer ((traceSupplied trace depth b).run F s) =
      (answer ((traceProperty trace depth path.argument key).run F t)).map fun c => combine [c] := by
  obtain ⟨cap, hcap⟩ := Nat.exists_eq_succ_of_ne_zero (Nat.pos_iff_ne_zero.mp hcallers)
  rw [traceSupplied, run_bind hpaths, run_bind (b := F.limits) rfl]
  simp only [hcap, take_succ_cons, take_nil, filter_cons, hpath, Bool.not_false, if_true, filter_nil,
    hkey, hfall, toList_none]
  rw [← answer_bind_pure]
  congr 1
  refine (run_bind_assoc (traceProperty trace depth path.argument key) (fun c => pure [c]) _).trans ?_
  exact run_bind_congr fun _ _ => rfl

end Steps

/-- The name `n` stands for a parameter of `f` that is taken out of the argument under a key,
without a default, and the call passes an object literal whose properties are all written down by
name, with a value under the key. -/
structure Facts.Takes (F : Facts) (n : Node) (b : Binding) (f : Node) (site : CallSite) (literal : Node) (key : String)
    (value : Node) : Prop where
  has : F.Has n
  name : n.kind = .identifier
  binding : F.model.binding? n = some b
  sort : b.sort = .param
  function : b.function = some f
  param : b ∈ F.model.paramsOf f
  taken : b.key = some key
  fallback : b.fallback = none
  call : F.Has site.call
  passed : passed? (site.call.list .arguments) site.offset b = some ⟨literal, some key⟩
  plain : literal.isPlainObject = true
  properties : ∀ p ∈ literal.list .properties, p.kind = .property
  found : literal.literalProperties.get? key = some value

namespace Facts.Takes

section

variable (h : F.Takes n b f site literal key value)
include h

lemma exists_index : ∃ index, b.paramIndex = some index ∧ b.rest = false ∧
      hidesPosition (site.call.list .arguments) (index + site.offset) = false ∧
      (site.call.list .arguments)[index + site.offset]? = some literal := by
  have hpass := h.passed
  unfold passed? at hpass
  split at hpass
  · cases hpass
  next hrest =>
    obtain ⟨index, hidx, hpass⟩ := Option.bind_eq_some_iff.mp hpass
    dsimp only at hpass
    split at hpass
    · cases hpass
    next hhidden =>
      obtain ⟨a, ha, hpass⟩ := Option.map_eq_some_iff.mp hpass
      obtain rfl : a = literal := congrArg Passed.argument hpass
      exact ⟨index, hidx, by simpa using hrest, by simpa using hhidden, ha⟩

lemma has_literal : F.Has literal := by
  obtain ⟨index, -, -, -, hlit⟩ := h.exists_index
  exact h.call.mem_list (mem_of_getElem? hlit)

lemma kind_literal : literal.kind = .objectExpression := kind_of_isPlainObject h.plain

lemma run_argumentPaths (hsites : (callSites f).run F s = .ok [site] u) :
    ∃ path : ArgumentPath, path.argument = literal ∧ path.overloaded = false ∧
      (argumentPaths b none).run F s = .ok [path] u := by
  obtain ⟨index, hidx, hrest, hhidden, hlit⟩ := h.exists_index
  refine ⟨⟨literal, site.call, index + site.offset, site.route, false⟩, rfl, rfl, ?_⟩
  simp only [argumentPaths, h.function, hidx, hrest, Bool.false_eq_true, if_false]
  rw [run_bind hsites]
  simp [pathsAt, hhidden, hlit, run_pure]

lemma callbackSource?_eq_none (m : Model) : callbackSource? m f b = none := by
  unfold callbackSource?
  simp only [h.taken, Option.isNone_some, Bool.and_false, Bool.false_eq_true, if_false]
  cases m.parent? f with
  | none => rfl
  | some call =>
    simp only [bind_some]
    split
    · cases call.child? .callee with
      | none => rfl
      | some callee =>
        simp only [bind_some]
        split <;> rfl
    · rfl

lemma isLocation_eq_false : F.isLocation (some literal) = false := by
  have hname : literal.memberName? = none := by simp [memberName?, h.kind_literal]
  have hglo : F.isGlobalName (some literal) "location" = false := by
    unfold isGlobalName
    split
    next g k _ hk =>
      cases hk
      simp [Globals.isGlobalName, h.kind_literal, Globals.globalMember?, hname]
    · rfl
  simp [isLocation, hglo, reads, hname]

lemma shownTaint?_name : F.shownTaint? (some n) = none := by
  simp [shownTaint?, h.name, h.binding]

lemma shownTaint?_literal : F.shownTaint? (some literal) = none := by
  simp only [shownTaint?, h.kind_literal]

lemma has_of_mem_propertyValues {k : Node} (hk : some k ∈ literal.propertyValues) : F.Has k := by
  obtain ⟨p, hp, hk⟩ := mem_map.mp hk
  exact (h.has_literal.mem_list hp).child? .value k hk

lemma answer_taintRule {trace : Option Node → Engine Taint} (hframes : s.frames = [])
    (hcallers : 0 < F.limits.maxCallers) (hevent : b.uid ∉ s.eventParams) (hhandler : f.ident ∉ s.handlers)
    (hsites : (callSites f).run F s = .ok [site] u)
    (hprop : (objectProperty (some literal) key (depth + 1)).run F u = .ok (some value) t) :
    answer ((taintRule trace depth n).run F s) = (answer ((trace (some value)).run F t)).map fun c => combine [c] := by
  have hbound : s.boundArgument? b = none := by simp [Session.boundArgument?, hframes]
  obtain ⟨path, harg, hpath, hpaths⟩ := h.run_argumentPaths hsites
  rw [run_taintRule_param h.name h.binding hbound h.sort,
    run_traceParam h.function hevent hhandler (h.callbackSource?_eq_none _),
    answer_traceSupplied h.taken h.fallback hpaths hpath hcallers, harg,
    run_traceProperty h.isLocation_eq_false hprop]

end

end Facts.Takes

/-- A state outside of calls in which nothing is known about the taint of the name and of the
literal, the function handles no messages, and the call is the only one that is found for it. -/
structure Session.Outside (F : Facts) (n : Node) (b : Binding) (f : Node) (site : CallSite) (literal : Node)
    (s : Session) : Prop where
  reachable : s.Reachable F
  frames : s.frames = []
  name : s.Untraced F n
  argument : s.Untraced F literal
  object : ⟨.object, literal.ident, none⟩ ∉ s.visited
  events : b.uid ∉ s.eventParams
  handlers : f.ident ∉ s.handlers
  sites : ∃ u, (callSites f).run F { s with visited := n.taintKey :: s.visited } = .ok [site] u

section Ways

variable {root : Node} (hroot : root.WellNumbered) (hF : F.Describes root) (h : F.Takes n b f site literal key value)
  (hs : s.Outside F n b f site literal)

include hroot hF h hs

lemma answer_traceSource_outside (hcallers : 0 < F.limits.maxCallers) (hdepth : depth < F.limits.maxDepth) :
    ∃ w, w.Reachable F ∧ w.frames = [] ∧ w.visited = n.taintKey :: s.visited ∧ w.taints = s.taints ∧
      answer ((traceSource (some n) depth).run F s) =
        (answer ((traceSource (some value) (depth + 1)).run F w)).map fun c => combine [c] := by
  obtain ⟨u, hsites⟩ := hs.sites
  have hf : F.Has f := ((hF.sound hroot).model.binding? h.binding).function f h.function
  have hu : u.Reachable F := Session.Reachable.query_eq_ok (q := .callSites f) (.mark _ hs.reachable) hf hsites
  have huframes : u.frames = [] := (frames_run_ok hsites).trans hs.frames
  have huvisited : u.visited = n.taintKey :: s.visited := visited_of_run_eq_ok hsites
  have hobj : (Question.object literal (depth + 1)).key ∉ u.visited := by
    rw [huvisited, mem_cons, not_or]
    exact ⟨by simp [Question.key, taintKey], hs.object⟩
  obtain ⟨w, hprop, hw⟩ := exists_run_objectProperty hroot hF hu huframes h.has_literal h.plain hdepth hobj
    h.found
  have hutaints := ((steps_callSites f).changesBy.sameApart_of_run hsites).taints
  have hwtaints := ((steps_objectProperty ..).changesBy.sameApart_of_run hprop).taints
  refine ⟨w, hw, (frames_run_ok hprop).trans huframes, (visited_of_run_eq_ok hprop).trans huvisited,
    hwtaints.trans hutaints, ?_⟩
  have hmiss := hs.name.get?_eq_none h.shownTaint?_name
  rw [answer_traceSource_fresh (by simp [h.name]) (Nat.le_of_lt hdepth) (fun _ => hmiss) hs.name.closed]
  simp only [← run_traceWithin_below]
  exact h.answer_taintRule hs.frames hcallers hs.events hs.handlers hsites hprop

lemma answer_traceSource_inside (outer : List Frame) (hdepth : depth < F.limits.maxDepth) :
    answer ((traceSource (some n) depth).run F { s with frames := outer ++ [ofCall F.model f site.call site.offset] }) =
      (answer ((literal.propertyValues.mapM (traceSource · (depth + 2))).run F
        { s with visited := literal.taintKey :: n.taintKey :: s.visited, frames := outer })).map combine := by
  have hlook := lookup_ofCall h.param (fun c hc => hF.eq_of_uid h.binding hc) h.passed
  let framed := { s with frames := outer ++ [ofCall F.model f site.call site.offset] }
  have hbound : Session.boundArgument? { framed with visited := n.taintKey :: s.visited } b =
      some (outer.length, ⟨literal, some key⟩) := by
    simp [Session.boundArgument?, framed, zipIdx_append, hlook]
  have hopen : literal.taintKey ∉ n.taintKey :: s.visited := by
    intro hmem
    have hkey : literal.taintKey = n.taintKey := (mem_cons.mp hmem).resolve_right hs.argument.closed
    obtain rfl := hF.unique hroot literal n h.has_literal h.has (Key.mk.inj hkey).2.1
    cases h.name.symm.trans h.kind_literal
  rw [answer_traceSource_fresh (s := framed) (by simp [h.name]) (Nat.le_of_lt hdepth) (by simp [framed]) hs.name.closed,
    run_taintRule_bound h.name h.binding hbound, answer_reframe, run_traceWithin_below, take_left]
  apply answer_traceSource_literal h.kind_literal h.properties hdepth _ hopen
  exact fun _ => hs.argument.get?_eq_none h.shownTaint?_literal

lemma answer_outside_shown {c : Taint} (hcallers : 0 < F.limits.maxCallers) (hdepth : depth < F.limits.maxDepth)
    (hnew : s.Untraced F value) (hshown : F.shownTaint? (some value) = some c) :
    answer ((traceSource (some n) depth).run F s) = .ok c := by
  have hval := h.has_of_mem_propertyValues (mem_propertyValues h.found)
  obtain ⟨w, -, -, hvis, htaints, hanswer⟩ := answer_traceSource_outside hroot hF h hs hcallers hdepth
  have hmarked := hnew.mark (hF.unique hroot) hval h.has [] hshown h.shownTaint?_name
  have hw : w.Untraced F value := ⟨hvis ▸ hmarked.closed, htaints ▸ hmarked.known⟩
  have hhas (k : Node) (hk : some value = some k) : F.Has k ∧ w.Untraced F k := by
    cases hk
    exact ⟨hval, hw⟩
  obtain ⟨t, hrun, -⟩ := run_traceSource_shown (hF.unique hroot) hhas hshown hdepth
  rw [hanswer, hrun]
  exact congrArg Except.ok (combine_of_shownTaint? hshown)

lemma answer_inside_shown {taints : List Taint} (outer : List Frame) (hdepth : depth + 2 ≤ F.limits.maxDepth)
    (hnew : ∀ k, some k ∈ literal.propertyValues → s.Untraced F k)
    (hshown : literal.propertyValues.map F.shownTaint? = taints.map some) : answer ((traceSource (some n) depth).run F
        { s with frames := outer ++ [ofCall F.model f site.call site.offset] }) =
      .ok (combine taints) := by
  have huniq := hF.unique hroot
  let below := { s with visited := literal.taintKey :: n.taintKey :: s.visited, frames := outer }
  have hhas (k : Node) (hk : some k ∈ literal.propertyValues) : F.Has k ∧ below.Untraced F k := by
    have hhas := h.has_of_mem_propertyValues hk
    obtain ⟨c, -, hc⟩ : ∃ c ∈ taints, some c = F.shownTaint? (some k) :=
      mem_map.mp (hshown ▸ mem_map_of_mem hk)
    have hmarked := (hnew k hk).mark huniq hhas h.has outer hc.symm h.shownTaint?_name
    exact ⟨hhas, hmarked.mark huniq hhas h.has_literal outer hc.symm h.shownTaint?_literal⟩
  obtain ⟨t, hrun⟩ := run_mapM_traceSource_shown huniq hhas hshown hdepth
  rw [answer_traceSource_inside hroot hF h hs outer (Nat.lt_of_succ_lt hdepth), hrun]
  rfl

end Ways

/-- Outside of calls, a parameter that is taken out of its argument under a key is as tainted as the
value that the only call passes under that key. While the call is being gone through, it is as
tainted as all values together. So the two have the same kind and label if and only if no value is
worse than the one under the key and no other label comes before its own. -/
theorem destructured_taint {root : Node} (hroot : root.WellNumbered) (hF : F.Describes root)
    (h : F.Takes n b f site literal key value) (hs : s.Outside F n b f site literal)
    (hcallers : 0 < F.limits.maxCallers)
    (hdepth : depth < F.limits.maxDepth) :
    (∃ w, w.Reachable F ∧ w.frames = [] ∧ w.visited = n.taintKey :: s.visited ∧ w.taints = s.taints ∧
      answer ((traceSource (some n) depth).run F s) =
        (answer ((traceSource (some value) (depth + 1)).run F w)).map fun c => combine [c]) ∧
    (∀ outer, answer ((traceSource (some n) depth).run F
        { s with frames := outer ++ [ofCall F.model f site.call site.offset] }) =
      (answer ((literal.propertyValues.mapM (traceSource · (depth + 2))).run F
        { s with visited := literal.taintKey :: n.taintKey :: s.visited, frames := outer })).map combine) ∧
    ∀ taints, literal.propertyValues.map F.shownTaint? = taints.map some → depth + 2 ≤ F.limits.maxDepth →
      (∀ k, some k ∈ literal.propertyValues → s.Untraced F k) →
      ∃ c ∈ taints, F.shownTaint? (some value) = some c ∧
        answer ((traceSource (some n) depth).run F s) = .ok c ∧
        (∀ outer, answer ((traceSource (some n) depth).run F
            { s with frames := outer ++ [ofCall F.model f site.call site.offset] }) =
          .ok (combine taints)) ∧
        ((combine taints).kind = c.kind ∧ (combine taints).label = c.label ↔
          (∀ d ∈ taints, d.kind.rank ≤ c.kind.rank) ∧
            ∀ d, taints.find? isUserControlled = some d → d.label = c.label) := by
  refine ⟨answer_traceSource_outside hroot hF h hs hcallers hdepth,
    fun outer => answer_traceSource_inside hroot hF h hs outer hdepth, ?_⟩
  intro taints hshown hroom hnew
  have hval := mem_propertyValues h.found
  obtain ⟨c, hc, hcshown⟩ : ∃ c ∈ taints, some c = F.shownTaint? (some value) :=
    mem_map.mp (hshown ▸ mem_map_of_mem hval)
  refine ⟨c, hc, hcshown.symm, ?_, ?_, combine_same_iff hc (combine_of_shownTaint? hcshown.symm)⟩
  · exact answer_outside_shown hroot hF h hs hcallers hdepth (hnew value hval) hcshown.symm
  · exact fun outer => answer_inside_shown hroot hF h hs outer hroom hnew hshown

namespace Picked

def use : Node := .identifier 12 "p"

def function : Node :=
  .function 1 (.identifier 2 "f") [.branch 3 .objectPattern [(.properties,
    some (.entry 4 "a" (.identifier 6 "p"))), (.properties, some (.entry 7 "b" (.identifier 9
    "q")))]] (.block 10 [.returning 11 use])

def call (literal : Node) : Node := .call 14 (.identifier 15 "f") [literal]

def program (literal : Node) : Node :=
  .script [function, .statement 13 (call literal)]

def search : Node := .member 19 (.identifier 21 "location") "search"

def tainted : Node :=
  .object 16 [.entry 17 "a" search, .entry 22 "b" (.textLiteral 24 "x")]

def clean : Node :=
  .object 16 [.entry 17 "a" (.textLiteral 19 "x"), .entry 20 "b" (.member 22 (.identifier 24
    "location") "hash")]

def takes (m : Model) (b : Binding) : Bool :=
  b.sort == .param && b.function.any (·.ident == function.ident) && (m.paramsOf function).any (·.uid == b.uid) &&
    b.key == some "a" && b.fallback.isNone && !b.rest && b.paramIndex == some 0

def check : Bool :=
  match Model.ofProgram (program tainted) "" false with
  | .ok m =>
    let F := ofModel m {}
    (m.binding? use).any (takes m) && tainted.propertyValues.map F.shownTaint? ==
        [some (.source "location.search" search), some .literal] &&
      match (callSites function).run F { visited := [use.taintKey] } with
      | .ok [site] _ => site.call.ident == (call tainted).ident && site.offset == 0
      | _ => false
  | .error _ => false

def verdicts (literal : Node) : Option (List (TaintKind × Option String)) :=
  match Model.ofProgram (program literal) "" false with
  | .ok m =>
    let F := ofModel m {}
    match (traceSource (some use) 0).run F {},
      (traceSource (some use) 0).run F { frames := [ofCall m function (call literal) 0] } with
    | .ok c _, .ok d _ => some [(c.kind, c.label), (d.kind, d.label)]
    | _, _ => none
  | .error _ => none

end Picked

open Picked

/-- The value under the key is the worst one. -/
theorem destructured_taint_picked :
    (program tainted).WellNumbered ∧ ∃ (F : Facts) (b : Binding) (site : CallSite),
      F.Describes (program tainted) ∧
      F.Takes use b function site tainted "a" search ∧
      Session.Outside F use b function site tainted {} ∧
      answer ((traceSource (some use) 0).run F {}) = .ok (.source "location.search" search) ∧
      answer ((traceSource (some use) 0).run F
        { frames := [ofCall F.model function site.call site.offset] }) =
          .ok (.source "location.search" search) := by
  obtain ⟨hroot, m, hm, hF⟩ := (program tainted).exists_described (by decide)
  let F := ofModel m {}
  have hsound := hF.sound hroot.toWellNumbered
  have huniq := hF.unique hroot.toWellNumbered
  have hfun : F.Has function := hF.has_walk 1 rfl
  have hcheck : check = true := by decide +kernel
  simp only [check, hm, Bool.and_eq_true, beq_iff_eq] at hcheck
  obtain ⟨⟨htakes, hshown⟩, hsites⟩ := hcheck
  obtain ⟨b, hb, htakes⟩ := (Option.any_eq_true _ _).mp htakes
  simp only [takes, Bool.and_eq_true, beq_iff_eq, isNone_iff_eq_none, Bool.not_eq_true'] at htakes
  obtain ⟨⟨⟨⟨⟨⟨hsort, hdecl⟩, hparam⟩, hkey⟩, hfall⟩, hrest⟩, hidx⟩ := htakes
  split at hsites
  next site u hrun =>
    simp only [Bool.and_eq_true, beq_iff_eq] at hsites
    have hmarked : Session.Reachable F { visited := [use.taintKey] } := .mark _ .start
    have hcall := hmarked.has_callSites hsound hfun hrun site mem_cons_self
    obtain ⟨call, offset, route⟩ := site
    obtain rfl : call = Picked.call tainted := huniq _ _ hcall (hF.has_walk 14 rfl) hsites.1
    obtain rfl : offset = 0 := hsites.2
    obtain ⟨g, hg, hid⟩ := (Option.any_eq_true _ _).mp hdecl
    obtain rfl := huniq g _ ((hsound.model.binding? hb).function g hg) hfun (eq_of_beq hid)
    obtain ⟨c, hc, huid⟩ := any_eq_true.mp hparam
    obtain rfl := hF.eq_of_uid hb hc (eq_of_beq huid)
    have htakes : F.Takes use c function ⟨Picked.call tainted, 0, route⟩ tainted "a"
        search := by
      refine ⟨hF.has_walk 12 rfl, rfl, hb, hsort, hg, hc, hkey, hfall, hF.has_walk 14 rfl,
        ?_, by decide, by decide, rfl⟩
      simp only [passed?, hrest, hidx, hkey]
      rfl
    have hnew (n : Node) : Session.Untraced F {} n := ⟨by simp, fun _ h => absurd h (some_ne_none _).symm⟩
    have houtside : Session.Outside F use c function ⟨Picked.call tainted, 0, route⟩
        tainted {} :=
      ⟨.start, rfl, hnew _, hnew _, by simp, by simp, by simp, u, hrun⟩
    have hcallers : 0 < F.limits.maxCallers := Nat.zero_lt_succ _
    have hdepth : 0 < F.limits.maxDepth := Nat.zero_lt_succ _
    obtain ⟨-, -, hagree⟩ := destructured_taint hroot.toWellNumbered hF htakes houtside hcallers hdepth
    obtain ⟨d, -, hd, hout, hin, -⟩ := hagree [.source "location.search" search, .literal] hshown
      (Nat.le_add_left _ _) fun k _ => hnew k
    obtain rfl : .source "location.search" search = d :=
      some.inj ((List.cons.inj hshown).1.symm.trans hd)
    exact ⟨hroot.toWellNumbered, F, c, _, hF, htakes, houtside, hout, hin []⟩
  · cases hsites

/-- A user-controlled value under another key taints the name only while the call is being gone
through. -/
theorem destructured_taint_differs :
    clean.isPlainObject = true ∧
      verdicts clean = some [(.literal, none), (.userControlled, some "location.hash")] := by
  decide +kernel

end ScriptAudit
