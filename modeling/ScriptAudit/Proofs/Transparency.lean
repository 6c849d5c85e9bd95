import ScriptAudit.Proofs.Query
import ScriptAudit.Proofs.Resolve.Truthful

/-!
# What was asked before does not show

The answers that the program settles are the same in every state of an analysis.
-/

namespace ScriptAudit

open Engine Facts Memory

variable {F : Facts} {α : Type} {s t : Session} {root : Node}

lemma Memory.Faithful.of_remembered {m m' : Memory} (h : m.Faithful F)
    (hremembered : ∀ (β : Type) (q : Question β), q.remembered m' = q.remembered m)
    (hshapes : m'.shapes = m.shapes) : m'.Faithful F := by
  intro β q a hq ha
  rw [hremembered] at ha
  refine (h β q a hq ha).widen fun ref shape href => ⟨shape, ?_, .refl shape⟩
  rwa [hshapes]

lemma Facts.traces_faithful (F : Facts) : F.Traces (Faithful F) fun _ => True where
  stable := Faithful.stable
  taints _ _ _ := trivial
  note h _ := h.of_remembered (fun _ q => by cases q <;> rfl) rfl
  plain _ := trivial
  fixed _ := trivial
  eventData _ _ _ := trivial
  eventKey _ _ _ _ _ _ := trivial

lemma Facts.Describes.unique (hF : F.Describes root) (hroot : root.WellNumbered) (n k : Node) (hn : F.Has n)
    (hk : F.Has k) (hid : n.ident = k.ident) : n = k := by
  unfold Facts.Has at hn hk
  rw [hF.root_eq] at hn hk
  exact hroot.unique n k hn hk hid

lemma Session.Reachable.faithful (hroot : root.WellNumbered) (hF : F.Describes root) (hs : s.Reachable F) :
    s.toMemory.Faithful F := by
  have hsound := hF.sound hroot
  have hans := (answerWithin_truthful hsound (hF.unique hroot) F.openQuestions).1
  induction hs with
  | start => exact Faithful.empty
  | query hs hq ih =>
    have hmeets := Query.meets_engine_keeping F.traces_faithful hsound
      (fun f m hm => hm.of_remembered (fun _ q => by cases q <;> rfl) rfl) hq
    exact (hmeets.run_keeping hsound Faithful.stable hans (hs.within hsound) ih).2
  | mark _ _ ih => exact ih
  | bind _ _ ih => exact ih

namespace Question

def Settled (F : Facts) (frames : List Frame) : {α : Type} → Question α → Prop
  | _, .values n none _ => ∃ texts, F.HasTexts frames n texts
  | _, .values n (some key) _ => ∃ texts, F.HasMember frames n key texts
  | _, .object n _ => ∃ shape, F.HasShape frames n shape
  | _, .array n _ => ∃ elements, F.HasElements frames n elements
  | _, .functions n _ => ∃ fs, F.HasFunctions frames n fs
  | _, .aliases _ => False

def Same (F : Facts) (frames : List Frame) : {α : Type} → Question α → α → Memory → α → Memory → Prop
  | _, .values n none _, a, _, a', _ => F.HasTexts frames n a ∧ a' = a
  | _, .values n (some key) _, a, _, a', _ => F.HasMember frames n key a ∧ a' = a
  | _, .object n _, a, m, a', m' => ∃ shape, F.HasShape frames n shape ∧ m.Shows a shape ∧ m'.Shows a' shape
  | _, .array n _, a, _, a', _ => F.HasElements frames n a ∧ a' = a
  | _, .functions n _, a, _, a', _ => F.HasFunctions frames n a ∧ a' = a
  | _, .aliases _, a, _, a', _ => a' = a

lemma Settled.same {frames : List Frame} {q : Question α} {a a' : α} {m m' : Memory} (h : q.Settled F frames)
    (ha : q.Right F frames a m) (ha' : q.Right F frames a' m') : q.Same F frames a m a' m' := by
  cases q with
  | values n property depth =>
    cases property with
    | none =>
      obtain ⟨texts, htexts⟩ := h
      obtain rfl := ha texts htexts
      exact ⟨htexts, ha' a htexts⟩
    | some key =>
      obtain ⟨texts, htexts⟩ := h
      obtain rfl := ha texts htexts
      exact ⟨htexts, ha' a htexts⟩
  | object n depth =>
    obtain ⟨shape, hshape⟩ := h
    exact ⟨shape, hshape, ha shape hshape, ha' shape hshape⟩
  | array n depth =>
    obtain ⟨elements, helems⟩ := h
    obtain rfl := ha elements helems
    exact ⟨helems, ha' a helems⟩
  | functions n depth =>
    obtain ⟨fs, hfs⟩ := h
    obtain rfl := ha fs hfs
    exact ⟨hfs, ha' a hfs⟩
  | aliases n => exact h.elim

end Question

lemma Session.Reachable.right (hroot : root.WellNumbered) (hF : F.Describes root) (hs : s.Reachable F)
    {q : Question α} (hq : q.Asked F) {a : α} (hrun : (ask q).run F s = .ok a t) (hwhole : s.Uncut t) :
    q.Right F s.frames a t.toMemory := by
  have hsound := hF.sound hroot
  have hright := (answerWithin_truthful hsound (hF.unique hroot) F.openQuestions).2
  exact hright α q s t (some 0) a (nesting_le_open F _ _) hq q.after_start (hs.within hsound)
    (hs.faithful hroot hF) hrun hwhole

/-- In any two states of an analysis a question whose answer the program settles has the same
answer, unless something is refused or cut off. An object has its settled properties in both, in the
same order and with the same values, and can have more after them. -/
theorem settled_answer_same {root : Node} (hroot : root.WellNumbered) (hF : F.Describes root)
    {q : Question α} (hq : q.Asked F) {s' t' : Session} (hs : s.Reachable F) (hs' : s'.Reachable F)
    (hframes : s'.frames = s.frames) (hsettled : q.Settled F s.frames) {a a' : α}
    (hrun : (ask q).run F s = .ok a t) (hwhole : s.Uncut t)
    (hrun' : (ask q).run F s' = .ok a' t') (hwhole' : s'.Uncut t') :
    q.Same F s.frames a t.toMemory a' t'.toMemory := by
  have ha := hs.right hroot hF hq hrun hwhole
  have ha' := hs'.right hroot hF hq hrun' hwhole'
  rw [hframes] at ha'
  exact hsettled.same ha ha'

namespace Extended

def literal : Node :=
  .object 4 [.entry 5 "a" (.textLiteral 7 "x")]

def name : Node := .identifier 11 "o"

def program : Node :=
  .script [.declaration 1 "o" literal, .statement 8 (.assign 9 (.branch 10 .memberExpression
    [(.object, some name), (.property, some (.identifier 12 "b"))]) (.textLiteral 13 "y"))]

def resolved (F : Facts) : Session :=
  Outcome.session ((Query.ask (.object name 0)).engine.run F {})

def declares (F : Facts) : Bool :=
  F.isOriginless name && (F.model.binding? name).any fun b =>
    b.sort.isVariable && b.initial.any fun e =>
      e.isPlainObject && (e.plainShape.properties.get? "a").any (·.ownText? == some "x")

def check : Bool :=
  match Model.ofProgram program "" false with
  | .ok m =>
    let F := ofModel m {}
    match (ask (.values name (some "a") 0)).run F {} with
    | .ok _ t =>
      match (ask (.values name (some "a") 0)).run F (resolved F) with
      | .ok _ t' => declares F && decide (Session.Uncut {} t) && decide ((resolved F).Uncut t')
      | .error _ _ => false
    | .error _ _ => false
  | .error _ => false

lemma settled_of_declares (h : declares F = true) : F.HasMember [] name "a" ["x"] := by
  simp only [declares, Bool.and_eq_true] at h
  obtain ⟨horig, hname⟩ := h
  obtain ⟨b, hb, hname⟩ := (Option.any_eq_true _ _).mp hname
  simp only [Bool.and_eq_true] at hname
  obtain ⟨hsort, hinit⟩ := hname
  obtain ⟨e, he, hplain⟩ := (Option.any_eq_true _ _).mp hinit
  simp only [Bool.and_eq_true] at hplain
  obtain ⟨hplain, hval⟩ := hplain
  obtain ⟨value, hval, htext⟩ := (Option.any_eq_true _ _).mp hval
  have htexts : F.HasTexts [] value ["x"] := .own (eq_of_beq htext)
  have hshape : F.HasShape [] name (some e.plainShape) := .declared rfl hb rfl (.initial hsort he (.plain hplain))
  have hdig : Text.isDigits "a" = false := by decide
  refine .property (fun _ => ["x"]) (by decide) (fun _ _ => rfl) (fun h => absurd (hdig.symm.trans h) nofun)
    (fun es h (_ : none = some es) => absurd (hdig.symm.trans h) nofun) hshape (.own hval) (fun v hv => ?_)
    (fun hnil => ?_) fun hnil => ?_
  · cases hv
    exact htexts
  · cases hnil
  · cases hnil

def keys : Option (List String × List String × Bool) :=
  match Model.ofProgram program "" false with
  | .ok m =>
    let F := ofModel m {}
    match (ask (.object literal 0)).run F {} with
    | .ok (some ref) t =>
      match (ask (.object literal 0)).run F (resolved F) with
      | .ok (some ref') t' => some (((t.shapes[ref]?.getD {}).properties.entries.map (·.1)),
          ((t'.shapes[ref']?.getD {}).properties.entries.map (·.1)),
          decide (Session.Uncut {} t) && decide ((resolved F).Uncut t'))
      | _ => none
    | _ => none
  | .error _ => none

end Extended

open Extended

theorem settled_answer_same_extended :
    program.WellNumbered ∧ ∃ F : Facts, F.Describes program ∧
      (resolved F).Reachable F ∧
      (Question.values name (some "a") 0).Settled F [] ∧ ∃ a t a' t',
        (ask (.values name (some "a") 0)).run F {} = .ok a t ∧ Session.Uncut {} t ∧
        (ask (.values name (some "a") 0)).run F (resolved F) = .ok a' t' ∧
        (resolved F).Uncut t' ∧
        (Question.values name (some "a") 0).Same F [] a t.toMemory a' t'.toMemory := by
  obtain ⟨hroot, m, hm, hF⟩ := program.exists_described (by decide)
  have hname : (ofModel m {}).Has name := hF.has_walk 11 rfl
  have hres : (resolved (ofModel m {})).Reachable (ofModel m {}) := .query .start hname
  have hcheck : check = true := by decide +kernel
  simp only [check, hm] at hcheck
  split at hcheck
  next a t hrun =>
    split at hcheck
    next a' t' hrun' =>
      simp only [Bool.and_eq_true, decide_eq_true_eq] at hcheck
      obtain ⟨⟨hdecls, hwhole⟩, hwhole'⟩ := hcheck
      have hsettled : (Question.values name (some "a") 0).Settled (ofModel m {}) [] :=
        ⟨_, settled_of_declares hdecls⟩
      have hframes : (resolved (ofModel m {})).frames = [] :=
        (session_runWith _ (balanced_answer _) _ _).2
      refine ⟨hroot.toWellNumbered, _, hF, hres, hsettled, a, t, a', t', hrun, hwhole, hrun', hwhole', ?_⟩
      exact settled_answer_same (q := .values name (some "a") 0) hroot.toWellNumbered hF hname
        .start hres hframes hsettled hrun hwhole hrun' hwhole'
    · cases hcheck
  · cases hcheck

/-- A literal has more properties once a name that holds it has been asked for. -/
theorem Extended.literal_gains_property : keys = some (["a"], ["a", "b"], true) := by
  decide +kernel

end ScriptAudit
