import ScriptAudit.Proofs.Resolve.Passing

/-!
# Parts that patterns assign

A pattern gives each of its identifiers a part of the value that is matched.
-/

namespace ScriptAudit

open List Model Node

/-- A step from a value to a part of it. The key of a property is missing if it is computed. -/
inductive PartStep where
  | property (key : Option String)
  | element (index : Nat)
  | rest
  deriving DecidableEq

/-- The pattern assigns to the identifier `x` the part that the steps lead to. -/
inductive Node.Assigns : Node → List PartStep → Node → Prop
  | name {x : Node} : x.kind = .identifier → Assigns x [] x
  | fallback {p q x : Node} {steps : List PartStep} : p.kind = .assignmentPattern → p.child? .left = some q →
      Assigns q steps x → Assigns p steps x
  | rest {p q x : Node} {steps : List PartStep} : p.kind = .restElement → p.child? .argument = some q →
      Assigns q steps x → Assigns p (.rest :: steps) x
  | element {p q x : Node} {i} {steps : List PartStep} : p.kind = .arrayPattern →
      (p.slots .elements)[i]? = some (some q) → Assigns q steps x → Assigns p (.element i :: steps) x
  | property {p e q x : Node} {steps : List PartStep} : p.kind = .objectPattern → e ∈ p.list .properties →
      e.kind ≠ .restElement → e.child? .value = some q → Assigns q steps x →
      Assigns p (.property e.propertyKey? :: steps) x
  | others {p e q x : Node} {steps : List PartStep} : p.kind = .objectPattern → e ∈ p.list .properties →
      e.kind = .restElement → e.child? .argument = some q → Assigns q steps x → Assigns p (.rest :: steps) x

namespace PatternPlace

/-- The place that a step leads to. A key is noted only for a property of the whole value. -/
def next (place : PatternPlace) : PartStep → PatternPlace
  | .property key => { key := if place.depth = 0 then key else none, depth := place.depth + 1 }
  | .element _ => { depth := place.depth + 1 }
  | .rest => { rest := true, depth := place.depth + 1 }

def keyAfter (place : PatternPlace) : List PartStep → Option String
  | [] => place.key
  | [.property key] => if place.depth = 0 then key else none
  | _ => none

def restAfter (place : PatternPlace) (steps : List PartStep) : Bool :=
  (steps.getLast?.map (· == .rest)).getD place.rest

variable (place : PatternPlace) (step : PartStep) (steps : List PartStep)

lemma keyAfter_next : (place.next step).keyAfter steps = place.keyAfter (step :: steps) := by
  cases steps with
  | nil => cases step <;> rfl
  | cons first rest => cases step <;> cases first <;> cases rest <;> rfl

lemma restAfter_next : (place.next step).restAfter steps = place.restAfter (step :: steps) := by
  cases steps with
  | nil => cases step <;> rfl
  | cons first rest => simp [restAfter, List.getLast?_cons]

end PatternPlace

/-- The target lies where the steps lead to from a place. -/
def PatternTarget.LiesAt (t : PatternTarget) (place : PatternPlace) (steps : List PartStep) : Prop :=
  t.place.key = place.keyAfter steps ∧ t.place.rest = place.restAfter steps ∧
    t.place.depth = place.depth + steps.length

lemma PatternTarget.LiesAt.next {t : PatternTarget} {place : PatternPlace} {steps : List PartStep} (step : PartStep)
    (h : t.LiesAt (place.next step) steps) : t.LiesAt place (step :: steps) := by
  have depth : (place.next step).depth = place.depth + 1 := by cases step <;> rfl
  unfold LiesAt at h ⊢
  rwa [place.keyAfter_next, place.restAfter_next, depth, Nat.add_assoc, Nat.add_comm 1] at h

namespace Node

variable {n x : Node} {place : PatternPlace} {steps : List PartStep} {t : PatternTarget}

/-- A target is an identifier that the pattern assigns a part to, and its place tells the way to
this part. -/
lemma exists_assigns (ht : t ∈ n.targets place) : ∃ steps, n.Assigns steps t.identifier ∧ t.LiesAt place steps := by
  induction hsize : sizeOf n using Nat.strongRecOn generalizing n place with
  | ind size ih =>
    subst hsize
    have sizeOf_child {m q : Node} {f : Field} (hq : m.child? f = some q) : sizeOf q < sizeOf m :=
      sizeOf_link_lt (child?_mem_links hq)
    have sizeOf_item {q : Node} {f : Field} (hq : q ∈ n.list f) : sizeOf q < sizeOf n :=
      sizeOf_link_lt (mem_list_iff.mp hq)
    have after {q : Node} (step : PartStep) (smaller : sizeOf q < sizeOf n) (ht : t ∈ q.targets (place.next step)) :
        ∃ steps, q.Assigns steps t.identifier ∧ t.LiesAt place (step :: steps) := by
      obtain ⟨steps, assigns, lies⟩ := ih _ smaller ht rfl
      exact ⟨steps, assigns, lies.next⟩
    rcases mem_targets_iff.mp ht with ⟨hk, rfl⟩ | ⟨hk, q, hq, ht⟩ | ⟨hk, q, hq, ht⟩ | ⟨hk, e, he, ht⟩ | ⟨hk, q, hq, ht⟩
    · exact ⟨[], .name hk, rfl, rfl, rfl⟩
    · obtain ⟨steps, assigns, noted⟩ := ih _ (sizeOf_child hq) ht rfl
      exact ⟨steps, .fallback hk hq assigns, noted⟩
    · obtain ⟨steps, assigns, noted⟩ := after .rest (sizeOf_child hq) ht
      exact ⟨_, .rest hk hq assigns, noted⟩
    · rcases mem_targetsOfProperty_iff.mp ht with ⟨hrest, q, hq, ht⟩ | ⟨hnamed, q, hq, ht⟩
      · obtain ⟨steps, assigns, noted⟩ := after .rest (Nat.lt_trans (sizeOf_child hq) (sizeOf_item he)) ht
        exact ⟨_, .others hk he hrest hq assigns, noted⟩
      · obtain ⟨steps, assigns, noted⟩ := after (.property e.propertyKey?)
          (Nat.lt_trans (sizeOf_child hq) (sizeOf_item he)) ht
        exact ⟨_, .property hk he hnamed hq assigns, noted⟩
    · obtain ⟨_, hslot, rfl⟩ := mem_filterMap.mp hq
      obtain ⟨i, hi⟩ := mem_iff_getElem?.mp hslot
      obtain ⟨steps, assigns, noted⟩ := after (.element i) (sizeOf_item hq) ht
      exact ⟨_, .element hk hi assigns, noted⟩

lemma Assigns.exists_target (h : n.Assigns steps x) (place : PatternPlace) :
    ∃ t ∈ n.targets place, t.identifier = x ∧ t.LiesAt place steps := by
  induction h generalizing place with
  | name hk => exact ⟨⟨_, place⟩, mem_targets_iff.mpr (.inl ⟨hk, rfl⟩), rfl, rfl, rfl, rfl⟩
  | fallback hk hq _ ih =>
    obtain ⟨t, ht, name, lies⟩ := ih { place with fallback := _ }
    exact ⟨t, mem_targets_iff.mpr (.inr (.inl ⟨hk, _, hq, ht⟩)), name, lies⟩
  | rest hk hq _ ih =>
    obtain ⟨t, ht, name, lies⟩ := ih (place.next .rest)
    exact ⟨t, mem_targets_iff.mpr (.inr (.inr (.inl ⟨hk, _, hq, ht⟩))), name, lies.next⟩
  | element hk hq _ ih =>
    obtain ⟨t, ht, name, lies⟩ := ih (place.next (.element _))
    have item : _ ∈ list _ _ := mem_filterMap.mpr ⟨_, mem_of_getElem? hq, rfl⟩
    exact ⟨t, mem_targets_iff.mpr (.inr (.inr (.inr (.inr ⟨hk, _, item, ht⟩)))), name, lies.next⟩
  | property hk he hnamed hq _ ih =>
    obtain ⟨t, ht, name, lies⟩ := ih (place.next (.property _))
    have ht := mem_targetsOfProperty_iff.mpr (.inr ⟨hnamed, _, hq, ht⟩)
    exact ⟨t, mem_targets_iff.mpr (.inr (.inr (.inr (.inl ⟨hk, _, he, ht⟩)))), name, lies.next⟩
  | others hk he hrest hq _ ih =>
    obtain ⟨t, ht, name, lies⟩ := ih (place.next .rest)
    have ht := mem_targetsOfProperty_iff.mpr (.inl ⟨hrest, _, hq, ht⟩)
    exact ⟨t, mem_targets_iff.mpr (.inr (.inr (.inr (.inl ⟨hk, _, he, ht⟩)))), name, lies.next⟩

end Node

/-- The key of a part that is a property of the whole value. -/
def PartStep.key? : List PartStep → Option String
  | [.property key] => key
  | _ => none

lemma PatternPlace.keyAfter_empty (steps : List PartStep) : keyAfter {} steps = PartStep.key? steps := by
  rcases steps with _ | ⟨_ | _ | _, _ | ⟨_, _⟩⟩ <;> rfl

/-- What a binding that a pattern declares keeps of the way to its part. -/
structure Binding.StandsAt (y : Binding) (d : Build.Declaration) (steps : List PartStep) : Prop where
  key : y.key = PartStep.key? steps
  source : y.source = if steps = [] then none else d.initial
  rest : y.rest = (steps.getLast? == some .rest)

namespace Build

variable {b c : Build} {scope : Nat} {d : Declaration} {t : PatternTarget} {ts : List PatternTarget}

/-- The number of a target at a position of `ts` once `b` has become `c`: that of a binding of its
own, or the one that the scope has for its name, if this was declared before, in `b` or by an
earlier target. -/
def Numbers (b c : Build) (scope : Nat) (d : Declaration) (ts : List PatternTarget) (u : Nat)
    (e : PatternTarget × Nat) : Prop :=
  (∃ y, c.bindings[u]? = some y ∧ y.identifier = e.1.identifier ∧ ∀ steps, e.1.LiesAt {} steps → y.StandsAt d steps) ∨
    d.sort ≠ .param ∧ ∃ x, e.1.identifier.name = some x ∧ c.namesAt scope x = some u ∧
      (b.namesAt scope x ≠ none ∨ ∃ k ∈ ts.take e.2, k.identifier.name = some x)

lemma namesAt_declare (b : Build) (scope : Nat) (ident : Node) (d : Declaration) :
    (∀ x, ident.name ≠ some x → (b.declare scope ident d).2.namesAt scope x = b.namesAt scope x) ∧
    ∀ x u, d.sort ≠ .param → b.namesAt scope x = some u → (b.declare scope ident d).2.namesAt scope x = some u := by
  obtain ⟨c, ⟨eq, -, -, -, same⟩ | ⟨x, v, eq, -, -, -, -, -, same⟩ | ⟨x, eq, name, unknown, -, -, names⟩⟩ :=
    b.declare_cases scope ident d <;> rw [eq]
  · exact ⟨fun _ _ => by rw [same], fun _ _ _ h => same ▸ h⟩
  · exact ⟨fun _ _ => by rw [same], fun _ _ _ h => same ▸ h⟩
  · refine ⟨fun y h => ?_, fun y u sort h => ?_⟩
    · rw [names, if_neg]
      rintro ⟨-, rfl, -⟩
      exact h name
    · rw [names, if_neg, h]
      rintro ⟨-, rfl, -⟩
      simp [h, sort] at unknown

lemma standsAt_binding {steps : List PartStep} (h : t.LiesAt {} steps) (d : Declaration) (u : Nat) (ident : Node)
    (x : String) : ({ d with place := t.place }.binding u scope ident x).StandsAt d steps := by
  obtain ⟨key, rest, depth⟩ := h
  refine ⟨key.trans (PatternPlace.keyAfter_empty steps), ?_, rest.trans ?_⟩
  · cases steps <;> simp_all [Declaration.binding]
  · unfold PatternPlace.restAfter
    cases steps.getLast? <;> rfl

/-- The targets that have a name get numbers one after the other, and the last one is listed first.
-/
lemma numbers_declarePattern (b : Build) (scope : Nat) (pattern : Node) (d : Declaration) :
    Forall₂ (b.Numbers (b.declarePattern scope pattern d).2 scope d (pattern.targets {}))
      (b.declarePattern scope pattern d).1 ((pattern.targets {}).zipIdx.filter
        (·.1.identifier.name.isSome)).reverse := by
  -- carried along: the scope has gained no names but those of the targets so far
  refine And.right (a := ∀ x, (∀ e ∈ pattern.targets {}, e.identifier.name ≠ some x) →
    (b.declarePattern scope pattern d).2.namesAt scope x = b.namesAt scope x) ?_
  apply foldl_induction (fun (acc : List Nat × Build) ts =>
    (∀ x, (∀ e ∈ ts, e.identifier.name ≠ some x) → acc.2.namesAt scope x = b.namesAt scope x) ∧
    Forall₂ (b.Numbers acc.2 scope d ts) acc.1 (ts.zipIdx.filter (·.1.identifier.name.isSome)).reverse)
  · exact ⟨fun _ _ => rfl, .nil⟩
  · rintro ⟨us, c⟩ ts t - ⟨names, numbers⟩
    have kept := keepsBindings_declare c scope t.identifier { d with place := t.place }
    obtain ⟨others, stays⟩ := c.namesAt_declare scope t.identifier { d with place := t.place }
    refine ⟨fun x hx => ?_, ?_⟩
    · simp only [forall_mem_append, forall_mem_singleton] at hx
      exact (others x hx.2).trans (names x hx.1)
    · rw [zipIdx_append, filter_append, reverse_append]
      refine rel_append ?_ (numbers.imp fun u e found => ?_)
      · obtain ⟨e, ⟨eq, name, -⟩ | ⟨x, u, eq, name, known, sort, -⟩ | ⟨x, eq, name, -, pushed, -⟩⟩ :=
          c.declare_cases scope t.identifier { d with place := t.place }
        · simp [eq, name]
        · have stays := stays x u sort known
          simp only [eq, zipIdx_cons, zipIdx_nil, filter_cons, name] at stays ⊢
          refine .cons (.inr ⟨sort, x, name, stays, ?_⟩) .nil
          by_contra! new
          rw [Nat.zero_add, take_left] at new
          simp_all [names x new.2]
        · simp only [eq, zipIdx_cons, zipIdx_nil, filter_cons, name]
          exact .cons (.inl ⟨_, pushed ▸ Array.getElem?_push_size, rfl, fun steps h => standsAt_binding h ..⟩) .nil
      · obtain ⟨y, hy, own⟩ | ⟨sort, x, name, hu, known⟩ := found
        · obtain ⟨writers, hy⟩ := kept u y hy
          exact .inl ⟨_, hy, own.1, fun steps h => ⟨(own.2 steps h).1, (own.2 steps h).2, (own.2 steps h).3⟩⟩
        · refine .inr ⟨sort, x, name, stays x u sort hu, known.imp_right ?_⟩
          rw [take_append]
          rintro ⟨k, hk, name⟩
          exact ⟨k, mem_append_left _ hk, name⟩

end Build

/-- A pattern declares just the identifiers that it would write to, each as often. Their targets lie
where the pattern assigns parts to them, and one whose name is new gets a binding that tells this
way: the key, if it is the only step, the value that is taken apart, if there is a step, and whether
the last step is to a rest. -/
theorem Build.pattern_declares_written (b : Build) (scope : Nat) (pattern : Node) (d : Declaration) :
    pattern.writtenNames.Perm ((pattern.targets {}).map (·.identifier)) ∧
    (∀ t ∈ pattern.targets {}, ∃ steps, pattern.Assigns steps t.identifier ∧ t.LiesAt {} steps) ∧
    (∀ steps x, pattern.Assigns steps x → ∃ t ∈ pattern.targets {}, t.identifier = x ∧ t.LiesAt {} steps) ∧
    Forall₂ (b.Numbers (b.declarePattern scope pattern d).2 scope d (pattern.targets {}))
      (b.declarePattern scope pattern d).1 ((pattern.targets {}).zipIdx.filter (·.1.identifier.name.isSome)).reverse :=
  ⟨writtenNames_perm {} pattern, fun _ => exists_assigns, fun _ _ h => h.exists_target {},
    b.numbers_declarePattern scope pattern d⟩

open Ask Binding Engine ScriptAudit.Frame

variable {F : Facts} {root f : Node} {b : Binding} {index depth : Nat} {s t : Session}
  {property : Option String}

/-- Each binding of a parameter is for an identifier to which the parameter's pattern assigns some
part of the argument. It knows the position of the argument, whether the part is a rest, and a key
if this is all that leads to the part. -/
lemma Facts.Describes.exists_part (hF : F.Describes root) (hroot : root.WellNumbered)
    (hf : root.Below f) (hb : b ∈ F.model.paramsOf f) : ∃ index p steps,
      (f.list .params)[index]? = some p ∧ p.Assigns steps b.identifier ∧ b.function = some f ∧
      b.paramIndex = some index ∧ b.key = PartStep.key? steps ∧
      b.rest = (steps.getLast? == some .rest) := by
  obtain ⟨source, isModule, hm⟩ := hF.model
  obtain ⟨index, t, declared⟩ := declaredBy_params hroot hm hf hb
  obtain ⟨p, hp, ht⟩ := declared.pattern
  obtain ⟨steps, assigns, hkey, hrest, -⟩ := exists_assigns ht
  refine ⟨index, p, steps, hp, declared.identifier ▸ assigns, declared.function,
    declared.paramIndex, ?_, ?_⟩
  · rw [declared.key, hkey, PatternPlace.keyAfter_empty]
  · rw [declared.rest, hrest, PatternPlace.restAfter]
    cases steps.getLast? <;> rfl

/-- A call that passes nothing at the position of a parameter offers all its arguments for a
property of the parameter. -/
structure ArgumentPath.Overloads (path : ArgumentPath) (position : Nat) : Prop where
  missing : (path.call.list .arguments)[position]? = none
  argument : path.argument ∈ path.call.list .arguments

lemma passes_or_overloads {wants : Bool} {site : CallSite} {path : ArgumentPath}
    (h : path ∈ pathsAt index wants site) : path.call = site.call ∧
      (site.call.Passes (index + site.offset) path.argument ∨
        wants = true ∧ path.Overloads (index + site.offset)) := by
  cases hover : path.overloaded with
  | false =>
    obtain ⟨passes, hcall, -⟩ := mem_pathsAt_iff.mp ⟨h, hover⟩
    exact ⟨hcall, .inl passes⟩
  | true =>
    unfold pathsAt at h
    dsimp only at h
    split at h
    · cases h
    · split at h
      · obtain rfl := mem_singleton.mp h
        cases hover
      next hnone =>
        split at h
        next hwants =>
          obtain ⟨⟨a, i⟩, ha, rfl⟩ := mem_map.mp h
          have ha := mem_of_mem_drop (mem_reverse.mp ha)
          exact ⟨rfl, .inr ⟨hwants, hnone, fst_mem_of_mem_zipIdx ha⟩⟩
        · cases h

/-- What a search for the texts of a parameter reads: along the keys, from each argument that the
callers offer for it. -/
def Facts.ReadsAlong (F : Facts) (b : Binding) (keys : List String) (property : Option String)
    (depth : Nat) (s : Session) (texts : List String) : Prop :=
  ∃ paths groups u v, (argumentPaths b property).run F s = .ok paths u ∧
    (readPaths keys depth none paths).run F u = .ok groups v ∧ texts = unite F.limits.maxValues groups

lemma paramValues_cases {texts : List String}
    (hrun : (paramValues b property depth).run F s = .ok texts t) :
    s.frames = [] ∧ s.paramValues.get? (b.uid, b.detail property) = some texts ∨
    ⟨.callers, b.identifier.ident, b.detail property⟩ ∈ s.visited ∧ texts = [] ∨
    F.ReadsAlong b (b.readKeys property) property depth
      { s with visited := ⟨.callers, b.identifier.ident, b.detail property⟩ :: s.visited } texts := by
  unfold run at hrun
  by_cases hknown : s.frames = [] ∧ (s.paramValues.get? (b.uid, b.detail property)).isSome
  · obtain ⟨known, hmemo⟩ := Option.isSome_iff_exists.mp hknown.2
    rw [runWith_paramValues_known hknown.1 hmemo] at hrun
    cases hrun
    exact .inl ⟨hknown.1, hmemo⟩
  · rw [runWith_paramValues_missed (balanced_answer _) fun hframes ↦ by simpa [hframes] using hknown]
      at hrun
    by_cases hopen : ⟨.callers, b.identifier.ident, b.detail property⟩ ∈ s.visited
    · rw [runOnce, if_pos hopen] at hrun
      cases hrun
      exact .inr (.inl ⟨hopen, rfl⟩)
    · obtain ⟨v, hrun⟩ := exists_of_runOnce_eq_ok hopen hrun
      obtain ⟨groups, w, hgroups, hrun⟩ := runWith_bind_ok hrun
      obtain ⟨paths, u, hpaths, hread⟩ := runWith_bind_ok hgroups
      cases hrun
      exact .inr (.inr ⟨paths, groups, u, _, hpaths, hread, rfl⟩)

/-- What a parameter gets from its callers. A call binds it to the argument at its position, with
the key of its part if this is a property of the argument. Paths lead to the arguments at this
position, and if there is none and a property is asked for, to all others. What they supply is
read along the key, if there is one, and the property that is asked for. A rest gets nothing. -/
theorem parameter_read_along_key (hroot : root.WellNumbered) (hF : F.Describes root)
    (hf : root.Below f) (hb : b ∈ F.model.paramsOf f) : ∃ index p steps,
    (f.list .params)[index]? = some p ∧ p.Assigns steps b.identifier ∧
    (∀ call offset passed, (ofCall F.model f call offset).arguments.lookup b.uid = some passed ↔
      steps.getLast? ≠ some .rest ∧ call.Passes (index + offset) passed.argument ∧
        passed.key = PartStep.key? steps) ∧
    (∀ property s paths t, (argumentPaths b property).run F s = .ok paths t →
      steps.getLast? = some .rest ∧ paths = [] ∨
      steps.getLast? ≠ some .rest ∧ ∃ sites, (callSites f).run F s = .ok sites t ∧
        (∀ path ∈ paths, ∃ site ∈ sites, path.call = site.call ∧
          (site.call.Passes (index + site.offset) path.argument ∨
            (property.isSome || (PartStep.key? steps).isSome) = true ∧
              path.Overloads (index + site.offset))) ∧
        ∀ site ∈ sites, ∀ a, site.call.Passes (index + site.offset) a →
          ⟨a, site.call, index + site.offset, site.route, false⟩ ∈ paths) ∧
    ∀ property depth s texts t, (paramValues b property depth).run F s = .ok texts t →
      s.frames = [] ∧ s.paramValues.get? (b.uid, b.detail property) = some texts ∨
      ⟨.callers, b.identifier.ident, b.detail property⟩ ∈ s.visited ∧ texts = [] ∨
      F.ReadsAlong b ((PartStep.key? steps).toList ++ property.toList) property depth
        { s with visited := ⟨.callers, b.identifier.ident, b.detail property⟩ :: s.visited }
        texts := by
  obtain ⟨index, p, steps, hp, assigns, hfun, hindex, hkey, hrest⟩ := hF.exists_part hroot hf hb
  refine ⟨index, p, steps, hp, assigns, fun call offset passed ↦ ?_,
    fun property s paths t hrun ↦ ?_, fun property depth s texts t hrun ↦ ?_⟩
  · rw [hF.lookup_ofCall_iff hb, ← hkey]
    cases hlast : b.rest with
    | true => simp_all [Frame.passed?]
    | false => simp_all [passed?_eq_some_iff]
  · cases hlast : b.rest with
    | true =>
      simp only [argumentPaths, hfun, hindex, hlast, if_true] at hrun
      cases hrun
      exact .inl ⟨by simp_all, rfl⟩
    | false =>
      obtain ⟨sites, hsites, rfl⟩ := exists_of_run_argumentPaths hfun hindex hlast hrun
      refine .inr ⟨by simp_all, sites, hsites, fun path hpath ↦ ?_, fun site hsite a passes ↦ ?_⟩
      · obtain ⟨site, hsite, hpath⟩ := mem_flatMap.mp hpath
        exact ⟨site, hsite, hkey ▸ passes_or_overloads hpath⟩
      · exact mem_flatMap.mpr ⟨site, hsite, mem_pathsAt_of_passes passes _⟩
  · rw [← hkey]
    exact paramValues_cases hrun

namespace Deep

def name : Node := .identifier 9 "o"

def pattern : Node := .branch 3 .objectPattern [(.properties, some (.entry 4 "a" (.branch 6 .objectPattern
  [(.properties, some (.entry 7 "o" name))])))]

def function : Node :=
  .function 1 (.identifier 2 "f") [pattern] (.block 10 [])

def call : Node :=
  .call 12 (.identifier 13 "f") [.object 14 [.entry 15 "u" (.textLiteral 17 "/z")]]

def program : Node :=
  .script [function, .statement 11 call]

def reads (F : Facts) (b : Binding) : Bool :=
  b.identifier.ident == name.ident && match (Ask.paramValues b (some "u") 0).run F {} with
    | .ok texts _ => texts == ["/z"]
    | .error _ _ => false

def check : Bool :=
  match ofProgram program "" false with
  | .ok m => (m.paramsOf function).any (reads (.ofModel m {}))
  | .error _ => false

lemma checked : check = true := by decide +kernel

lemma exists_reads {m : Model} (hm : ofProgram program "" false = .ok m) :
    ∃ b ∈ m.paramsOf function, b.identifier.ident = name.ident ∧
      ∃ t, (Ask.paramValues b (some "u") 0).run (.ofModel m {}) {} = .ok ["/z"] t := by
  have checked := checked
  simp only [check, hm, List.any_eq_true, reads, Bool.and_eq_true, beq_iff_eq] at checked
  obtain ⟨b, hb, hname, hread⟩ := checked
  split at hread
  next texts t hrun => exact ⟨b, hb, hname, t, beq_iff_eq.mp hread ▸ hrun⟩
  next => cases hread

end Deep

theorem parameter_read_along_key_deep : Deep.program.WellNumbered ∧
    Deep.program.Below Deep.function ∧ ∃ F : Facts, F.Describes Deep.program ∧
    ∃ b ∈ F.model.paramsOf Deep.function, ∃ index p steps,
      (Deep.function.list .params)[index]? = some p ∧ p.Assigns steps b.identifier ∧
      ∀ call offset passed,
        (ofCall F.model Deep.function call offset).arguments.lookup b.uid = some passed ↔
          steps.getLast? ≠ some .rest ∧ call.Passes (index + offset) passed.argument ∧
            passed.key = PartStep.key? steps := by
  obtain ⟨hroot, m, hm, hF⟩ := Deep.program.exists_described (by decide)
  have below : Deep.program.Below Deep.function := .link .refl mem_cons_self
  obtain ⟨b, hb, -⟩ := Deep.exists_reads hm
  obtain ⟨index, p, steps, hp, assigns, bound, -⟩ :=
    parameter_read_along_key hroot.toWellNumbered hF below hb
  exact ⟨hroot.toWellNumbered, below, _, hF, b, hb, index, p, steps, hp, assigns, bound⟩

/-- For an identifier two levels down, a property of the argument itself is read. -/
theorem Deep.argument_read_for_part : pattern.Assigns [.property (some "a"), .property (some "o")] name ∧
    ∃ m, ofProgram program "" false = .ok m ∧ ∃ b ∈ m.paramsOf function, b.identifier.ident = name.ident ∧
      ∃ t, (Ask.paramValues b (some "u") 0).run (.ofModel m {}) {} = .ok ["/z"] t := by
  have entry {i j : Nat} {key : String} {value : Node} {steps : List PartStep} (h : value.Assigns steps name) :
      (branch i .objectPattern [(.properties, some (.entry j key value))]).Assigns
        (.property (some key) :: steps) name :=
    .property (e := .entry j key value) rfl (List.mem_singleton.mpr rfl) (by simp [entry, branch, kind, Node.head])
      rfl h
  obtain ⟨-, m, hm, -⟩ := program.exists_described (by decide)
  exact ⟨entry (entry (.name rfl)), m, hm, exists_reads hm⟩

end ScriptAudit
