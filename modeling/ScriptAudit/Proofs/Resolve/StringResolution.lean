import ScriptAudit.Proofs.Resolve.StringExpr
import ScriptAudit.Proofs.Transparency

/-!
# String expressions resolve to their values

Whatever has been asked before, a string expression that is not nested too deep resolves to its
value.
-/

namespace ScriptAudit

open Ask Engine Facts Node Question

variable {F : Facts} {α : Type} {n : Node} {e : StringExpr} {depth : Nat} {opened : List Key}
  {frames : List Frame} {texts : List String} {rule : Engine (List String)}

lemma Question.rule_values_own {text : String} (hown : n.ownText? = some text) :
    (values n none depth).rule = pure [text] := by
  unfold ownText? at hown
  simp only [rule, hown]

lemma Question.rule_values (hown : n.ownText? = none) :
    (values n none depth).rule = consider (values n none depth).key depth [] (values n none depth).remembered
      (values n none depth).remember (valuesRule n depth) := by
  unfold ownText? at hown
  simp only [rule, hown]
  rfl

lemma Question.asked_of_has {q : Question α} (h : F.Has q.node) : q.Asked F := by
  cases q with
  | values k property depth =>
    cases property with
    | none => exact h.knows
    | some name => exact h
  | object | array | functions | aliases => exact h

/-- A session in which some calls are being gone through and some questions are being answered, and
that keeps to the program. -/
structure Session.Calm (F : Facts) (frames : List Frame) (opened : List Key) (s : Session) : Prop where
  within : s.Within F
  faithful : s.toMemory.Faithful F
  frames : s.frames = frames
  visited : s.visited = opened

lemma Session.Calm.mark {s : Session} (h : s.Calm F frames opened) (k : Key) :
    Calm F frames (k :: opened) { s with visited := k :: s.visited } :=
  ⟨⟨h.within.memory, h.within.frames⟩, h.faithful, h.frames, congrArg _ h.visited⟩

namespace Engine

def Settles (F : Facts) (frames : List Frame) (opened : List Key) (x : Engine α) (a : α) : Prop :=
  ∀ s, s.Calm F frames opened → ∃ t, x.Evaluates F s (.ok a t) ∧ t.Calm F frames opened ∧ s.Uncut t

lemma settling : Judges F fun _ x a => x.Settles F frames opened a where
  pure a s hs := ⟨s, evaluates_pure a, hs, rfl, rfl⟩
  bind hx hf s hs := by
    obtain ⟨t, hxt, ht, huncut⟩ := hx s hs
    obtain ⟨u, hfu, hu, huncut'⟩ := hf t ht
    exact ⟨u, hxt.bind hfu, hu, huncut'.1.trans huncut.1, huncut'.2.trans huncut.2⟩
  facts s hs := ⟨s, .facts s, hs, rfl, rfl⟩

lemma settles_bound (b : Binding) :
    (boundArgument? b).Settles F frames opened (Frame.bound? frames b) := by
  intro s hs
  refine ⟨s, ?_, hs, rfl, rfl⟩
  rw [← hs.frames]
  exact .bind (.session s) (evaluates_pure _)

lemma settles_identifierValues {b : Binding} {init : Node} (hb : F.model.binding? n = some b)
    (hbound : Frame.bound? frames b = none) (hsort : b.sort.isVariable = true) (hviols : b.violations = [])
    (hinit : b.initial = some init) (htexts : texts ≠ [])
    (h : (ask (.values init none (depth + 1))).Settles F frames opened texts) :
    (identifierValues n depth).Settles F frames opened texts := by
  have harg : (boundArgument? b).Settles F frames opened none := hbound ▸ settles_bound b
  have hbind : (bindingValues b depth).Settles F frames opened (b.textsWith F.limits fun _ => texts) := by
    apply settling.bindingValues_named harg (BindingSort.isLocal_of_isVariable hsort)
    · simp [hinit, htexts]
    · simpa [hinit, hviols] using h
  rw [Binding.textsWith_of_initial _ _ hviols hinit] at hbind
  exact settling.identifierValues hb hbind

section Consider

variable {s t : Session} {k : Key} {none_ a : α} {lookUp : Memory → Option α} {keep : α → Memory → Memory}
  {rule : Engine α}

lemma evaluates_consider_known (hdepth : depth ≤ F.limits.maxDepth) (hframes : s.frames = [])
    (ha : lookUp s.toMemory = some a) : (consider k depth none_ lookUp keep (some rule)).Evaluates F s (.ok a s) := by
  refine .andThen (.andThen (.facts s) (.done _ s)) ?_
  rw [if_neg (Nat.not_lt.mpr hdepth)]
  refine .andThen (.session s) ?_
  simp only [hframes, List.isEmpty_nil, Bool.not_true, Bool.false_eq_true, if_false, ha]
  exact .done a s

lemma evaluates_consider_whole (hdepth : depth ≤ F.limits.maxDepth) (hframes : s.frames = [])
    (hlookUp : lookUp s.toMemory = none) (hk : k ∉ s.visited) (huncut : s.Uncut t)
    (h : rule.Evaluates F { s with visited := k :: s.visited } (.ok a t)) :
    (consider k depth none_ lookUp keep (some rule)).Evaluates F s
      (.ok a { t with toMemory := keep a t.toMemory, visited := t.visited.erase k }) := by
  have hguard := Evaluates.guarded (by simpa using hk) h
  have hwhole : (t.rejections == s.rejections && t.truncations == s.truncations && !!s.frames.isEmpty) = true := by
    simp [huncut.1, huncut.2, hframes]
  refine evaluates_consider hdepth (by simp [hlookUp]) (.bind hguard ?_)
  simp only [hwhole, if_true]
  exact .bind (.update _ _) (evaluates_pure a)

end Consider

section Ask

variable (hsound : F.Sound) (huniq : F.Unique)
include hsound huniq

lemma settles_question {q : Question α} {none_ a : α} {rule : Engine α} (hn : F.Has q.node)
    (hsettled : ∀ b m, q.Right F [] b m → b = a)
    (hrule : q.rule = consider q.key depth none_ q.remembered q.remember (some rule))
    (hdepth : depth ≤ F.limits.maxDepth) (hfresh : q.key ∉ opened) (h : rule.Settles F [] (q.key :: opened) a) :
    (ask q).Settles F [] opened a := by
  have hq := asked_of_has hn
  intro s hs
  have hkept {t : Session} (ht : (ask q).Evaluates F s (.ok a t)) : t.Within F ∧ t.toMemory.Faithful F := by
    have hrun := ((meets_ask hq q.after_start).evaluates_iff hsound hs.within _).mp ht
    have hkeeps := (meets_ask hq q.after_start).run_keeping hsound Memory.Faithful.stable
      (answerWithin_truthful hsound huniq F.openQuestions).1 hs.within hs.faithful
    rw [hrun] at hkeeps
    exact ⟨hkeeps.1.1, hkeeps.2⟩
  have hconsider {o : Outcome α}
      (ho : (consider q.key depth none_ q.remembered q.remember (some rule)).Evaluates F s o) :
      (ask q).Evaluates F s o := by
    apply Evaluates.ask
    rwa [hrule]
  cases hknown : q.remembered s.toMemory with
  | some b =>
    obtain rfl := hsettled b _ (hs.faithful _ q b hn hknown)
    exact ⟨s, hconsider (evaluates_consider_known hdepth hs.frames hknown), hs, rfl, rfl⟩
  | none =>
    obtain ⟨t, heval, ht, huncut⟩ := h _ (hs.mark _)
    have hwhole := hconsider (evaluates_consider_whole hdepth hs.frames hknown (hs.visited ▸ hfresh) huncut heval)
    obtain ⟨hwithin, hfaith⟩ := hkept hwhole
    refine ⟨_, hwhole, ⟨hwithin, hfaith, ?_, ?_⟩, ?_⟩
    · exact ht.frames
    · simp [ht.visited]
    · cases q <;> exact huncut

lemma settles_askFunctions {fs : List Node} {rule : Engine (List Node)} (hn : F.Has n)
    (hfs : F.HasFunctions [] n fs) (hrule : functionsRule n depth = some rule)
    (hd : depth ≤ F.limits.maxDepth) (hfresh : ⟨.functions, n.ident, none⟩ ∉ opened)
    (h : rule.Settles F [] (⟨.functions, n.ident, none⟩ :: opened) fs) :
    (ask (.functions n depth)).Settles F [] opened fs := by
  let q := Question.functions n depth
  have hquestion : q.rule = consider q.key depth [] q.remembered q.remember (some rule) := by
    rw [← hrule]
    rfl
  exact settles_question (q := q) hsound huniq hn (fun b m hb => hb fs hfs) hquestion hd hfresh h

lemma settles_ask (hn : F.Has n) (htexts : frames = [] → F.HasTexts [] n texts) (hown : n.ownText? = none)
    (hrule : valuesRule n depth = some rule) (hdepth : depth ≤ F.limits.maxDepth)
    (hfresh : ⟨.values, n.ident, none⟩ ∉ opened)
    (h : rule.Settles F frames (⟨.values, n.ident, none⟩ :: opened) texts) :
    (ask (.values n none depth)).Settles F frames opened texts := by
  by_cases hframes : frames = []
  · subst hframes
    have hquestion : (Question.values n none depth).rule = _ := rule_values hown
    rw [hrule] at hquestion
    exact settles_question (q := .values n none depth) hsound huniq hn
      (fun _ _ hright => hright texts (htexts rfl)) hquestion hdepth hfresh h
  · intro s hs
    have hframed : s.frames.isEmpty = false := by simpa [hs.frames] using hframes
    have hk : s.visited.contains ⟨.values, n.ident, none⟩ = false := by simpa [hs.visited] using hfresh
    obtain ⟨t, heval, ht, huncut⟩ := h _ (hs.mark _)
    refine ⟨{ t with visited := t.visited.erase ⟨.values, n.ident, none⟩ }, .ask ?_, ?_, huncut⟩
    · rw [rule_values hown, hrule]
      refine evaluates_consider hdepth (by simp [hframed]) (.bind (.guarded hk heval) ?_)
      simp only [hframed, Bool.not_false, Bool.not_true, Bool.and_false]
      exact evaluates_pure texts
    · exact ⟨⟨ht.within.memory, ht.within.frames⟩, ht.faithful, ht.frames, by simp [ht.visited]⟩

end Ask

lemma settles_callTargets {callee : Node} {fs : List Node} (hcal : n.child? .callee = some callee)
    (hreads : callee.reads "call" = false) (h : (ask (.functions callee depth)).Settles F frames opened fs) :
    (callTargets n depth).Settles F frames opened ((distinct (fs.filterMap callableOf?)).map (·, 0)) := by
  have hcallables : (callables (some callee) depth).Settles F frames opened (distinct (fs.filterMap callableOf?)) :=
    settling.bind h (settling.pure _)
  unfold callTargets
  simp only [hcal, hreads]
  exact settling.bind hcallables (settling.pure _)

end Engine

section Resolution

variable (hsound : F.Sound) (huniq : F.Unique) (hcap : 0 < F.limits.maxValues)

def Facts.Larger (F : Facts) (opened : List Key) (e : StringExpr) : Prop :=
  ∀ k e', ⟨.values, k.ident, none⟩ ∈ opened → F.Has k → F.model.Expresses k e' → sizeOf e < sizeOf e'

include huniq in
lemma Facts.Larger.mark {e' : StringExpr} (h : F.Larger opened e) (hn : F.Has n) (he : F.model.Expresses n e)
    (hsize : sizeOf e' < sizeOf e) : F.Larger (⟨.values, n.ident, none⟩ :: opened) e' := by
  intro k e'' hopen hk hexpr
  rcases List.mem_cons.mp hopen with hkey | hopen
  · obtain rfl := huniq k n hk hn (by simpa using hkey)
    rwa [he.unique hexpr]
  · exact Nat.lt_trans hsize (h k e'' hopen hk hexpr)

include hsound huniq in
/-- The names may stand for something else, as long as they resolve to the texts of what they stand
for. -/
lemma Model.Expresses.settles_of_named {m : Model} (hhas : ∀ {k}, F.Has k ↔ m.root.Below k)
    (hcap : 0 < F.limits.maxValues)
    (htexts : ∀ {n : Node} {e : StringExpr}, frames = [] → F.Has n → m.Expresses n e →
      F.HasTexts [] n (e.value F.limits.maxValues))
    (hnamed : ∀ {n init : Node} {b : Binding} {e : StringExpr} {depth : Nat} {opened : List Key},
      m.binding? n = some b →
      b.sort.isVariable = true → b.violations = [] → b.initial = some init → m.Expresses init e →
      depth + 1 + e.levels false ≤ F.limits.maxDepth + 1 → Facts.Larger { F with model := m } opened e →
      (F.Has init → (ask (.values init none (depth + 1))).Settles F frames opened (e.value F.limits.maxValues)) →
      (identifierValues n depth).Settles F frames opened (e.value F.limits.maxValues))
    (hn : F.Has n) (h : m.Expresses n e) (hdepth : depth + e.levels false ≤ F.limits.maxDepth + 1)
    (hopen : Facts.Larger { F with model := m } opened e) :
    (ask (.values n none depth)).Settles F frames opened (e.value F.limits.maxValues) := by
  induction hsizeOf : sizeOf e using Nat.strongRecOn generalizing n e depth opened with
  | ind total ih =>
    subst hsizeOf
    have hfresh : ⟨.values, n.ident, none⟩ ∉ opened := fun hmem => Nat.lt_irrefl _ (hopen n e hmem (hhas.mp hn) h)
    have hmark {e' : StringExpr} (hsize : sizeOf e' < sizeOf e) :
        Facts.Larger { F with model := m } (⟨.values, n.ident, none⟩ :: opened) e' :=
      .mark (F := { F with model := m }) (fun n k hn hk => huniq n k (hhas.mpr hn) (hhas.mpr hk)) hopen (hhas.mp hn) h
        hsize
    have hpart {size levels below : Nat} (hsize : size < sizeOf e) {k : Node} (hk : F.Has k)
        (hbelow : below + levels ≤ F.limits.maxDepth + 1) (hfits : m.Fits size levels k) :
        (ask (.values k none below)).Settles F frames (⟨.values, n.ident, none⟩ :: opened)
          (textsOf { F with model := m } k) := by
      obtain ⟨e', he', hsize', hlev⟩ := hfits
      have hsmaller := Nat.lt_of_le_of_lt hsize' hsize
      rw [textsOf_eq he']
      exact ih _ hsmaller hk he' (by omega) (hmark hsmaller) rfl
    have hask {rule : Engine (List String)} (hown : n.ownText? = none) (hlev : 0 < e.levels false)
        (hrule : valuesRule n depth = some rule)
        (hset : rule.Settles F frames (⟨.values, n.ident, none⟩ :: opened) (e.value F.limits.maxValues)) :
        (ask (.values n none depth)).Settles F frames opened (e.value F.limits.maxValues) :=
      settles_ask hsound huniq hn (htexts · hn h) hown hrule (by omega) hfresh hset
    cases h.flattens (F := { F with model := m }) hcap with dsimp only at *
    | own hown hval =>
      rw [hval]
      intro s hs
      refine ⟨s, .ask ?_, hs, rfl, rfl⟩
      rw [rule_values_own hown]
      exact evaluates_pure [_]
    | template hk hown hfits hsize hlev hval =>
      have hset : (templateValues n depth).Settles F frames (⟨.values, n.ident, none⟩ :: opened) _ :=
        settling.templateValues fun k hk => hpart hsize (hn.mem_list hk) (by omega) (hfits k hk)
      rw [hval] at hset
      exact hask hown (by omega) (by simp only [valuesRule, hk]) hset
    | concat hk hop hfits hsize hlev hval =>
      have hset : (concatenated n.concatTerms depth).Settles F frames (⟨.values, n.ident, none⟩ :: opened) _ :=
        settling.concatenated fun k hk => hpart hsize (hn.mem_concatTerms hk) hdepth (hfits k hk)
      rw [hval] at hset
      apply hask (ownText?_eq_none (by simp [hk]) (by simp [hk])) hlev _ hset
      simp [valuesRule, hk, hop]
    | branches hk hfits hsize hlev hval =>
      have hset : (branchValues n depth).Settles F frames (⟨.values, n.ident, none⟩ :: opened) _ :=
        settling.branchValues (h.branches_ne_self huniq hn hfits hsize) fun k hk =>
          hpart hsize (hn.mem_branches hk) (by omega) (hfits k hk)
      rw [hval] at hset
      rcases Kind.eq_of_isBranching hk with hk | hk <;>
      · apply hask (ownText?_eq_none (by simp [hk]) (by simp [hk])) (by omega) _ hset
        simp only [valuesRule, hk]
    | named hk hb hsort hviols hinit hfits hsize hlev hval =>
      obtain ⟨e', he', hsize', hlevels'⟩ := hfits
      have hsmaller := Nat.lt_of_le_of_lt hsize' hsize
      have hset : (identifierValues n depth).Settles F frames (⟨.values, n.ident, none⟩ :: opened) _ :=
        hnamed hb hsort hviols hinit he' (by omega) (hmark hsmaller) fun hinit =>
          ih _ hsmaller hinit he' (by omega) (hmark hsmaller) rfl
      rw [← textsOf_eq (F := { F with model := m }) he', hval] at hset
      apply hask (ownText?_eq_none (by simp [hk]) (by simp [hk])) (by omega) _ hset
      simp only [valuesRule, hk]

include hsound huniq hcap in
lemma Model.Expresses.settles (hn : F.Has n) (h : F.model.Expresses n e)
    (hdepth : depth + e.levels false ≤ F.limits.maxDepth + 1) (hopen : F.Larger opened e) :
    (ask (.values n none depth)).Settles F [] opened (e.value F.limits.maxValues) := by
  refine h.settles_of_named hsound huniq .rfl hcap (fun _ hn h => h.hasTexts hsound huniq hcap hn)
    (fun {_ _ _ e _ _} hb hsort hviols hinit _ _ _ hinitial => ?_) hn hdepth hopen
  exact settles_identifierValues hb rfl hsort hviols hinit (e.value_ne_nil hcap)
    (hinitial ((hsound.model.binding? hb).initial _ hinit))

end Resolution

lemma Engine.Settles.run {root : Node} (hroot : root.WellNumbered) (hF : F.Describes root)
    {q : Question α} {a : α} (h : (ask q).Settles F [] [] a) (hn : F.Has q.node) {s : Session}
    (hs : s.Reachable F) (hframes : s.frames = []) (hvisited : s.visited = []) :
    ∃ t, (ask q).run F s = .ok a t ∧ s.Uncut t := by
  have hsound := hF.sound hroot
  have hwithin := hs.within hsound
  obtain ⟨t, heval, -, huncut⟩ := h s ⟨hwithin, hs.faithful hroot hF, hframes, hvisited⟩
  have hmeets := meets_ask (I := fun _ => True) (asked_of_has hn) q.after_start
  exact ⟨t, (hmeets.evaluates_iff hsound hwithin _).mp heval, huncut⟩

/-- In every state that queries can leave, a string expression that is not nested too deep resolves
to its value, with nothing refused or cut off. -/
theorem string_resolves {root : Node} (hroot : root.WellNumbered) (hF : F.Describes root)
    (hcap : 0 < F.limits.maxValues) (hn : F.Has n) (h : F.model.Expresses n e)
    (hdepth : depth + e.levels false ≤ F.limits.maxDepth + 1) {s : Session} (hs : s.Reachable F)
    (hframes : s.frames = []) (hvisited : s.visited = []) :
    ∃ t, (ask (.values n none depth)).run F s = .ok (e.value F.limits.maxValues) t ∧ s.Uncut t := by
  have hset : (ask (.values n none depth)).Settles F [] [] (e.value F.limits.maxValues) :=
    h.settles (hF.sound hroot) (hF.unique hroot) hcap hn hdepth (by rintro k e' ⟨⟩)
  exact hset.run hroot hF hn hs hframes hvisited

namespace Routes

def base : Node :=
  .branch 4 .conditionalExpression [(.test, some (.identifier 5 "c")), (.consequent, some (.textLiteral 6 "/a")),
    (.alternate, some (.textLiteral 7 "/b"))]

def stretch (i : Nat) (text : String) : Node :=
  .mk { ident := .listed i, kind := .templateElement, cooked := some text } []

def gap : Node := .identifier 15 "base"

def route : Node :=
  .binary 11 "+" (.branch 12 .templateLiteral [(.quasis, some (stretch 13 "")),
    (.quasis, some (stretch 14 "/")), (.expressions, some gap)])
    (.mk { ident := .listed 16, kind := .logicalExpression, operator := "||" } [(.left,
    some (.textLiteral 17 "p")), (.right, some (.textLiteral 18 "q"))])

def name : Node := .identifier 20 "route"

def program : Node :=
  .script [.declaration 1 "base" base, .declaration 8 "route" route, .statement 19 name]

def expression : StringExpr :=
  .named (.plus (.gap "" (.named (.choice (.literal "/a") (.literal "/b"))) (.literal "/"))
    (.choice (.literal "p") (.literal "q")))

def resolved (F : Facts) : Session :=
  Outcome.session ((Query.ask (.values gap none 0)).engine.run F {})

def keeps (m : Model) (name init : Node) : Bool :=
  (m.binding? name).any fun b => b.sort.isVariable && b.violations.isEmpty && b.initial.any (·.ident == init.ident)

def check : Bool :=
  match Model.ofProgram program "" false with
  | .ok m => keeps m gap base && keeps m name route
  | .error _ => false

lemma expresses_of_keeps (hsound : F.Sound) (huniq : F.Unique) {name init : Node} (hk : name.kind = .identifier)
    (hinit : F.Has init) (he : F.model.Expresses init e)
    (h : keeps F.model name init = true) : F.model.Expresses name (.named e) := by
  obtain ⟨b, hb, hkeeps⟩ := (Option.any_eq_true _ _).mp h
  simp only [Bool.and_eq_true, List.isEmpty_iff] at hkeeps
  obtain ⟨⟨hsort, hviols⟩, hinitial⟩ := hkeeps
  obtain ⟨k, hk', hid⟩ := (Option.any_eq_true _ _).mp hinitial
  obtain rfl := huniq k init ((hsound.model.binding? hb).initial k hk') hinit (eq_of_beq hid)
  exact .named hk hb hsort hviols hk' he

end Routes

open Routes

theorem string_resolves_route :
    program.WellNumbered ∧ ∃ F : Facts, F.Describes program ∧ (resolved F).Reachable F ∧
      F.model.Expresses name expression ∧
      ∃ t, (ask (.values name none 0)).run F (resolved F) = .ok ["/a/p", "/b/q"] t ∧
        (resolved F).Uncut t := by
  obtain ⟨hroot, m, hm, hF⟩ := program.exists_described (by decide)
  have hsound := hF.sound hroot.toWellNumbered
  have huniq := hF.unique hroot.toWellNumbered
  have hres : (resolved (ofModel m {})).Reachable (ofModel m {}) :=
    .query .start (hF.has_walk (n := Routes.gap) 15 rfl).knows
  have hcheck : check = true := by decide +kernel
  simp only [check, hm, Bool.and_eq_true] at hcheck
  obtain ⟨hgap, hname⟩ := hcheck
  have hbase : (ofModel m {}).model.Expresses Routes.gap (.named (.choice (.literal "/a") (.literal "/b"))) :=
    expresses_of_keeps hsound huniq rfl (hF.has_walk (n := base) 4 rfl)
      (.conditional rfl rfl rfl (.literal rfl) (.literal rfl)) hgap
  have hroute : (ofModel m {}).model.Expresses name expression := by
    refine expresses_of_keeps hsound huniq rfl (hF.has_walk (n := route) 11 rfl) ?_ hname
    refine .plus rfl rfl rfl rfl
      (.template (fun _ => .named (.choice (.literal "/a") (.literal "/b"))) rfl (by decide) ?_)
      (.either rfl (.inl rfl) rfl rfl (.literal rfl) (.literal rfl))
    intro k hk
    obtain rfl : k = Routes.gap := List.mem_singleton.mp hk
    exact hbase
  have hframes : (resolved (ofModel m {})).frames = [] :=
    (session_runWith _ (balanced_answer _) _ _).2
  have hvisited : (resolved (ofModel m {})).visited = [] :=
    (session_runWith _ (balanced_answer _) _ _).1
  have hval : expression.value (ofModel m {}).limits.maxValues = ["/a/p", "/b/q"] := by
    change expression.value ({} : Limits).maxValues = _
    decide +kernel
  have hdepth : 0 + expression.levels false ≤ (ofModel m {}).limits.maxDepth + 1 := by
    change 0 + expression.levels false ≤ ({} : Limits).maxDepth + 1
    decide
  have hruns := string_resolves hroot.toWellNumbered hF (Nat.zero_lt_succ _) (hF.has_walk 20 rfl) hroute hdepth hres
    hframes hvisited
  rw [hval] at hruns
  exact ⟨hroot.toWellNumbered, _, hF, hres, hroute, hruns⟩

end ScriptAudit
