import Mathlib.Tactic.TFAE
import ScriptAudit.Proofs.Program.GlobalAliases

/-!
# How far the global object is followed

The names that hold the global object are looked for in two rounds.
-/

namespace ScriptAudit

open Binding List Model Node Option
/-- A name, by its number, and an expression that it is given. -/
structure Handing where
  uid : Nat
  value : Node

def Node.calledInPlace? (call : Node) : Option Node :=
  (call.child? .callee).filter fun f => f.kind == .functionExpression || f.kind == .arrowFunctionExpression

def Binding.passed? (arguments : List Node) (b : Binding) : Option Handing :=
  if b.key.isNone then b.paramIndex.bind fun i => arguments[i]?.map (⟨b.uid, ·⟩) else none

def Binding.set? (b : Binding) : Option Handing :=
  if b.sort.isVariable && b.isConstant then b.initial.map (⟨b.uid, ·⟩) else none

namespace Model

def argumentHandings (m : Model) : List Handing :=
  m.calls.flatMap fun call => call.calledInPlace?.toList.flatMap fun f =>
    (m.paramsOf f).filterMap (passed? (call.list .arguments))

def variableHandings (m : Model) : List Handing :=
  m.scopes.toList.flatMap fun s => (m.scopeBindings s).filterMap set?

/-- All that names are given, in the order in which a round goes through it. -/
def handings (m : Model) : List Handing :=
  m.argumentHandings ++ m.variableHandings

def accept (m : Model) (known : List Nat) (h : Handing) : List Nat :=
  if isGlobalExpr m known h.value then addNew known h.uid else known

/-- The value of `b` is that of an expression: `b` is a variable that is set once, or a parameter of
a function called in place. -/
inductive Gives (m : Model) (b : Binding) (value : Node) : Prop
  | initial (s : Scope) : s ∈ m.scopes.toList → b ∈ m.scopeBindings s → b.sort.isVariable = true → b.violations = [] →
      b.initial = some value → Gives m b value
  | argument (call f : Node) (i : Nat) : call ∈ m.calls → call.calledInPlace? = some f → b ∈ m.paramsOf f →
      b.key = none → b.paramIndex = some i → (call.list .arguments)[i]? = some value → Gives m b value

/-- The global object is handed down a chain: the first name is given the global object itself, and
each other name is given it if the name before holds it. -/
inductive HandsDown (m : Model) : List Handing → Nat → Prop
  | start {h : Handing} : isGlobalExpr m [] h.value = true → HandsDown m [h] h.uid
  | next {chain : List Handing} {u : Nat} {h : Handing} : HandsDown m chain u → isGlobalExpr m [u] h.value = true →
      HandsDown m (chain ++ [h]) h.uid

variable {m : Model} {b : Binding} {known : List Nat} {n value : Node} {chain hs : List Handing} {h : Handing} {u : Nat}

lemma foldl_passed? (arguments : List Node) (b : Binding) (known : List Nat) :
    (if m.passesGlobal known arguments b then addNew known b.uid else known) =
      (b.passed? arguments).toList.foldl m.accept known := by
  unfold passesGlobal passed?
  cases b.key with
  | some key => simp
  | none =>
    cases b.paramIndex with
    | none => simp
    | some i =>
      simp only [isNone_none, Bool.true_and, if_true, bind_some]
      cases arguments[i]? <;> simp [accept]

lemma foldl_set? (b : Binding) (known : List Nat) :
    (if b.sort.isVariable && b.isConstant && b.initial.any (isGlobalExpr m known) then addNew known b.uid else known) =
      b.set?.toList.foldl m.accept known := by
  unfold set?
  cases b.sort.isVariable && b.isConstant with
  | false => simp
  | true => cases b.initial <;> simp [accept]

lemma aliasRound_eq (m : Model) (known : List Nat) : m.aliasRound known = m.handings.foldl m.accept known := by
  have params : m.aliasParams known = m.argumentHandings.foldl m.accept known := by
    unfold aliasParams argumentHandings
    rw [foldl_flatMap]
    congr 1
    funext known call
    unfold calledInPlace?
    cases call.child? .callee with
    | none => rfl
    | some f =>
      simp only [Option.filter_some, foldl_passed?]
      split <;> simp [filterMap_eq_flatMap_toList, foldl_flatMap]
  have initials (known : List Nat) : m.aliasVariables known = m.variableHandings.foldl m.accept known := by
    unfold aliasVariables variableHandings
    rw [foldl_flatMap]
    simp only [foldl_set?, filterMap_eq_flatMap_toList, foldl_flatMap]
  rw [aliasRound, initials, params, handings, foldl_append]

lemma mem_handings : h ∈ m.handings ↔ ∃ b, m.Gives b h.value ∧ b.uid = h.uid := by
  simp only [handings, argumentHandings, variableHandings, mem_append, mem_flatMap, mem_toList,
    mem_filterMap, passed?, set?]
  constructor
  · rintro (⟨call, hcall, f, hf, b, hb, given⟩ | ⟨s, hs, b, hb, given⟩)
    · split at given
      next key =>
        obtain ⟨i, index, given⟩ := Option.bind_eq_some_iff.mp given
        obtain ⟨value, argument, rfl⟩ := Option.map_eq_some_iff.mp given
        exact ⟨b, .argument call f i hcall hf hb (by simpa using key) index argument, rfl⟩
      next => cases given
    · split at given
      next kept =>
        simp only [Bool.and_eq_true, isConstant, List.isEmpty_iff] at kept
        obtain ⟨value, initial, rfl⟩ := Option.map_eq_some_iff.mp given
        exact ⟨b, .initial s hs hb kept.1 kept.2 initial, rfl⟩
      next => cases given
  · obtain ⟨u, value⟩ := h
    rintro ⟨b, given, rfl⟩
    cases given with
    | initial s hs hb sort constant initial =>
      exact .inr ⟨s, hs, b, hb, by simp [sort, isConstant, constant, initial]⟩
    | argument call f i hcall hf hb key index argument =>
      exact .inl ⟨call, hcall, f, hf, b, hb, by simp [key, index, argument]⟩

/-- What holds because some names are known holds without any, or because of one of them. -/
def RestsOnOne (P : List Nat → Prop) (known : List Nat) : Prop :=
  P known → P [] ∨ ∃ u ∈ known, P [u]

lemma RestsOnOne.or {P Q : List Nat → Prop} (hP : RestsOnOne P known) (hQ : RestsOnOne Q known) :
    RestsOnOne (fun known => P known ∨ Q known) known := by
  rintro (h | h)
  · rcases hP h with h | ⟨u, hu, h⟩
    · exact .inl (.inl h)
    · exact .inr ⟨u, hu, .inl h⟩
  · rcases hQ h with h | ⟨u, hu, h⟩
    · exact .inl (.inr h)
    · exact .inr ⟨u, hu, .inr h⟩

lemma restsOnOne_root (n : Node) : RestsOnOne (fun known => m.isGlobalRoot known n = true) known := by
  intro hn
  unfold isGlobalRoot at hn ⊢
  split at hn
  next hk =>
    cases hb : m.binding? n with
    | none => exact .inl (by simpa [hb] using hn)
    | some b => exact .inr ⟨b.uid, by simpa [hb] using hn, by simp⟩
  next => exact .inl hn
  next => cases hn

lemma restsOnOne_object (n : Node) : RestsOnOne (fun known => m.isGlobalObjectWith known n = true) known := by
  induction n using chain_induction with
  | root n hk => simpa [isGlobalObjectWith, objectChain_of_kind_ne hk, hk] using restsOnOne_root n
  | bare n hk ho =>
    simp only [isGlobalObjectWith, objectChain_bare hk ho]
    exact fun hn => .inl (by simpa [hk] using hn)
  | member n o hk ho ih =>
    simp only [isGlobalObjectWith, objectChain_member hk ho, all_cons, hk, beq_self_eq_true, if_true,
      Bool.and_eq_true] at ih ⊢
    rintro ⟨name, ho⟩
    rcases ih ho with ho | ⟨u, hu, ho⟩
    · exact .inl ⟨name, ho⟩
    · exact .inr ⟨u, hu, name, ho⟩

end Model

mutual

lemma restsOnOne_expr {m : Model} {known : List Nat} : ∀ n : Node,
    Model.RestsOnOne (fun known => isGlobalExpr m known n = true) known
  | .mk h ls => by
    unfold isGlobalExpr
    split
    · simp only [Bool.or_eq_true]
      exact (restsOnOne_exprAt _ ls).or (restsOnOne_exprAt _ ls)
    · simp only [Bool.or_eq_true]
      exact (restsOnOne_exprAt _ ls).or (restsOnOne_exprAt _ ls)
    · exact restsOnOne_object _

lemma restsOnOne_exprAt {m : Model} {known : List Nat} (f : Field) : ∀ ls : List Link,
    Model.RestsOnOne (fun known => isGlobalExprAt m known f ls = true) known
  | [] => by
    exact fun h => .inl h
  | (g, some c) :: rest => by
    unfold isGlobalExprAt
    split
    · exact restsOnOne_expr c
    · exact restsOnOne_exprAt f rest
  | (_, none) :: rest => by
    exact restsOnOne_exprAt f rest

end

namespace Model

variable {m : Model} {b : Binding} {known : List Nat} {n value : Node} {chain hs : List Handing} {h : Handing} {u : Nat}

lemma isGlobalExpr_iff : isGlobalExpr m known n = true ↔
    isGlobalExpr m [] n = true ∨ ∃ u ∈ known, isGlobalExpr m [u] n = true := by
  refine ⟨restsOnOne_expr n, ?_⟩
  rintro (holds | ⟨u, hu, holds⟩)
  · exact isGlobalExpr_mono (nil_subset known) holds
  · exact isGlobalExpr_mono (by simpa using hu) holds

lemma mem_accept : u ∈ m.accept known h ↔ u ∈ known ∨ u = h.uid ∧ isGlobalExpr m known h.value = true := by
  unfold accept
  split
  · rw [mem_addNew]
    simp_all
  · simp_all

lemma handsDown_append : m.HandsDown (chain ++ [h]) u ↔ u = h.uid ∧
    (chain = [] ∧ isGlobalExpr m [] h.value = true ∨ ∃ w, m.HandsDown chain w ∧ isGlobalExpr m [w] h.value = true) := by
  constructor
  · generalize hlonger : chain ++ [h] = longer
    rintro (holds | ⟨down, holds⟩)
    · obtain ⟨rfl, heq⟩ := append_eq_singleton_iff.mp hlonger |>.resolve_right (by simp)
      obtain rfl : h = _ := by simpa using heq
      exact ⟨rfl, .inl ⟨rfl, holds⟩⟩
    · obtain ⟨rfl, heq⟩ := append_inj' hlonger rfl
      obtain rfl : h = _ := by simpa using heq
      exact ⟨rfl, .inr ⟨_, down, holds⟩⟩
  · rintro ⟨rfl, ⟨rfl, holds⟩ | ⟨w, down, holds⟩⟩
    · exact .start holds
    · exact .next down holds

/-- A list of handings accepts the names to which the global object is handed down in the order of
the list. -/
lemma mem_foldl_accept : u ∈ hs.foldl m.accept [] ↔ ∃ chain, chain.Sublist hs ∧ m.HandsDown chain u := by
  induction hs using List.reverseRecOn generalizing u with
  | nil =>
    simp only [foldl_nil, not_mem_nil, sublist_nil, exists_eq_left, false_iff]
    generalize hnil : ([] : List Handing) = chain
    rintro (_ | _)
    · cases hnil
    · simp at hnil
  | append_singleton hs h ih =>
    rw [foldl_append, foldl_cons, foldl_nil, mem_accept, isGlobalExpr_iff]
    constructor
    · rintro (known | ⟨rfl, holds | ⟨w, known, holds⟩⟩)
      · obtain ⟨chain, ordered, down⟩ := ih.mp known
        exact ⟨chain, ordered.trans (sublist_append_left hs [h]), down⟩
      · exact ⟨[h], sublist_append_right hs [h], .start holds⟩
      · obtain ⟨chain, ordered, down⟩ := ih.mp known
        exact ⟨chain ++ [h], ordered.append (.refl _), .next down holds⟩
    · rintro ⟨chain, ordered, down⟩
      obtain ⟨pre, last, rfl, hbefore, hlast⟩ := sublist_append_iff.mp ordered
      rcases sublist_singleton.mp hlast with rfl | rfl
      · rw [append_nil] at down
        exact .inl (ih.mpr ⟨pre, hbefore, down⟩)
      · obtain ⟨rfl, ⟨-, holds⟩ | ⟨w, down, holds⟩⟩ := handsDown_append.mp down
        · exact .inr ⟨rfl, .inl holds⟩
        · exact .inr ⟨rfl, .inr ⟨w, ih.mpr ⟨pre, hbefore, down⟩, holds⟩⟩

lemma mem_globalAliases : u ∈ m.globalAliases ↔
    ∃ chain, chain.Sublist (m.handings ++ m.handings) ∧ m.HandsDown chain u := by
  rw [globalAliases, aliasRound_eq, aliasRound_eq, ← foldl_append, mem_foldl_accept]

lemma mem_globalAliases_of_round (hh : h ∈ m.handings) (holds : isGlobalExpr m (m.aliasRound []) h.value = true) :
    h.uid ∈ m.globalAliases := by
  rw [mem_globalAliases]
  have last : [h].Sublist m.handings := singleton_sublist.mpr hh
  rcases isGlobalExpr_iff.mp holds with holds | ⟨u, known, holds⟩
  · exact ⟨[h], last.trans (sublist_append_left _ _), .start holds⟩
  · rw [aliasRound_eq, mem_foldl_accept] at known
    obtain ⟨chain, ordered, down⟩ := known
    exact ⟨chain ++ [h], ordered.append last, .next down holds⟩

lemma mem_foldl_of_mem (hu : u ∈ known) : u ∈ hs.foldl m.accept known := by
  induction hs generalizing known with
  | nil => exact hu
  | cons h rest ih => exact ih (mem_accept.mpr (.inl hu))

lemma mem_foldl_of_isGlobalExpr (hh : h ∈ hs) (holds : isGlobalExpr m known h.value = true) :
    h.uid ∈ hs.foldl m.accept known := by
  induction hs generalizing known with
  | nil => cases hh
  | cons k rest ih =>
    rw [foldl_cons]
    rcases mem_cons.mp hh with rfl | hh
    · exact mem_foldl_of_mem (mem_accept.mpr (.inr ⟨rfl, holds⟩))
    · exact ih hh (isGlobalExpr_mono (fun u hu => mem_accept.mpr (.inl hu)) holds)

lemma foldl_admit_eq_self (hclosed : ∀ h ∈ hs, isGlobalExpr m known h.value = true → h.uid ∈ known) :
    hs.foldl m.accept known = known := by
  refine List.foldlRecOn (motive := (· = known)) hs _ rfl fun more hmore h hh => ?_
  subst hmore
  unfold accept
  split
  next holds => simp [addNew, hclosed h hh holds]
  next => rfl

lemma further_round_tfae (m : Model) : List.TFAE [ m.aliasRound m.globalAliases = m.globalAliases,
    ∀ b value, m.Gives b value → isGlobalExpr m m.globalAliases value = true → b.uid ∈ m.globalAliases,
    ∀ chain u, (∀ h ∈ chain, h ∈ m.handings) → m.HandsDown chain u → u ∈ m.globalAliases] := by
  tfae_have 1 → 2 := by
    intro settled b value given holds
    have hh : ⟨b.uid, value⟩ ∈ m.handings := mem_handings.mpr ⟨b, given, rfl⟩
    rw [← settled, aliasRound_eq]
    exact mem_foldl_of_isGlobalExpr hh holds
  tfae_have 2 → 3 := by
    intro closed chain u listed down
    have taken {h : Handing} (hh : h ∈ m.handings) (holds : isGlobalExpr m m.globalAliases h.value = true) :
        h.uid ∈ m.globalAliases := by
      obtain ⟨b, given, same⟩ := mem_handings.mp hh
      exact same ▸ closed b h.value given holds
    induction down with
    | start holds => exact taken (listed _ (by simp)) (isGlobalExpr_mono (nil_subset _) holds)
    | next _ holds ih =>
      have known := ih fun h hh => listed h (mem_append_left _ hh)
      exact taken (listed _ (by simp)) (isGlobalExpr_mono (by simpa using known) holds)
  tfae_have 3 → 1 := by
    intro reached
    rw [aliasRound_eq]
    refine foldl_admit_eq_self fun h hh holds => ?_
    rcases isGlobalExpr_iff.mp holds with holds | ⟨u, known, holds⟩
    · exact reached [h] _ (by simpa using hh) (.start holds)
    · obtain ⟨chain, ordered, down⟩ := mem_globalAliases.mp known
      refine reached (chain ++ [h]) _ (fun k hk => ?_) (.next down holds)
      rcases mem_append.mp hk with hk | hk
      · simpa using ordered.subset hk
      · simpa [mem_singleton.mp hk] using hh
  tfae_finish

end Model

/-- The names that hold the global object are those to which it is handed down a chain of two
stretches, each in the order of a round. So every name is among them that is given the global object
under the names of the first round, and a further round adds nothing if and only if all chains lead
to names that are among them. -/
theorem Globals.aliases_of_two_rounds (m : Model) :
    (∀ u, u ∈ (ofModel m).aliases ↔ ∃ chain, chain.Sublist (m.handings ++ m.handings) ∧ m.HandsDown chain u) ∧
    (∀ b value, m.Gives b value → isGlobalExpr m (m.aliasRound []) value = true → (ofModel m).isAlias b = true) ∧
    List.TFAE [
      m.aliasRound (ofModel m).aliases = (ofModel m).aliases,
      ∀ b value, m.Gives b value → isGlobalExpr m (ofModel m).aliases value = true → (ofModel m).isAlias b = true,
      ∀ chain u, (∀ h ∈ chain, h ∈ m.handings) → m.HandsDown chain u → u ∈ (ofModel m).aliases] := by
  simp only [isAlias, contains_iff_mem, aliases_ofModel]
  refine ⟨fun u => mem_globalAliases, fun b value given holds => ?_, m.further_round_tfae⟩
  exact mem_globalAliases_of_round (h := ⟨b.uid, value⟩) (mem_handings.mpr ⟨b, given, rfl⟩) holds

namespace Nested

def wrapper (i : Nat) (param : String) (body : List Node) : Node :=
  .branch i .functionExpression [(.params, some (.identifier (i + 1) param)),
    (.body, some (.branch (i + 2) .blockStatement (body.map ((.body, some ·)))))]

def program : Node :=
  .script [.statement 1 (.call 2 (wrapper 3 "w" [.declaration 6 "a" (.identifier 9 "w"),
    .statement 10 (.call 11 (wrapper 12 "x" [.declaration 15 "b" (.identifier 18 "x"),
    .statement 19 (.call 20 (wrapper 21 "y" []) [.identifier 24 "b"])]) [.identifier 25 "a"])])
    [.identifier 26 "window"])]

def missed? : Option (List Nat) :=
  match ofProgram program "" false with
  | .ok m => some ((m.handings.filter fun h => isGlobalExpr m m.globalAliases h.value &&
      !m.globalAliases.contains h.uid).map (·.uid))
  | .error _ => none

end Nested

/-- Where wrappers pass the global object on through variables, the parameter of the third one is
given a name that holds the global object and is not known to hold it. -/
theorem Globals.not_closed_nested : ∃ m b value, ofProgram Nested.program "" false = .ok m ∧ m.Gives b value ∧
    isGlobalExpr m (ofModel m).aliases value = true ∧ (ofModel m).isAlias b = false := by
  have missed : Nested.missed? = some [4] := by decide +kernel
  have hroot : Nested.program.WellFormed := wellFormed_check (by decide)
  obtain ⟨m, hm⟩ := exists_ofProgram hroot.toWellNamed "" false
  simp only [Nested.missed?, hm, some.injEq] at missed
  obtain ⟨h, hh, -⟩ := mem_map.mp (missed ▸ mem_singleton_self 4)
  simp only [mem_filter, Bool.and_eq_true, Bool.not_eq_true'] at hh
  obtain ⟨b, given, same⟩ := mem_handings.mp hh.1
  refine ⟨m, b, h.value, hm, given, ?_⟩
  rw [isAlias, aliases_ofModel, same]
  exact hh.2

end ScriptAudit
