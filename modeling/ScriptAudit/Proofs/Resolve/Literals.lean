import ScriptAudit.Proofs.Resolve.StringExpr
import ScriptAudit.Proofs.Transparency

/-!
# Values written in place

A method called on a literal, a sum, an array or the result of another such call runs no function of
the program, so what it gives is settled by the text alone.
-/

namespace ScriptAudit

open Ask Engine List Node Text

variable {F : Facts} {frames : List Frame} {root n callee receiver : Node}

/-- An expression whose value no name, class or object of the program holds. -/
def Node.InPlace (n : Node) : Prop :=
  n.kind = .literal ∨ n.kind = .binaryExpression ∨ n.kind = .arrayExpression ∨
    n.kind = .callExpression

namespace Node.InPlace

lemma chain (h : n.InPlace) : n.objectChain = [n] :=
  objectChain_of_kind_ne (by rcases h with h | h | h | h <;> simp [h])

lemma assignedMembers (m : Model) (h : n.InPlace) (key : String) : m.assignedMembers n key = [] := by
  have hdotted : n.dotted? = none := by
    rw [dotted?, chainNames?, h.chain]
    rcases h with h | h | h | h <;> simp [linkName?, rootName?, h]
  rw [Model.assignedMembers, hdotted]

lemma rootBinding? (m : Model) (h : n.InPlace) : m.rootBinding? n = none := by
  rcases h with h | h | h | h <;> simp [Model.rootBinding?, h]

lemma instanceSources_eq_nil (m : Model) (h : n.InPlace) : instanceSources m n = [] := by
  rw [instanceSources, h.rootBinding?]
  rcases h with h | h | h | h <;> rw [h] <;> rfl

lemma globalMember? (h : receiver.InPlace) (hobject : callee.child? .object = some receiver) :
    F.globalMember? callee = none := by
  have hglobal (g : Globals) : g.isGlobalObject receiver = false := by
    rw [Globals.isGlobalObject, Model.isGlobalObjectWith, h.chain]
    rcases h with h | h | h | h <;> simp [Model.isGlobalRoot, h]
  cases hF : F.globals <;>
    simp [Facts.globalMember?, hF, Globals.globalMember?, hobject, hglobal]

lemma ne_this (h : n.InPlace) : n.kind ≠ .thisExpression := by
  rcases h with h | h | h | h <;> simp [h]

end Node.InPlace

/-- `n` calls the method `name` of `receiver`. -/
structure Node.Calls (n callee : Node) (name : String) (receiver : Node) : Prop where
  kind : n.kind = .callExpression
  called : n.child? .callee = some callee
  member : callee.memberName? = some name
  object : callee.child? .object = some receiver

lemma Facts.HasTargets.of_calls {name : String} (h : n.Calls callee name receiver)
    (hname : name ≠ "call") (hreceiver : receiver.InPlace)
    (hshape : F.HasShape frames receiver none) : F.HasTargets frames n [] := by
  have hkind : callee.kind = .memberExpression := by
    by_contra hkind
    simpa [memberName?, hkind] using h.member
  have hreads : receiver.reads "prototype" = false := by
    rcases hreceiver with hk | hk | hk | hk <;> simp [reads, memberName?, hk]
  have hsources := hreceiver.instanceSources_eq_nil F.model
  have hassigned := hreceiver.assignedMembers F.model name
  have hfuns : F.HasFunctions frames callee _ := .member (fun _ ↦ []) hkind h.member h.object
    (hreceiver.globalMember? h.object) hreceiver.ne_this hreads (by simp [hsources]) hshape .missing
    (by simp) (by simp [hassigned])
  have hnone : F.HasFunctions frames callee [] := by
    simpa [hsources, hassigned, mergedFunctions, show distinct ([] : List Node) = [] from rfl]
      using hfuns
  exact .direct h.called (by simp [reads, h.member, hname]) hnone

lemma Facts.HasReturned.of_targets_nil (h : F.HasTargets frames n []) : F.HasReturned frames n [] :=
  .of_targets (fun _ _ ↦ []) h (by simp)

/-- The methods that cut a stretch out of a text. -/
inductive Cut where
  | slice
  | substring
  | substr

namespace Cut

variable {α : Type}

def name : Cut → String
  | slice => "slice"
  | substring => "substring"
  | substr => "substr"

/-- The stretch that the method selects. The bounds of `substring` can stand in either order, and
the second one of `substr` is a length. -/
def select (xs : List α) (start : Nat) : Option Nat → Cut → List α
  | none, _ => xs.drop start
  | some stop, slice => (xs.take stop).drop start
  | some stop, substring => (xs.take (max start stop)).drop (min start stop)
  | some length, substr => (xs.drop start).take length

def bounds (start : Nat) (stop : Option Nat) : List Int :=
  start :: stop.toList.map (↑)

lemma slice_eq (xs : List α) (start : Nat) (stop : Option Nat) :
    Text.slice xs start (stop.map (↑)) = (xs.take (stop.getD xs.length)).drop start := by
  have hclamp (i : Nat) : clampPosition xs.length i = min i xs.length :=
    if_neg (Int.not_lt.mpr (Int.natCast_nonneg i))
  have htake (i : Nat) : xs.take (min i xs.length) = xs.take i := by
    rcases Nat.le_total i xs.length with hi | hi
    · rw [Nat.min_eq_left hi]
    · rw [Nat.min_eq_right hi, take_length, take_of_length_le hi]
  have hdrop {ys : List α} (hys : ys.length ≤ xs.length) : ys.drop (min start xs.length) = ys.drop start := by
    rcases Nat.le_total start xs.length with hi | hi
    · rw [Nat.min_eq_left hi]
    · rw [Nat.min_eq_right hi, drop_eq_nil_of_le hys, drop_eq_nil_of_le (Nat.le_trans hys hi)]
  cases stop with
  | none =>
    change (xs.take xs.length).drop (clampPosition xs.length start) = _
    rw [hclamp, hdrop (length_take_le' _ _)]
    rfl
  | some i =>
    change (xs.take (clampPosition xs.length i)).drop (clampPosition xs.length start) = _
    rw [hclamp, hclamp, hdrop (length_take_le' _ _), htake]
    rfl

lemma cutOut_eq {method : Cut} {s : String} {start : Nat} {stop : Option Nat}
    (h : method = substring → ∀ i ∈ stop, start ≤ i) :
    cutOut method.name (bounds start stop) s = .ofList (method.select s.toList start stop) := by
  have hhead : (stop.toList.map ((↑) : Nat → Int)).head? = stop.map (↑) := by cases stop <;> rfl
  cases method with
  | slice =>
    change String.ofList (Text.slice s.toList start _) = _
    rw [hhead, slice_eq]
    cases stop <;> simp [select]
  | substring =>
    change String.ofList (Text.slice s.toList (max 0 (start : Int)) _) = _
    rw [hhead, Int.max_eq_right (Int.natCast_nonneg start), slice_eq]
    cases stop with
    | none => simp [select]
    | some i =>
      have hi := h rfl i rfl
      simp [select, hi]
  | substr =>
    change String.ofList (Text.slice s.toList start (Option.map ((start : Int) + ·) _)) = _
    have hstop : Option.map ((start : Int) + ·) (stop.map (↑)) =
        (stop.map (start + ·)).map ((↑) : Nat → Int) := by cases stop <;> simp
    rw [hhead, hstop, slice_eq]
    cases stop <;> simp [select, drop_take]

lemma methodEffect?_eq {method : Cut} {arguments : List Node} {start : Nat} {stop : Option Nat}
    (h : (arguments.take 2).mapM wholeLiteral? = some (bounds start stop)) :
    methodEffect? method.name arguments =
      some (List.map (cutOut method.name (bounds start stop))) := by
  have htransform : stringTransform? method.name = none := by cases method <;> rfl
  unfold methodEffect?
  rw [htransform]
  cases arguments with
  | nil => cases h
  | cons =>
    cases method <;> exact congrArg (Option.map fun bounds ↦ List.map (cutOut _ bounds)) h

end Cut

inductive Primitive where
  | text (s : String)
  | number (i : Nat)

namespace Primitive

def form : Primitive → String
  | text s => s
  | number i => toString i

def scalar : Primitive → Scalar
  | text s => .text s
  | number i => .number (.whole i)

lemma scalar_inj {v w : Primitive} (h : v.scalar = w.scalar) : v = w := by
  cases v <;> cases w <;> simp_all [scalar, Int.ofNat_inj]

end Primitive

/-- A closed expression. -/
inductive ConstantExpr where
  | literal (v : Primitive)
  | plus (left right : ConstantExpr)
  | cut (method : Cut) (e : ConstantExpr) (start : Nat) (stop : Option Nat)

namespace ConstantExpr

variable {e : ConstantExpr}

/-- The value of a closed expression. Sums of numbers are taken below the bound up to which they
are exact. -/
def value : ConstantExpr → Primitive
  | literal v => v
  | plus left right =>
    match left.value, right.value with
    | .number i, .number j => .number (i + j)
    | v, w => .text (v.form ++ w.form)
  | cut method e start stop => .text (.ofList (method.select e.value.form.toList start stop))

def fold : ConstantExpr → String
  | literal v => v.form
  | plus left right => left.fold ++ right.fold
  | cut method e start stop => cutOut method.name (Cut.bounds start stop) e.fold

def isText : ConstantExpr → Bool
  | literal (.text _) | cut .. => true
  | literal (.number _) => false
  | plus left right => left.isText || right.isText

/-- In every sum an operand is a text, and the bounds of every `substring` are in order. -/
def Orderly : ConstantExpr → Prop
  | literal _ => True
  | plus left right => left.Orderly ∧ right.Orderly ∧ (left.isText || right.isText) = true
  | cut method e start stop => e.Orderly ∧ (method = .substring → ∀ i ∈ stop, start ≤ i)

lemma isText_of_value {i : Nat} (h : e.value = .number i) : e.isText = false := by
  induction e generalizing i with
  | literal v =>
    obtain rfl : v = .number i := h
    rfl
  | plus left right ihl ihr =>
    rw [value] at h
    split at h
    next hl hr => rw [isText, ihl hl, ihr hr, Bool.or_self]
    · cases h
  | cut => cases h

lemma fold_eq_form (h : e.Orderly) : e.fold = e.value.form := by
  induction e with
  | literal => rfl
  | plus left right ihl ihr =>
    obtain ⟨hl, hr, htext⟩ := h
    rw [fold, ihl hl, ihr hr, value]
    split
    next hi hj => simp [isText_of_value hi, isText_of_value hj] at htext
    · rfl
  | cut method e start stop ih =>
    rw [fold, ih h.1, Cut.cutOut_eq h.2]
    rfl

end ConstantExpr

/-- The expression `n` of a program is the closed expression `e`. -/
inductive Node.Writes : Node → ConstantExpr → Prop
  | literal {n : Node} {v : Primitive} : n.literalValue? = some v.scalar → Writes n (.literal v)
  | plus {n l r left right} : n.isConcat = true → n.child? .left = some l →
      n.child? .right = some r → Writes l left → Writes r right → Writes n (.plus left right)
  | cut {n callee receiver method e start stop} : n.Calls callee (Cut.name method) receiver →
      Writes receiver e → e.isText = true →
      ((n.list .arguments).take 2).mapM wholeLiteral? = some (Cut.bounds start stop) →
      Writes n (.cut method e start stop)

lemma Node.isConcat_iff : n.isConcat = true ↔ n.kind = .binaryExpression ∧ n.operator = "+" := by
  simp [isConcat]

lemma Node.of_literalValue? {v : Primitive} (h : n.literalValue? = some v.scalar) :
    n.kind = .literal ∧ n.literalText? = some v.form := by
  unfold literalValue? at h
  unfold literalText?
  split at h
  next hkind =>
    rw [if_pos hkind]
    refine ⟨by simp_all, ?_⟩
    split at h <;> cases v <;> cases h <;> rfl
  · cases h

namespace Node.Writes

variable {e e' : ConstantExpr}

lemma inPlace (h : n.Writes e) : n.InPlace := by
  cases h with
  | literal h => exact .inl (of_literalValue? h).1
  | plus h => exact .inr (.inl (isConcat_iff.mp h).1)
  | cut h => exact .inr (.inr (.inr h.kind))

lemma unique (h : n.Writes e) (h' : n.Writes e') : e = e' := by
  induction h generalizing e' with
  | literal h =>
    have hkind := (of_literalValue? h).1
    cases h' with
    | literal h' => rw [Primitive.scalar_inj (Option.some.inj (h.symm.trans h'))]
    | plus h' => simp [isConcat, hkind] at h'
    | cut h' => simp [h'.kind] at hkind
  | plus h hl hr _ _ ihl ihr =>
    have hkind := (isConcat_iff.mp h).1
    cases h' with
    | literal h' => simp [(of_literalValue? h').1] at hkind
    | plus _ hl' hr' hleft hright =>
      cases hl.symm.trans hl'
      cases hr.symm.trans hr'
      rw [ihl hleft, ihr hright]
    | cut h' => simp [h'.kind] at hkind
  | @cut _ _ _ method _ start stop h _ _ hbounds ih =>
    have hkind := h.kind
    cases h' with
    | literal h' => simp [(of_literalValue? h').1] at hkind
    | plus h' => simp [(isConcat_iff.mp h').1] at hkind
    | @cut _ _ _ method' _ start' stop' h' he _ hbounds' =>
      cases h.called.symm.trans h'.called
      cases h.object.symm.trans h'.object
      have hname : method.name = method'.name := Option.some.inj (h.member.symm.trans h'.member)
      obtain rfl : method = method' := by cases method <;> cases method' <;> simp_all [Cut.name]
      have hsame := Option.some.inj (hbounds.symm.trans hbounds')
      obtain ⟨rfl, rfl⟩ : start = start' ∧ stop = stop' := by
        cases stop <;> cases stop' <;> simp [Cut.bounds] at hsame ⊢ <;> omega
      rw [ih he]

end Node.Writes

/-- The text into which the closed expression `n` is folded. -/
noncomputable def Node.foldAt (n : Node) : String :=
  open Classical in if h : ∃ e, n.Writes e then h.choose.fold else ""

lemma Node.Writes.foldAt {e : ConstantExpr} (h : n.Writes e) : n.foldAt = e.fold := by
  have hexists : ∃ e, n.Writes e := ⟨e, h⟩
  rw [Node.foldAt, dif_pos hexists, hexists.choose_spec.unique h]

/-- The nodes are closed expressions whose texts together are `text`. -/
structure Folds (F : Facts) (frames : List Frame) (ks : List Node) (text : String) : Prop where
  hasTexts : ∀ k ∈ ks, F.HasTexts frames k [k.foldAt]
  ne_nil : ks ≠ []
  joined : String.join (ks.map Node.foldAt) = text

namespace Folds

variable {e : ConstantExpr} {ks js : List Node} {text text' : String}

lemma single (h : n.Writes e) (hconcat : n.isConcat = false)
    (htexts : F.HasTexts frames n [e.fold]) : Folds F frames n.concatTerms e.fold := by
  rw [concatTerms_of_not_isConcat hconcat]
  exact ⟨by simpa [h.foldAt] using htexts, cons_ne_nil _ _, by simp [h.foldAt, String.join]⟩

lemma append (h : Folds F frames ks text) (h' : Folds F frames js text') :
    Folds F frames (ks ++ js) (text ++ text') where
  hasTexts := forall_mem_append.mpr ⟨h.hasTexts, h'.hasTexts⟩
  ne_nil := append_ne_nil_of_left_ne_nil h.ne_nil js
  joined := by rw [map_append, ← h.joined, ← h'.joined, String.join_append]

lemma whole (hcap : 0 < F.limits.maxValues) (hn : n.Writes e)
    (h : Folds F frames n.concatTerms e.fold) : F.HasTexts frames n [e.fold] := by
  cases hconcat : n.isConcat with
  | true =>
    obtain ⟨hkind, hoperator⟩ := isConcat_iff.mp hconcat
    have htexts := Facts.HasTexts.concat (fun k ↦ [k.foldAt]) hkind hoperator h.hasTexts
    have hsome : n.concatTerms.map Node.foldAt ≠ [] := by simpa using h.ne_nil
    have hjoin := joinTexts_stretches hcap hsome
    rw [map_map, h.joined] at hjoin
    rw [concatTexts, if_neg (by simp)] at htexts
    exact hjoin ▸ htexts
  | false =>
    have hterm := h.hasTexts n (by simp [concatTerms_of_not_isConcat hconcat])
    rwa [hn.foldAt] at hterm

end Folds

-- Both halves go together: a cut runs no function because its receiver holds no object.
lemma Node.Writes.folds {e : ConstantExpr} (hcap : 0 < F.limits.maxValues) (h : n.Writes e) :
    Folds F frames n.concatTerms e.fold ∧ F.HasShape frames n none := by
  induction h with
  | literal h =>
    obtain ⟨hkind, htext⟩ := of_literalValue? h
    exact ⟨.single (.literal h) (by simp [isConcat, hkind]) (.own (by simp [ownText?, htext]; rfl)),
      .shapeless fun depth ↦ by simp [objectRule, hkind]⟩
  | plus h hl hr _ _ ihl ihr =>
    rw [concatTerms_of_isConcat h hl hr]
    exact ⟨ihl.1.append ihr.1, .shapeless fun depth ↦ by simp [objectRule, (isConcat_iff.mp h).1]⟩
  | @cut n _ _ method e _ _ h he htext hbounds ih =>
    obtain ⟨hfolds, hshape⟩ := ih
    have htargets := Facts.HasTargets.of_calls h (by cases method <;> decide) he.inPlace hshape
    refine ⟨.single (.cut h he htext hbounds) (by simp [isConcat, h.kind]) ?_, ?_⟩
    · have htexts := Facts.HasTexts.method (fun _ ↦ [e.fold]) h.kind (.of_targets_nil htargets)
        h.called h.member (Cut.methodEffect?_eq hbounds)
        (by simpa [h.object] using hfolds.whole hcap he)
      rw [h.object] at htexts
      exact htexts
    · have hcopies : n.copiesMembers = false := by
        simp only [copiesMembers, h.called, Option.bind_some, h.member]
        cases method <;> decide
      exact @Facts.HasShape.returned _ _ _ _ none h.kind (by simp [hcopies]) htargets .nil

/-- A closed expression resolves to one text, into which its sums and cuts are folded. It is the
written form of the value if the expression is orderly. -/
theorem constant_folds (hroot : root.WellNumbered) (hF : F.Describes root)
    (hcap : 0 < F.limits.maxValues) (hn : F.Has n) {e : ConstantExpr} (h : n.Writes e)
    {s t : Session} (hs : s.Reachable F) {depth : Nat} {texts : List String}
    (hrun : (ask (.values n none depth)).run F s = .ok texts t) (hwhole : s.Uncut t) :
    texts = [e.fold] ∧ (e.Orderly → texts = [e.value.form]) := by
  have htexts : texts = [e.fold] := hs.right (q := .values n none depth) hroot hF hn.knows hrun
    hwhole [e.fold] ((h.folds hcap).1.whole hcap h)
  exact ⟨htexts, fun horderly ↦ by rw [htexts, ConstantExpr.fold_eq_form horderly]⟩

/-- What a fresh analysis of the program finds, and whether nothing is cut off on the way. -/
def foundIn (program n : Node) (key : Option String) : Option (List String × Bool) :=
  match Model.ofProgram program "" false with
  | .ok m =>
    match (ask (.values n key 0)).run (.ofModel m {}) {} with
    | .ok texts t => some (texts, decide (Session.Uncut {} t))
    | .error _ _ => none
  | .error _ => none

lemma run_of_foundIn {program : Node} {m : Model} (hm : Model.ofProgram program "" false = .ok m)
    (key : Option String) (h : (foundIn program n key).map (·.2) = some true) :
    ∃ texts t, (ask (.values n key 0)).run (.ofModel m {}) {} = .ok texts t ∧
      Session.Uncut {} t := by
  simp only [foundIn, hm] at h
  split at h
  next texts t hrun => exact ⟨texts, t, hrun, by simpa using h⟩
  · cases h

namespace Folding

def swapped : Node :=
  .call 2 (.member 3 (.textLiteral 5 "abc") "substring") [.number 6 2, .number 7 0]

def added : Node := .binary 9 "+" (.number 10 1) (.number 11 2)

def orderly : Node :=
  .binary 13 "+" (.call 14 (.member 15 (.textLiteral 17 "abc") "slice") [.number 18 1])
    (.number 19 2)

def program : Node := .script [.statement 1 swapped, .statement 8 added, .statement 12 orderly]

def cutPlus : ConstantExpr :=
  .plus (.cut .slice (.literal (.text "abc")) 1 none) (.literal (.number 2))

end Folding

theorem constant_folds_orderly : Folding.program.WellNumbered ∧ Folding.cutPlus.Orderly ∧
    Folding.orderly.Writes Folding.cutPlus ∧ ∃ F : Facts, F.Describes Folding.program ∧ ∃ t,
      (ask (.values Folding.orderly none 0)).run F {} = .ok [Folding.cutPlus.value.form] t := by
  obtain ⟨hroot, m, hm, hF⟩ := Folding.program.exists_described (by decide)
  have horderly : Folding.cutPlus.Orderly := by
    simp [Folding.cutPlus, ConstantExpr.Orderly, ConstantExpr.isText]
  have hwrites : Folding.orderly.Writes Folding.cutPlus :=
    .plus rfl rfl rfl (.cut ⟨rfl, rfl, rfl, rfl⟩ (.literal rfl) rfl rfl) (.literal rfl)
  have hn : (Facts.ofModel m {}).Has Folding.orderly := hF.has_walk 13 rfl
  obtain ⟨texts, t, hrun, hwhole⟩ := run_of_foundIn (n := Folding.orderly) hm none
    (by decide +kernel)
  have htexts := (constant_folds hroot.toWellNumbered hF (Nat.zero_lt_succ _) hn hwrites .start
    hrun hwhole).2 horderly
  exact ⟨hroot.toWellNumbered, horderly, hwrites, _, hF, t, htexts ▸ hrun⟩

/-- `"abc".substring(2, 0)` and `1 + 2` are folded into the empty text and `12`. -/
theorem Folding.disorderly_folded : foundIn program swapped none = some ([""], true) ∧
    Cut.substring.select "abc".toList 2 (some 0) = "ab".toList ∧
    foundIn program added none = some (["12"], true) := by
  decide +kernel

def Node.holesBefore (n : Node) (i : Nat) : Nat :=
  ((n.slots .elements).take i).countP Option.isNone

lemma getElem?_sub_countP {α : Type} {xs : List (Option α)} {i : Nat} {x : α} (h : xs[i]? = some (some x)) :
    (xs.filterMap id)[i - (xs.take i).countP Option.isNone]? = some x := by
  induction xs generalizing i with
  | nil => cases h
  | cons y xs ih =>
    cases i with
    | zero =>
      cases h
      rfl
    | succ i =>
      have hle : (xs.take i).countP Option.isNone ≤ i := Nat.le_trans countP_le_length (length_take_le i xs)
      have hx := ih h
      cases y with
      | none => simpa [countP_cons] using hx
      | some y => simpa [countP_cons, Nat.succ_sub hle] using hx

lemma Facts.HasElements.in_place (hkind : n.kind = .arrayExpression)
    (hplain : ∀ e ∈ n.list .elements, e.kind ≠ .spreadElement) : F.HasElements frames n (some (n.list .elements)) := by
  have helems : F.HasElements frames n _ := .literal (fun _ ↦ none) hkind
    fun e he hspread ↦ absurd hspread (hplain e he)
  have hsame : (n.list .elements).flatMap (spreadOut fun _ ↦ none) = n.list .elements :=
    (flatMap_congr fun e he ↦ if_neg (by simpa using hplain e he)).trans (flatMap_singleton' _)
  rwa [hsame] at helems

lemma separatedTexts_single {cap : Nat} (hcap : 0 < cap) (separator : String) (xs : List String) :
    separatedTexts cap separator (xs.map ([·])) = [separator.intercalate xs] := by
  have hcolumns : (xs.map ([·])).intersperse [separator] = (xs.intersperse separator).map ([·]) := by
    induction xs with
    | nil => rfl
    | cons x xs ih => cases xs <;> simp_all [intersperse_cons_cons]
  have hjoin : String.join (xs.intersperse separator) = separator.intercalate xs := by
    rw [← String.toList_inj, String.toList_join, String.toList_intercalate, intercalate, flatMap_def]
    induction xs with
    | nil => rfl
    | cons x xs ih => cases xs <;> simp_all [intersperse_cons_cons]
  cases xs with
  | nil => rfl
  | cons x xs =>
    rw [separatedTexts, if_neg (by simp), if_neg (by simp), hcolumns,
      joinTexts_stretches hcap (by cases xs <;> simp), hjoin]

lemma Facts.HasTexts.join {separator : String} {g : Node → String} {call : Node}
    (hcap : 0 < F.limits.maxValues) (hkind : n.kind = .arrayExpression)
    (hplain : ∀ e ∈ n.list .elements, e.kind ≠ .spreadElement) (hcall : call.Calls callee "join" n)
    (hseparator : joinSeparator? (call.list .arguments) = some separator)
    (hg : ∀ e ∈ n.list .elements, F.HasTexts frames e [g e]) :
    F.HasTexts frames call [separator.intercalate ((n.list .elements).map g)] := by
  have htargets : F.HasTargets frames call [] := .of_calls hcall (by decide) (.inr (.inr (.inl hkind)))
    (.shapeless fun depth ↦ by simp [objectRule, hkind])
  have htexts := HasTexts.joined (fun e ↦ [g e]) hcall.kind (.of_targets_nil htargets) hcall.called
    hcall.member hcall.object (.in_place hkind hplain) hseparator hg
  have hsingle := separatedTexts_single hcap separator ((n.list .elements).map g)
  rw [map_map] at hsingle
  exact hsingle ▸ htexts

/-- An array without spreads is read without its holes: each element is found as many positions
before its own as there are holes before it, and nothing after the last. Joining puts the separator
between the elements that are left. -/
theorem array_positions (hroot : root.WellNumbered) (hF : F.Describes root) (hn : F.Has n)
    (hkind : n.kind = .arrayExpression) (hplain : ∀ e ∈ n.list .elements, e.kind ≠ .spreadElement)
    {s t : Session} (hs : s.Reachable F) {depth : Nat} {texts : List String} :
    (∀ (key : String) (i : Nat), isDigits key = true → Number.numeral key = .ok i →
      (ask (.values n (some key) depth)).run F s = .ok texts t → s.Uncut t →
      (∀ position e found, (n.slots .elements)[position]? = some (some e) →
        i = position - n.holesBefore position → F.HasTexts s.frames e found → texts = found) ∧
      ((n.list .elements).length ≤ i → texts = [])) ∧
    ∀ (call callee : Node) (separator : String) (g : Node → String), 0 < F.limits.maxValues →
      F.Has call → call.Calls callee "join" n →
      joinSeparator? (call.list .arguments) = some separator →
      (∀ e ∈ n.list .elements, F.HasTexts s.frames e [g e]) →
      (ask (.values call none depth)).run F s = .ok texts t → s.Uncut t →
      texts = [separator.intercalate ((n.list .elements).map g)] := by
  have helems : F.HasElements s.frames n (some (n.list .elements)) := .in_place hkind hplain
  have hin : n.InPlace := .inr (.inr (.inl hkind))
  have hbind := hin.rootBinding? F.model
  have hfree : F.Unbound s.frames n := by simp [Facts.Unbound, hbind]
  refine ⟨fun key i hdigits hkey hrun hwhole ↦ ?_,
    fun call callee separator g hcap hhas hcall hseparator hg hrun hwhole ↦ ?_⟩
  · have hright := hs.right (q := .values n (some key) depth) hroot hF hn hrun hwhole
    refine ⟨fun position e found he hi hfound ↦ ?_, fun hi ↦ ?_⟩
    · have hat : (n.list .elements)[i]? = some e := hi ▸ getElem?_sub_countP he
      exact hright found (.element hin.ne_this hfree hdigits helems hkey hat hfound)
    · have hassigned := hin.assignedMembers F.model key
      have habsent : F.HasMember s.frames n key _ := .property (fun _ ↦ []) hin.ne_this hfree
        (fun _ ↦ helems) (fun es _ hes ↦ ⟨i, hkey, by simpa [← Option.some.inj hes] using hi⟩)
        (.shapeless fun depth ↦ by simp [objectRule, hkind]) .missing (by simp)
        (by simp [hassigned]) (by simp [Facts.isOriginless, hbind, hkind])
      rw [hassigned] at habsent
      exact hright [] habsent
  · exact hs.right (q := .values call none depth) hroot hF hhas.knows hrun hwhole _
      (.join hcap hkind hplain hcall hseparator hg)

namespace Sparse

def array : Node := .branch 5 .arrayExpression [(.elements, none), (.elements, some (.textLiteral 4 "a"))]

def joined : Node := .call 1 (.member 2 array "join") [.textLiteral 6 "-"]

def program : Node := .script [.statement 7 joined]

end Sparse

theorem array_positions_sparse : Sparse.program.WellNumbered ∧ ∃ F : Facts,
    F.Describes Sparse.program ∧
    (∃ t, (ask (.values Sparse.array (some "0") 0)).run F {} = .ok ["a"] t ∧ Session.Uncut {} t) ∧
    ∃ t, (ask (.values Sparse.joined none 0)).run F {} = .ok ["a"] t ∧ Session.Uncut {} t := by
  obtain ⟨hroot, m, hm, hF⟩ := Sparse.program.exists_described (by decide)
  have hn : (Facts.ofModel m {}).Has Sparse.array := hF.has_walk 4 rfl
  have hcall : (Facts.ofModel m {}).Has Sparse.joined := hF.has_walk 2 rfl
  obtain ⟨texts, t, hrun, hwhole⟩ := run_of_foundIn (n := Sparse.array) hm (some "0")
    (by decide +kernel)
  obtain ⟨joined, u, hjoin, huncut⟩ := run_of_foundIn (n := Sparse.joined) hm none
    (by decide +kernel)
  have htexts := ((array_positions hroot.toWellNumbered hF hn rfl (by decide) .start).1 "0" 0
    (by decide) (by decide) hrun hwhole).1 1 (.textLiteral 4 "a") ["a"] rfl (by decide) (.own rfl)
  have hjoined := (array_positions hroot.toWellNumbered hF hn rfl (by decide) .start).2 Sparse.joined
    _ "-" (fun _ ↦ "a") (Nat.zero_lt_succ _) hcall ⟨rfl, rfl, rfl, rfl⟩ rfl
    (forall_mem_singleton.mpr (.own rfl)) hjoin huncut
  exact ⟨hroot.toWellNumbered, _, hF, ⟨t, htexts ▸ hrun, hwhole⟩, u, hjoined ▸ hjoin, huncut⟩

/-- The element after a hole is found at the place of the hole, and joining drops the hole. -/
theorem Sparse.hole_dropped : array.slots .elements = [none, some (.textLiteral 4 "a")] ∧
    foundIn program array (some "0") = some (["a"], true) ∧ foundIn program joined none = some (["a"], true) := by
  refine ⟨rfl, ?_⟩
  decide +kernel

end ScriptAudit
