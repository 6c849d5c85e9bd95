import ScriptAudit.Proofs.Engine.Recall
import ScriptAudit.Taint.Handler
import ScriptAudit.Taint.Trace

/-!
# Sources of taint

The places of a program that count as sources, one rule for each test that the analysis makes.
-/

namespace ScriptAudit

open List Option Memory

def Facts.Binds (F : Facts) (b : Binding) : Prop :=
  ∃ n, F.Has n ∧ F.model.binding? n = some b

/-- A value with the given label is read at the node `n`, if `handles` are the functions that handle
messages. -/
inductive Facts.SourceAt (F : Facts) (handles : Node → Prop) : String → Node → Prop
  | name {n : Node} : F.Has n → F.model.isUnboundName n "location" = true → SourceAt F handles "location" n
  | member {n : Node} : F.Has n → n.reads "location" = true →
      F.isGlobalObject (n.child? .object) = true ∨ F.isGlobalName (n.child? .object) "document" = true →
      SourceAt F handles "location" n
  | property {n : Node} {key} : F.Has n → n.reads key = true → key ∈ locationProperties →
      F.isLocation (n.child? .object) = true → SourceAt F handles ("location." ++ key) n
  | taken {b location key} : F.Binds b → b.source = some location → F.isLocation (some location) = true →
      b.key = some key → key ∈ locationProperties → SourceAt F handles ("location." ++ key) b.identifier
  | passed {b location key} : F.Binds b → b.isParam = true → F.Has location → F.isLocation (some location) = true →
      b.key = some key → key ∈ locationProperties → SourceAt F handles ("location." ++ key) location
  | locationText {n callee : Node} : F.Has n → n.child? .callee = some callee →
      callee.reads "toString" = true ∨ callee.reads "valueOf" = true →
      F.isLocation (callee.child? .object) = true → SourceAt F handles "location" n
  | document {n : Node} {key} : F.Has n → n.reads key = true → key ∈ documentProperties →
      F.isGlobalName (n.child? .object) "document" = true → SourceAt F handles ("document." ++ key) n
  | windowName {n : Node} : F.Has n → n.reads "name" = true →
      F.isGlobalObject (n.child? .object) = true → SourceAt F handles "window.name" n
  | stored {n callee : Node} : F.Has n → n.child? .callee = some callee → callee.reads "getItem" = true →
      storageObjects.any (F.isGlobalName (callee.child? .object)) = true →
      SourceAt F handles (if callee.dotted?.getD "" = "" then "storage" else callee.dotted?.getD "") n
  | eventData {n object f : Node} {b event} : F.Has n → n.reads "data" = true → n.child? .object = some object →
      F.model.rootBinding? object = some b → handles f → firstParam? F.model f = some event → event.uid = b.uid →
      SourceAt F handles "event.data" n
  | eventKey {b f g} : F.Binds b → b.function = some f → handles g → g.ident = f.ident → b.paramIndex = some 0 →
      b.key = some "data" → SourceAt F handles "event.data" b.identifier

def Taint.Sourced (F : Facts) (handles : Node → Prop) (t : Taint) : Prop :=
  t.isUserControlled = true → ∃ label n, F.SourceAt handles label n ∧ t = Taint.source label n

variable {F : Facts} {handles : Node → Prop} {n : Node}

lemma sourced_memberSource? (hn : F.Has n) {t : Taint} (h : memberSource? F n = some t) : t.Sourced F handles := by
  intro _
  obtain ⟨name, hname, h⟩ := bind_eq_some_iff.mp h
  have hreads : n.reads name = true := by simp [Node.reads, hname]
  split at h
  next htest =>
    simp only [Bool.and_eq_true, contains_iff_mem] at htest
    cases h
    exact ⟨_, n, .property hn hreads htest.1 htest.2, rfl⟩
  · split at h
    next htest =>
      simp only [Bool.and_eq_true, Bool.or_eq_true, beq_iff_eq] at htest
      obtain ⟨rfl, hobj⟩ := htest
      cases h
      exact ⟨_, n, .member hn hreads hobj, rfl⟩
    · split at h
      next htest =>
        simp only [Bool.and_eq_true, contains_iff_mem] at htest
        cases h
        exact ⟨_, n, .document hn hreads htest.1 htest.2, rfl⟩
      · split at h
        next htest =>
          simp only [Bool.and_eq_true, beq_iff_eq] at htest
          obtain ⟨rfl, hobj⟩ := htest
          cases h
          exact ⟨_, n, .windowName hn hreads hobj, rfl⟩
        · cases h

lemma sourced_callSource? (hn : F.Has n) {t : Taint} (h : callSource? F n = some t) : t.Sourced F handles := by
  intro _
  obtain ⟨callee, hcal, h⟩ := bind_eq_some_iff.mp h
  obtain ⟨name, hname, h⟩ := bind_eq_some_iff.mp h
  have hreads : callee.reads name = true := by simp [Node.reads, hname]
  split at h
  next htest =>
    simp only [Bool.and_eq_true, beq_iff_eq] at htest
    obtain ⟨rfl, hstorage⟩ := htest
    refine ⟨_, n, .stored hn hcal hreads hstorage, ?_⟩
    rw [← some.inj h]
    split <;> simp_all
  · split at h
    next htest =>
      simp only [Bool.and_eq_true, Bool.or_eq_true, beq_iff_eq] at htest
      cases h
      rcases htest with ⟨rfl | rfl, hloc⟩
      · exact ⟨_, n, .locationText hn hcal (.inl hreads) hloc, rfl⟩
      · exact ⟨_, n, .locationText hn hcal (.inr hreads) hloc, rfl⟩
    · cases h

/-- What is known about memory (`I`) and taints (`P`): quiet changes keep `I`, taints that are
remembered have `P`, and what is no source or is read from one has `P`. -/
structure Facts.Traces (F : Facts) (I : Memory → Prop) (P : Taint → Prop) : Prop where
  stable : Stable I
  taints : ∀ {m : Memory}, I m → m.taints.All P
  note : ∀ {m : Memory} {n : Node} {t : Taint}, I m → P t → I { m with taints := m.taints.insert n.ident t }
  plain : ∀ {t : Taint}, t.isUserControlled = false → P t
  fixed : ∀ {label : String} {n : Node}, F.SourceAt (fun _ => False) label n → P (.source label n)
  eventData : ∀ {m : Memory} {n : Node}, I m → F.Has n →
    readsEventData F.model m.eventParams n = true → P (.source "event.data" n)
  eventKey : ∀ {m : Memory} {b : Binding} {f : Node}, I m → F.Binds b → b.function = some f →
    m.handlers.contains f.ident = true → b.paramIndex = some 0 → b.key = some "data" →
    P (.source "event.data" b.identifier)

lemma Facts.traces_true (F : Facts) : F.Traces (fun _ => True) fun _ => True where
  stable _ _ := trivial
  taints _ _ _ := trivial
  note _ _ := trivial
  plain _ := trivial
  fixed _ := trivial
  eventData _ _ _ := trivial
  eventKey _ _ _ _ _ _ := trivial

namespace Facts.Traces

variable {I : Memory → Prop} {P : Taint → Prop}

lemma combine (hP : F.Traces I P) {parts : List Taint} (h : ∀ t ∈ parts, P t) : P (Taint.combine parts) := by
  unfold Taint.combine
  split
  next t ht => exact h t (mem_of_find?_eq_some ht)
  · split
    · exact hP.plain rfl
    · exact hP.plain rfl

lemma of_sourced (hP : F.Traces I P) {t : Taint} (h : t.Sourced F fun _ => False) : P t := by
  by_cases ht : t.isUserControlled = true
  · obtain ⟨label, n, hsrc, rfl⟩ := h ht
    exact hP.fixed hsrc
  · exact hP.plain (by simpa using ht)

end Facts.Traces

/-- Noted handlers are among the given functions, noted event parameters are theirs, and remembered
taints have sources. -/
structure Memory.Sourced (F : Facts) (handles : Node → Prop) (m : Memory) : Prop where
  handlers : ∀ ident ∈ m.handlers, ∃ f, handles f ∧ f.ident = ident
  events : ∀ uid ∈ m.eventParams, ∃ f b, handles f ∧ firstParam? F.model f = some b ∧ b.uid = uid
  taints : m.taints.All (Taint.Sourced F handles)

lemma Facts.SourceAt.mono {other : Node → Prop} (hle : ∀ f, handles f → other f) {label : String}
    (h : F.SourceAt handles label n) : F.SourceAt other label n := by
  cases h with
  | name hn htest => exact .name hn htest
  | member hn hreads hobj => exact .member hn hreads hobj
  | property hn hreads hkey hobj => exact .property hn hreads hkey hobj
  | taken hb hsrc hloc hkey hmem => exact .taken hb hsrc hloc hkey hmem
  | passed hb hparam hn hloc hkey hmem => exact .passed hb hparam hn hloc hkey hmem
  | locationText hn hcal hreads hobj => exact .locationText hn hcal hreads hobj
  | document hn hreads hkey hobj => exact .document hn hreads hkey hobj
  | windowName hn hreads hobj => exact .windowName hn hreads hobj
  | stored hn hcal hreads hobj => exact .stored hn hcal hreads hobj
  | eventData hn hreads hobj hb hf hevent huid => exact .eventData hn hreads hobj hb (hle _ hf) hevent huid
  | eventKey hb hf hg hid hidx hkey => exact .eventKey hb hf (hle _ hg) hid hidx hkey

lemma Memory.Sourced.lasting : Lasting (Sourced F handles) where
  stable hquiet h := by
    refine ⟨?_, ?_, ?_⟩
    · rw [hquiet.handlers]
      exact h.handlers
    · rw [hquiet.eventParams]
      exact h.events
    · rw [hquiet.taints]
      exact h.taints
  remember q a m h := by cases q <;> exact ⟨h.handlers, h.events, h.taints⟩

lemma Facts.traces_sourced : F.Traces (Sourced F handles) (Taint.Sourced F handles) where
  stable := Sourced.lasting.stable
  taints h := h.taints
  note h ht := ⟨h.handlers, h.events, h.taints.insert ht⟩
  plain h ht := absurd ht (by simp [h])
  fixed h _ := ⟨_, _, h.mono fun _ => False.elim, rfl⟩
  eventData {m n} h hn hreads _ := by
    obtain ⟨hdata, hevent⟩ := Bool.and_eq_true_iff.mp hreads
    obtain ⟨b, hb, huid⟩ := (any_eq_true _ _).mp hevent
    obtain ⟨object, hobj, hb⟩ := bind_eq_some_iff.mp hb
    obtain ⟨f, event, hf, hparam, hsame⟩ := h.events b.uid (contains_iff_mem.mp huid)
    exact ⟨_, n, .eventData hn hdata hobj hb hf hparam hsame, rfl⟩
  eventKey {m b f} h hb hf hnoted hidx hkey _ := by
    obtain ⟨g, hg, hid⟩ := h.handlers f.ident (contains_iff_mem.mp hnoted)
    exact ⟨_, _, .eventKey hb hf hg hid hidx hkey, rfl⟩

end ScriptAudit
