import ScriptAudit.Proofs.Engine.Balance
import ScriptAudit.Proofs.Tables
import ScriptAudit.Request.Record

/-!
# Every sink has records

A sink whose callers give no records is resolved once more without them, and an address that is not
known has a readable form.
-/

namespace ScriptAudit

open List

namespace Engine

variable {α β : Type} {P : α → Prop} {Q : β → Prop} {x : Engine α} {xs : List β} {f : β → Engine α}

def Ensures (x : Engine α) (P : α → Prop) : Prop :=
  ∀ (F : Facts) (s : Session) (a : α) (t : Session), x.run F s = .ok a t → P a

lemma ensures_pure {a : α} (h : P a) : (pure a : Engine α).Ensures P := by
  intro F s b t hrun
  cases hrun
  exact h

lemma ensures_true (x : Engine α) : x.Ensures fun _ => True := by
  intro F s a t _
  trivial

lemma Ensures.bind {f : α → Engine β} (hx : x.Ensures P) (hf : ∀ a, P a → (f a).Ensures Q) : (x >>= f).Ensures Q := by
  intro F s b u hrun
  obtain ⟨a, t, ha, hb⟩ := run_bind_ok hrun
  exact hf a (hx F s a t ha) F t b u hb

lemma ensures_bind {f : α → Engine β} (hf : ∀ a, (f a).Ensures Q) : (x >>= f).Ensures Q :=
  (ensures_true x).bind fun a _ => hf a

lemma ensures_ite {c : Prop} [Decidable c] {y : Engine α} (hx : c → x.Ensures P) (hy : ¬c → y.Ensures P) :
    (if c then x else y).Ensures P := by
  split
  next hc => exact hx hc
  next hc => exact hy hc

lemma ensures_foldlM {f : α → β → Engine α} {a : α} (ha : P a) (hf : ∀ a x, P a → (f a x).Ensures P) :
    (xs.foldlM f a).Ensures P := by
  induction xs generalizing a with
  | nil => exact ensures_pure ha
  | cons x rest ih =>
    rw [foldlM_cons]
    exact (hf a x ha).bind fun b hb => ih hb

lemma exists_of_run_mapM_loop_eq_ok {F : Facts} {pre as : List α} {s t : Session}
    (h : (List.mapM.loop f xs pre).run F s = .ok as t) : ∃ found, as = pre.reverse ++ found ∧
      ∀ others, (List.mapM.loop f xs others).run F s = .ok (others.reverse ++ found) t := by
  induction xs generalizing pre s with
  | nil =>
    cases h
    exact ⟨[], by simp, fun others => by simp [List.mapM.loop, run, pure, runWith]⟩
  | cons x rest ih =>
    obtain ⟨a, u, ha, hrest⟩ := run_bind_ok h
    obtain ⟨found, rfl, hfound⟩ := ih hrest
    refine ⟨a :: found, by simp, fun others => ?_⟩
    have hloop := hfound (a :: others)
    unfold run at ha hloop ⊢
    rw [List.mapM.loop]
    change (andThen _ _).runWith _ F s = _
    rw [runWith_andThen, ha]
    simpa using hloop

lemma run_mapM_cons_ok {F : Facts} {x : β} {as : List α} {s u : Session}
    (h : ((x :: xs).mapM f).run F s = .ok as u) :
    ∃ a found t, as = a :: found ∧ (f x).run F s = .ok a t ∧ (xs.mapM f).run F t = .ok found u := by
  obtain ⟨a, t, ha, hrest⟩ := run_bind_ok h
  obtain ⟨found, rfl, hfound⟩ := exists_of_run_mapM_loop_eq_ok hrest
  exact ⟨a, found, t, by simp, ha, hfound []⟩

lemma ensures_mapM (hf : ∀ x, (f x).Ensures P) : (xs.mapM f).Ensures fun as => ∀ a ∈ as, P a := by
  intro F s as u hrun
  induction xs generalizing s as with
  | nil =>
    cases hrun
    simp
  | cons x rest ih =>
    obtain ⟨a, found, t, rfl, ha, hfound⟩ := run_mapM_cons_ok hrun
    exact forall_mem_cons.mpr ⟨hf x F s a t ha, ih t found hfound⟩

lemma ensures_withPlan (hx : x.Ensures P) (plan : List PlannedCall) : (withPlan plan x).Ensures P := by
  induction plan with
  | nil => exact hx
  | cons p rest ih =>
    intro F s a u hrun
    obtain ⟨t, ht⟩ := exists_of_run_withCall_eq_ok hrun
    exact ih F _ a t ht

end Engine

open Engine Table

variable {method : String}

lemma httpMethod?_mem {s : String} (h : httpMethod? s = some method) : method ∈ httpMethods := by
  unfold httpMethod? at h
  dsimp only at h
  split at h
  next hmem =>
    cases h
    simpa using hmem
  · cases h

lemma mem_httpMethods_of_findSome? {ss : List String} (h : ss.findSome? httpMethod? = some method) :
    method ∈ httpMethods := by
  obtain ⟨s, -, hs⟩ := exists_of_findSome?_eq_some h
  exact httpMethod?_mem hs

lemma ne_empty_of_mem_httpMethods (h : method ∈ httpMethods) : method ≠ "" := by
  rintro rfl
  revert h
  decide

/-- The methods that are known for some addresses, and for all of them, are request methods. -/
structure SinkDetails.Methodical (d : SinkDetails) : Prop where
  methods : d.methods.All (· ∈ httpMethods)
  method : ∀ method, d.method = some method → method ∈ httpMethods

lemma ensures_fetchOptions (options : Option Node) :
    (fetchOptions options).Ensures fun o => ∀ method, o.method = some method → method ∈ httpMethods := by
  refine ensures_bind fun found => ?_
  cases found with
  | none => exact ensures_pure (by simp)
  | some ref =>
    refine ensures_bind fun _ => ensures_bind fun methods => ensures_bind fun _ => ensures_bind fun _ =>
      ensures_bind fun _ => ensures_bind fun _ => ensures_pure ?_
    intro method hmeth
    exact mem_httpMethods_of_findSome? hmeth

lemma ensures_pairedMethods (b : Binding) (methodName urlName : String) :
    (pairedMethods b methodName urlName).Ensures (Table.All (· ∈ httpMethods)) := by
  refine ensures_bind fun _ => ensures_foldlM all_empty fun pairs path hpairs => ?_
  refine ensures_bind fun methods => ensures_bind fun urls => ?_
  cases hmeth : methods.head?.bind httpMethod? with
  | none => exact ensures_pure hpairs
  | some method =>
    obtain ⟨s, -, hs⟩ := Option.bind_eq_some_iff.mp hmeth
    refine ensures_pure (List.foldlRecOn _ _ hpairs fun t ht url _ => ?_)
    exact ht.insertNew (httpMethod?_mem hs)

lemma ensures_xhrMethods (sink : RequestSink) (urls : List String) :
    (xhrMethods sink urls).Ensures (Table.All (· ∈ httpMethods)) := by
  have hpass : (passedMethods sink).Ensures (Table.All (· ∈ httpMethods)) := by
    refine ensures_bind fun m => ?_
    split
    · refine ensures_bind fun _ => ensures_ite (fun _ => ensures_pure all_empty) fun _ => ?_
      exact ensures_pairedMethods _ _ _
    · exact ensures_pure all_empty
  refine hpass.bind fun paired hpaired => ensures_ite (fun _ => ensures_pure hpaired) fun _ => ?_
  refine ensures_bind fun values => ?_
  split
  next method hmeth =>
    refine ensures_pure (all_empty.foldl (fun t e ht he => ht.insert he) fun e he => ?_)
    obtain ⟨url, -, rfl⟩ := mem_map.mp he
    exact mem_httpMethods_of_findSome? hmeth
  · exact ensures_pure all_empty

lemma ensures_sinkDetails (sink : RequestSink) (urls : List String) (members : Bool) :
    (sinkDetails sink urls members).Ensures SinkDetails.Methodical := by
  refine ensures_bind fun m => ?_
  split
  · refine (ensures_fetchOptions _).bind fun o ho => ensures_pure ?_
    exact ⟨all_empty, ho⟩
  · refine ensures_bind fun _ => ensures_pure ⟨all_empty, fun method hmeth => ?_⟩
    cases hmeth
    decide
  · refine (ensures_xhrMethods sink urls).bind fun methods hmethods => ?_
    refine ensures_bind fun _ => ensures_bind fun _ => ensures_pure ⟨hmethods, fun method hmeth => ?_⟩
    cases hmeth
  · exact ensures_pure ⟨all_empty, fun method hmeth => by cases hmeth⟩

lemma SinkDetails.Methodical.method_mem {d : SinkDetails} (h : d.Methodical) (url : String) :
    (d.methods.get? url).getD (d.method.getD "GET") ∈ httpMethods := by
  cases hurl : d.methods.get? url with
  | some method => exact h.methods.get? hurl
  | none =>
    cases hmeth : d.method with
    | some method => exact h.method method hmeth
    | none => decide

/-- A record of a sink: it has the kind of the sink, and its method is a request method. -/
structure RequestRecord.OfSink (sink : RequestSink) (r : RequestRecord) : Prop where
  kind : r.kind = sink.kind
  method : r.method ∈ httpMethods

lemma ensures_addresses (n : Node) : (addresses n true).Ensures fun urls => urls ≠ [] := by
  refine ensures_bind fun values => ensures_ite (fun hvals => ?_) fun _ => ?_
  · exact ensures_pure (by simpa using hvals)
  · exact ensures_bind fun form => ensures_pure (by simp)

lemma ensures_sinkRecordsHere (sink : RequestSink) (traced : Bool) {P : List String → Prop}
    (haddresses : (addresses sink.url !traced).Ensures P) :
    (sinkRecordsHere sink traced).Ensures fun records => (∀ r ∈ records, r.OfSink sink) ∧ P (records.map (·.url)) := by
  refine ensures_bind fun facts => haddresses.bind fun urls hurls => ensures_ite (fun hnone => ?_) fun _ => ?_
  · obtain rfl : urls = [] := by simpa using hnone
    exact ensures_pure ⟨by simp, by simpa using hurls⟩
  · refine (ensures_sinkDetails sink urls _).bind fun d hd => ensures_pure ⟨fun r hr => ?_, ?_⟩
    · obtain ⟨url, -, rfl⟩ := mem_map.mp hr
      exact ⟨rfl, hd.method_mem url⟩
    · simpa [Function.comp_def] using hurls

lemma ensures_sinkRecords (sink : RequestSink) :
    (sinkRecords sink).Ensures fun records => records ≠ [] ∧ ∀ r ∈ records, r.OfSink sink := by
  have htraced := ensures_sinkRecordsHere sink true (ensures_true _)
  have hplain := ensures_sinkRecordsHere sink false (ensures_addresses sink.url)
  refine ensures_bind fun plans => (ensures_mapM (ensures_withPlan htraced)).bind fun lots hlots => ?_
  refine ensures_ite (fun _ => ?_) fun hsome => ensures_pure ⟨by simpa using hsome, fun r hr => ?_⟩
  · intro F s records t hrun
    obtain ⟨hall, hurls⟩ := hplain F s records t hrun
    exact ⟨by simpa using hurls, hall⟩
  · obtain ⟨lot, hlot, hr⟩ := mem_flatten.mp hr
    exact (hlots lot hlot).1 r hr

end ScriptAudit
