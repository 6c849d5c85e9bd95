import ScriptAudit.Proofs.Request.Bodies
import ScriptAudit.Request.Record

/-!
# What a request sends under a call

The address, method, headers and body values of a request can be read off its expressions once it is
known what their names stand for.
-/

namespace ScriptAudit

open Engine List Param Table

variable {F : Facts} {s : Session} {frame : Frame} {reading : Reading} {n : Node} {α : Type} {found : Option Node}
  {f : Node → List String} {sink : RequestSink}

def Optionally (R : Node → α → Prop) (otherwise : α) : Option Node → α → Prop
  | none, a => a = otherwise
  | some n, a => R n a

/-- What is sent in one request. -/
structure Sent where
  url : String
  method : String
  headers : List (String × String)
  body : List (String × List String)
  deriving DecidableEq

def RequestRecord.sent (r : RequestRecord) : Sent :=
  ⟨r.url, r.method, r.headers.entries, bodyValues r.params⟩

/-- What is sent to an address besides the address. -/
structure Delivery where
  methods : Table String String := empty
  method : Option String := none
  headers : Table String String := empty
  body : List (String × List String) := []

namespace Delivery

def sentTo (d : Delivery) (url : String) : Sent :=
  ⟨url, (d.methods.get? url).getD (d.method.getD "GET"), d.headers.entries, d.body⟩

def ofDetails (d : SinkDetails) : Delivery :=
  ⟨d.methods, d.method, d.headers, bodyValues d.body⟩

def ofOptions (o : RequestOptions) : Delivery :=
  { method := o.method, headers := o.headers, body := bodyValues o.body }

def ofUse (x : XhrUse) : Delivery :=
  { headers := x.headers, body := bodyValues x.body }

end Delivery

/-- What the options of a `fetch` add. -/
inductive Options (limits : Limits) (reading : Reading) : Node → Delivery → Prop
  | object {n literal : Node} {methods headers body} : HoldsObject limits reading 0 n (some literal) →
      Optionally (Spells limits reading [] 0) [] (literal.literalProperties.get? "method") methods →
      Optionally (Heads limits reading) empty (literal.literalProperties.get? "headers") headers →
      Optionally (Body limits reading) [] (literal.literalProperties.get? "body") body →
      Options limits reading n { method := methods.findSome? httpMethod?, headers, body }
  | nothing {n : Node} : HoldsObject limits reading 0 n none → Options limits reading n {}

section

variable (hs : s.Through frame []) (hread : reading.HoldsIn F frame s.callSites)
include hs hread

lemma gives_values_optionally {texts : List String} (h : Optionally (Spells F.limits reading [] 0) [] found texts) :
    (Ask.values found 0).Gives F s texts := by
  cases found with
  | none =>
    obtain rfl := h
    exact gives_pure []
  | some n => exact Spells.gives h hs hread

lemma finds_bodyParams_optionally {values : List (String × List String)}
    (h : Optionally (Body F.limits reading) [] found values) :
    (bodyParams found).Finds F s fun ps _ => bodyValues ps = values := by
  cases found with
  | none =>
    obtain rfl := h
    exact finds_pure fun _ _ => rfl
  | some n => exact finds_bodyParams hs hread h

lemma gives_headersOf_optionally {headers : Table String String}
    (h : Optionally (Heads F.limits reading) empty found headers) : (headersOf found).Gives F s headers := by
  cases found with
  | none =>
    obtain rfl := h
    exact .bind gives_facts (gives_pure empty)
  | some n => exact gives_headersOf hs hread h

lemma finds_fetchOptions {options : Option Node} {d : Delivery} (h : Optionally (Options F.limits reading) {} options d)
    : (fetchOptions options).Finds F s fun o _ => Delivery.ofOptions o = d := by
  cases options with
  | none =>
    obtain rfl := h
    exact Gives.bindFinds (gives_pure none) (finds_pure fun _ _ => rfl)
  | some n =>
    cases h with
    | nothing hholds =>
      refine .bind (Ask.finds_askObject hholds hs hread) ?_
      rintro _ t - rfl
      exact finds_pure fun _ _ => rfl
    | object hholds hmethods hheaders hbody =>
      refine .bind (Ask.finds_askObject hholds hs hread) ?_
      rintro _ t ht ⟨ref, rfl, href⟩
      have ht' := hs.grow ht
      have hreading' : reading.HoldsIn F frame t.callSites := by rwa [ht.callSites]
      refine Gives.bindFinds (gives_propertyOf? href "method") ?_
      refine Gives.bindFinds (gives_values_optionally ht' hreading' hmethods) ?_
      refine Gives.bindFinds (gives_propertyOf? href "headers") ?_
      refine Gives.bindFinds (gives_headersOf_optionally ht' hreading' hheaders) ?_
      refine Gives.bindFinds (gives_propertyOf? href "body") ?_
      refine .bind (finds_bodyParams_optionally ht' hreading' hbody) fun body _ _ hvals => ?_
      refine finds_pure fun _ _ => ?_
      rw [← hvals]
      rfl

end

/-- How a request object is used: the calls of its methods, and what it is told to parse the
response as. -/
structure Uses where
  calls : List (String × Node) := []
  stated : List Node := []

/-- A program uses the request object of a sink in this way. -/
structure Uses.HoldsIn (F : Facts) (sink : RequestSink) (uses : Uses) : Prop where
  calls : (sink.receiver.map (receiverCalls F.model)).getD [] = uses.calls
  stated : (sink.receiver.map (F.model.assignedMembers · "responseType")).getD [] = uses.stated

def Delivery.after (f : Node → List String) (g : Node → List (String × List String)) (d : Delivery)
    (call : String × Node) : Delivery :=
  match call.1, call.2.list .arguments with
  | "setRequestHeader", header :: value :: _ =>
    match (f header).head? with
    | some h => { d with headers := d.headers.insert (Text.lower h) ((f value).head?.getD unknownValue) }
    | none => d
  | "send", payload :: _ => { d with body := g payload }
  | _, _ => d

/-- The arguments of a call of a method of a request object are what `f` and `g` say. -/
inductive SpellsCall (limits : Limits) (reading : Reading) (f : Node → List String)
    (g : Node → List (String × List String)) : String × Node → Prop
  | header {call header value rest} : call.list .arguments = header :: value :: rest →
      Spells limits reading [] 0 header (f header) → Spells limits reading [] 0 value (f value) →
      SpellsCall limits reading f g ("setRequestHeader", call)
  | send {call payload rest} : call.list .arguments = payload :: rest → Body limits reading payload (g payload) →
      SpellsCall limits reading f g ("send", call)
  | other {name call} : name ≠ "setRequestHeader" → name ≠ "send" → SpellsCall limits reading f g (name, call)

lemma finds_note {g : Node → List (String × List String)} (hs : s.Through frame [])
    (hread : reading.HoldsIn F frame s.callSites) (members : Bool) {call : String × Node}
    (h : SpellsCall F.limits reading f g call) (x : XhrUse) :
    (x.note members call.1 call.2).Finds F s fun y _ => Delivery.ofUse y = (Delivery.ofUse x).after f g call := by
  cases h with
  | @header call header value rest hargs hheader hval =>
    have hset : (x.withHeader header value).Gives F s (match (f header).head? with
        | some h => x.headers.insert (Text.lower h) ((f value).head?.getD unknownValue)
        | none => x.headers) := by
      refine .bind (hheader.gives hs hread) ?_
      cases (f header).head? with
      | some h => exact .bind (hval.gives hs hread) (gives_pure _)
      | none => exact gives_pure _
    simp only [XhrUse.note, Delivery.after, hargs]
    refine Gives.bindFinds hset (finds_pure fun _ _ => ?_)
    cases (f header).head? <;> rfl
  | @send call payload rest hargs hbody =>
    simp only [XhrUse.note, Delivery.after, hargs]
    refine .bind (finds_bodyParams hs hread hbody) fun ps _ _ hps => ?_
    refine finds_pure fun _ _ => ?_
    rw [← hps]
    rfl
  | @other name call hheader hsend =>
    have hnote : x.note members name call = pure x := by
      unfold XhrUse.note
      split
      · exact absurd rfl hheader
      · exact absurd rfl hsend
      · rfl
    have hafter : (Delivery.ofUse x).after f g (name, call) = Delivery.ofUse x := by
      unfold Delivery.after
      split
      next heq _ => exact absurd heq hheader
      next heq _ => exact absurd heq hsend
      · rfl
    rw [hnote, hafter]
    exact finds_pure fun _ _ => rfl

lemma finds_firstText {nodes : List Node} (h : ∀ e ∈ nodes, (ask (.values e none 0)).Gives F s (f e)) :
    (firstText nodes).Finds F s fun _ _ => True := by
  induction nodes with
  | nil => exact finds_pure fun _ _ => trivial
  | cons e rest ih =>
    obtain ⟨he, hrest⟩ := forall_mem_cons.mp h
    refine Gives.bindFinds he ?_
    split
    · exact finds_pure fun _ _ => trivial
    · exact ih hrest

def openedWith (methods urls : List String) : Table String String :=
  match methods.findSome? httpMethod? with
  | some method => ofList (urls.map (·, method))
  | none => empty

lemma gives_xhrMethods {methods : List String} (hs : s.Through frame [])
    (hread : reading.HoldsIn F frame s.callSites) (hmem : ∀ m, sink.method = some m → m.memberName? = none)
    (h : Optionally (Spells F.limits reading [] 0) [] sink.method methods) (urls : List String) :
    (xhrMethods sink urls).Gives F s (openedWith methods urls) := by
  have hpass : (passedMethods sink).Gives F s empty := by
    refine .bind gives_model ?_
    have hpaired : (sink.method.bind (pairedBinding? F.model · sink.url)) = none := by
      cases hmeth : sink.method with
      | none => rfl
      | some m => simp [pairedBinding?, hmem m hmeth]
    rw [hpaired]
    exact gives_pure empty
  refine .bind hpass ?_
  simp only [Table.isEmpty, empty, isEmpty_nil, Bool.not_true]
  refine .bind (gives_values_optionally hs hread h) ?_
  unfold openedWith
  cases methods.findSome? httpMethod? with
  | some method => exact gives_pure _
  | none => exact gives_pure empty

/-- What a sink sends to its addresses. -/
inductive RequestSink.Delivers (limits : Limits) (reading : Reading) (uses : Uses)
    (sink : RequestSink) (urls : List String) : Delivery → Prop
  | fetch {d} : sink.kind = .fetch → Optionally (Options limits reading) {} sink.options d →
      Delivers limits reading uses sink urls d
  | beacon {values} : sink.kind = .beacon → Optionally (Body limits reading) [] sink.options values →
      Delivers limits reading uses sink urls { method := some "POST", body := values }
  | xhr {methods : List String} (f : Node → List String) (g : Node → List (String × List String)) :
      sink.kind = .xhr → (∀ m, sink.method = some m → m.memberName? = none) →
      Optionally (Spells limits reading [] 0) [] sink.method methods →
      (∀ c ∈ uses.calls, SpellsCall limits reading f g c) →
      (∀ e ∈ uses.stated, Spells limits reading [] 0 e (f e)) →
      Delivers limits reading uses sink urls
        { uses.calls.foldl (Delivery.after f g) {} with methods := openedWith methods urls }
  | other : sink.kind ≠ .fetch → sink.kind ≠ .beacon → sink.kind ≠ .xhr → Delivers limits reading uses sink urls {}

lemma Delivery.foldl_after {g : Node → List (String × List String)} (calls : List (String × Node)) (d : Delivery) :
    (calls.foldl (Delivery.after f g) d).methods = d.methods ∧
      (calls.foldl (Delivery.after f g) d).method = d.method := by
  induction calls generalizing d with
  | nil => exact ⟨rfl, rfl⟩
  | cons c rest ih =>
    have hstep : (d.after f g c).methods = d.methods ∧ (d.after f g c).method = d.method := by
      unfold Delivery.after
      split
      · split <;> exact ⟨rfl, rfl⟩
      iterate 2 exact ⟨rfl, rfl⟩
    rw [foldl_cons]
    exact ⟨(ih _).1.trans hstep.1, (ih _).2.trans hstep.2⟩

lemma finds_sinkDetails {uses : Uses} {urls : List String} {d : Delivery} (hs : s.Through frame [])
    (hread : reading.HoldsIn F frame s.callSites) (huses : uses.HoldsIn F sink)
    (h : sink.Delivers F.limits reading uses urls d) (members : Bool) :
    (sinkDetails sink urls members).Finds F s fun details _ => Delivery.ofDetails details = d := by
  refine Gives.bindFinds gives_model ?_
  cases h with
  | fetch hkind hoptions =>
    simp only [hkind]
    refine .bind (finds_fetchOptions hs hread hoptions) fun o _ _ ho => ?_
    exact finds_pure fun _ _ => ho
  | beacon hkind hbody =>
    simp only [hkind]
    refine .bind (finds_bodyParams_optionally hs hread hbody) fun ps _ _ hps => ?_
    refine finds_pure fun _ _ => ?_
    rw [← hps]
    rfl
  | xhr f g hkind hmem hmethods hcalls hstated =>
    simp only [hkind, huses.calls, huses.stated]
    refine Gives.bindFinds (gives_xhrMethods hs hread hmem hmethods urls) ?_
    refine .bind (finds_foldlM fun x c hc => finds_note hs hread members (hcalls c hc) x) fun x t ht hx => ?_
    have htexts : ∀ e ∈ uses.stated, (ask (.values e none 0)).Gives F t (f e) :=
      fun e he => ((hstated e he).gives hs hread).grow ht
    refine .bind (finds_firstText htexts) fun _ _ _ _ => ?_
    refine finds_pure fun _ _ => ?_
    obtain ⟨-, hmeth⟩ := Delivery.foldl_after (f := f) (g := g) uses.calls {}
    have hempty (usage : Usage) : Delivery.ofUse { usage } = {} := rfl
    rw [hempty] at hx
    rw [← hx] at hmeth ⊢
    rfl
  | other hfetch hbeacon hxhr =>
    cases hkind : sink.kind with
    | fetch => exact absurd hkind hfetch
    | beacon => exact absurd hkind hbeacon
    | xhr => exact absurd hkind hxhr
    | eventSource | webSocket | image => exact finds_pure fun _ _ => rfl

/-- What a sink sends, for each of its addresses. -/
inductive RequestSink.Sends (limits : Limits) (reading : Reading) (uses : Uses) (sink : RequestSink) : List Sent → Prop
  | nothing : Spells limits reading [] 0 sink.url [] → Sends limits reading uses sink []
  | requests {urls d} : Spells limits reading [] 0 sink.url urls → urls ≠ [] →
      sink.Delivers limits reading uses urls d → Sends limits reading uses sink (urls.map d.sentTo)

lemma Param.valued?_adopt (p : Param) (d : DeclaredParam) : (p.adopt d).valued? = p.valued? := by
  unfold adopt
  split <;> rfl

lemma Param.valued?_withValidValues (p : Param) (c : Option Constraints) (at_ : Node) :
    (p.withValidValues c at_).valued? = p.valued? := by
  unfold withValidValues
  split
  · rfl
  · dsimp only
    split
    · split <;> rfl
    · rfl

lemma bodyValues_map {f : Param → Param} (h : ∀ p, (f p).valued? = p.valued?)
    (params : List Param) : bodyValues (params.map f) = bodyValues params := by
  rw [bodyValues, filterMap_map, bodyValues]
  exact congrArg (List.filterMap · params) (funext h)

lemma bodyValues_requestParams (facts : Facts) (sink : RequestSink) (d : SinkDetails) :
    bodyValues (requestParams facts sink d) = bodyValues d.body := by
  have hadopted (declared : List DeclaredParam) (body : List Param) :
      bodyValues (declared.foldl (fun body d => body.map (·.adopt d)) body) = bodyValues body := by
    induction declared generalizing body with
    | nil => rfl
    | cons p rest ih =>
      rw [foldl_cons, ih]
      exact bodyValues_map (valued?_adopt · p) body
  have hused (declared : List DeclaredParam) (body : List Param) (u : Usage) :
      bodyValues (declared.filterMap (·.used? body u)) = [] := by
    refine filterMap_eq_nil_iff.mpr fun p hp => ?_
    obtain ⟨d, -, hd⟩ := mem_filterMap.mp hp
    unfold DeclaredParam.used? at hd
    split at hd
    · cases hd
    · obtain ⟨place, -, rfl⟩ := Option.map_eq_some_iff.mp hd
      rfl
  have hfun (m : Model) (function : Option Node) (body : List Param) (u : Usage) :
      bodyValues (functionParams m function body u).1 = bodyValues body ∧
        bodyValues (functionParams m function body u).2 = [] := by
    cases function with
    | none => exact ⟨rfl, rfl⟩
    | some f => exact ⟨hadopted _ _, hused _ _ _⟩
  have hpath (names : List String) : bodyValues (names.map fun name =>
      ({ name := name, required := true, place := some .path } : Param)) = [] := by
    refine filterMap_eq_nil_iff.mpr fun p hp => ?_
    obtain ⟨name, -, rfl⟩ := mem_map.mp hp
    rfl
  obtain ⟨hbody, hrest⟩ := hfun facts.model (facts.model.enclosingFunction? sink.node) d.body d.usage
  unfold requestParams
  rw [bodyValues_map (valued?_withValidValues · _ _)]
  unfold bodyValues at hbody hrest hpath ⊢
  rw [filterMap_append, filterMap_append, hpath, hbody, hrest]
  simp

lemma finds_sinkRecordsHere {uses : Uses} {sent : List Sent} (hs : s.Through frame [])
    (hread : reading.HoldsIn F frame s.callSites) (huses : uses.HoldsIn F sink)
    (h : sink.Sends F.limits reading uses sent) :
    (sinkRecordsHere sink true).Finds F s fun rs _ => rs.map RequestRecord.sent = sent := by
  refine Gives.bindFinds gives_facts ?_
  cases h with
  | nothing hurl =>
    refine Gives.bindFinds (b := []) (.bind (hurl.gives hs hread) (gives_pure [])) ?_
    exact finds_pure fun _ _ => rfl
  | @requests urls d hurl hne hdelivers =>
    have hisEmpty : urls.isEmpty = false := isEmpty_eq_false_iff.mpr hne
    have haddresses : (addresses sink.url !true).Gives F s urls := by
      refine .bind (hurl.gives hs hread) ?_
      simp only [hisEmpty]
      exact gives_pure urls
    refine Gives.bindFinds haddresses ?_
    simp only [hisEmpty]
    refine .bind (finds_sinkDetails hs hread huses hdelivers _) fun details _ _ hdetails => ?_
    refine finds_pure fun _ _ => ?_
    subst hdetails
    rw [map_map]
    refine map_congr_left fun url _ => ?_
    simp only [Function.comp_apply, RequestRecord.sent, Delivery.sentTo, Delivery.ofDetails, bodyValues_requestParams]

end ScriptAudit
