import ScriptAudit.Proofs.Query
import ScriptAudit.Proofs.Request.Sending

/-!
# Callers stay apart

A sink in a function is resolved once for each call of the function.
-/

namespace ScriptAudit

open Engine List RequestRecord Facts

/-- A program in which a sink is resolved for one call, and in which its names stand for what the
reading says. -/
structure CallerRun (limits : Limits) (reading : Reading) (uses : Uses) (sink : RequestSink) where
  root : Node
  facts : Facts
  session : Session
  call : PlannedCall
  numbered : root.WellNumbered
  describes : facts.Describes root
  sameLimits : facts.limits = limits
  reachable : session.Reachable facts
  unmarked : session.visited = []
  unframed : session.frames = []
  sinkWithin : sink.Within facts
  hasCall : facts.Has call.call
  reads : reading.HoldsIn facts (Frame.ofCall facts.model call.function call.call call.offset) session.callSites
  use : uses.HoldsIn facts sink

namespace CallerRun

variable {limits : Limits} {reading : Reading} {uses : Uses} {sink : RequestSink}

def outcome {α : Type} (p : CallerRun limits reading uses sink) (x : Engine α) : Outcome α :=
  (withPlan [p.call] x).run p.facts p.session

def frame (p : CallerRun limits reading uses sink) : Frame :=
  Frame.ofCall p.facts.model p.call.function p.call.call p.call.offset

lemma through (p : CallerRun limits reading uses sink) :
    Session.Through { p.session with frames := p.session.frames ++ [p.frame] } p.frame [] where
  frames := by simp [p.unframed]
  visited := p.unmarked
  topics := forall_mem_nil _

lemma outcome_of_finds {α : Type} (p : CallerRun limits reading uses sink) {x : Engine α}
    (hx : x.Meets p.facts (some 0) fun _ => True) {Q : α → Prop}
    (h : x.Finds p.facts { p.session with frames := p.session.frames ++ [p.frame] } fun a _ => Q a) :
    ∃ a t, p.outcome x = .ok a t ∧ Q a := by
  have hsound := p.describes.sound p.numbered
  have hplan : PlanWithin p.facts [p.call] := by
    intro call hcall
    obtain rfl := mem_singleton.mp hcall
    exact p.hasCall
  have hiff := (meets_withPlan hx hplan).evaluates_iff hsound (p.reachable.within hsound)
  obtain ⟨a, t, hevaluates, hQ⟩ := h.run
  have hmodel : model.Evaluates p.facts p.session (.ok p.facts.model p.session) :=
    .bind (.facts _) (evaluates_pure _)
  exact ⟨a, _, (hiff _).mp (.bind hmodel (.underFrame hevaluates)), hQ⟩

/-- What is sent for a call is the same in all programs in which the names of the sink stand for the
same. A parameter without a default that the call passes nothing for has the texts that all calls
pass. -/
theorem sent_eq {sent : List Sent} (hsends : sink.Sends limits reading uses sent)
    (p q : CallerRun limits reading uses sink) :
    (∃ rs t rs' t', p.outcome (sinkRecordsHere sink true) = .ok rs t ∧
      q.outcome (sinkRecordsHere sink true) = .ok rs' t' ∧
      rs.map RequestRecord.sent = sent ∧ rs'.map RequestRecord.sent = sent) ∧
    ∀ n groups, (n, .supplied groups none) ∈ reading → n.kind = .identifier → p.facts.Has n →
      ∃ t, p.outcome (ask (.values n none 0)) = .ok (unite limits.maxValues groups) t := by
  have hrecs (r : CallerRun limits reading uses sink) : ∃ rs t,
      r.outcome (sinkRecordsHere sink true) = .ok rs t ∧ rs.map RequestRecord.sent = sent := by
    have hsends : sink.Sends r.facts.limits reading uses sent := by rwa [r.sameLimits]
    refine r.outcome_of_finds (meets_sinkRecordsHere (r.describes.sound r.numbered) r.sinkWithin true) ?_
    exact finds_sinkRecordsHere r.through r.reads r.use hsends
  refine ⟨?_, fun n groups hmem hkind hn => ?_⟩
  · obtain ⟨rs, t, hp, hrs⟩ := hrecs p
    obtain ⟨rs', t', hq, hrs'⟩ := hrecs q
    exact ⟨rs, t, rs', t', hp, hq, hrs, hrs'⟩
  · have hown : n.ownText? = none := by simp [Node.ownText?, Node.literalText?, plainTemplate?, hkind]
    have hopens : Opens p.facts.limits [] 0 n := ⟨hown, Nat.zero_le _, not_mem_nil⟩
    have hspells := Spells.supplied (fun _ => []) hopens hkind hmem (by simp)
    have hmeets : (ask (.values n none 0)).Meets p.facts (some 0) fun _ => True := meets_askValues hn.knows (by omega)
    obtain ⟨_, t, hrun, rfl⟩ := p.outcome_of_finds hmeets (hspells.gives p.through p.reads)
    refine ⟨t, ?_⟩
    rw [hrun, p.sameLimits]
    rfl

end CallerRun

namespace Wrapper

def path : Node := .identifier 11 "u"

def method : Node := .identifier 15 "m"

def url : Node :=
  .binary 9 "+" (.textLiteral 10 "/api/") path

def options : Node :=
  .object 12 [.entry 13 "method" method]

def request : Node :=
  .call 7 (.identifier 8 "fetch") [url, options]

def function : Node :=
  .function 1 (.identifier 2 "send") [.identifier 3 "u", .identifier 4 "m"]
    (.block 5 [.statement 6 request])

def call (arguments : List Node) : Node :=
  .call 17 (.identifier 18 "send") arguments

def program (first second : List Node) : Node :=
  .script [function, .statement 16 (call first), .statement 21 (.call 22 (.identifier 23 "send")
    second)]

def sink : RequestSink :=
  { node := request, kind := .fetch, url := url, options := some options }

def sentFor (first second : List Node) : Option (List Sent) :=
  match Model.ofProgram (program first second) "" false with
  | .ok m =>
    match (withPlan [⟨function, call first, 0⟩] (sinkRecordsHere sink true)).run
        (ofModel m {}) {} with
    | .ok rs _ => some (rs.map sent)
    | .error _ _ => none
  | .error _ => none

lemma below_program {first second : List Node} {n : Node} (i : Nat)
    (h : (program first second).walk[i]? = some n) : (program first second).Below n :=
  Node.Below.mem_walk .refl (mem_of_getElem? h)

def session (m : Model) : Session :=
  Outcome.session ((Query.callSites function).engine.run (ofModel m {}) {})

def check (reading : Reading) (first second : List Node) : Bool :=
  match Model.ofProgram (program first second) "" false with
  | .ok m => (session m).visited.isEmpty && (session m).frames.isEmpty && reading.all fun e =>
      e.2.check (ofModel m {}) (Frame.ofCall m function (call first) 0) (session m).callSites e.1
  | .error _ => false

variable {reading : Reading}

lemma exists_callerRun {first second : List Node} (hprogram : (program first second).checkProgram = true)
    (hcheck : check reading first second = true) :
    ∃ p : CallerRun {} reading {} sink, p.root = program first second := by
  obtain ⟨hroot, m, hm, hF⟩ := Node.exists_described _ hprogram
  have hfun : (ofModel m {}).Has function := hF.has (below_program 1 rfl)
  simp only [check, hm, Bool.and_eq_true, List.isEmpty_iff] at hcheck
  obtain ⟨⟨hvis, hframes⟩, hread⟩ := hcheck
  refine ⟨{
    root := program first second
    facts := ofModel m {}
    session := session m
    call := ⟨function, call first, 0⟩
    numbered := hroot.toWellNumbered
    describes := hF
    sameLimits := rfl
    reachable := .query .start hfun
    unmarked := hvis
    unframed := hframes
    sinkWithin := {
      node := hF.has (below_program 7 rfl)
      url := hF.has (below_program 9 rfl)
      options := Has.some (hF.has (below_program 12 rfl))
      method := fun _ h => by cases h
      receiver := fun _ h => by cases h }
    hasCall := hF.has (below_program 17 rfl)
    reads := fun n meaning hmem => Meaning.holdsOf_of_check (List.all_eq_true.mp hread (n, meaning) hmem)
    use := ⟨rfl, rfl⟩ }, rfl⟩

def firstArgument : List Node := [.textLiteral 19 "users"]

def bothArguments : List Node := [.textLiteral 19 "users", .textLiteral 20 "PUT"]

def others : List Node := [.textLiteral 24 "x", .textLiteral 25 "POST", .textLiteral 26 "y"]

def bothPassed : Reading :=
  [(path, .argument (some "users") none), (method, .argument (some "PUT") none)]

def firstPassed : Reading :=
  [(path, .argument (some "users") none), (method, .supplied [["POST"]] none)]

lemma spells_url (h : (path, .argument (some "users") none) ∈ reading) : Spells {} reading [] 0 url ["/api/users"] := by
  let texts (e : Node) : List String := if e.isWritten then e.ownTexts else ["users"]
  have hterms : ∀ e ∈ url.concatTerms, Spells {} reading [⟨.values, url.ident, none⟩] 0 e (texts e) := by
    refine forall_mem_cons.mpr ⟨.written rfl, forall_mem_cons.mpr ⟨?_, forall_mem_nil _⟩⟩
    exact .passed ⟨rfl, Nat.zero_le _, by decide⟩ rfl h
  have hjoined : concatTexts 20 [["/api/"], ["users"]] = ["/api/users"] := by decide
  rw [← hjoined]
  exact Spells.concat texts ⟨rfl, Nat.zero_le _, not_mem_nil⟩ rfl rfl hterms

lemma sends (h : (path, .argument (some "users") none) ∈ reading) {text : String}
    (hmeth : Spells {} reading [] 0 method [text]) :
    sink.Sends {} reading {} [⟨"/api/users", (httpMethod? text).getD "GET", [], []⟩] := by
  have hoptions : Options {} reading options
      { method := [text].findSome? httpMethod?, headers := Table.empty, body := [] } :=
    .object (.literal rfl (Nat.zero_le _)) hmeth rfl rfl
  have hdelivers : sink.Delivers {} reading {} ["/api/users"]
      { method := [text].findSome? httpMethod?, headers := Table.empty, body := [] } :=
    .fetch rfl hoptions
  have hsends := RequestSink.Sends.requests (spells_url h) (by simp) hdelivers
  simpa [Delivery.sentTo, Table.empty, Table.get?] using hsends

end Wrapper

open Wrapper

/-- Programs in which the other call passes nothing and three literals; and one in which the call
leaves an argument out. -/
theorem CallerRun.sent_eq_wrapper :
    (∃ p q : CallerRun {} bothPassed {} sink,
      p.root = program bothArguments [] ∧
      q.root = program bothArguments others ∧
      ∃ rs t rs' t', p.outcome (sinkRecordsHere sink true) = .ok rs t ∧
        q.outcome (sinkRecordsHere sink true) = .ok rs' t' ∧
        rs.map sent = [⟨"/api/users", "PUT", [], []⟩] ∧
        rs'.map sent = [⟨"/api/users", "PUT", [], []⟩]) ∧
    ∃ p : CallerRun {} firstPassed {} sink,
      p.root = program firstArgument others ∧
      ∃ t, p.outcome (ask (.values method none 0)) = .ok ["POST"] t := by
  have hboth : Spells {} bothPassed [] 0 method ["PUT"] :=
    .passed ⟨rfl, Nat.zero_le _, not_mem_nil⟩ rfl (mem_cons_of_mem _ mem_cons_self)
  have hfirst : Spells {} firstPassed [] 0 method ["POST"] :=
    .supplied (fun _ => []) ⟨rfl, Nat.zero_le _, not_mem_nil⟩ rfl
      (mem_cons_of_mem _ mem_cons_self) (by simp)
  obtain ⟨p, hp⟩ := exists_callerRun
    (show (program bothArguments []).checkProgram = true by decide)
    (show check bothPassed bothArguments [] = true by decide +kernel)
  obtain ⟨q, hq⟩ := exists_callerRun
    (show (program bothArguments others).checkProgram = true by decide)
    (show check bothPassed bothArguments others = true by decide +kernel)
  obtain ⟨r, hr⟩ := exists_callerRun
    (show (program firstArgument others).checkProgram = true by decide)
    (show check firstPassed firstArgument others = true by decide +kernel)
  have hmeth : r.facts.Has method := r.describes.has (hr ▸ below_program 15 rfl)
  refine ⟨⟨p, q, hp, hq, ?_⟩, r, hr, ?_⟩
  · exact (CallerRun.sent_eq (sends mem_cons_self hboth) p q).1
  · exact (CallerRun.sent_eq (sends mem_cons_self hfirst) r r).2 method [["POST"]]
      (mem_cons_of_mem _ mem_cons_self) rfl hmeth

/-- What is sent for a call that leaves out an argument depends on what the other call passes. -/
theorem Wrapper.method_of_other_call :
    sentFor firstArgument [] = some [⟨"/api/users", "GET", [], []⟩] ∧
      sentFor firstArgument others = some [⟨"/api/users", "POST", [], []⟩] := by
  decide +kernel

end ScriptAudit
