import ScriptAudit.Resolve.Arrays
import ScriptAudit.Resolve.Functions
import ScriptAudit.Resolve.Objects
import ScriptAudit.Resolve.Values

/-!
# Answering questions

Each question is answered by the rule for it, which asks further questions in turn. The questions
that are open at one time are bounded: the depth grows but for new alias searches and constructors,
of which there are not more than nodes.
-/

namespace ScriptAudit

open Engine

/-- The rule for a question, which looks up and keeps its answer. -/
def Question.rule : ∀ {α : Type}, Question α → Engine α
  | _, .values n none depth =>
    match n.literalText?.orElse fun _ => plainTemplate? n with
    | some text => pure [text]
    | none =>
      consider ⟨.values, n.ident, none⟩ depth [] (·.values.get? (n.ident, none))
        (fun a s => { s with values := s.values.insert (n.ident, none) a })
        (Ask.valuesRule n depth)
  | _, .values n (some name) depth =>
    consider ⟨.values, n.ident, some name⟩ depth [] (·.values.get? (n.ident, some name))
      (fun a s => { s with values := s.values.insert (n.ident, some name) a })
      (some (Ask.propertyValues n name depth))
  | _, .object n depth =>
    consider ⟨.object, n.ident, none⟩ depth none (·.objects.get? n.ident)
      (fun a s => { s with objects := s.objects.insert n.ident a }) (Ask.objectRule n depth)
  | _, .array n depth =>
    consider ⟨.array, n.ident, none⟩ depth none (·.arrays.get? n.ident)
      (fun a s => { s with arrays := s.arrays.insert n.ident a }) (Ask.arrayRule n depth)
  | _, .functions n depth =>
    consider ⟨.functions, n.ident, none⟩ depth [] (·.functions.get? n.ident)
      (fun a s => { s with functions := s.functions.insert n.ident a })
      (Ask.functionsRule n depth)
  | _, .aliases n => Ask.valueAliases n

/-- Answers to questions that are nested at most so deep. -/
def answerWithin : Nat → Reply
  | 0 => fun _ _ _ s => .error .exhausted s
  | fuel + 1 => fun _ q facts s => q.rule.runWith (answerWithin fuel) facts s

/-- More questions are never open at one time. -/
def Facts.openQuestions (facts : Facts) : Nat :=
  (3 * facts.model.nodes.length + 4) * (8 * (facts.limits.maxDepth + 4))

def Engine.run {α : Type} (x : Engine α) (facts : Facts) (s : Session) : Outcome α :=
  x.runWith (answerWithin facts.openQuestions) facts s

end ScriptAudit
