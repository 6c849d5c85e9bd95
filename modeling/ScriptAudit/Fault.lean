import ScriptAudit.Number.Numeral
import ScriptAudit.Text.Quoted

/-!
# Faults

The ways in which analysing a program can fail, each with the text that reports it.
-/

namespace ScriptAudit

inductive Fault where
  | namelessIdentifier
  | position (text : String) (cause : Number.NumeralError)
  | emptyColumn
  | shapeChanged
  | exhausted
  | missingField (name : String)
  | wrongType
  | notText
  deriving DecidableEq, Repr

def Fault.message : Fault → String
  | namelessIdentifier => "'name'"
  | position text .malformed => "invalid literal for int() with base 10: " ++ Text.quoted text
  | position _ (.tooLong digits) =>
    "Exceeds the limit (" ++ toString Number.maxNumeralDigits
      ++ " digits) for integer string conversion: value has " ++ toString digits
      ++ " digits; use sys.set_int_max_str_digits() to increase the limit"
  | emptyColumn => "list index out of range"
  | shapeChanged => "dictionary changed size during iteration"
  | exhausted => "maximum recursion depth exceeded"
  | missingField name => Text.quoted name
  | wrongType => "value of another type expected"
  | notText => "text expected"

end ScriptAudit
