import ScriptAudit.Text.Blank
import ScriptAudit.Text.Digit

/-!
# Numerals

A whole number: white space around it, a sign, and decimal digits of any script, with single
underscores between digits. Too many digits are refused.
-/

namespace ScriptAudit.Number

inductive NumeralError where
  | malformed
  | tooLong (digits : Nat)
  deriving DecidableEq, Repr

def maxNumeralDigits : Nat := 4300

def digitValues? (afterDigit : Bool) : List Char → Option (List Nat)
  | [] => if afterDigit then some [] else none
  | c :: rest =>
    if c == '_' then if afterDigit then digitValues? false rest else none
    else match Text.decimalValue? c with
      | some d => (digitValues? true rest).map (d :: ·)
      | none => none

def unsignedNumeral (cs : List Char) : Except NumeralError Nat :=
  match digitValues? false cs with
  | none => .error .malformed
  | some ds =>
    if maxNumeralDigits < ds.length then .error (.tooLong ds.length)
    else .ok (ds.foldl (fun n d => n * 10 + d) 0)

def numeral (s : String) : Except NumeralError Int :=
  match (Text.trim s).toList with
  | '-' :: rest => (unsignedNumeral rest).map fun n => -(n : Int)
  | '+' :: rest => (unsignedNumeral rest).map Int.ofNat
  | cs => (unsignedNumeral cs).map Int.ofNat

end ScriptAudit.Number
