import ScriptAudit.Text.Utf8

/-!
# Percent encoding

Letters, digits, `_`, `.`, `-`, `~` and the characters declared safe stay, every byte of any other
character becomes a percent sign and two capital hexadecimal digits. Texts with lone surrogates,
which cannot be encoded, do not arise (`Text.utf8Bytes`).
-/

namespace ScriptAudit.Text

def hexDigit (n : Nat) : Char :=
  Char.ofNat (if n < 10 then 0x30 + n else 0x37 + n)

def percentByte (b : Nat) : List Char :=
  ['%', hexDigit (b / 16), hexDigit (b % 16)]

def isUnreserved (c : Char) : Bool :=
  c.isAlphanum || c == '_' || c == '.' || c == '-' || c == '~'

def percentEncode (safe : List Char) (s : String) : String :=
  String.ofList <| s.toList.flatMap fun c =>
    if isUnreserved c || safe.contains c then [c] else (utf8Bytes c).flatMap percentByte

def safeInComponent : List Char := "-_.!~*'()".toList

def safeInUrl : List Char := "-_.!~*'();/?:@&=+$,#".toList

end ScriptAudit.Text
