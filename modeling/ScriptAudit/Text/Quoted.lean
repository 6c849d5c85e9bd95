import ScriptAudit.Text.Printable

/-!
# Quoted text

Text between quotation marks, single ones unless the text holds one and no double mark. The mark in
use, the backslash and three line controls have short escapes, other characters that do not print
are written by number.
-/

namespace ScriptAudit.Text

def smallHexDigit (n : Nat) : Char :=
  Char.ofNat (if n < 10 then 0x30 + n else 0x57 + n)

def hexOfWidth (width n : Nat) : List Char :=
  ((List.range width).map fun i => smallHexDigit (n / Nat.pow 16 i % 16)).reverse

def escapeChar (mark c : Char) : List Char :=
  let n := c.toNat
  if c == mark || c == '\\' then ['\\', c]
  else if c == '\n' then ['\\', 'n']
  else if c == '\r' then ['\\', 'r']
  else if c == '\t' then ['\\', 't']
  else if isPrintable c then [c]
  else if n < 0x100 then '\\' :: 'x' :: hexOfWidth 2 n
  else if n < 0x10000 then '\\' :: 'u' :: hexOfWidth 4 n
  else '\\' :: 'U' :: hexOfWidth 8 n

def markFor (s : String) : Char :=
  if s.toList.contains '\'' && !s.toList.contains '"' then '"' else '\''

def quoted (s : String) : String :=
  let mark := markFor s
  String.ofList (mark :: s.toList.flatMap (escapeChar mark) ++ [mark])

end ScriptAudit.Text
