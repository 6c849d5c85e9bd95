/-!
# UTF-8

Bytes of a character, and the text in a sequence of bytes. Reading drops every byte that does not
begin or continue a well-formed character.

Texts are sequences of Unicode scalar values. A lone surrogate, which a script can write as an
escape, is no character of a text and has no bytes, so whatever encodes a text is defined for every
text.
-/

namespace ScriptAudit.Text

def utf8Bytes (c : Char) : List Nat :=
  let n := c.toNat
  if n < 0x80 then [n]
  else if n < 0x800 then [0xC0 + n / 0x40, 0x80 + n % 0x40]
  else if n < 0x10000 then [0xE0 + n / 0x1000, 0x80 + n / 0x40 % 0x40, 0x80 + n % 0x40]
  else [0xF0 + n / 0x40000, 0x80 + n / 0x1000 % 0x40, 0x80 + n / 0x40 % 0x40, 0x80 + n % 0x40]

def utf8BytesOf (s : String) : List Nat :=
  s.toList.flatMap utf8Bytes

def isTail (b : Nat) : Bool :=
  0x80 ≤ b && b ≤ 0xBF

def secondBounds (a : Nat) : Nat × Nat :=
  if a == 0xE0 then (0xA0, 0xBF)
  else if a == 0xED then (0x80, 0x9F)
  else if a == 0xF0 then (0x90, 0xBF)
  else if a == 0xF4 then (0x80, 0x8F)
  else (0x80, 0xBF)

def leadingChar? : List Nat → Option (Char × Nat)
  | [] => none
  | a :: rest =>
    let second := secondBounds a
    if a < 0x80 then some (Char.ofNat a, 0)
    else if 0xC2 ≤ a && a ≤ 0xDF then
      match rest with
      | b :: _ => if isTail b then some (Char.ofNat ((a - 0xC0) * 0x40 + (b - 0x80)), 1) else none
      | _ => none
    else if 0xE0 ≤ a && a ≤ 0xEF then
      match rest with
      | b :: c :: _ =>
        if second.1 ≤ b && b ≤ second.2 && isTail c then
          some (Char.ofNat ((a - 0xE0) * 0x1000 + (b - 0x80) * 0x40 + (c - 0x80)), 2)
        else none
      | _ => none
    else if 0xF0 ≤ a && a ≤ 0xF4 then
      match rest with
      | b :: c :: d :: _ =>
        if second.1 ≤ b && b ≤ second.2 && isTail c && isTail d then
          some (Char.ofNat
            ((a - 0xF0) * 0x40000 + (b - 0x80) * 0x1000 + (c - 0x80) * 0x40 + (d - 0x80)), 3)
        else none
      | _ => none
    else none

def decodeFrom : Nat → List Nat → List Char
  | _, [] => []
  | skip + 1, _ :: rest => decodeFrom skip rest
  | 0, a :: rest =>
    match leadingChar? (a :: rest) with
    | some (c, more) => c :: decodeFrom more rest
    | none => decodeFrom 0 rest

def decodeUtf8 (bytes : List Nat) : List Char :=
  decodeFrom 0 bytes

end ScriptAudit.Text
