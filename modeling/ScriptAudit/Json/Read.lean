import ScriptAudit.Json.Basic

/-!
# Reading JSON

A reader for one JSON value. A step of bounded recursion consumes at least every other time a
character, so twice the length of the text is enough.
-/

namespace ScriptAudit.Json

def isGap (c : Char) : Bool :=
  c == ' ' || c == '\t' || c == '\n' || c == '\r'

def skipGap (cs : List Char) : List Char :=
  cs.dropWhile isGap

def digitValue (c : Char) : Nat :=
  c.toNat - '0'.toNat

def decimal (digits : List Char) : Nat :=
  digits.foldl (fun n c => 10 * n + digitValue c) 0

def hexValue? (c : Char) : Option Nat :=
  if c.isDigit then some (digitValue c)
  else if 'a' ≤ c && c ≤ 'f' then some (c.toNat - 'a'.toNat + 10)
  else if 'A' ≤ c && c ≤ 'F' then some (c.toNat - 'A'.toNat + 10)
  else none

def hexFour? : List Char → Option (Nat × List Char)
  | a :: b :: c :: d :: rest =>
    ([a, b, c, d].mapM hexValue?).map fun ds => (ds.foldl (16 * · + ·) 0, rest)
  | _ => none

def escapedUnit? (cs : List Char) : Option (Char × List Char) :=
  (hexFour? cs).bind fun (high, rest) =>
    if 0xD800 ≤ high && high < 0xDC00 then
      match rest with
      | '\\' :: 'u' :: rest' =>
        (hexFour? rest').map fun (low, rest'') =>
          (Char.ofNat (0x10000 + (high - 0xD800) * 0x400 + (low - 0xDC00)), rest'')
      | _ => none
    else some (Char.ofNat high, rest)

def plainEscapes : List (Char × Char) :=
  [('"', '"'), ('\\', '\\'), ('/', '/'), ('b', '\x08'), ('f', '\x0c'), ('n', '\n'), ('r', '\r'),
    ('t', '\t')]

def readText : Nat → List Char → List Char → Option (String × List Char)
  | 0, _, _ => none
  | fuel + 1, seen, cs =>
    match cs with
    | '"' :: rest => some (String.ofList seen.reverse, rest)
    | '\\' :: 'u' :: rest =>
      (escapedUnit? rest).bind fun (c, rest') => readText fuel (c :: seen) rest'
    | '\\' :: c :: rest =>
      (plainEscapes.lookup c).bind fun d => readText fuel (d :: seen) rest
    | c :: rest => readText fuel (c :: seen) rest
    | [] => none

def readDigits (cs : List Char) : List Char × List Char :=
  cs.span Char.isDigit

def readFraction : List Char → List Char × List Char
  | '.' :: rest => readDigits rest
  | cs => ([], cs)

def readExponent : List Char → Option Int × List Char
  | c :: rest =>
    if c == 'e' || c == 'E' then
      match rest with
      | '-' :: rest' => let (ds, r) := readDigits rest'; (some (-(decimal ds : Int)), r)
      | '+' :: rest' => let (ds, r) := readDigits rest'; (some (decimal ds : Int), r)
      | _ => let (ds, r) := readDigits rest; (some (decimal ds : Int), r)
    else (none, c :: rest)
  | [] => (none, [])

def nearestBinary (negative : Bool) (m : Nat) (e : Int) : Number :=
  let x := if e < 0 then Float.ofScientific m true (-e).toNat else Float.ofScientific m false e.toNat
  Number.ofFloat (if negative then -x else x)

def readUnsigned? (negative : Bool) (cs : List Char) : Option (Number × List Char) :=
  let (whole, rest) := readDigits cs
  if whole.isEmpty then none
  else
    let (fraction, rest') := readFraction rest
    let (exponent, rest'') := readExponent rest'
    if fraction.isEmpty && exponent.isNone then
      let n : Int := decimal whole
      some (.whole (if negative then -n else n), rest'')
    else
      let e := exponent.getD 0 - fraction.length
      some (nearestBinary negative (decimal (whole ++ fraction)) e, rest'')

def readNumber? : List Char → Option (Number × List Char)
  | '-' :: 'I' :: 'n' :: 'f' :: 'i' :: 'n' :: 'i' :: 't' :: 'y' :: rest => some (.infinite true, rest)
  | 'I' :: 'n' :: 'f' :: 'i' :: 'n' :: 'i' :: 't' :: 'y' :: rest => some (.infinite false, rest)
  | 'N' :: 'a' :: 'N' :: rest => some (.undefined, rest)
  | '-' :: rest => readUnsigned? true rest
  | cs => readUnsigned? false cs

mutual

def readValue : Nat → List Char → Option (Json × List Char)
  | 0, _ => none
  | fuel + 1, cs =>
    match skipGap cs with
    | '\x7b' :: rest =>
      match skipGap rest with
      | '\x7d' :: rest' => some (object [], rest')
      | rest' => (readFields fuel [] rest').map fun (fields, r) => (object fields, r)
    | '[' :: rest =>
      match skipGap rest with
      | ']' :: rest' => some (list [], rest')
      | rest' => (readElements fuel [] rest').map fun (xs, r) => (list xs, r)
    | '"' :: rest => (readText fuel [] rest).map fun (s, r) => (text s, r)
    | 't' :: 'r' :: 'u' :: 'e' :: rest => some (boolean true, rest)
    | 'f' :: 'a' :: 'l' :: 's' :: 'e' :: rest => some (boolean false, rest)
    | 'n' :: 'u' :: 'l' :: 'l' :: rest => some (null, rest)
    | rest => (readNumber? rest).map fun (n, r) => (number n, r)

def readElements : Nat → List Json → List Char → Option (List Json × List Char)
  | 0, _, _ => none
  | fuel + 1, seen, cs =>
    (readValue fuel cs).bind fun (x, rest) =>
      match skipGap rest with
      | ',' :: rest' => readElements fuel (x :: seen) rest'
      | ']' :: rest' => some ((x :: seen).reverse, rest')
      | _ => none

def readFields : Nat → List (String × Json) → List Char → Option (List (String × Json) × List Char)
  | 0, _, _ => none
  | fuel + 1, seen, cs =>
    match skipGap cs with
    | '"' :: rest =>
      (readText fuel [] rest).bind fun (k, rest') =>
        match skipGap rest' with
        | ':' :: rest'' =>
          (readValue fuel rest'').bind fun (x, r) =>
            match skipGap r with
            | ',' :: r' => readFields fuel ((k, x) :: seen) r'
            | '\x7d' :: r' => some (((k, x) :: seen).reverse, r')
            | _ => none
        | _ => none
    | _ => none

end

def read? (s : String) : Option Json :=
  let cs := s.toList
  (readValue (2 * cs.length + 2) cs).bind fun (j, rest) =>
    if (skipGap rest).isEmpty then some j else none

end ScriptAudit.Json
