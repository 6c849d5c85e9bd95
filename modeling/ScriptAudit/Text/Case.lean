import ScriptAudit.Text.CaseData

/-!
# Letter case

Text in small letters and in capitals. A capital form may be longer than its letter, and a capital
sigma at the end of a word becomes a final sigma.
-/

namespace ScriptAudit.Text

def shifted? (runs : List CaseRun) (n : Nat) : Option Char :=
  (runs.find? (·.covers n)).map fun r => Char.ofNat ((n : Int) + r.shift).toNat

def capital (c : Char) : List Char :=
  let n := c.toNat
  if n < 0x80 then [c.toUpper]
  else match longCapitals.lookup n with
    | some form => form.map Char.ofNat
    | none => [((sharedCapitals.lookup n).map Char.ofNat <|> shifted? capitalRuns n).getD c]

def small (c : Char) : List Char :=
  let n := c.toNat
  if n < 0x80 then [c.toLower]
  else if n == 0x130 then ['i', Char.ofNat 0x307]
  else [(shifted? smallRuns n).getD c]

def meetsCased : List Char → Bool
  | [] => false
  | c :: rest =>
    if inRanges caselessRanges c.toNat then meetsCased rest else inRanges casedRanges c.toNat

def lowerFrom (before : List Char) : List Char → List Char
  | [] => []
  | c :: rest =>
    let form :=
      if c.toNat == 0x3A3 then
        [Char.ofNat (if meetsCased before && !meetsCased rest then 0x3C2 else 0x3C3)]
      else small c
    form ++ lowerFrom (c :: before) rest

def lower (s : String) : String :=
  String.ofList (lowerFrom [] s.toList)

def upper (s : String) : String :=
  String.ofList (s.toList.flatMap capital)

end ScriptAudit.Text
