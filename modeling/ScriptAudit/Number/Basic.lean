import ScriptAudit.Number.Shortest

/-!
# Numbers

Whole numbers, binary fractions, and the infinities. A fraction that is whole is a whole number, so
each number has one form.
-/

namespace ScriptAudit

/-- A number as a literal denotes it. `fraction` is `mantissa · 2 ^ exponent` and never whole. -/
inductive Number where
  | whole (n : Int)
  | fraction (negative : Bool) (mantissa : Nat) (exponent : Int)
  | infinite (negative : Bool)
  | undefined
  deriving DecidableEq, Repr

namespace Number

def ofBinary (negative : Bool) (m : Nat) (e : Int) : Number :=
  if 0 ≤ e then
    let n : Int := (m * Nat.pow 2 e.toNat : Nat)
    whole (if negative then -n else n)
  else
    let d : Nat := Nat.pow 2 (-e).toNat
    if m % d == 0 then
      let n : Int := (m / d : Nat)
      whole (if negative then -n else n)
    else fraction negative m e

def ofBits (bits : Nat) : Number :=
  let negative := Nat.pow 2 63 ≤ bits
  let biased : Nat := bits / Nat.pow 2 52 % Nat.pow 2 11
  let low : Nat := bits % Nat.pow 2 52
  if biased == 0x7FF then if low == 0 then infinite negative else undefined
  else if biased == 0 then ofBinary negative low (-1074)
  else ofBinary negative (Nat.pow 2 52 + low) ((biased : Int) - 1075)

def ofFloat (x : Float) : Number :=
  ofBits x.toBits.toNat

def layout : Layout := ⟨-3, 16, 2⟩

def signText (negative : Bool) (cs : List Char) : String :=
  String.ofList (if negative then '-' :: cs else cs)

/-- The decimal text of a number. A whole number of more than 4300 digits has none that could be
read back (`Numeral`), and programs with such numbers are not meant here. -/
def text : Number → String
  | whole n => toString n
  | fraction negative m e => signText negative (layout.write (shortest m e))
  | infinite negative => signText negative "inf".toList
  | undefined => "nan"

end Number

end ScriptAudit
