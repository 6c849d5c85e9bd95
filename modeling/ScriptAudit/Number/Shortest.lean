/-!
# Shortest decimals

The fewest decimal digits that single out a binary fraction among its neighbours of 53-bit
precision, and of all decimals with so few digits the one nearest to it. All arithmetic is exact.
-/

namespace ScriptAudit.Number

/-- A positive decimal `0.d₁d₂…dₙ · 10 ^ point`. -/
structure Decimal where
  digits : List Nat
  point : Int
  deriving DecidableEq, Repr

structure Ratio where
  num : Nat
  den : Nat

def Ratio.binary (m : Nat) (e : Int) : Ratio :=
  if 0 ≤ e then ⟨m * Nat.pow 2 e.toNat, 1⟩ else ⟨m, Nat.pow 2 (-e).toNat⟩

def Ratio.scaleDown (r : Ratio) (k : Int) : Ratio :=
  if 0 ≤ k then ⟨r.num, r.den * Nat.pow 10 k.toNat⟩ else ⟨r.num * Nat.pow 10 (-k).toNat, r.den⟩

def pointFrom (r : Ratio) : Nat → Int → Int
  | 0, k => k
  | fuel + 1, k =>
    let s := r.scaleDown k
    if s.num < s.den then k else pointFrom r fuel (k + 1)

def leastPoint : Int := -330

def pointSpan : Nat := 680

def digitsOf (n : Nat) : List Nat :=
  (Nat.toDigits 10 n).map fun c => c.toNat - 0x30

def dropZeros (ds : List Nat) : List Nat :=
  (ds.reverse.dropWhile (· == 0)).reverse

def candidate? (m : Nat) (e : Int) (k : Int) (count : Nat) : Option Decimal :=
  let grid := k - count
  let value := (Ratio.binary (4 * m) (e - 2)).scaleDown grid
  let below := if m == Nat.pow 2 52 && e != -1074 then 1 else 2
  let low := (Ratio.binary (4 * m - below) (e - 2)).scaleDown grid
  let high := (Ratio.binary (4 * m + 2) (e - 2)).scaleDown grid
  let closed := m % 2 == 0
  let inside := fun (d : Nat) =>
    (if closed then low.num ≤ d * low.den else low.num < d * low.den)
      && (if closed then d * high.den ≤ high.num else d * high.den < high.num)
  let floor := value.num / value.den
  let rest := value.num % value.den
  -- a value half way between two decimals is written with the even one
  let down := 2 * rest < value.den || 2 * rest == value.den && floor % 2 == 0
  let near := if down then [floor, floor + 1] else [floor + 1, floor]
  (near.find? inside).map fun d =>
    let ds := digitsOf d
    ⟨dropZeros ds, grid + ds.length⟩

def shortest (m : Nat) (e : Int) : Decimal :=
  let k := pointFrom (Ratio.binary m e) pointSpan leastPoint
  ((List.range 17).findSome? fun i => candidate? m e k (i + 1)).getD ⟨[], 0⟩

structure Layout where
  leastPositional : Int
  greatestPositional : Int
  exponentWidth : Nat

def digitText (ds : List Nat) : List Char :=
  ds.map fun d => Char.ofNat (0x30 + d)

def padLeft (width : Nat) (cs : List Char) : List Char :=
  List.replicate (width - cs.length) '0' ++ cs

def Layout.write (l : Layout) (d : Decimal) : List Char :=
  let n : Int := d.digits.length
  if l.leastPositional ≤ d.point && d.point ≤ l.greatestPositional then
    if d.point ≤ 0 then
      '0' :: '.' :: List.replicate (-d.point).toNat '0' ++ digitText d.digits
    else if n ≤ d.point then
      digitText d.digits ++ List.replicate (d.point - n).toNat '0' ++ ['.', '0']
    else
      digitText (d.digits.take d.point.toNat) ++ '.' :: digitText (d.digits.drop d.point.toNat)
  else
    let exponent := d.point - 1
    let mantissa := match digitText d.digits with
      | [] => ['0']
      | [c] => [c]
      | c :: rest => c :: '.' :: rest
    mantissa ++ 'e' :: (if exponent < 0 then '-' else '+')
      :: padLeft l.exponentWidth (Nat.toDigits 10 exponent.natAbs)

end ScriptAudit.Number
