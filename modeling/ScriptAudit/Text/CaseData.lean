/-!
# Letter case data

The case mappings of the character standard, as runs of characters with one common shift, the
characters whose capital form is longer, and the two properties that decide the final form of sigma.
-/

namespace ScriptAudit.Text

/-- Every `stride`-th character from `first` to `last` maps to the character `shift` places away. -/
structure CaseRun where
  first : Nat
  last : Nat
  stride : Nat
  shift : Int

def CaseRun.covers (r : CaseRun) (n : Nat) : Bool :=
  r.first ≤ n && n ≤ r.last && (n - r.first) % r.stride == 0

/-- Runs from the distance of each to the last character of the one before, its length, stride and
shift. -/
def runsFrom (last : Nat) : List (Nat × Nat × Nat × Int) → List CaseRun
  | [] => []
  | (gap, length, stride, shift) :: rest =>
    ⟨last + gap, last + gap + length, stride, shift⟩ :: runsFrom (last + gap + length) rest

def smallRuns : List CaseRun := runsFrom 0 [
  (65,25,1,32),(102,22,1,32),(2,6,1,32),(34,46,2,1),(4,4,2,1),(3,14,2,1),(3,44,2,1),(2,0,1,-121),(1,4,2,1),
  (4,0,1,210),(1,2,2,1),(2,0,1,206),(1,0,1,1),(2,1,1,205),(1,0,1,1),(3,0,1,79),(1,0,1,202),(1,0,1,203),(1,0,1,1),
  (2,0,1,205),(1,0,1,207),(2,0,1,211),(1,0,1,209),(1,0,1,1),(4,0,1,211),(1,0,1,213),(2,0,1,214),(1,4,2,1),(2,0,1,218),
  (1,0,1,1),(2,0,1,218),(3,0,1,1),(2,0,1,218),(1,0,1,1),(2,1,1,217),(1,2,2,1),(2,0,1,219),(1,0,1,1),(4,0,1,1),
  (8,0,1,2),(1,0,1,1),(2,0,1,2),(1,0,1,1),(2,0,1,2),(1,16,2,1),(3,16,2,1),(3,0,1,2),(1,2,2,1),(2,0,1,-97),(1,0,1,-56),
  (1,38,2,1),(2,0,1,-130),(2,16,2,1),(8,0,1,10795),(1,0,1,1),(2,0,1,-163),(1,0,1,10792),(3,0,1,1),(2,0,1,-195),
  (1,0,1,69),(1,0,1,71),(1,8,2,1),(290,2,2,1),(4,0,1,1),(9,0,1,116),(7,0,1,38),(2,2,1,37),(2,0,1,64),(2,1,1,63),
  (2,16,1,32),(2,8,1,32),(36,0,1,8),(9,22,2,1),(6,0,1,-60),(3,0,1,1),(2,0,1,-7),(1,0,1,1),(3,2,1,-130),(1,15,1,80),
  (1,31,1,32),(49,32,2,1),(10,52,2,1),(2,0,1,15),(1,12,2,1),(3,94,2,1),(3,37,1,48),(2890,37,1,7264),(2,0,1,7264),
  (6,0,1,7264),(723,79,1,38864),(1,5,1,8),(2203,42,1,-3008),(3,2,1,-3008),(321,148,2,1),(10,0,1,-7615),(2,94,2,1),
  (10,7,1,-8),(9,5,1,-8),(11,7,1,-8),(9,7,1,-8),(9,5,1,-8),(12,6,2,-8),(9,7,1,-8),(25,7,1,-8),(9,7,1,-8),(9,7,1,-8),
  (9,1,1,-8),(1,1,1,-74),(1,0,1,-9),(12,3,1,-86),(1,0,1,-9),(12,1,1,-8),(1,1,1,-100),(13,1,1,-8),(1,1,1,-112),
  (1,0,1,-7),(12,1,1,-128),(1,1,1,-126),(1,0,1,-9),(298,0,1,-7517),(4,0,1,-8383),(1,0,1,-8262),(7,0,1,28),
  (46,15,1,16),(20,0,1,1),(819,25,1,26),(1841,47,1,48),(49,0,1,1),(2,0,1,-10743),(1,0,1,-3814),(1,0,1,-10727),
  (3,4,2,1),(2,0,1,-10780),(1,0,1,-10749),(1,0,1,-10783),(1,0,1,-10782),(2,0,1,1),(3,0,1,1),(9,1,1,-10815),(1,98,2,1),
  (9,2,2,1),(5,0,1,1),(31054,44,2,1),(20,26,2,1),(136,12,2,1),(4,60,2,1),(11,2,2,1),(2,0,1,-35332),(1,8,2,1),
  (5,0,1,1),(2,0,1,-42280),(3,2,2,1),(4,18,2,1),(2,0,1,-42308),(1,0,1,-42319),(1,0,1,-42315),(1,0,1,-42305),
  (1,0,1,-42308),(2,0,1,-42258),(1,0,1,-42282),(1,0,1,-42261),(1,0,1,928),(1,14,2,1),(2,0,1,-48),(1,0,1,-42307),
  (1,0,1,-35384),(1,2,2,1),(7,0,1,1),(6,2,2,1),(29,0,1,1),(22316,25,1,32),(1222,39,1,40),(137,35,1,40),(157,10,1,39),
  (2,14,1,39),(2,6,1,39),(2,1,1,39),(1771,50,1,64),(3054,31,1,32),(21889,31,1,32),(31393,33,1,34)]

/-- Letters whose capital has another letter as its small form. -/
def sharedCapitals : List (Nat × Nat) := [
  (0xB5, 0x39C), (0x131, 0x49), (0x17F, 0x53), (0x1C5, 0x1C4), (0x1C8, 0x1C7), (0x1CB, 0x1CA),
  (0x1F2, 0x1F1), (0x345, 0x399), (0x3C2, 0x3A3), (0x3D0, 0x392), (0x3D1, 0x398), (0x3D5, 0x3A6),
  (0x3D6, 0x3A0), (0x3F0, 0x39A), (0x3F1, 0x3A1), (0x3F5, 0x395), (0x1C80, 0x412), (0x1C81, 0x414),
  (0x1C82, 0x41E), (0x1C83, 0x421), (0x1C84, 0x422), (0x1C85, 0x422), (0x1C86, 0x42A),
  (0x1C87, 0x462), (0x1C88, 0xA64A), (0x1E9B, 0x1E60), (0x1FBE, 0x399)]

/-- All other letters are the small forms of their capitals. -/
def capitalRuns : List CaseRun :=
  smallRuns.map fun r =>
    ⟨(r.first + r.shift).toNat, (r.last + r.shift).toNat, r.stride, -r.shift⟩

/-- Letters with an iota below stand in rows of sixteen, which share eight capitals. -/
def iotaCapitals : List (Nat × List Nat) :=
  [(0x1F80, 0x1F08), (0x1F90, 0x1F28), (0x1FA0, 0x1F68)].flatMap fun (first, base) =>
    (List.range 16).map fun k => (first + k, [base + k % 8, 0x399])

def longCapitals : List (Nat × List Nat) := iotaCapitals ++ [
  (0xDF, [0x53, 0x53]), (0x149, [0x2BC, 0x4E]), (0x1F0, [0x4A, 0x30C]),
  (0x390, [0x399, 0x308, 0x301]), (0x3B0, [0x3A5, 0x308, 0x301]), (0x587, [0x535, 0x552]),
  (0x1E96, [0x48, 0x331]), (0x1E97, [0x54, 0x308]), (0x1E98, [0x57, 0x30A]),
  (0x1E99, [0x59, 0x30A]), (0x1E9A, [0x41, 0x2BE]), (0x1F50, [0x3A5, 0x313]),
  (0x1F52, [0x3A5, 0x313, 0x300]), (0x1F54, [0x3A5, 0x313, 0x301]), (0x1F56, [0x3A5, 0x313, 0x342]),
  (0x1FB2, [0x1FBA, 0x399]), (0x1FB3, [0x391, 0x399]), (0x1FB4, [0x386, 0x399]),
  (0x1FB6, [0x391, 0x342]), (0x1FB7, [0x391, 0x342, 0x399]), (0x1FBC, [0x391, 0x399]),
  (0x1FC2, [0x1FCA, 0x399]), (0x1FC3, [0x397, 0x399]), (0x1FC4, [0x389, 0x399]),
  (0x1FC6, [0x397, 0x342]), (0x1FC7, [0x397, 0x342, 0x399]), (0x1FCC, [0x397, 0x399]),
  (0x1FD2, [0x399, 0x308, 0x300]), (0x1FD3, [0x399, 0x308, 0x301]), (0x1FD6, [0x399, 0x342]),
  (0x1FD7, [0x399, 0x308, 0x342]), (0x1FE2, [0x3A5, 0x308, 0x300]), (0x1FE3, [0x3A5, 0x308, 0x301]),
  (0x1FE4, [0x3A1, 0x313]), (0x1FE6, [0x3A5, 0x342]), (0x1FE7, [0x3A5, 0x308, 0x342]),
  (0x1FF2, [0x1FFA, 0x399]), (0x1FF3, [0x3A9, 0x399]), (0x1FF4, [0x38F, 0x399]),
  (0x1FF6, [0x3A9, 0x342]), (0x1FF7, [0x3A9, 0x342, 0x399]), (0x1FFC, [0x3A9, 0x399]),
  (0xFB00, [0x46, 0x46]), (0xFB01, [0x46, 0x49]), (0xFB02, [0x46, 0x4C]),
  (0xFB03, [0x46, 0x46, 0x49]), (0xFB04, [0x46, 0x46, 0x4C]), (0xFB05, [0x53, 0x54]),
  (0xFB06, [0x53, 0x54]), (0xFB13, [0x544, 0x546]), (0xFB14, [0x544, 0x535]),
  (0xFB15, [0x544, 0x53B]), (0xFB16, [0x54E, 0x546]), (0xFB17, [0x544, 0x53D])]

/-- Ranges of characters from the sizes of the gaps before them and their own sizes, in turn. -/
def rangesFrom (first : Nat) : List Nat → List (Nat × Nat)
  | gap :: size :: rest => (first + gap, first + gap + size - 1) :: rangesFrom (first + gap + size) rest
  | _ => []

def casedRanges : List (Nat × Nat) := rangesFrom 0 [
  65,26,6,26,47,1,10,1,4,1,5,23,1,31,1,195,1,4,4,208,1,27,192,4,2,2,3,3,1,1,6,1,1,3,1,1,1,20,1,83,1,139,8,166,1,38,9,
  41,2839,38,1,1,5,1,2,43,2,3,672,86,2,6,2178,9,7,43,2,3,64,44,63,13,1,34,101,278,2,6,2,38,2,6,2,8,1,1,1,1,1,1,1,31,2,
  53,1,7,1,1,3,3,1,7,3,4,2,6,4,13,5,3,1,7,261,1,4,1,2,10,1,1,3,5,6,1,1,1,1,1,1,4,1,6,4,1,2,4,5,5,4,1,17,32,3,2,817,52,
  1814,124,2,103,6,4,3,2,12,38,1,1,5,1,30994,46,18,28,134,78,1,23,3,4,1,59,5,2,1,1,1,5,27,2,3,1,821,43,5,9,7,80,20288,
  7,12,5,1033,26,6,26,1189,80,96,36,4,36,116,11,1,15,1,7,1,2,1,11,1,15,1,7,1,2,1731,51,13,51,2989,64,21856,64,25984,
  85,1,71,1,2,2,1,2,2,2,4,1,12,1,1,1,7,1,65,1,4,2,8,1,7,1,28,1,4,1,5,1,1,3,7,1,340,2,25,1,25,1,31,1,25,1,31,1,25,1,31,
  1,25,1,31,1,25,1,8,1844,10,1,20,2529,68,2028,26,6,26,6,26]

def caselessRanges : List (Nat × Nat) := rangesFrom 0 [
  39,1,6,1,11,1,35,1,1,1,71,1,4,1,1,1,4,1,2,2,503,192,4,2,4,1,9,2,1,1,251,7,207,1,5,1,49,45,1,1,1,2,1,2,1,1,44,1,11,6,
  10,11,1,1,35,1,10,21,16,1,101,8,1,10,1,4,33,1,1,1,30,27,91,11,58,11,4,1,2,1,24,24,43,3,44,1,7,2,6,8,41,58,55,1,1,1,
  4,8,4,1,3,7,10,2,13,1,15,1,58,1,4,4,8,1,20,2,26,1,2,2,57,1,4,2,4,2,2,3,3,1,30,2,3,1,11,2,57,1,4,5,1,2,4,1,20,2,22,6,
  1,1,58,1,2,1,1,4,8,1,7,2,11,2,30,1,61,1,12,1,50,1,3,1,55,1,1,3,5,3,1,4,7,2,11,2,29,1,58,1,2,1,6,1,5,2,20,2,28,2,57,
  2,4,4,8,1,20,2,29,1,72,1,7,3,1,1,90,1,2,7,11,9,98,1,2,9,9,1,1,6,74,2,27,1,1,1,1,1,55,14,1,5,1,2,5,11,1,36,9,1,102,4,
  1,6,1,2,2,2,25,2,4,3,16,4,13,1,2,2,6,1,15,1,94,1,608,3,946,3,29,2,30,2,30,2,64,2,1,7,8,1,2,11,3,1,5,1,45,5,51,1,65,
  2,34,1,118,3,4,2,9,1,6,3,219,2,2,1,58,1,1,7,1,1,1,1,2,8,6,10,2,1,39,1,8,31,49,4,48,1,1,5,1,1,5,1,40,9,12,2,32,4,2,2,
  1,3,56,1,1,2,3,1,1,3,58,8,2,2,64,6,82,3,1,13,1,7,4,1,6,1,3,2,50,63,13,1,34,101,445,1,1,3,11,3,13,3,13,3,13,2,12,5,8,
  2,10,1,2,1,2,5,49,5,1,10,1,1,13,1,16,13,51,33,2955,2,113,3,125,1,15,1,96,32,47,1,469,1,36,4,3,5,5,1,93,6,93,3,28438,
  1,1250,6,270,1,98,4,1,10,1,1,28,4,80,2,14,34,78,1,23,3,103,3,3,2,8,1,3,1,4,1,25,2,5,1,151,2,26,18,13,1,38,8,25,11,
  46,3,48,1,2,4,2,2,17,1,21,2,66,6,2,2,2,2,12,1,8,1,35,1,11,1,51,1,1,3,2,2,5,2,1,1,27,1,14,2,5,2,1,1,100,5,9,3,121,1,
  2,1,4,1,20272,1,147,17,573,16,3,1,12,16,34,1,2,1,169,1,7,1,6,1,11,1,35,1,1,1,47,1,45,2,67,1,21,3,513,1,226,1,149,5,
  1029,6,1,42,1,9,582,3,1,2,5,4,40,3,4,1,165,2,573,4,387,2,153,11,49,4,123,1,54,15,41,1,2,2,10,3,49,4,2,2,2,1,4,1,10,
  1,50,3,36,5,1,8,62,1,12,2,52,9,10,4,2,1,95,3,2,1,1,2,6,1,160,1,3,8,21,2,57,2,3,1,37,7,3,5,195,8,2,3,1,1,23,1,84,6,1,
  1,4,2,1,2,238,4,6,2,1,2,27,2,85,8,2,1,1,2,106,1,1,1,2,6,1,1,101,3,2,4,1,5,259,9,1,2,256,2,1,1,4,1,144,4,2,2,4,1,32,
  10,40,6,2,4,8,1,9,6,2,3,46,13,1,2,406,7,1,6,1,1,82,22,2,7,1,2,1,2,122,6,3,1,1,2,1,7,1,1,72,2,3,1,1,1,347,2,5435,9,
  14007,5,59,7,9,4,1035,1,63,17,64,2,1,2,16395,4,1,7,1,2,3230,2,1,4,4700,46,2,23,544,3,9,16,2,7,30,4,148,3,1979,55,4,
  50,8,1,14,1,22,5,1,15,1360,7,1,17,2,7,1,2,1,5,261,14,368,1,61,4,1504,7,109,8,2735,5,789505,1,30,96,128,240]

def inRanges (ranges : List (Nat × Nat)) (n : Nat) : Bool :=
  ranges.any fun r => r.1 ≤ n && n ≤ r.2

end ScriptAudit.Text
