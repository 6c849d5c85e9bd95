import ScriptAudit.Text.Quoted
import ScriptAudit.Text.Utf8

/-!
# SHA-1

The 160-bit digest of a text's bytes, in hexadecimal. It names findings that say the same thing in
different files.
-/

namespace ScriptAudit.Digest

structure Chain where
  a : UInt32
  b : UInt32
  c : UInt32
  d : UInt32
  e : UInt32

def Chain.start : Chain :=
  ⟨0x67452301, 0xEFCDAB89, 0x98BADCFE, 0x10325476, 0xC3D2E1F0⟩

def rotateLeft (x : UInt32) (n : UInt32) : UInt32 :=
  (x <<< n) ||| (x >>> (32 - n))

def roundTerm (t : Nat) (b c d : UInt32) : UInt32 :=
  if t < 20 then ((b &&& c) ||| ((~~~b) &&& d)) + 0x5A827999
  else if t < 40 then (b ^^^ c ^^^ d) + 0x6ED9EBA1
  else if t < 60 then ((b &&& c) ||| (b &&& d) ||| (c &&& d)) + 0x8F1BBCDC
  else (b ^^^ c ^^^ d) + 0xCA62C1D6

def rounds : Nat → Nat → List UInt32 → Chain → Chain
  | 0, _, _, s => s
  | n + 1, t, window, s =>
    let w := window.headD 0
    let next := rotateLeft
      (window.getD 13 0 ^^^ window.getD 8 0 ^^^ window.getD 2 0 ^^^ window.getD 0 0) 1
    let mixed := rotateLeft s.a 5 + roundTerm t s.b s.c s.d + s.e + w
    rounds n (t + 1) (window.drop 1 ++ [next]) ⟨mixed, s.a, rotateLeft s.b 30, s.c, s.d⟩

def Chain.absorb (s : Chain) (block : List UInt32) : Chain :=
  let r := rounds 80 0 block s
  ⟨s.a + r.a, s.b + r.b, s.c + r.c, s.d + r.d, s.e + r.e⟩

def chunks {α : Type} (n : Nat) (fuel : Nat) (xs : List α) : List (List α) :=
  match fuel, xs with
  | _, [] => []
  | 0, _ => []
  | fuel + 1, x :: rest => (x :: rest).take n :: chunks n fuel ((x :: rest).drop n)

def wordOfBytes (bytes : List Nat) : UInt32 :=
  UInt32.ofNat (bytes.foldl (fun acc b => acc * 256 + b) 0)

def pad (bytes : List Nat) : List Nat :=
  let n := bytes.length
  let zeros := (119 - n % 64) % 64
  bytes ++ 0x80 :: List.replicate zeros 0
    ++ ((List.range 8).map fun i => 8 * n / Nat.pow 256 i % 256).reverse

def wordHex (w : UInt32) : List Char :=
  Text.hexOfWidth 8 w.toNat

def sha1 (s : String) : String :=
  let bytes := pad (Text.utf8BytesOf s)
  let words := (chunks 4 bytes.length bytes).map wordOfBytes
  let r := (chunks 16 words.length words).foldl Chain.absorb Chain.start
  String.ofList (wordHex r.a ++ wordHex r.b ++ wordHex r.c ++ wordHex r.d ++ wordHex r.e)

end ScriptAudit.Digest
