import Kingbus.Lib.Bytes

/-! # SHA-1

The digest of FIPS 180-4, over words that are natural numbers below `2 ^ 32`.  The message is
padded to blocks of 64 bytes; each block is expanded to 80 words, and five registers take them in
one after the other. -/

namespace Sha1Digest

/-- Rotate a word to the left. -/
def rotate (n x : Nat) : Nat := (x <<< n ||| x >>> (32 - n)) % 2 ^ 32

/-- The complement of a word. -/
def complement (x : Nat) : Nat := x ^^^ (2 ^ 32 - 1)

/-- The five registers. -/
structure Registers where
  a : Nat
  b : Nat
  c : Nat
  d : Nat
  e : Nat

/-- The registers before the first block. -/
def init : Registers := ⟨0x67452301, 0xEFCDAB89, 0x98BADCFE, 0x10325476, 0xC3D2E1F0⟩

/-- The function and the constant of round `t`. -/
def choose (t : Nat) (r : Registers) : Nat × Nat :=
  if t < 20 then ((r.b &&& r.c) ||| (complement r.b &&& r.d), 0x5A827999)
  else if t < 40 then (r.b ^^^ r.c ^^^ r.d, 0x6ED9EBA1)
  else if t < 60 then ((r.b &&& r.c) ||| (r.b &&& r.d) ||| (r.c &&& r.d), 0x8F1BBCDC)
  else (r.b ^^^ r.c ^^^ r.d, 0xCA62C1D6)

/-- Take in one word. -/
def round (t : Nat) (r : Registers) (w : Nat) : Registers :=
  let (f, k) := choose t r
  ⟨(rotate 5 r.a + f + r.e + k + w) % 2 ^ 32, r.a, rotate 30 r.b, r.c, r.d⟩

/-- Take in words from round `t` on. -/
def rounds : Nat → Registers → List Nat → Registers
  | _, r, [] => r
  | t, r, w :: l => rounds (t + 1) (round t r w) l

/-- The next `n` words of a schedule that is kept with its last word first. -/
def expand : Nat → List Nat → List Nat
  | 0, l => l
  | n + 1, l =>
      let x := l.getD 2 0 ^^^ l.getD 7 0 ^^^ l.getD 13 0 ^^^ l.getD 15 0
      expand n (rotate 1 x :: l)

/-- The first `n` words of a byte string, the most significant byte first. -/
def words : Nat → Bytes → List Nat
  | 0, _ => []
  | n + 1, d => Bytes.leNat (d.take 4).reverse :: words n (d.drop 4)

/-- Take in one block. -/
def block (r : Registers) (d : Bytes) : Registers :=
  let r' := rounds 0 r (expand 64 (words 16 d).reverse).reverse
  ⟨(r.a + r'.a) % 2 ^ 32, (r.b + r'.b) % 2 ^ 32, (r.c + r'.c) % 2 ^ 32, (r.d + r'.d) % 2 ^ 32,
    (r.e + r'.e) % 2 ^ 32⟩

/-- Take in `n` blocks. -/
def blocks : Nat → Registers → Bytes → Registers
  | 0, r, _ => r
  | n + 1, r, d => blocks n (block r (d.take 64)) (d.drop 64)

/-- The message with a one bit, zeros and its length in bits behind it. -/
def pad (d : Bytes) : Bytes :=
  d ++ 0x80 :: Bytes.zeros ((119 - d.length % 64) % 64) ++
    (Bytes.leBytes 8 (8 * d.length % 2 ^ 64)).reverse

/-- `sha1.Sum`. -/
def sum (d : Bytes) : Bytes :=
  let r := blocks ((pad d).length / 64) init (pad d)
  [r.a, r.b, r.c, r.d, r.e].flatMap fun x => (Bytes.leBytes 4 x).reverse

theorem length_sum (d : Bytes) : (sum d).length = 20 := by
  simp [sum]

/-- The digest of `abc`. -/
example : sum [97, 98, 99] = [0xA9, 0x99, 0x3E, 0x36, 0x47, 0x06, 0x81, 0x6A, 0xBA, 0x3E,
    0x25, 0x71, 0x78, 0x50, 0xC2, 0x6C, 0x9C, 0xD0, 0xD8, 0x9D] := by
  decide +kernel

end Sha1Digest
