import Mathlib.Algebra.Ring.Int.Defs
import Mathlib.Algebra.Ring.Nat
import Mathlib.Data.List.Basic

/-! # Byte strings

A byte slice is a list of bytes.  `slice` is the bounds-checked `b[lo:hi]`,
`overwrite` is `copy(b[p:], d)` inside a fixed-size buffer, and `leBytes`/`leNat`
are the fixed-width little-endian encodings.  Nothing here knows what the bytes
are for. -/

/-- A byte slice. -/
abbrev Bytes := List UInt8

namespace Bytes

/-- `b[lo:hi]`, `none` when the bounds are out of range. -/
def slice (b : Bytes) (lo hi : Nat) : Option Bytes :=
  if lo ≤ hi ∧ hi ≤ b.length then some ((b.drop lo).take (hi - lo)) else none

/-- Copy `d` into `b` at position `p`; the length of `b` does not change when
`d` fits. -/
def overwrite (b : Bytes) (p : Nat) (d : Bytes) : Bytes :=
  b.take p ++ (d ++ b.drop (p + d.length))

/-- `n` zero bytes. -/
def zeros (n : Nat) : Bytes := List.replicate n 0

@[simp] theorem length_zeros (n : Nat) : (zeros n).length = n := List.length_replicate

@[simp] theorem zeros_zero : zeros 0 = [] := rfl

/-- A slice that lies between a prefix and a suffix is the middle part. -/
theorem slice_append (a m c : Bytes) :
    slice (a ++ (m ++ c)) a.length (a.length + m.length) = some m := by
  unfold slice
  rw [if_pos ⟨Nat.le_add_right _ _, by simp⟩, List.drop_left, Nat.add_sub_cancel_left,
    List.take_left]

/-- The same, with the bounds given by their values. -/
theorem slice_append_of_eq {a m c : Bytes} {lo hi : Nat} (hlo : lo = a.length)
    (hhi : hi = lo + m.length) : slice (a ++ (m ++ c)) lo hi = some m := by
  subst hlo hhi
  exact slice_append a m c

/-- Overwriting right behind a prefix replaces the bytes that follow it. -/
theorem overwrite_append {a m c d : Bytes} (h : d.length = m.length) :
    overwrite (a ++ (m ++ c)) a.length d = a ++ (d ++ c) := by
  unfold overwrite
  rw [List.take_left, h, ← List.append_assoc a m c, ← List.length_append, List.drop_left]

/-- Overwriting behind a prefix, in terms of what is left of the buffer. -/
theorem overwrite_prefix (a c d : Bytes) :
    overwrite (a ++ c) a.length d = a ++ (d ++ c.drop d.length) := by
  unfold overwrite
  rw [List.take_left, ← List.drop_drop, List.drop_left]

/-- Two writes end to end are one. -/
theorem overwrite_overwrite {b d e : Bytes} {p : Nat} (h : p + d.length ≤ b.length) :
    overwrite (overwrite b p d) (p + d.length) e = overwrite b p (d ++ e) := by
  have hlen : (b.take p ++ d).length = p + d.length := by
    rw [List.length_append, List.length_take, Nat.min_eq_left (by omega)]
  have hsplit : overwrite b p d = (b.take p ++ d) ++ b.drop (p + d.length) := by
    rw [overwrite, List.append_assoc]
  have hrest : (b.drop (p + d.length)).drop e.length = b.drop (p + (d ++ e).length) := by
    rw [List.drop_drop, List.length_append, Nat.add_assoc]
  rw [hsplit, ← hlen, overwrite_prefix, hlen, hrest, overwrite, List.append_assoc,
    List.append_assoc]

/-- Writing inside a buffer does not change its length. -/
theorem length_overwrite {b d : Bytes} {p : Nat} (h : p + d.length ≤ b.length) :
    (overwrite b p d).length = b.length := by
  rw [overwrite, List.length_append, List.length_append, List.length_take, List.length_drop,
    Nat.min_eq_left (by omega)]
  omega

/-- In front of what is written nothing changes. -/
theorem take_overwrite {b d : Bytes} {p : Nat} (h : p ≤ b.length) :
    (overwrite b p d).take p = b.take p :=
  List.take_left' (by rw [List.length_take, Nat.min_eq_left h])

theorem drop_overwrite {b d : Bytes} {p : Nat} (h : p ≤ b.length) :
    (overwrite b p d).drop p = d ++ b.drop (p + d.length) :=
  List.drop_left' (by rw [List.length_take, Nat.min_eq_left h])

/-- What a power failure leaves of `b` when `old` was on the disk: every lost byte
is as it was. -/
def lose (lost : Nat → Bool) (old b : Bytes) : Bytes :=
  b.mapIdx fun p x => if lost p then old.getD p 0 else x

@[simp] theorem length_lose (lost : Nat → Bool) (old b : Bytes) :
    (lose lost old b).length = b.length := List.length_mapIdx

/-- In front of what was written nothing is lost. -/
theorem take_lose (lost : Nat → Bool) (a b d : Bytes) :
    (lose lost (a ++ b) (a ++ d)).take a.length = a := by
  refine List.ext_getElem? fun p => ?_
  by_cases hp : p < a.length
  · rw [List.getElem?_take_of_lt hp, lose, List.getElem?_mapIdx, List.getElem?_append_left hp,
      List.getElem?_eq_getElem hp, List.getD_eq_getElem?_getD, List.getElem?_append_left hp,
      List.getElem?_eq_getElem hp]
    simp only [Option.map_some, Option.getD_some, ite_self]
  · rw [List.getElem?_eq_none (by rw [List.length_take]; omega),
      List.getElem?_eq_none (Nat.le_of_not_lt hp)]

/-! ## Little-endian integers -/

/-- The `k` low-order bytes of `v`, least significant first. -/
def leBytes : Nat → Nat → Bytes
  | 0, _ => []
  | k + 1, v => UInt8.ofNat (v % 256) :: leBytes k (v / 256)

/-- The value of a little-endian byte string. -/
def leNat : Bytes → Nat
  | [] => 0
  | b :: t => b.toNat + 256 * leNat t

@[simp] theorem length_leBytes : ∀ k v, (leBytes k v).length = k
  | 0, _ => rfl
  | k + 1, v => by rw [leBytes, List.length_cons, length_leBytes k]

theorem toNat_ofNat_mod (v : Nat) : (UInt8.ofNat (v % 256)).toNat = v % 256 := by
  rw [UInt8.toNat_ofNat']
  omega

theorem leNat_leBytes : ∀ k v, leNat (leBytes k v) = v % 256 ^ k
  | 0, v => by rw [leBytes, leNat, Nat.pow_zero, Nat.mod_one]
  | k + 1, v => by
      rw [leBytes, leNat, leNat_leBytes k, toNat_ofNat_mod, Nat.pow_succ, Nat.mul_comm (256 ^ k),
        Nat.mod_mul]

theorem leNat_leBytes_of_lt {k v : Nat} (h : v < 256 ^ k) : leNat (leBytes k v) = v := by
  rw [leNat_leBytes, Nat.mod_eq_of_lt h]

theorem leNat_lt : ∀ b : Bytes, leNat b < 256 ^ b.length
  | [] => by simp [leNat]
  | x :: t => by
      have hx : x.toNat < 256 := x.toNat_lt
      have ht := leNat_lt t
      rw [leNat, List.length_cons, Nat.pow_succ]
      omega

/-- Every byte string is the encoding of its value. -/
theorem leBytes_leNat (b : Bytes) : leBytes b.length (leNat b) = b := by
  induction b with
  | nil => rfl
  | cons x t ih =>
      have hx : x.toNat < 256 := x.toNat_lt
      have hlow : (x.toNat + 256 * leNat t) % 256 = x.toNat := by omega
      have hhigh : (x.toNat + 256 * leNat t) / 256 = leNat t := by omega
      rw [List.length_cons, leNat, leBytes, hlow, hhigh, ih, UInt8.ofNat_toNat]

@[simp] theorem leNat_zeros : ∀ n, leNat (zeros n) = 0
  | 0 => rfl
  | n + 1 => by
      have h : zeros (n + 1) = 0 :: zeros n := rfl
      rw [h, leNat, leNat_zeros n]
      rfl

end Bytes
