import Kingbus.Lib.Bytes

/-! # Slices with a capacity

A Go slice is a window on an array.  An index and the upper bound of `s[lo:]` are checked against
the length of the window, but the bounds of `s[lo:hi]` against what there is of the array, so the
bytes behind the window can be read that way.  `none` is a run-time panic. -/

/-- The bytes of a slice and those behind it in its array. -/
structure GoSlice where
  bytes : Bytes
  spare : Bytes
  deriving DecidableEq, Repr

namespace GoSlice

/-- `s[i]`. -/
def index (s : GoSlice) (i : Nat) : Option UInt8 := s.bytes[i]?

/-- `s[lo:]`. -/
def tail (s : GoSlice) (lo : Nat) : Option GoSlice :=
  if lo ≤ s.bytes.length then some ⟨s.bytes.drop lo, s.spare⟩ else none

/-- `s[lo:hi]`. -/
def range (s : GoSlice) (lo hi : Nat) : Option Bytes := Bytes.slice (s.bytes ++ s.spare) lo hi

/-- The little-endian number in the first `n` bytes of `s[lo:]`. -/
def le (s : GoSlice) (lo n : Nat) : Option Nat :=
  (s.tail lo).bind fun t => if n ≤ t.bytes.length then some (Bytes.leNat (t.bytes.take n)) else none

/-- `bytes.IndexByte`. -/
def indexByte (b : Bytes) (x : UInt8) : Option Nat := b.findIdx? (· == x)

variable {a m c spare : Bytes} {lo hi : Nat}

theorem tail_append (hlo : lo = a.length) : tail ⟨a ++ c, spare⟩ lo = some ⟨c, spare⟩ := by
  subst hlo
  rw [tail, if_pos (by rw [List.length_append]; exact Nat.le_add_right ..)]
  exact congrArg some (by rw [List.drop_left])

theorem range_append (hlo : lo = a.length) (hhi : hi = lo + m.length) :
    range ⟨a ++ (m ++ c), spare⟩ lo hi = some m := by
  rw [range, List.append_assoc, List.append_assoc]
  exact Bytes.slice_append_of_eq hlo hhi

/-- One of several parts. -/
theorem range_flatten (before after : List Bytes) (hlo : lo = before.flatten.length)
    (hhi : hi = lo + m.length) :
    range ⟨(before ++ m :: after).flatten, spare⟩ lo hi = some m := by
  rw [List.flatten_append, List.flatten_cons]
  exact range_append hlo hhi

theorem index_append {x : UInt8} (hlo : lo = a.length) : index ⟨a ++ x :: c, spare⟩ lo = some x := by
  subst hlo
  rw [index, List.getElem?_append_right (Nat.le_refl _), Nat.sub_self, List.getElem?_cons_zero]

theorem le_append {n v : Nat} (hlo : lo = a.length) (hv : v < 256 ^ n) :
    le ⟨a ++ (Bytes.leBytes n v ++ c), spare⟩ lo n = some v := by
  have hle : n ≤ (Bytes.leBytes n v ++ c).length := by
    rw [List.length_append, Bytes.length_leBytes]
    exact Nat.le_add_right ..
  rw [le, tail_append hlo, Option.bind_some, if_pos hle, List.take_left' (Bytes.length_leBytes n v),
    Bytes.leNat_leBytes_of_lt hv]

/-- What is read as a number stands there. -/
theorem le_sound {s : GoSlice} {n v : Nat} (h : s.le lo n = some v) :
    lo + n ≤ s.bytes.length ∧ v < 256 ^ n ∧
      s.bytes.drop lo = Bytes.leBytes n v ++ s.bytes.drop (lo + n) := by
  rw [le, tail] at h
  split at h
  · next hlo =>
    obtain ⟨hn, hv⟩ := Option.ite_none_right_eq_some.mp h
    cases hv
    rw [List.length_drop] at hn
    have hlen : ((s.bytes.drop lo).take n).length = n := by
      rw [List.length_take, List.length_drop]
      omega
    have hlt := Bytes.leNat_lt ((s.bytes.drop lo).take n)
    have hbytes := Bytes.leBytes_leNat ((s.bytes.drop lo).take n)
    rw [hlen] at hlt hbytes
    refine ⟨by omega, hlt, ?_⟩
    rw [hbytes, ← List.drop_drop, List.take_append_drop]
  · cases h

/-- What stands there is read, and the rest stands behind it. -/
theorem le_complete {s : GoSlice} {n v : Nat} {rest : Bytes} (hn : 0 < n) (hv : v < 256 ^ n)
    (h : s.bytes.drop lo = Bytes.leBytes n v ++ rest) :
    s.le lo n = some v ∧ s.bytes.drop (lo + n) = rest := by
  have hlen : (s.bytes.drop lo).length = n + rest.length := by
    rw [h, List.length_append, Bytes.length_leBytes]
  rw [List.length_drop] at hlen
  constructor
  · rw [le, tail, if_pos (by omega), Option.bind_some, if_pos (by rw [List.length_drop]; omega), h,
      List.take_left' (Bytes.length_leBytes n v), Bytes.leNat_leBytes_of_lt hv]
  · rw [← List.drop_drop, h, List.drop_left' (Bytes.length_leBytes n v)]

/-- What is read behind the window stands there only if the window reaches that far. -/
theorem range_sound {s : GoSlice} {b : Bytes} (h : s.range lo hi = some b)
    (hhi : hi ≤ s.bytes.length) :
    hi = lo + b.length ∧ s.bytes.drop lo = b ++ s.bytes.drop hi := by
  obtain ⟨⟨hle, -⟩, hb⟩ := Option.ite_none_right_eq_some.mp h
  rw [List.drop_append_of_le_length (by omega), List.take_append_of_le_length (by
    rw [List.length_drop]
    omega)] at hb
  cases hb
  have hlen : ((s.bytes.drop lo).take (hi - lo)).length = hi - lo := by
    rw [List.length_take, List.length_drop]
    omega
  refine ⟨by omega, ?_⟩
  have hdrop : s.bytes.drop hi = (s.bytes.drop lo).drop (hi - lo) := by
    rw [List.drop_drop, Nat.add_sub_cancel' hle]
  rw [hdrop, List.take_append_drop]

theorem range_complete {s : GoSlice} {b rest : Bytes} (hlo : lo ≤ s.bytes.length)
    (h : s.bytes.drop lo = b ++ rest) :
    s.range lo (lo + b.length) = some b ∧ s.bytes.drop (lo + b.length) = rest := by
  have hlen : (s.bytes.drop lo).length = b.length + rest.length := by rw [h, List.length_append]
  rw [List.length_drop] at hlen
  constructor
  · rw [range, Bytes.slice, if_pos (by rw [List.length_append]; omega),
      List.drop_append_of_le_length hlo, h, Nat.add_sub_cancel_left, List.append_assoc,
      List.take_left]
  · rw [← List.drop_drop, h, List.drop_left]

theorem index_sound {s : GoSlice} {x : UInt8} (h : s.index lo = some x) :
    lo < s.bytes.length ∧ s.bytes.drop lo = x :: s.bytes.drop (lo + 1) := by
  obtain ⟨hlt, hx⟩ := List.getElem?_eq_some_iff.mp h
  exact ⟨hlt, by rw [List.drop_eq_getElem_cons hlt, hx]⟩

theorem index_complete {s : GoSlice} {x : UInt8} {rest : Bytes} (h : s.bytes.drop lo = x :: rest) :
    s.index lo = some x ∧ s.bytes.drop (lo + 1) = rest := by
  constructor
  · rw [index, ← List.head?_drop, h, List.head?_cons]
  · rw [← List.drop_drop, h, List.drop_one, List.tail_cons]

/-- The first byte of a kind is found behind the others. -/
theorem indexByte_append {x : UInt8} (h : x ∉ a) : indexByte (a ++ x :: c) x = some a.length := by
  rw [indexByte, List.findIdx?_append]
  have hnone : a.findIdx? (· == x) = none := by
    rw [List.findIdx?_eq_none_iff]
    intro y hy
    simpa using fun heq : y = x => h (heq ▸ hy)
  rw [hnone]
  simp [List.findIdx?_cons]

theorem indexByte_eq_none {x : UInt8} : indexByte a x = none ↔ x ∉ a := by
  rw [indexByte, List.findIdx?_eq_none_iff]
  constructor
  · intro h hx
    simpa using h x hx
  · intro h y hy
    simpa using fun heq : y = x => h (heq ▸ hy)

/-- Positions behind a prefix. -/
theorem range_add (a b : Bytes) : range ⟨a ++ b, spare⟩ (a.length + lo) (a.length + hi) =
    range ⟨b, spare⟩ lo hi := by
  rw [range, range, Bytes.slice, Bytes.slice, List.append_assoc, List.length_append,
    ← List.drop_drop, List.drop_left, Nat.add_sub_add_left]
  simp only [Nat.add_le_add_iff_left]

end GoSlice
