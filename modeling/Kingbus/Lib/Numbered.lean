import Mathlib.Data.List.Basic

/-! # Lists with consecutive numbers

A list whose elements carry a number is *numbered from* `n` when the element at
position `k` has number `n + k`.  A window of numbers of such a list can then be
cut out either by position or by filtering, and the second way does not care how
the list was split into pieces. -/

variable {α : Type}

/-- The elements of the list have the numbers `n`, `n + 1`, ... . -/
def Numbered (idx : α → Nat) : Nat → List α → Prop
  | _, [] => True
  | n, x :: xs => idx x = n ∧ Numbered idx (n + 1) xs

namespace Numbered
variable {idx : α → Nat}

instance decidable (idx : α → Nat) : ∀ n xs, Decidable (Numbered idx n xs)
  | _, [] => inferInstanceAs (Decidable True)
  | n, _ :: xs => @instDecidableAnd _ _ _ (decidable idx (n + 1) xs)

@[simp] theorem nil (n : Nat) : Numbered idx n [] := trivial

theorem append_iff : ∀ {n : Nat} {xs ys : List α},
    Numbered idx n (xs ++ ys) ↔ Numbered idx n xs ∧ Numbered idx (n + xs.length) ys
  | n, [], ys => by simp
  | n, x :: xs, ys => by
      simp only [List.cons_append, Numbered, @append_iff (n + 1) xs ys, List.length_cons]
      rw [show n + 1 + xs.length = n + (xs.length + 1) by omega]
      exact and_assoc.symm

theorem append {n : Nat} {xs ys : List α} (hx : Numbered idx n xs)
    (hy : Numbered idx (n + xs.length) ys) : Numbered idx n (xs ++ ys) := append_iff.mpr ⟨hx, hy⟩

theorem take {n : Nat} {xs : List α} (h : Numbered idx n xs) (k : Nat) :
    Numbered idx n (xs.take k) := by
  rw [← List.take_append_drop k xs] at h
  exact (append_iff.mp h).1

theorem drop {n : Nat} {xs : List α} (h : Numbered idx n xs) {k : Nat} (hk : k ≤ xs.length) :
    Numbered idx (n + k) (xs.drop k) := by
  have h' := h
  rw [← List.take_append_drop k xs] at h'
  have := (append_iff.mp h').2
  rwa [List.length_take, Nat.min_eq_left hk] at this

theorem getElem? {n : Nat} {xs : List α} (h : Numbered idx n xs) {k : Nat} {x : α}
    (hx : xs[k]? = some x) : idx x = n + k := by
  obtain ⟨hk, hget⟩ := List.getElem?_eq_some_iff.mp hx
  have hd := h.drop (k := k) (by omega)
  rw [List.drop_eq_getElem_cons hk, hget] at hd
  exact hd.1

theorem of_mem {n : Nat} {xs : List α} (h : Numbered idx n xs) {x : α} (hx : x ∈ xs) :
    n ≤ idx x ∧ idx x < n + xs.length := by
  obtain ⟨k, hk⟩ := List.mem_iff_getElem?.mp hx
  obtain ⟨hlt, -⟩ := List.getElem?_eq_some_iff.mp hk
  rw [h.getElem? hk]
  omega

theorem mem_take {n k : Nat} {xs : List α} (h : Numbered idx n xs) {x : α} (hx : x ∈ xs)
    (hlt : idx x < n + k) : x ∈ xs.take k := by
  obtain ⟨i, hi⟩ := List.mem_iff_getElem?.mp hx
  have hidx := h.getElem? hi
  refine List.mem_iff_getElem?.mpr ⟨i, ?_⟩
  rw [List.getElem?_take_of_lt (by omega), hi]

theorem getLast? {n : Nat} {xs : List α} (h : Numbered idx n xs) {x : α}
    (hx : xs.getLast? = some x) : idx x + 1 = n + xs.length := by
  rw [List.getLast?_eq_getElem?] at hx
  obtain ⟨hk, -⟩ := List.getElem?_eq_some_iff.mp hx
  rw [h.getElem? hx]
  omega

/-- The elements numbered below `i`. -/
theorem filter_lt {n i : Nat} {xs : List α} (h : Numbered idx n xs) (hi : n ≤ i) :
    xs.filter (fun x => idx x < i) = xs.take (i - n) := by
  conv_lhs => rw [← List.take_append_drop (i - n) xs, List.filter_append]
  have hbelow : (xs.take (i - n)).filter (fun x => idx x < i) = xs.take (i - n) := by
    refine List.filter_eq_self.mpr fun x hx => ?_
    have := (h.take (i - n)).of_mem hx
    rw [List.length_take] at this
    exact decide_eq_true (by omega)
  have habove : (xs.drop (i - n)).filter (fun x => idx x < i) = [] := by
    refine List.filter_eq_nil_iff.mpr fun x hx => ?_
    by_cases hlen : i - n ≤ xs.length
    · have := (h.drop hlen).of_mem hx
      rw [decide_eq_true_eq]
      omega
    · rw [List.drop_of_length_le (by omega)] at hx
      cases hx
  rw [hbelow, habove, List.append_nil]

/-- The elements numbered `lo` to `hi`. -/
def window (idx : α → Nat) (lo hi : Nat) (xs : List α) : List α :=
  xs.filter fun x => lo ≤ idx x ∧ idx x ≤ hi

@[simp] theorem window_nil (lo hi : Nat) : window idx lo hi [] = [] := rfl

@[simp] theorem window_append (lo hi : Nat) (xs ys : List α) :
    window idx lo hi (xs ++ ys) = window idx lo hi xs ++ window idx lo hi ys :=
  List.filter_append xs ys

theorem window_eq_self {n lo hi : Nat} {xs : List α} (h : Numbered idx n xs) (hlo : lo ≤ n)
    (hhi : n + xs.length ≤ hi + 1) : window idx lo hi xs = xs := by
  refine List.filter_eq_self.mpr fun x hx => ?_
  have := h.of_mem hx
  exact decide_eq_true ⟨by omega, by omega⟩

theorem window_eq_nil {n lo hi : Nat} {xs : List α} (h : Numbered idx n xs)
    (hout : hi < n ∨ n + xs.length ≤ lo) : window idx lo hi xs = [] := by
  refine List.filter_eq_nil_iff.mpr fun x hx => ?_
  have := h.of_mem hx
  rw [decide_eq_true_eq]
  omega

/-- **A window of a numbered list is a contiguous piece of it.** -/
theorem window_eq {n lo hi : Nat} {xs : List α} (h : Numbered idx n xs) (hlo : n ≤ lo)
    (hhi : lo ≤ hi + 1) : window idx lo hi xs = (xs.drop (lo - n)).take (hi + 1 - lo) := by
  by_cases hout : n + xs.length ≤ lo
  · rw [window_eq_nil h (Or.inr hout), List.drop_eq_nil_of_le (by omega), List.take_nil]
  have hdrop : Numbered idx lo (xs.drop (lo - n)) := by
    have := h.drop (k := lo - n) (by omega)
    rwa [Nat.add_sub_cancel' hlo] at this
  -- the list is what lies below `lo`, the piece, and what lies above `hi`
  have hbelow : window idx lo hi (xs.take (lo - n)) = [] := by
    refine window_eq_nil (h.take _) (Or.inr ?_)
    rw [List.length_take]
    omega
  have hpiece : window idx lo hi ((xs.drop (lo - n)).take (hi + 1 - lo)) =
      (xs.drop (lo - n)).take (hi + 1 - lo) :=
    window_eq_self (hdrop.take _) (Nat.le_refl _) (by rw [List.length_take]; omega)
  have habove : window idx lo hi ((xs.drop (lo - n)).drop (hi + 1 - lo)) = [] := by
    by_cases hend : hi + 1 - lo ≤ (xs.drop (lo - n)).length
    · exact window_eq_nil (hdrop.drop hend) (Or.inl (by omega))
    · rw [List.drop_eq_nil_of_le (by omega), window_nil]
  conv_lhs => rw [← List.take_append_drop (lo - n) xs,
    ← List.take_append_drop (hi + 1 - lo) (xs.drop (lo - n)), window_append, window_append]
  rw [hbelow, hpiece, habove, List.nil_append, List.append_nil]

theorem numbered_window {n lo hi : Nat} {xs : List α} (h : Numbered idx n xs) (hlo : n ≤ lo)
    (hhi : lo ≤ hi + 1) (hin : lo ≤ n + xs.length) : Numbered idx lo (window idx lo hi xs) := by
  rw [h.window_eq hlo hhi]
  have hd := h.drop (k := lo - n) (by omega)
  rw [Nat.add_sub_cancel' hlo] at hd
  exact hd.take _

end Numbered
