import Mathlib.Data.List.Basic

/-! # Prefixes within a budget

Every element of a list has a weight.  `fit` counts how many elements of the list can be
taken one after the other while the sum of the weights stays within a maximum, and `keep`
takes them, but always the first one. -/

namespace Budget
variable {α : Type} (w : α → Nat)

/-- The weight of a list. -/
def total : List α → Nat
  | [] => 0
  | x :: xs => w x + total xs

/-- The number of elements that fit when `used` is spent already. -/
def fit (max : Nat) : Nat → List α → Nat
  | _, [] => 0
  | used, x :: xs => if max < used + w x then 0 else 1 + fit max (used + w x) xs

/-- The elements that fit, and at least the first one. -/
def keep (max : Nat) : List α → List α
  | [] => []
  | x :: xs => (x :: xs).take (1 + fit w max (w x) xs)

@[simp] theorem total_nil : total w [] = 0 := rfl

@[simp] theorem total_cons (x : α) (xs : List α) : total w (x :: xs) = w x + total w xs := rfl

@[simp] theorem total_append (xs ys : List α) :
    total w (xs ++ ys) = total w xs + total w ys := by
  induction xs with
  | nil => simp
  | cons x xs ih => simp [ih, Nat.add_assoc]

theorem total_take_le (xs : List α) (k : Nat) : total w (xs.take k) ≤ total w xs := by
  conv_rhs => rw [← List.take_append_drop k xs, total_append]
  omega

/-- A longer prefix weighs at least as much. -/
theorem total_take_mono (xs : List α) {j k : Nat} (h : j ≤ k) :
    total w (xs.take j) ≤ total w (xs.take k) := by
  have heq : xs.take j = (xs.take k).take j := by rw [List.take_take, Nat.min_eq_left h]
  rw [heq]
  exact total_take_le w _ j

variable {w} {m u : Nat}

/-- A weight that is nowhere larger gives totals that are not larger. -/
theorem total_le_total {w' : α → Nat} (h : ∀ x, w x ≤ w' x) (xs : List α) :
    total w xs ≤ total w' xs := by
  induction xs with
  | nil => simp
  | cons x xs ih =>
      have := h x
      simp only [total_cons]
      omega

theorem fit_le_length (xs : List α) : fit w m u xs ≤ xs.length := by
  induction xs generalizing u with
  | nil => simp [fit]
  | cons x xs ih =>
      rw [fit]
      split
      · exact Nat.zero_le _
      · have := ih (u := u + w x)
        rw [List.length_cons]
        omega

/-- **How many elements fit**: as many as there are in the longest prefix whose weight is
within the budget. -/
theorem le_fit_iff {xs : List α} {k : Nat} (hk : 1 ≤ k) (hle : k ≤ xs.length) :
    k ≤ fit w m u xs ↔ u + total w (xs.take k) ≤ m := by
  induction xs generalizing u k with
  | nil => simp only [List.length_nil] at hle; omega
  | cons x xs ih =>
      obtain ⟨k, rfl⟩ : ∃ j, k = j + 1 := ⟨k - 1, by omega⟩
      rw [fit, List.take_succ_cons, total_cons]
      rw [List.length_cons] at hle
      split
      · next hbig => omega
      · next hfits =>
        by_cases hk0 : k = 0
        · subst hk0
          simp only [List.take_zero, total_nil]
          omega
        · have := ih (u := u + w x) (k := k) (by omega) (by omega)
          omega

/-- What fits stays within the budget. -/
theorem total_take_fit {l : List α} (h : u ≤ m) :
    u + total w (l.take (fit w m u l)) ≤ m := by
  by_cases h0 : fit w m u l = 0
  · rw [h0, List.take_zero, total_nil]
    omega
  · exact (le_fit_iff (by omega) (fit_le_length l)).mp (Nat.le_refl _)

/-- The element behind what fits does not. -/
theorem lt_total_take_fit {xs : List α} (h : fit w m u xs < xs.length) :
    m < u + total w (xs.take (fit w m u xs + 1)) := by
  by_contra hle
  have := (le_fit_iff (w := w) (m := m) (u := u) (Nat.le_add_left 1 _) h).mpr
    (Nat.le_of_not_lt hle)
  omega

/-- All elements fit when the weight of the list does. -/
theorem fit_eq_length {xs : List α} (h : u + total w xs ≤ m) :
    fit w m u xs = xs.length := by
  by_cases hnil : xs = []
  · subst hnil
    rfl
  · refine Nat.le_antisymm (fit_le_length xs) ?_
    refine (le_fit_iff (List.length_pos_of_ne_nil hnil) (Nat.le_refl _)).mpr ?_
    rwa [List.take_length]

/-- Nothing fits when the budget is spent and every element has weight. -/
theorem fit_eq_zero (hw : ∀ x, 0 < w x) (h : m ≤ u) (xs : List α) : fit w m u xs = 0 := by
  cases xs with
  | nil => rfl
  | cons x xs =>
      have := hw x
      rw [fit, if_pos (by omega)]

/-- With more spent, less fits. -/
theorem fit_anti {u' : Nat} (h : u ≤ u') (xs : List α) :
    fit w m u' xs ≤ fit w m u xs := by
  by_cases h0 : fit w m u' xs = 0
  · omega
  · have hlen := fit_le_length (w := w) (m := m) (u := u') xs
    have hfit := (le_fit_iff (by omega) hlen).mp (Nat.le_refl (fit w m u' xs))
    exact (le_fit_iff (by omega) hlen).mpr (by omega)

/-- A first list that fits is taken whole. -/
theorem fit_append {xs ys : List α} (h : u + total w xs ≤ m) :
    fit w m u (xs ++ ys) = xs.length + fit w m (u + total w xs) ys := by
  induction xs generalizing u with
  | nil => simp
  | cons x xs ih =>
      rw [total_cons] at h
      rw [List.cons_append, fit, if_neg (by omega), ih (by omega), List.length_cons, total_cons,
        Nat.add_assoc u]
      omega

/-- A first list that does not fit is all that matters. -/
theorem fit_append_of_lt {xs ys : List α} (h : fit w m u xs < xs.length) :
    fit w m u (xs ++ ys) = fit w m u xs := by
  induction xs generalizing u with
  | nil => simp at h
  | cons x xs ih =>
      rw [fit] at h ⊢
      rw [List.cons_append, fit]
      split at h
      · next hbig => rw [if_pos hbig, if_pos hbig]
      · next hfits =>
        rw [if_neg hfits, if_neg hfits, ih (by rw [List.length_cons] at h; omega)]

theorem length_keep {x : α} {xs : List α} :
    (keep w m (x :: xs)).length = 1 + fit w m (w x) xs := by
  have := fit_le_length (w := w) (m := m) (u := w x) xs
  rw [keep, List.length_take, List.length_cons]
  omega

theorem fit_le_length_keep (xs : List α) : fit w m 0 xs ≤ (keep w m xs).length := by
  cases xs with
  | nil => exact Nat.le_refl 0
  | cons x xs =>
      rw [length_keep, fit, Nat.zero_add]
      split <;> omega

/-- Of a list that starts with one within the budget, all of it is kept. -/
theorem length_keep_append {xs : List α} (hne : xs ≠ []) (h : total w xs ≤ m) (ys : List α) :
    (keep w m (xs ++ ys)).length = xs.length + fit w m (total w xs) ys := by
  obtain ⟨x, xs, rfl⟩ := List.exists_cons_of_ne_nil hne
  rw [total_cons] at h ⊢
  rw [List.cons_append, length_keep, fit_append h, List.length_cons]
  omega

/-- Of a list that starts with one above the budget, no more is kept than of that one. -/
theorem length_keep_append_of_lt {x : α} {xs : List α} (hx : w x ≤ m)
    (h : m < total w (x :: xs)) (ys : List α) :
    (keep w m (x :: xs ++ ys)).length = fit w m 0 (x :: xs) := by
  have hlt : fit w m (w x) xs < xs.length := by
    by_contra hge
    have hle := total_take_fit (w := w) (l := xs) hx
    rw [List.take_of_length_le (Nat.le_of_not_lt hge)] at hle
    rw [total_cons] at h
    omega
  rw [List.cons_append, length_keep, fit_append_of_lt hlt, fit, if_neg (by omega), Nat.zero_add]

/-- An element above the budget is kept alone. -/
theorem length_keep_of_lt {x : α} (h : m < w x) (xs : List α) :
    (keep w m (x :: xs)).length = 1 := by
  have h0 : fit w m (w x) xs = 0 := by
    cases xs with
    | nil => rfl
    | cons y ys => rw [fit, if_pos (by omega)]
  rw [length_keep, h0]

/-- What is kept is the prefix of its length. -/
theorem keep_eq_take (xs : List α) : keep w m xs = xs.take (keep w m xs).length := by
  cases xs with
  | nil => rfl
  | cons x xs => rw [length_keep, keep]

/-- **The longest prefix within the budget**: a prefix of `k` elements is kept exactly when
it is the first element alone or its weight is within the maximum. -/
theorem le_length_keep_iff {xs : List α} {k : Nat} (hk : 1 ≤ k) (hle : k ≤ xs.length) :
    k ≤ (keep w m xs).length ↔ k = 1 ∨ total w (xs.take k) ≤ m := by
  cases xs with
  | nil => simp only [List.length_nil] at hle; omega
  | cons x xs =>
      obtain ⟨k, rfl⟩ : ∃ j, k = j + 1 := ⟨k - 1, by omega⟩
      rw [length_keep, List.take_succ_cons, total_cons]
      rw [List.length_cons] at hle
      by_cases hk0 : k = 0
      · omega
      · have := le_fit_iff (w := w) (m := m) (u := w x) (k := k) (by omega)
          (show k ≤ xs.length by omega)
        omega

theorem length_keep_le (xs : List α) : (keep w m xs).length ≤ xs.length := by
  cases xs with
  | nil => exact Nat.le_refl _
  | cons x xs => rw [keep, List.length_take]; exact Nat.min_le_right _ _

theorem length_keep_pos {xs : List α} (h : xs ≠ []) : 1 ≤ (keep w m xs).length := by
  exact (le_length_keep_iff (Nat.le_refl 1) (List.length_pos_of_ne_nil h)).mpr (.inl rfl)

end Budget
