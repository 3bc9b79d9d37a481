import Kingbus.Lib.Bytes

/-! # Decimal numbers in text

Text is a byte string.  `put` writes a number in decimal, `pad` fills it up with zeros,
`value` reads one back, and `split` cuts a text at a separator.  Numbers that are written
with the same number of digits have the order of their texts (`lt_of_value`). -/

namespace Decimal

/-- The digits of `n`, most significant first, at most `k + 1` of them. -/
def put : Nat → Nat → Bytes
  | 0, n => [UInt8.ofNat (48 + n % 10)]
  | k + 1, n =>
      if n < 10 then [UInt8.ofNat (48 + n)]
      else put k (n / 10) ++ [UInt8.ofNat (48 + n % 10)]

/-- An ASCII digit. -/
def IsDigit (b : UInt8) : Prop := 48 ≤ b.toNat ∧ b.toNat ≤ 57

instance (b : UInt8) : Decidable (IsDigit b) := inferInstanceAs (Decidable (_ ∧ _))

/-- Read digits behind a number read already. -/
def valueFrom (acc : Nat) : Bytes → Option Nat
  | [] => some acc
  | b :: t => if IsDigit b then valueFrom (acc * 10 + (b.toNat - 48)) t else none

/-- The number a text stands for: one digit at least and nothing else. -/
def value : Bytes → Option Nat
  | [] => none
  | b :: t => valueFrom 0 (b :: t)

theorem toNat_digit {d : Nat} (h : d < 10) : (UInt8.ofNat (48 + d)).toNat = 48 + d := by
  rw [UInt8.toNat_ofNat']
  omega

theorem isDigit_digit {d : Nat} (h : d < 10) : IsDigit (UInt8.ofNat (48 + d)) := by
  rw [IsDigit, toNat_digit h]
  omega

theorem valueFrom_append (a b : Bytes) : ∀ acc,
    valueFrom acc (a ++ b) = (valueFrom acc a).bind fun n => valueFrom n b := by
  induction a with
  | nil => exact fun _ => rfl
  | cons x a ih =>
      intro acc
      rw [List.cons_append, valueFrom, valueFrom]
      split
      · exact ih _
      · rfl

theorem valueFrom_digit {d : Nat} (h : d < 10) (acc : Nat) :
    valueFrom acc [UInt8.ofNat (48 + d)] = some (acc * 10 + d) := by
  rw [valueFrom, if_pos (isDigit_digit h), valueFrom, toNat_digit h, Nat.add_sub_cancel_left]

theorem valueFrom_put : ∀ {k n : Nat}, n < 10 ^ (k + 1) → valueFrom 0 (put k n) = some n
  | 0, n, h => by
      rw [Nat.zero_add, Nat.pow_one] at h
      rw [put, Nat.mod_eq_of_lt h, valueFrom_digit h, Nat.zero_mul, Nat.zero_add]
  | k + 1, n, h => by
      rw [put]
      split
      · next hn => rw [valueFrom_digit hn, Nat.zero_mul, Nat.zero_add]
      · have hdiv : n / 10 < 10 ^ (k + 1) := by
          rw [Nat.pow_succ] at h
          omega
        rw [valueFrom_append, valueFrom_put hdiv, Option.bind_some,
          valueFrom_digit (Nat.mod_lt _ (by decide))]
        congr 1
        omega

theorem put_ne_nil (k n : Nat) : put k n ≠ [] := by
  cases k with
  | zero => exact List.cons_ne_nil _ _
  | succ k =>
      rw [put]
      split
      · exact List.cons_ne_nil _ _
      · exact List.append_ne_nil_of_right_ne_nil _ (List.cons_ne_nil _ _)

/-- **A number that is written is read back.** -/
theorem value_put {k n : Nat} (h : n < 10 ^ (k + 1)) : value (put k n) = some n := by
  cases hp : put k n with
  | nil => exact absurd hp (put_ne_nil k n)
  | cons b t =>
      rw [value, ← hp]
      exact valueFrom_put h

theorem isDigit_of_mem_put : ∀ {k n : Nat} {b : UInt8}, b ∈ put k n → IsDigit b
  | 0, n, b, h => by
      rw [List.mem_singleton.mp h]
      exact isDigit_digit (Nat.mod_lt _ (by decide))
  | k + 1, n, b, h => by
      rw [put] at h
      split at h
      · next hn =>
        rw [List.mem_singleton.mp h]
        exact isDigit_digit hn
      · rcases List.mem_append.mp h with h | h
        · exact isDigit_of_mem_put h
        · rw [List.mem_singleton.mp h]
          exact isDigit_digit (Nat.mod_lt _ (by decide))

theorem length_put_le : ∀ k n, (put k n).length ≤ k + 1
  | 0, _ => Nat.le_refl _
  | k + 1, n => by
      rw [put]
      split
      · exact Nat.le_add_left ..
      · rw [List.length_append]
        exact Nat.succ_le_succ (length_put_le k (n / 10))

theorem digit_ne_zero {d : Nat} (hpos : 0 < d) (h : d < 10) :
    some (UInt8.ofNat (48 + d)) ≠ some 48 := by
  intro heq
  have hval := congrArg UInt8.toNat (Option.some.inj heq)
  rw [toNat_digit h, show (48 : UInt8).toNat = 48 from rfl] at hval
  omega

/-- The first digit of a number that is not 0 is not 0. -/
theorem head?_put_ne : ∀ {k n : Nat}, 0 < n → n < 10 ^ (k + 1) → (put k n).head? ≠ some 48
  | 0, n, hpos, h => by
      rw [Nat.zero_add, Nat.pow_one] at h
      rw [put, Nat.mod_eq_of_lt h, List.head?_cons]
      exact digit_ne_zero hpos h
  | k + 1, n, hpos, h => by
      rw [put]
      split
      · next hn =>
        rw [List.head?_cons]
        exact digit_ne_zero hpos hn
      · have hdiv : n / 10 < 10 ^ (k + 1) := by
          rw [Nat.pow_succ] at h
          omega
        rw [List.head?_append_of_ne_nil _ (put_ne_nil k _)]
        exact head?_put_ne (by omega) hdiv

/-- Fill up with zeros to a width. -/
def pad (width : Nat) (t : Bytes) : Bytes := List.replicate (width - t.length) 48 ++ t

theorem length_pad (width : Nat) (t : Bytes) : (pad width t).length = max width t.length := by
  rw [pad, List.length_append, List.length_replicate]
  omega

theorem pad_of_le {width : Nat} {t : Bytes} (h : width ≤ t.length) : pad width t = t := by
  rw [pad, Nat.sub_eq_zero_of_le h]
  rfl

theorem pad_ne_nil (width : Nat) {t : Bytes} (h : t ≠ []) : pad width t ≠ [] :=
  List.append_ne_nil_of_right_ne_nil _ h

theorem valueFrom_zeros (m : Nat) (t : Bytes) :
    valueFrom 0 (List.replicate m 48 ++ t) = valueFrom 0 t := by
  induction m with
  | zero => rfl
  | succ m ih =>
      rw [List.replicate_succ, List.cons_append, valueFrom, if_pos (by decide)]
      exact ih

theorem value_of_ne_nil {t : Bytes} (h : t ≠ []) : value t = valueFrom 0 t := by
  cases t with
  | nil => exact absurd rfl h
  | cons b t => rfl

/-- Zeros in front do not count. -/
theorem value_pad (width : Nat) {t : Bytes} (h : t ≠ []) : value (pad width t) = value t := by
  rw [value_of_ne_nil (pad_ne_nil width h), value_of_ne_nil h, pad, valueFrom_zeros]

theorem isDigit_of_valueFrom {t : Bytes} : ∀ {acc n : Nat}, valueFrom acc t = some n →
    ∀ b ∈ t, IsDigit b := by
  induction t with
  | nil => exact fun _ => List.forall_mem_nil _
  | cons x t ih =>
      intro acc n h b hb
      rw [valueFrom] at h
      split at h
      · next hx =>
        rcases List.mem_cons.mp hb with rfl | hb
        · exact hx
        · exact ih h b hb
      · cases h

theorem isDigit_of_value {t : Bytes} {n : Nat} (h : value t = some n) : ∀ b ∈ t, IsDigit b := by
  cases t with
  | nil => cases h
  | cons x t => exact isDigit_of_valueFrom h

/-- Each further digit multiplies by ten. -/
theorem valueFrom_bounds {t : Bytes} : ∀ {acc n : Nat}, valueFrom acc t = some n →
    acc * 10 ^ t.length ≤ n ∧ n < (acc + 1) * 10 ^ t.length := by
  induction t with
  | nil =>
      rintro acc n ⟨⟩
      rw [List.length_nil, Nat.pow_zero]
      omega
  | cons x t ih =>
      intro acc n h
      rw [valueFrom] at h
      split at h
      · next hx =>
        obtain ⟨hlo, hhi⟩ := ih h
        have hpos : 0 < 10 ^ t.length := Nat.pow_pos (by decide)
        rw [List.length_cons, Nat.pow_succ]
        unfold IsDigit at hx
        constructor
        · calc acc * (10 ^ t.length * 10) = acc * 10 * 10 ^ t.length := by
                rw [Nat.mul_assoc, Nat.mul_comm 10]
            _ ≤ (acc * 10 + (x.toNat - 48)) * 10 ^ t.length :=
                Nat.mul_le_mul_right _ (Nat.le_add_right _ _)
            _ ≤ n := hlo
        · calc n < (acc * 10 + (x.toNat - 48) + 1) * 10 ^ t.length := hhi
            _ ≤ (acc * 10 + 10) * 10 ^ t.length := Nat.mul_le_mul_right _ (by omega)
            _ = (acc + 1) * (10 ^ t.length * 10) := by
                rw [Nat.mul_comm (10 ^ t.length), ← Nat.mul_assoc, Nat.succ_mul acc]
      · cases h

theorem lt_of_valueFrom {a : Bytes} : ∀ {b : Bytes} {acc m n : Nat}, a.length = b.length →
    valueFrom acc a = some m → valueFrom acc b = some n → m < n → a < b := by
  induction a with
  | nil =>
      intro b acc m n hlen ha hb hlt
      cases b with
      | nil =>
          rw [ha] at hb
          cases hb
          omega
      | cons y b => cases hlen
  | cons x a ih =>
      intro b acc m n hlen ha hb hlt
      cases b with
      | nil => cases hlen
      | cons y b =>
          have hlen' : a.length = b.length := Nat.succ.inj hlen
          rw [valueFrom] at ha hb
          split at ha
          · next hx =>
            split at hb
            · next hy =>
              rw [List.cons_lt_cons_iff]
              unfold IsDigit at hx hy
              rcases Nat.lt_trichotomy x.toNat y.toNat with h | h | h
              · exact .inl (UInt8.lt_iff_toNat_lt.mpr h)
              · have hxy : x = y := UInt8.toNat_inj.mp h
                subst hxy
                exact .inr ⟨rfl, ih hlen' ha hb hlt⟩
              · -- a greater digit in front makes a greater number
                have hm := (valueFrom_bounds ha).1
                have hn := (valueFrom_bounds hb).2
                rw [← hlen'] at hn
                have hle : (acc * 10 + (y.toNat - 48) + 1) * 10 ^ a.length ≤
                    (acc * 10 + (x.toNat - 48)) * 10 ^ a.length :=
                  Nat.mul_le_mul_right _ (by omega)
                omega
            · cases hb
          · cases ha

/-- **Texts of one length have the order of their numbers.** -/
theorem lt_of_value {a b : Bytes} {m n : Nat} (hlen : a.length = b.length)
    (ha : value a = some m) (hb : value b = some n) (h : m < n) : a < b := by
  have hne : ∀ {t : Bytes} {k : Nat}, value t = some k → t ≠ [] := by
    rintro t k ht rfl
    cases ht
  rw [value_of_ne_nil (hne ha)] at ha
  rw [value_of_ne_nil (hne hb)] at hb
  exact lt_of_valueFrom hlen ha hb h

/-- The pieces of a text between the occurrences of a separator. -/
def split (sep : UInt8) : Bytes → List Bytes
  | [] => [[]]
  | b :: t =>
      if b = sep then [] :: split sep t
      else match split sep t with
        | [] => [[b]]
        | p :: ps => (b :: p) :: ps

theorem split_of_not_mem {sep : UInt8} {t : Bytes} (h : sep ∉ t) : split sep t = [t] := by
  induction t with
  | nil => rfl
  | cons b t ih =>
      have hb : b ≠ sep := by
        rintro rfl
        exact h (List.mem_cons_self ..)
      rw [split, if_neg hb, ih fun ht => h (List.mem_cons_of_mem _ ht)]

theorem split_append_cons {sep : UInt8} {a : Bytes} (h : sep ∉ a) (b : Bytes) :
    split sep (a ++ sep :: b) = a :: split sep b := by
  induction a with
  | nil => rw [List.nil_append, split, if_pos rfl]
  | cons x a ih =>
      have hx : x ≠ sep := by
        rintro rfl
        exact h (List.mem_cons_self ..)
      rw [List.cons_append, split, if_neg hx, ih fun ha => h (List.mem_cons_of_mem _ ha)]

theorem split_ne_nil (sep : UInt8) (t : Bytes) : split sep t ≠ [] := by
  cases t with
  | nil => exact List.cons_ne_nil _ _
  | cons b t =>
      rw [split]
      split
      · exact List.cons_ne_nil _ _
      · split <;> exact List.cons_ne_nil _ _

theorem split_eq_singleton {sep : UInt8} {t : Bytes} : ∀ {a : Bytes}, split sep t = [a] →
    t = a ∧ sep ∉ t := by
  induction t with
  | nil =>
      rintro a ⟨⟩
      exact ⟨rfl, List.not_mem_nil⟩
  | cons b t ih =>
      intro a h
      rw [split] at h
      split at h
      · exact absurd (List.cons.inj h).2 (split_ne_nil sep t)
      · next hb =>
        cases hs : split sep t with
        | nil => exact absurd hs (split_ne_nil sep t)
        | cons p ps =>
            rw [hs] at h
            simp only [List.cons.injEq] at h
            obtain ⟨rfl, rfl⟩ := h
            obtain ⟨rfl, hsep⟩ := ih hs
            refine ⟨rfl, fun hmem => ?_⟩
            rcases List.mem_cons.mp hmem with rfl | hmem
            · exact hb rfl
            · exact hsep hmem

/-- **Exactly two pieces**: the separator is there once. -/
theorem split_eq_pair_iff {sep : UInt8} {t a b : Bytes} :
    split sep t = [a, b] ↔ t = a ++ sep :: b ∧ sep ∉ a ∧ sep ∉ b := by
  constructor
  · induction t generalizing a with
    | nil => intro h; cases h
    | cons x t ih =>
        intro h
        rw [split] at h
        split at h
        · next hx =>
          obtain ⟨rfl, hrest⟩ := List.cons.inj h
          obtain ⟨rfl, hsep⟩ := split_eq_singleton hrest
          exact ⟨by rw [hx]; rfl, List.not_mem_nil, hsep⟩
        · next hx =>
          cases hs : split sep t with
          | nil => exact absurd hs (split_ne_nil sep t)
          | cons p ps =>
              rw [hs] at h
              simp only [List.cons.injEq] at h
              obtain ⟨rfl, rfl⟩ := h
              obtain ⟨rfl, ha, hb⟩ := ih hs
              refine ⟨rfl, fun hmem => ?_, hb⟩
              rcases List.mem_cons.mp hmem with rfl | hmem
              · exact hx rfl
              · exact ha hmem
  · rintro ⟨rfl, ha, hb⟩
    rw [split_append_cons ha, split_of_not_mem hb]

end Decimal
