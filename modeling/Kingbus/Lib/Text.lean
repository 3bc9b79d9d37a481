import Kingbus.Lib.Decimal

/-! # Fields, hexadecimal digits and blanks in text

`join` puts a separator between fields and `Decimal.split` takes them apart again
(`split_join`).  `hex` writes every byte with two digits and `unhex` reads them, in either
case.  `trim` removes blanks at both ends; a blank is any of a list of byte strings, so that
one may take several bytes. -/

namespace Text
variable {sep : UInt8}

/-! ## Fields -/

/-- The fields with a separator between them. -/
def join (sep : UInt8) : List Bytes → Bytes
  | [] => []
  | [a] => a
  | a :: b :: l => a ++ sep :: join sep (b :: l)

/-- **Cutting at the separator takes the fields apart.** -/
theorem split_join {l : List Bytes} (hne : l ≠ []) (h : ∀ a ∈ l, sep ∉ a) :
    Decimal.split sep (join sep l) = l := by
  induction l with
  | nil => exact absurd rfl hne
  | cons a l ih =>
      have ha : sep ∉ a := h a List.mem_cons_self
      cases l with
      | nil => exact Decimal.split_of_not_mem ha
      | cons b l =>
          rw [join, Decimal.split_append_cons ha,
            ih (List.cons_ne_nil b l) fun c hc => h c (List.mem_cons_of_mem a hc)]

/-- A byte of the joined text is the separator or stands in a field. -/
theorem mem_join {b : UInt8} : ∀ {l : List Bytes}, b ∈ join sep l → b = sep ∨ ∃ a ∈ l, b ∈ a
  | [a], h => .inr ⟨a, List.mem_singleton_self a, h⟩
  | a :: c :: l, h => by
      rcases List.mem_append.mp h with ha | h
      · exact .inr ⟨a, List.mem_cons_self, ha⟩
      · rcases List.mem_cons.mp h with rfl | h
        · exact .inl rfl
        · rcases mem_join h with hsep | ⟨d, hd, hb⟩
          · exact .inl hsep
          · exact .inr ⟨d, List.mem_cons_of_mem a hd, hb⟩

/-! ## Hexadecimal digits -/

/-- The digit of a number below 16. -/
def hexDigit (n : Nat) : UInt8 := UInt8.ofNat (if n < 10 then 48 + n else 87 + n)

/-- Two digits for every byte. -/
def hex : Bytes → Bytes
  | [] => []
  | b :: t => hexDigit (b.toNat / 16) :: hexDigit (b.toNat % 16) :: hex t

/-- The value of a digit, in either case. -/
def hexValue (b : UInt8) : Option Nat :=
  if 48 ≤ b.toNat ∧ b.toNat ≤ 57 then some (b.toNat - 48)
  else if 97 ≤ b.toNat ∧ b.toNat ≤ 102 then some (b.toNat - 87)
  else if 65 ≤ b.toNat ∧ b.toNat ≤ 70 then some (b.toNat - 55)
  else none

/-- The bytes that pairs of digits stand for. -/
def unhex : Bytes → Option Bytes
  | [] => some []
  | [_] => none
  | a :: b :: t =>
      (hexValue a).bind fun x => (hexValue b).bind fun y =>
        (unhex t).map (UInt8.ofNat (16 * x + y) :: ·)

/-- A digit as `hex` writes it. -/
def IsHex (b : UInt8) : Prop := 48 ≤ b.toNat ∧ b.toNat ≤ 57 ∨ 97 ≤ b.toNat ∧ b.toNat ≤ 102

instance (b : UInt8) : Decidable (IsHex b) := inferInstanceAs (Decidable (_ ∨ _))

theorem toNat_hexDigit {n : Nat} (h : n < 16) :
    (hexDigit n).toNat = if n < 10 then 48 + n else 87 + n := by
  rw [hexDigit, UInt8.toNat_ofNat']
  split <;> omega

theorem isHex_hexDigit {n : Nat} (h : n < 16) : IsHex (hexDigit n) := by
  rw [IsHex, toNat_hexDigit h]
  split <;> omega

theorem hexValue_hexDigit {n : Nat} (h : n < 16) : hexValue (hexDigit n) = some n := by
  rw [hexValue, toNat_hexDigit h]
  by_cases hn : n < 10
  · rw [if_pos hn, if_pos (by omega), Nat.add_sub_cancel_left]
  · rw [if_neg hn, if_neg (by omega), if_pos (by omega), Nat.add_sub_cancel_left]

theorem isHex_of_mem_hex : ∀ {t : Bytes} {b : UInt8}, b ∈ hex t → IsHex b
  | x :: t, b, h => by
      have hx : x.toNat < 256 := x.toNat_lt
      rcases List.mem_cons.mp h with rfl | h
      · exact isHex_hexDigit (by omega)
      rcases List.mem_cons.mp h with rfl | h
      · exact isHex_hexDigit (by omega)
      · exact isHex_of_mem_hex h

theorem length_hex : ∀ t : Bytes, (hex t).length = 2 * t.length
  | [] => rfl
  | b :: t => by
      rw [hex, List.length_cons, List.length_cons, length_hex t, List.length_cons]
      omega

/-- **Digits are read back.** -/
theorem unhex_hex : ∀ t : Bytes, unhex (hex t) = some t
  | [] => rfl
  | b :: t => by
      have hb : b.toNat < 256 := b.toNat_lt
      rw [hex, unhex, hexValue_hexDigit (by omega), hexValue_hexDigit (by omega), unhex_hex t]
      simp only [Option.bind_some, Option.map_some, Nat.div_add_mod, UInt8.ofNat_toNat]

/-! ## Blanks -/

/-- Remove blanks in front, at most so many. -/
def trimLeft (blanks : List Bytes) : Nat → Bytes → Bytes
  | 0, t => t
  | n + 1, t =>
      match blanks.find? fun s => s.isPrefixOf t with
      | none => t
      | some s => trimLeft blanks n (t.drop s.length)

/-- Remove blanks at the end, at most so many. -/
def trimRight (blanks : List Bytes) : Nat → Bytes → Bytes
  | 0, t => t
  | n + 1, t =>
      match blanks.find? fun s => s.isSuffixOf t with
      | none => t
      | some s => trimRight blanks n (t.take (t.length - s.length))

/-- Remove the blanks at both ends. -/
def trim (blanks : List Bytes) (t : Bytes) : Bytes :=
  trimRight blanks t.length (trimLeft blanks t.length t)

/-- A text in which no blank can stand is left as it is. -/
theorem trim_eq_self {blanks : List Bytes} {t : Bytes} (h : ∀ s ∈ blanks, ∃ b ∈ s, b ∉ t) :
    trim blanks t = t := by
  have hpre : (blanks.find? fun s => s.isPrefixOf t) = none := by
    refine List.find?_eq_none.mpr fun s hs hp => ?_
    obtain ⟨b, hb, hno⟩ := h s hs
    exact hno ((List.isPrefixOf_iff_prefix.mp hp).subset hb)
  have hsuf : (blanks.find? fun s => s.isSuffixOf t) = none := by
    refine List.find?_eq_none.mpr fun s hs hp => ?_
    obtain ⟨b, hb, hno⟩ := h s hs
    exact hno ((List.isSuffixOf_iff_suffix.mp hp).subset hb)
  have hleft : trimLeft blanks t.length t = t := by
    cases t.length with
    | zero => rfl
    | succ n => rw [trimLeft, hpre]
  rw [trim, hleft]
  cases t.length with
  | zero => rfl
  | succ n => rw [trimRight, hsuf]

end Text
