import Mathlib.Data.List.Forall2
import Kingbus.Lib.Numbered

/-! # A numbered list kept in chunks

Chunks follow each other without a gap when each starts where the one before it
ends.  Then their items, put end to end, are numbered too, and every number in
between belongs to exactly one chunk.  `splitLast` is the search from the end
that finds it. -/

variable {α β : Type}

/-- The last element that satisfies `p`, with what stands before and behind it. -/
def splitLast (p : β → Bool) : List β → Option (List β × β × List β)
  | [] => none
  | b :: bs =>
      match splitLast p bs with
      | some (before, x, behind) => some (b :: before, x, behind)
      | none => if p b then some ([], b, bs) else none

theorem splitLast_eq_none {p : β → Bool} : ∀ {bs : List β}, (∀ b ∈ bs, p b = false) →
    splitLast p bs = none
  | [], _ => rfl
  | b :: bs, h => by
      have hb := h b List.mem_cons_self
      have ih := splitLast_eq_none (p := p) fun c hc => h c (List.mem_cons_of_mem b hc)
      simp only [splitLast, ih, hb, Bool.false_eq_true, if_false]

/-- The search finds an element that satisfies `p` with none behind it. -/
theorem splitLast_append {p : β → Bool} {x : β} {behind : List β} (hx : p x = true)
    (hbehind : ∀ b ∈ behind, p b = false) : ∀ before : List β,
    splitLast p (before ++ x :: behind) = some (before, x, behind)
  | [] => by simp only [List.nil_append, splitLast, splitLast_eq_none hbehind, hx, if_true]
  | b :: before => by
      simp only [List.cons_append, splitLast, splitLast_append hx hbehind before]

/-- What the search found stands where it says and satisfies `p`. -/
theorem splitLast_eq_some {p : β → Bool} {x : β} : ∀ {bs before behind : List β},
    splitLast p bs = some (before, x, behind) → bs = before ++ x :: behind ∧ p x = true
  | b :: bs, before, behind, h => by
      rw [splitLast] at h
      split at h
      · next hrest =>
        cases h
        obtain ⟨rfl, hx⟩ := splitLast_eq_some hrest
        exact ⟨rfl, hx⟩
      · obtain ⟨hb, ⟨⟩⟩ := Option.ite_none_right_eq_some.mp h
        exact ⟨rfl, hb⟩

namespace Chunks
variable (first : β → Nat) (items : β → List α)

/-- The chunks hold consecutive numbers from `n` on. -/
def Chained : Nat → List β → Prop
  | _, [] => True
  | n, b :: bs => first b = n ∧ Chained (n + (items b).length) bs

/-- Number `i` belongs to the chunk. -/
def Covers (i : Nat) (b : β) : Prop := first b ≤ i ∧ i < first b + (items b).length

instance (i : Nat) (b : β) : Decidable (Covers first items i b) :=
  inferInstanceAs (Decidable (_ ∧ _))

/-- Some number from `lo` to `hi` belongs to the chunk. -/
def Meets (lo hi : Nat) (b : β) : Prop := first b ≤ hi ∧ lo < first b + (items b).length

instance (lo hi : Nat) (b : β) : Decidable (Meets first items lo hi b) :=
  inferInstanceAs (Decidable (_ ∧ _))

variable {first items} {n : Nat} {bs cs : List β} {b : β}

theorem Covers.ne_nil {i : Nat} {b : β} (h : Covers first items i b) : items b ≠ [] := by
  intro h0
  have := h.1
  have hlt := h.2
  rw [h0, List.length_nil] at hlt
  omega

theorem chained_append_iff : ∀ {n : Nat} {bs cs : List β},
    Chained first items n (bs ++ cs) ↔
      Chained first items n bs ∧ Chained first items (n + (bs.flatMap items).length) cs
  | n, [], cs => by simp [Chained]
  | n, b :: bs, cs => by
      rw [List.cons_append, Chained, Chained, chained_append_iff, List.flatMap_cons,
        List.length_append, Nat.add_assoc]
      exact and_assoc.symm

/-- The chunk in the middle of a chain starts behind all items before it. -/
theorem Chained.first_eq (h : Chained first items n (bs ++ b :: cs)) :
    first b = n + (bs.flatMap items).length := (chained_append_iff.mp h).2.1

/-- The items of a chain of numbered chunks are numbered. -/
theorem Chained.numbered {idx : α → Nat} : ∀ {n : Nat} {bs : List β}, Chained first items n bs →
    (∀ b ∈ bs, Numbered idx (first b) (items b)) → Numbered idx n (bs.flatMap items)
  | _, [], _, _ => trivial
  | n, b :: bs, h, hnum => by
      rw [List.flatMap_cons]
      refine Numbered.append (h.1 ▸ hnum b List.mem_cons_self) ?_
      exact h.2.numbered fun c hc => hnum c (List.mem_cons_of_mem b hc)

/-- **Every number of a chain belongs to a chunk of it.** -/
theorem Chained.exists_covers {i : Nat} : ∀ {n : Nat} {bs : List β}, Chained first items n bs →
    n ≤ i → i < n + (bs.flatMap items).length →
    ∃ before b behind, bs = before ++ b :: behind ∧ Covers first items i b
  | n, [], _, hlo, hhi => by
      rw [List.flatMap_nil, List.length_nil] at hhi
      omega
  | n, b :: bs, h, hlo, hhi => by
      by_cases hb : i < n + (items b).length
      · exact ⟨[], b, bs, rfl, by rw [h.1]; exact hlo, by rw [h.1]; exact hb⟩
      · rw [List.flatMap_cons, List.length_append] at hhi
        obtain ⟨before, c, behind, rfl, hc⟩ := h.2.exists_covers (Nat.le_of_not_lt hb) (by omega)
        exact ⟨b :: before, c, behind, rfl, hc⟩

/-- All of a chain lies at or above its start. -/
theorem Chained.le_first : ∀ {n : Nat} {bs : List β}, Chained first items n bs →
    ∀ b ∈ bs, n ≤ first b ∧ first b + (items b).length ≤ n + (bs.flatMap items).length
  | n, c :: bs, h, b, hb => by
      rw [List.flatMap_cons, List.length_append]
      rcases List.mem_cons.mp hb with rfl | hb
      · have := h.1
        omega
      · have := h.2.le_first b hb
        omega

/-- What stands behind a chunk of a chain starts where it ends or later. -/
theorem Chained.behind (h : Chained first items n (bs ++ b :: cs)) :
    ∀ c ∈ cs, first b + (items b).length ≤ first c := by
  intro c hc
  have hb := (chained_append_iff.mp h).2
  have := hb.2.le_first c hc
  have := hb.1
  omega

/-- What stands before a chunk of a chain ends where it starts or earlier. -/
theorem Chained.before (h : Chained first items n (bs ++ b :: cs)) :
    ∀ c ∈ bs, first c + (items c).length ≤ first b := by
  intro c hc
  have := (chained_append_iff.mp h).1.le_first c hc
  have := h.first_eq
  omega

/-- Chunks with items in them start at different numbers, in order. -/
theorem Chained.pairwise_first : ∀ {n : Nat} {bs : List β}, Chained first items n bs →
    (∀ b ∈ bs, items b ≠ []) → bs.Pairwise fun a b => first a < first b
  | _, [], _, _ => .nil
  | n, b :: bs, h, hne => by
      refine .cons (fun c hc => ?_) (h.2.pairwise_first fun c hc => hne c (List.mem_cons_of_mem b hc))
      have hpos := List.length_pos_of_ne_nil (hne b List.mem_cons_self)
      have := h.2.le_first c hc
      have := h.1
      omega

/-- **A number belongs to one chunk only.** -/
theorem Chained.covers_iff {i j : Nat} {c : β} (h : Chained first items n (bs ++ b :: cs))
    (hb : Covers first items i b) (hj : (bs ++ b :: cs)[j]? = some c) :
    Covers first items i c ↔ j = bs.length := by
  rcases Nat.lt_trichotomy j bs.length with hlt | rfl | hgt
  · rw [List.getElem?_append_left hlt] at hj
    have hend := h.before c (List.mem_of_getElem? hj)
    refine iff_of_false (fun hc => ?_) (Nat.ne_of_lt hlt)
    have := hb.1
    have := hc.2
    omega
  · rw [List.getElem?_append_right (Nat.le_refl _), Nat.sub_self] at hj
    cases hj
    exact iff_of_true hb rfl
  · rw [List.getElem?_append_right (Nat.le_of_lt hgt)] at hj
    obtain ⟨k, hk⟩ : ∃ k, j - bs.length = k + 1 := ⟨j - bs.length - 1, by omega⟩
    rw [hk, List.getElem?_cons_succ] at hj
    have hstart := h.behind c (List.mem_of_getElem? hj)
    refine iff_of_false (fun hc => ?_) (Nat.ne_of_gt hgt)
    have := hb.2
    have := hc.1
    omega

theorem Chained.covers_unique {i : Nat} {c : β} (h : Chained first items n bs) (hb : b ∈ bs)
    (hc : c ∈ bs) (hib : Covers first items i b) (hic : Covers first items i c) : b = c := by
  obtain ⟨bs₁, bs₂, rfl⟩ := List.append_of_mem hb
  obtain ⟨j, hj⟩ := List.mem_iff_getElem?.mp hc
  have hj' := (h.covers_iff hib hj).mp hic
  rw [hj', List.getElem?_append_right (Nat.le_refl _), Nat.sub_self] at hj
  cases hj
  rfl

section Window
variable {lo hi : Nat} {bs₁ bs₂ cs₁ cs₂ : List β} {x y : β}

/-- In a chain, the chunk of a smaller number does not stand behind that of a
greater one. -/
theorem Chained.length_le (h : Chained first items n (bs₁ ++ x :: cs₁))
    (heq : bs₁ ++ x :: cs₁ = bs₂ ++ y :: cs₂) (hx : Covers first items lo x)
    (hy : Covers first items hi y) (hle : lo ≤ hi) : bs₁.length ≤ bs₂.length := by
  by_contra hlt
  have hmem : y ∈ bs₁ := by
    have hget : (bs₁ ++ x :: cs₁)[bs₂.length]? = some y := by
      rw [heq, List.getElem?_append_right (Nat.le_refl _), Nat.sub_self]
      rfl
    rw [List.getElem?_append_left (by omega)] at hget
    exact List.mem_of_getElem? hget
  have := h.before y hmem
  have := hx.1
  have := hy.2
  omega

/-- **The chunks that meet a window** are those from the chunk of its lower end
to the chunk of its upper end. -/
theorem Chained.filter_meets (h : Chained first items n (bs₁ ++ x :: cs₁))
    (heq : bs₁ ++ x :: cs₁ = bs₂ ++ y :: cs₂) (hx : Covers first items lo x)
    (hy : Covers first items hi y) (hle : lo ≤ hi) :
    (bs₁ ++ x :: cs₁).filter (fun b => Meets first items lo hi b) =
      ((bs₁ ++ x :: cs₁).drop bs₁.length).take (bs₂.length + 1 - bs₁.length) := by
  have hlen := h.length_le heq hx hy hle
  have h' := h
  rw [heq] at h'
  have hdrop : (bs₁ ++ x :: cs₁).drop bs₁.length = x :: cs₁ := List.drop_left
  have hbehind : (x :: cs₁).drop (bs₂.length + 1 - bs₁.length) = cs₂ := by
    rw [← hdrop, List.drop_drop, heq, show bs₂ ++ y :: cs₂ = (bs₂ ++ [y]) ++ cs₂ by
      rw [List.append_assoc, List.singleton_append]]
    exact List.drop_left' (by rw [List.length_append, List.length_singleton]; omega)
  rw [hdrop]
  conv_lhs => rw [← List.take_append_drop (bs₂.length + 1 - bs₁.length) (x :: cs₁), hbehind,
    List.filter_append, List.filter_append]
  have h1 : bs₁.filter (fun b => Meets first items lo hi b) = [] := by
    refine List.filter_eq_nil_iff.mpr fun c hc hm => ?_
    have := h.before c hc
    have := (of_decide_eq_true hm).2
    have := hx.1
    omega
  have h3 : cs₂.filter (fun b => Meets first items lo hi b) = [] := by
    refine List.filter_eq_nil_iff.mpr fun c hc hm => ?_
    have := h'.behind c hc
    have := (of_decide_eq_true hm).1
    have := hy.2
    omega
  have h2 : ((x :: cs₁).take (bs₂.length + 1 - bs₁.length)).filter
      (fun b => Meets first items lo hi b) = (x :: cs₁).take (bs₂.length + 1 - bs₁.length) := by
    refine List.filter_eq_self.mpr fun c hc => decide_eq_true ⟨?_, ?_⟩
    · -- not behind the chunk of `hi`
      have hmem : c ∈ bs₂ ++ [y] := by
        have hsub : (x :: cs₁).take (bs₂.length + 1 - bs₁.length) = (bs₂ ++ [y]).drop bs₁.length := by
          rw [← hdrop, ← List.drop_take, heq, ← List.singleton_append, ← List.append_assoc,
            List.take_left' (by rw [List.length_append, List.length_singleton])]
        rw [hsub] at hc
        exact List.mem_of_mem_drop hc
      have := hy.1
      rcases List.mem_append.mp hmem with hc | hc
      · have := h'.before c hc
        omega
      · rw [List.mem_singleton.mp hc]
        omega
    · -- not before the chunk of `lo`
      have := hx.2
      rcases List.mem_cons.mp (List.mem_of_mem_take hc) with rfl | hc
      · exact this
      · have := h.behind c hc
        omega
  rw [h1, h2, h3, List.nil_append, List.append_nil]

end Window

end Chunks

/-- Two lists related element by element, split at an element of the second. -/
theorem forall₂_split {R : α → β → Prop} {bs cs : List β} {b : β} : ∀ {as : List α},
    List.Forall₂ R as (bs ++ b :: cs) →
    ∃ as₁ a as₂, as = as₁ ++ a :: as₂ ∧ List.Forall₂ R as₁ bs ∧ R a b ∧ List.Forall₂ R as₂ cs := by
  induction bs with
  | nil =>
      intro as h
      cases h with
      | cons hab hrest => exact ⟨[], _, _, rfl, .nil, hab, hrest⟩
  | cons c bs ih =>
      intro as h
      cases h with
      | cons hac hrest =>
        obtain ⟨as₁, a, as₂, rfl, h₁, hab, h₂⟩ := ih hrest
        exact ⟨_ :: as₁, a, as₂, rfl, .cons hac h₁, hab, h₂⟩

theorem forall₂_exists {R : α → β → Prop} {as : List α} {bs : List β} (h : List.Forall₂ R as bs) :
    ∀ a ∈ as, ∃ b ∈ bs, R a b := by
  induction h with
  | nil => nofun
  | cons hab _ ih =>
      intro x hx
      rcases List.mem_cons.mp hx with rfl | hx
      · exact ⟨_, List.mem_cons_self, hab⟩
      · obtain ⟨b, hb, hr⟩ := ih x hx
        exact ⟨b, List.mem_cons_of_mem _ hb, hr⟩
