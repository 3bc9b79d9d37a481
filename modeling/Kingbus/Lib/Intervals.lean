import Mathlib.Data.List.Sort
import Mathlib.Order.Defs.LinearOrder

/-! # Sets as lists of intervals

A finite union of half-open intervals `[start, stop)` of a linear order, kept as a
list.  `normalize` sorts the list and joins what overlaps or touches, `contain`
walks two lists side by side.  An interval may be empty: nothing here asks for
`start < stop`. -/

/-- `[start, stop)`. -/
structure HalfOpenInterval (α : Type*) where
  start : α
  stop : α
  deriving DecidableEq, Repr

namespace HalfOpenInterval
variable {α : Type*} [LinearOrder α]

/-- The points of an interval. -/
def Mem (x : α) (i : HalfOpenInterval α) : Prop := i.start ≤ x ∧ x < i.stop

instance (x : α) (i : HalfOpenInterval α) : Decidable (i.Mem x) := inferInstanceAs (Decidable (_ ∧ _))

/-- The points of a list of intervals. -/
def MemList (x : α) (s : List (HalfOpenInterval α)) : Prop := ∃ i ∈ s, i.Mem x

instance (x : α) (s : List (HalfOpenInterval α)) : Decidable (MemList x s) :=
  inferInstanceAs (Decidable (∃ i ∈ s, i.Mem x))

@[simp] theorem memList_nil (x : α) : ¬ MemList x [] := nofun

theorem memList_cons {x : α} {i : HalfOpenInterval α} {s : List (HalfOpenInterval α)} :
    MemList x (i :: s) ↔ i.Mem x ∨ MemList x s := by
  simp only [MemList, List.mem_cons, exists_eq_or_imp]

theorem memList_append {x : α} {s t : List (HalfOpenInterval α)} :
    MemList x (s ++ t) ↔ MemList x s ∨ MemList x t := by
  simp only [MemList, List.mem_append, or_and_right, exists_or]

/-- Order by start, then by stop. -/
def Before (i j : HalfOpenInterval α) : Prop := i.start < j.start ∨ (i.start = j.start ∧ i.stop ≤ j.stop)

instance (i j : HalfOpenInterval α) : Decidable (i.Before j) := inferInstanceAs (Decidable (_ ∨ _))

theorem Before.start_le {i j : HalfOpenInterval α} (h : i.Before j) : i.start ≤ j.start :=
  h.elim le_of_lt fun h => le_of_eq h.1

instance : Std.Total (Before (α := α)) where
  total i j := by
    rcases lt_trichotomy i.start j.start with h | h | h
    · exact .inl (.inl h)
    · exact (le_total i.stop j.stop).imp (fun h' => .inr ⟨h, h'⟩) fun h' => .inr ⟨h.symm, h'⟩
    · exact .inr (.inl h)

instance : IsTrans (HalfOpenInterval α) Before where
  trans i j k hij hjk := by
    rcases hij with hij | ⟨hij, hij'⟩
    · exact .inl (lt_of_lt_of_le hij hjk.start_le)
    · rcases hjk with hjk | ⟨hjk, hjk'⟩
      · exact .inl (hij ▸ hjk)
      · exact .inr ⟨hij.trans hjk, hij'.trans hjk'⟩

/-- Join the intervals of a sorted list with the one collected so far. -/
def joinFrom (last : HalfOpenInterval α) : List (HalfOpenInterval α) → List (HalfOpenInterval α)
  | [] => [last]
  | i :: rest =>
      if last.stop < i.start then last :: joinFrom i rest
      else joinFrom ⟨last.start, if i.stop < last.stop then last.stop else i.stop⟩ rest

/-- Sort, then join. -/
def normalize (s : List (HalfOpenInterval α)) : List (HalfOpenInterval α) :=
  match s.insertionSort Before with
  | [] => []
  | i :: rest => joinFrom i rest

/-- Two intervals of which the second starts in the first, or right behind it. -/
theorem mem_join {last i : HalfOpenInterval α} {x : α} (h1 : last.start ≤ i.start)
    (h2 : i.start ≤ last.stop) :
    Mem x ⟨last.start, if i.stop < last.stop then last.stop else i.stop⟩ ↔
      last.Mem x ∨ i.Mem x := by
  simp only [Mem]
  split
  · next hlt =>
    refine ⟨fun h => .inl h, ?_⟩
    rintro (h | h)
    · exact h
    · exact ⟨h1.trans h.1, h.2.trans hlt⟩
  · next hle =>
    have hle := not_lt.mp hle
    constructor
    · rintro ⟨h, h'⟩
      rcases lt_or_ge x last.stop with hx | hx
      · exact .inl ⟨h, hx⟩
      · exact .inr ⟨h2.trans hx, h'⟩
    · rintro (h | h)
      · exact ⟨h.1, lt_of_lt_of_le h.2 hle⟩
      · exact ⟨h1.trans h.1, h.2⟩

theorem memList_joinFrom {x : α} {s : List (HalfOpenInterval α)} : ∀ {last : HalfOpenInterval α},
    s.Pairwise Before → (∀ i ∈ s, last.start ≤ i.start) →
    (MemList x (joinFrom last s) ↔ last.Mem x ∨ MemList x s) := by
  induction s with
  | nil =>
      intro last _ _
      rw [joinFrom, memList_cons]
  | cons i s ih =>
      intro last hsorted hstart
      obtain ⟨hi, hs⟩ := List.pairwise_cons.mp hsorted
      rw [joinFrom]
      split
      · rw [memList_cons, memList_cons, ih hs fun j hj => (hi j hj).start_le]
      · next hle =>
        have h1 := hstart i (List.mem_cons_self ..)
        refine Iff.trans (ih hs ?_) ?_
        · exact fun j hj => hstart j (List.mem_cons_of_mem _ hj)
        · rw [mem_join h1 (not_lt.mp hle), memList_cons, or_assoc]

/-- **Normalizing keeps the points.** -/
theorem memList_normalize {x : α} (s : List (HalfOpenInterval α)) :
    MemList x (normalize s) ↔ MemList x s := by
  have hperm : ∀ i, i ∈ s.insertionSort Before ↔ i ∈ s :=
    fun i => (List.perm_insertionSort Before s).mem_iff
  have hsorted := List.pairwise_insertionSort (Before (α := α)) s
  have hs : MemList x (s.insertionSort Before) ↔ MemList x s := by simp only [MemList, hperm]
  rw [normalize, ← hs]
  cases hl : s.insertionSort Before with
  | nil => exact Iff.rfl
  | cons i rest =>
      rw [hl] at hsorted
      obtain ⟨hi, hrest⟩ := List.pairwise_cons.mp hsorted
      rw [memList_cons, memList_joinFrom hrest fun j hj => (hi j hj).start_le]

/-- Whether every interval of the second list lies in one of the first, found in one
pass over both. -/
def contain : List (HalfOpenInterval α) → List (HalfOpenInterval α) → Bool
  | _, [] => true
  | s, i :: sub =>
      match s.dropWhile fun j => decide (j.stop < i.start) with
      | [] => false
      | j :: rest =>
          if i.start < j.start ∨ j.stop < i.stop then false else contain (j :: rest) sub

/-- **What is contained is a subset**, normalized or not. -/
theorem memList_of_contain {x : α} {sub : List (HalfOpenInterval α)} : ∀ {s : List (HalfOpenInterval α)},
    contain s sub = true → MemList x sub → MemList x s := by
  induction sub with
  | nil => exact fun _ h => absurd h (memList_nil x)
  | cons i sub ih =>
      intro s h hx
      rw [contain] at h
      have hsuffix := List.dropWhile_suffix (l := s) fun j => decide (j.stop < i.start)
      cases hd : s.dropWhile fun j => decide (j.stop < i.start) with
      | nil => rw [hd] at h; cases h
      | cons j rest =>
          rw [hd] at h hsuffix
          simp only at h
          split at h
          · cases h
          · next hin =>
            rw [not_or, not_lt, not_lt] at hin
            have hmem : MemList x (j :: rest) := by
              rcases memList_cons.mp hx with hx | hx
              · exact ⟨j, List.mem_cons_self .., hin.1.trans hx.1, lt_of_lt_of_le hx.2 hin.2⟩
              · exact ih h hx
            obtain ⟨k, hk, hxk⟩ := hmem
            exact ⟨k, hsuffix.subset hk, hxk⟩

/-- A list in normal form: no interval is empty, and there is a gap before each next one. -/
structure Normal (s : List (HalfOpenInterval α)) : Prop where
  nonempty : ∀ i ∈ s, i.start < i.stop
  apart : s.Pairwise fun i j => i.stop < j.start

/-- The bounds of joined intervals are bounds of theirs. -/
theorem bounds_of_mem_joinFrom {s : List (HalfOpenInterval α)} : ∀ {last j : HalfOpenInterval α},
    j ∈ joinFrom last s → (∃ i ∈ last :: s, j.start = i.start) ∧ ∃ i ∈ last :: s, j.stop = i.stop := by
  induction s with
  | nil =>
      intro last j hj
      rw [List.mem_singleton.mp hj]
      exact ⟨⟨last, List.mem_cons_self, rfl⟩, last, List.mem_cons_self, rfl⟩
  | cons i s ih =>
      intro last j hj
      rw [joinFrom] at hj
      split at hj
      · rcases List.mem_cons.mp hj with rfl | hj
        · exact ⟨⟨j, List.mem_cons_self, rfl⟩, j, List.mem_cons_self, rfl⟩
        · obtain ⟨⟨k, hk, hstart⟩, m, hm, hstop⟩ := ih hj
          exact ⟨⟨k, List.mem_cons_of_mem last hk, hstart⟩, m, List.mem_cons_of_mem last hm, hstop⟩
      · obtain ⟨⟨k, hk, hstart⟩, m, hm, hstop⟩ := ih hj
        refine ⟨?_, ?_⟩
        · rcases List.mem_cons.mp hk with rfl | hk
          · exact ⟨last, List.mem_cons_self, hstart⟩
          · exact ⟨k, List.mem_cons_of_mem last (List.mem_cons_of_mem i hk), hstart⟩
        · rcases List.mem_cons.mp hm with rfl | hm
          · -- the stop is the greater one of the two
            split at hstop
            · exact ⟨last, List.mem_cons_self, hstop⟩
            · exact ⟨i, List.mem_cons_of_mem last List.mem_cons_self, hstop⟩
          · exact ⟨m, List.mem_cons_of_mem last (List.mem_cons_of_mem i hm), hstop⟩

/-- **Normalizing makes no new bounds.** -/
theorem bounds_of_mem_normalize {s : List (HalfOpenInterval α)} {j : HalfOpenInterval α}
    (h : j ∈ normalize s) : (∃ i ∈ s, j.start = i.start) ∧ ∃ i ∈ s, j.stop = i.stop := by
  have hperm : ∀ i, i ∈ s.insertionSort Before ↔ i ∈ s :=
    fun i => (List.perm_insertionSort Before s).mem_iff
  rw [normalize] at h
  cases hl : s.insertionSort Before with
  | nil =>
      rw [hl] at h
      cases h
  | cons i rest =>
      rw [hl] at h
      obtain ⟨⟨k, hk, hstart⟩, m, hm, hstop⟩ := bounds_of_mem_joinFrom h
      rw [← hl, hperm] at hk hm
      exact ⟨⟨k, hk, hstart⟩, m, hm, hstop⟩

theorem normal_joinFrom {s : List (HalfOpenInterval α)} : ∀ {last : HalfOpenInterval α},
    (last :: s).Pairwise Before → (∀ i ∈ last :: s, i.start < i.stop) → Normal (joinFrom last s) := by
  induction s with
  | nil =>
      intro last _ hne
      exact ⟨hne, List.pairwise_singleton _ _⟩
  | cons i s ih =>
      intro last hsorted hne
      obtain ⟨hlast, hs⟩ := List.pairwise_cons.mp hsorted
      obtain ⟨hi, hrest⟩ := List.pairwise_cons.mp hs
      have hne' : ∀ j ∈ i :: s, j.start < j.stop := fun j hj => hne j (List.mem_cons_of_mem last hj)
      rw [joinFrom]
      split
      · next hgap =>
        have hnormal := ih hs hne'
        refine ⟨fun j hj => ?_, List.pairwise_cons.mpr ⟨fun j hj => ?_, hnormal.apart⟩⟩
        · rcases List.mem_cons.mp hj with rfl | hj
          · exact hne j List.mem_cons_self
          · exact hnormal.nonempty j hj
        · obtain ⟨⟨k, hk, hstart⟩, -⟩ := bounds_of_mem_joinFrom hj
          rw [hstart]
          rcases List.mem_cons.mp hk with rfl | hk
          · exact hgap
          · exact lt_of_lt_of_le hgap (hi k hk).start_le
      · have hstop : last.stop ≤ (if i.stop < last.stop then last.stop else i.stop) := by
          split
          · exact le_refl _
          · next h => exact not_lt.mp h
        refine ih (List.pairwise_cons.mpr ⟨fun j hj => ?_, hrest⟩) fun j hj => ?_
        · rcases (hlast j (List.mem_cons_of_mem i hj)) with hlt | ⟨heq, -⟩
          · exact .inl hlt
          · -- with equal starts the stops are in order, too
            have hij := hi j hj
            have hstart : i.start = j.start :=
              le_antisymm hij.start_le (heq ▸ (hlast i List.mem_cons_self).start_le)
            have hle : i.stop ≤ j.stop := hij.elim (fun h => absurd hstart (ne_of_lt h)) And.right
            refine .inr ⟨heq, ?_⟩
            split
            · exact (hlast j (List.mem_cons_of_mem i hj)).elim
                (fun h => absurd heq (ne_of_lt h)) And.right
            · exact hle
        · rcases List.mem_cons.mp hj with rfl | hj
          · exact lt_of_lt_of_le (hne last List.mem_cons_self) hstop
          · exact hne' j (List.mem_cons_of_mem i hj)

/-- **What is normalized is in normal form**, when no interval was empty. -/
theorem normal_normalize {s : List (HalfOpenInterval α)} (h : ∀ i ∈ s, i.start < i.stop) :
    Normal (normalize s) := by
  have hperm : ∀ i, i ∈ s.insertionSort Before ↔ i ∈ s :=
    fun i => (List.perm_insertionSort Before s).mem_iff
  have hsorted := List.pairwise_insertionSort (Before (α := α)) s
  rw [normalize]
  cases hl : s.insertionSort Before with
  | nil => exact ⟨fun _ h => absurd h List.not_mem_nil, List.Pairwise.nil⟩
  | cons i rest =>
      rw [hl] at hsorted hperm
      exact normal_joinFrom hsorted fun j hj => h j ((hperm j).mp hj)

theorem joinFrom_of_apart {s : List (HalfOpenInterval α)} : ∀ {last : HalfOpenInterval α},
    (last :: s).Pairwise (fun i j => i.stop < j.start) → joinFrom last s = last :: s := by
  induction s with
  | nil => exact fun _ => rfl
  | cons i s ih =>
      intro last h
      obtain ⟨hlast, hs⟩ := List.pairwise_cons.mp h
      rw [joinFrom, if_pos (hlast i List.mem_cons_self), ih hs]

/-- A list in normal form is left as it is. -/
theorem Normal.normalize_eq {s : List (HalfOpenInterval α)} (h : Normal s) : normalize s = s := by
  have hsorted : s.Pairwise Before := by
    refine h.apart.imp_of_mem fun {i j} hi _ hgap => ?_
    exact .inl ((h.nonempty i hi).trans hgap)
  rw [normalize, hsorted.insertionSort_eq]
  cases s with
  | nil => rfl
  | cons i s => exact joinFrom_of_apart h.apart

theorem Normal.memList_start {s : List (HalfOpenInterval α)} (h : Normal s) {i : HalfOpenInterval α}
    (hi : i ∈ s) : MemList i.start s :=
  ⟨i, hi, le_refl _, h.nonempty i hi⟩

/-- In a list in normal form a part of the union that has no gap lies in one interval. -/
theorem Normal.stop_le {before rest : List (HalfOpenInterval α)} {i j : HalfOpenInterval α}
    (h : Normal (before ++ j :: rest)) (hstart : j.Mem i.start)
    (hsub : ∀ x, i.Mem x → MemList x (before ++ j :: rest)) : i.stop ≤ j.stop := by
  obtain ⟨-, hrest, hbefore⟩ := List.pairwise_append.mp h.apart
  by_contra hlt
  -- otherwise the first point behind `j` would be in another interval
  obtain ⟨k, hk, hmem⟩ := hsub j.stop ⟨le_of_lt hstart.2, not_le.mp hlt⟩
  have hj := lt_of_le_of_lt hstart.1 hstart.2
  rcases List.mem_append.mp hk with hk | hk
  · have hgap := hbefore k hk j List.mem_cons_self
    exact absurd hmem.2 (not_lt.mpr (le_of_lt (hgap.trans hj)))
  · rcases List.mem_cons.mp hk with rfl | hk
    · exact lt_irrefl _ hmem.2
    · exact absurd hmem.1 (not_le.mpr ((List.pairwise_cons.mp hrest).1 k hk))

/-- **A subset is contained**, when both lists are in normal form. -/
theorem contain_of_subset {s sub : List (HalfOpenInterval α)} (hs : Normal s) (hsub : Normal sub)
    (h : ∀ x, MemList x sub → MemList x s) : contain s sub = true := by
  induction sub generalizing s with
  | nil => rw [contain]
  | cons i sub ih =>
      obtain ⟨hgap, hapart⟩ := List.pairwise_cons.mp hsub.apart
      have hi := hsub.nonempty i List.mem_cons_self
      obtain ⟨j, hj, hstart⟩ := h i.start (hsub.memList_start List.mem_cons_self)
      obtain ⟨before, rest, rfl⟩ := List.append_of_mem hj
      obtain ⟨-, hrest, hbefore⟩ := List.pairwise_append.mp hs.apart
      have hskip : ∀ b ∈ before, b.stop < i.start :=
        fun b hb => lt_of_lt_of_le (hbefore b hb j List.mem_cons_self) hstart.1
      have hdrop : (before ++ j :: rest).dropWhile (fun b => decide (b.stop < i.start)) =
          j :: rest := by
        rw [List.dropWhile_append_of_pos fun b hb => decide_eq_true (hskip b hb),
          List.dropWhile_cons_of_neg]
        simpa using le_of_lt hstart.2
      have hstop : i.stop ≤ j.stop :=
        hs.stop_le hstart fun x hx => h x (memList_cons.mpr (.inl hx))
      rw [contain, hdrop]
      simp only
      rw [if_neg (by simp [hstart.1, hstop])]
      refine ih ⟨fun k hk => hs.nonempty k (List.mem_append_right _ hk), hrest⟩
        ⟨fun k hk => hsub.nonempty k (List.mem_cons_of_mem _ hk), hapart⟩ fun x hx => ?_
      -- what is skipped lies before `i`, and the rest of the second list behind it
      obtain ⟨k, hk, hxk⟩ := hx
      obtain ⟨b, hb, hxb⟩ := h x ⟨k, List.mem_cons_of_mem _ hk, hxk⟩
      rcases List.mem_append.mp hb with hb | hb
      · have hlt : x < i.start := hxb.2.trans (hskip b hb)
        exact absurd (lt_of_lt_of_le (hgap k hk) hxk.1) (not_lt.mpr (le_of_lt (hlt.trans hi)))
      · exact ⟨b, hb, hxb⟩

end HalfOpenInterval
