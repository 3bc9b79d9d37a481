import Mathlib.Data.List.Basic
import Mathlib.Data.List.Nodup

/-! # Tables

A list of names with values, such as the files of a directory, in the order the
entries were made.  `rename` replaces an entry that has the new name already, as the
system call does; `modify` changes the value of an entry in place. -/

namespace Table
variable {α β : Type} {k k' : α} {x : β} {l l₁ l₂ : List (α × β)}

/-- No file of the list has the name. -/
def Absent (k : α) (l : List (α × β)) : Prop := ∀ f ∈ l, f.1 ≠ k

theorem Absent.append (h₁ : Absent k l₁) (h₂ : Absent k l₂) : Absent k (l₁ ++ l₂) := by
  intro f hf
  rcases List.mem_append.mp hf with hf | hf
  · exact h₁ f hf
  · exact h₂ f hf

theorem Absent.cons (hne : k' ≠ k) (h : Absent k l) : Absent k ((k', x) :: l) := by
  intro f hf
  rcases List.mem_cons.mp hf with rfl | hf
  · exact hne
  · exact h f hf

theorem absent_nil (k : α) : Absent k ([] : List (α × β)) := nofun

variable [DecidableEq α]

/-- Give the file `old` the name `new`. -/
def rename (old new : α) (l : List (α × β)) : List (α × β) :=
  (l.filter fun f => f.1 ≠ new).map fun f => if f.1 = old then (new, f.2) else f

/-- Change the contents of a file. -/
def modify (k : α) (g : β → β) (l : List (α × β)) : List (α × β) :=
  l.map fun f => if f.1 = k then (f.1, g f.2) else f

/-- Remove a file. -/
def remove (k : α) (l : List (α × β)) : List (α × β) := l.filter fun f => f.1 ≠ k

@[simp] theorem modify_append (g : β → β) :
    modify k g (l₁ ++ l₂) = modify k g l₁ ++ modify k g l₂ := List.map_append

@[simp] theorem modify_cons_self (g : β → β) :
    modify k g ((k, x) :: l) = (k, g x) :: modify k g l := by
  rw [modify, List.map_cons, if_pos rfl]
  rfl

theorem Absent.modify_eq (g : β → β) (h : Absent k l) : modify k g l = l := by
  conv_rhs => rw [← List.map_id l]
  refine List.map_congr_left fun f hf => ?_
  rw [if_neg (h f hf), id]

/-- Changing the only file of a name. -/
theorem modify_at (g : β → β) (h₁ : Absent k l₁) (h₂ : Absent k l₂) :
    modify k g (l₁ ++ (k, x) :: l₂) = l₁ ++ (k, g x) :: l₂ := by
  rw [modify_append, modify_cons_self, h₁.modify_eq, h₂.modify_eq]

@[simp] theorem remove_append : remove k (l₁ ++ l₂) = remove k l₁ ++ remove k l₂ :=
  List.filter_append ..

@[simp] theorem remove_cons_self : remove k ((k, x) :: l) = remove k l := by
  rw [remove, List.filter_cons, if_neg (by simp)]
  rfl

theorem Absent.remove_eq (h : Absent k l) : remove k l = l :=
  List.filter_eq_self.mpr fun f hf => decide_eq_true (h f hf)

theorem absent_remove (k : α) (l : List (α × β)) : Absent k (remove k l) := by
  intro f hf
  simpa using (List.mem_filter.mp hf).2

theorem mem_of_mem_remove {f : α × β} (h : f ∈ remove k l) : f ∈ l := List.mem_of_mem_filter h

theorem Absent.rename_eq {new : α} (h : Absent k l) : rename k new l = remove new l := by
  conv_rhs => rw [remove, ← List.map_id (List.filter _ l)]
  refine List.map_congr_left fun f hf => ?_
  rw [if_neg (h f (List.mem_of_mem_filter hf)), id]

/-- Renaming a file to a name that no file before it has. -/
theorem rename_at {new : α} (hne : k ≠ new) (h₁ : Absent k l₁) (hnew : Absent new l₁)
    (h₂ : Absent k l₂) :
    rename k new (l₁ ++ (k, x) :: l₂) = l₁ ++ (new, x) :: remove new l₂ := by
  have hsplit : rename k new (l₁ ++ (k, x) :: l₂) =
      rename k new l₁ ++ (new, x) :: rename k new l₂ := by
    rw [rename, List.filter_append, List.filter_cons, if_pos (decide_eq_true hne), List.map_append,
      List.map_cons, if_pos rfl]
    rfl
  rw [hsplit, h₁.rename_eq, h₂.rename_eq, hnew.remove_eq]

/-- A file is found by its name when names are unique. -/
theorem lookup_of_mem : ∀ {l : List (α × β)},
    l.Pairwise (fun a b => a.1 ≠ b.1) → (k, x) ∈ l → l.lookup k = some x
  | (k', y) :: l, hp, hmem => by
      obtain ⟨hne, hp⟩ := List.pairwise_cons.mp hp
      rcases List.mem_cons.mp hmem with h | h
      · cases h
        exact List.lookup_cons_self
      · rw [List.lookup_cons, beq_false_of_ne (hne (k, x) h).symm]
        exact lookup_of_mem hp h

theorem modify_cons (g : β → β) (j : α) (y : β) (l : List (α × β)) :
    modify k g ((j, y) :: l) = (j, if j = k then g y else y) :: modify k g l := by
  rw [modify, List.map_cons]
  by_cases hj : j = k
  · rw [if_pos hj, if_pos hj]
    rfl
  · rw [if_neg hj, if_neg hj]
    rfl

theorem lookup_modify (g : β → β) : ∀ l : List (α × β),
    (modify k g l).lookup k' = if k' = k then (l.lookup k').map g else l.lookup k'
  | [] => by
      rw [modify, List.map_nil, List.lookup_nil, Option.map_none, ite_self]
  | (j, y) :: l => by
      rw [modify_cons]
      by_cases hj : k' = j
      · subst hj
        rw [List.lookup_cons_self, List.lookup_cons_self]
        split <;> rfl
      · rw [List.lookup_cons, List.lookup_cons, beq_false_of_ne hj]
        exact lookup_modify g l

theorem keys_modify (g : β → β) (l : List (α × β)) :
    (modify k g l).map Prod.fst = l.map Prod.fst := by
  rw [modify, List.map_map]
  refine List.map_congr_left fun f _ => ?_
  rw [Function.comp_apply]
  split <;> rfl

theorem lookup_append_left (h : l₁.lookup k = some x) : (l₁ ++ l₂).lookup k = some x := by
  rw [List.lookup_append, h]
  rfl

/-- Some file of a name is found when there is one. -/
theorem exists_lookup_of_mem : ∀ {l : List (α × β)}, (k, x) ∈ l → ∃ y, l.lookup k = some y
  | (k', y) :: l, hmem => by
      by_cases hk : k = k'
      · exact ⟨y, by rw [hk]; exact List.lookup_cons_self⟩
      · rcases List.mem_cons.mp hmem with h | h
        · cases h
          exact absurd rfl hk
        · rw [List.lookup_cons, beq_false_of_ne hk]
          exact exists_lookup_of_mem h

theorem Absent.lookup_eq (h : Absent k l₁) : (l₁ ++ l₂).lookup k = l₂.lookup k := by
  have hnone : l₁.lookup k = none := by
    rw [List.lookup_eq_none_iff]
    intro f hf
    exact bne_iff_ne.mpr (h f hf).symm
  rw [List.lookup_append, hnone]
  rfl

theorem mem_of_lookup (h : l.lookup k = some x) : (k, x) ∈ l := by
  obtain ⟨l₁, l₂, rfl, -⟩ := List.lookup_eq_some_iff.mp h
  exact List.mem_append_right l₁ List.mem_cons_self

theorem lookup_remove (l : List (α × β)) :
    (remove k l).lookup k' = if k' = k then none else l.lookup k' := by
  induction l with
  | nil => rw [remove, List.filter_nil, List.lookup_nil, ite_self]
  | cons f l ih =>
      obtain ⟨j, y⟩ := f
      by_cases hj : j = k
      · rw [hj, remove_cons_self, ih, List.lookup_cons]
        by_cases hk : k' = k
        · rw [if_pos hk, if_pos hk]
        · rw [if_neg hk, if_neg hk, beq_false_of_ne hk]
      · have hcons : remove k ((j, y) :: l) = (j, y) :: remove k l := by
          rw [remove, List.filter_cons, if_pos (decide_eq_true hj)]
          rfl
        rw [hcons]
        by_cases hk : k' = j
        · rw [hk, List.lookup_cons_self, List.lookup_cons_self, if_neg hj]
        · rw [List.lookup_cons, List.lookup_cons, beq_false_of_ne hk]
          exact ih

/-- The table with the value of a name replaced. -/
theorem lookup_set (x : β) (l : List (α × β)) :
    ((k, x) :: remove k l).lookup k' = if k' = k then some x else l.lookup k' := by
  by_cases hk : k' = k
  · rw [if_pos hk, hk, List.lookup_cons_self]
  · rw [List.lookup_cons, beq_false_of_ne hk, lookup_remove, if_neg hk, if_neg hk]

theorem nodup_keys_remove (h : (l.map Prod.fst).Nodup) (k : α) :
    ((remove k l).map Prod.fst).Nodup :=
  h.sublist (List.filter_sublist.map _)

theorem nodup_keys_set (h : (l.map Prod.fst).Nodup) (k : α) (x : β) :
    (((k, x) :: remove k l).map Prod.fst).Nodup := by
  rw [List.map_cons, List.nodup_cons]
  refine ⟨fun hmem => ?_, nodup_keys_remove h k⟩
  obtain ⟨f, hf, hk⟩ := List.mem_map.mp hmem
  exact absent_remove k l f hf hk

theorem nodup_keys_modify (h : (l.map Prod.fst).Nodup) (k : α) (g : β → β) :
    ((modify k g l).map Prod.fst).Nodup := by
  rw [keys_modify]
  exact h

/-! ## Tables sorted by number -/

/-- Set the value of a key in a table sorted by key. -/
def put (k : Nat) (x : β) : List (Nat × β) → List (Nat × β)
  | [] => [(k, x)]
  | (j, y) :: l =>
      if k < j then (k, x) :: (j, y) :: l
      else if k = j then (k, x) :: l
      else (j, y) :: put k x l

theorem mem_put_self (k : Nat) (x : β) : ∀ l, (k, x) ∈ put k x l
  | [] => List.mem_singleton_self _
  | (j, y) :: l => by
      rw [put]
      split
      · exact List.mem_cons_self ..
      · split
        · exact List.mem_cons_self ..
        · exact List.mem_cons_of_mem _ (mem_put_self k x l)

theorem mem_of_mem_put {k : Nat} {x : β} {f : Nat × β} : ∀ {l}, f ∈ put k x l → f = (k, x) ∨ f ∈ l
  | [], h => .inl (List.mem_singleton.mp h)
  | (j, y) :: l, h => by
      rw [put] at h
      split at h
      · exact List.mem_cons.mp h
      · split at h
        · exact (List.mem_cons.mp h).imp id (List.mem_cons_of_mem _)
        · rcases List.mem_cons.mp h with h | h
          · exact .inr (h ▸ List.mem_cons_self ..)
          · exact (mem_of_mem_put h).imp id (List.mem_cons_of_mem _)

/-- Entries under other keys stay. -/
theorem mem_put_of_mem {k : Nat} {x : β} {f : Nat × β} (hne : f.1 ≠ k) :
    ∀ {l}, f ∈ l → f ∈ put k x l
  | (j, y) :: l, h => by
      rw [put]
      split
      · exact List.mem_cons_of_mem _ h
      · split
        · next hj =>
          rcases List.mem_cons.mp h with h | h
          · exact absurd (h ▸ hj.symm) hne
          · exact List.mem_cons_of_mem _ h
        · rcases List.mem_cons.mp h with h | h
          · exact h ▸ List.mem_cons_self ..
          · exact List.mem_cons_of_mem _ (mem_put_of_mem hne h)

/-- A key beyond all others goes to the end. -/
theorem put_of_lt {k : Nat} (x : β) : ∀ {l : List (Nat × β)}, (∀ f ∈ l, f.1 < k) →
    put k x l = l ++ [(k, x)]
  | [], _ => rfl
  | (j, y) :: l, h => by
      have hj : j < k := h _ (List.mem_cons_self ..)
      rw [put, if_neg (by omega), if_neg (by omega),
        put_of_lt x fun f hf => h f (List.mem_cons_of_mem _ hf)]
      rfl

/-- The keys increase. -/
def Sorted (l : List (Nat × β)) : Prop := l.Pairwise fun f g => f.1 < g.1

theorem Sorted.filter {l : List (Nat × β)} (h : Sorted l) (p : Nat × β → Bool) :
    Sorted (l.filter p) :=
  List.Pairwise.filter p h

theorem Sorted.put {k : Nat} {x : β} {l : List (Nat × β)} (h : Sorted l) : Sorted (put k x l) := by
  induction l with
  | nil => exact List.pairwise_singleton ..
  | cons f l ih =>
      obtain ⟨hf, hl⟩ := List.pairwise_cons.mp h
      obtain ⟨j, y⟩ := f
      rw [Table.put]
      by_cases hlt : k < j
      · rw [if_pos hlt]
        refine List.pairwise_cons.mpr ⟨fun g hg => ?_, h⟩
        rcases List.mem_cons.mp hg with rfl | hg
        · exact hlt
        · exact Nat.lt_trans hlt (hf g hg)
      rw [if_neg hlt]
      by_cases heq : k = j
      · rw [if_pos heq]
        exact List.pairwise_cons.mpr ⟨fun g hg => heq ▸ hf g hg, hl⟩
      rw [if_neg heq]
      refine List.pairwise_cons.mpr ⟨fun g hg => ?_, ih hl⟩
      rcases mem_of_mem_put hg with rfl | hg
      · exact Nat.lt_of_le_of_ne (Nat.not_lt.mp hlt) (Ne.symm heq)
      · exact hf g hg

/-- A key has one value. -/
theorem Sorted.eq_of_key_eq {l : List (Nat × β)} (h : Sorted l) {f g : Nat × β} (hf : f ∈ l)
    (hg : g ∈ l) (hkey : f.1 = g.1) : f = g := by
  have hnodup : (l.map Prod.fst).Nodup := List.pairwise_map.mpr (h.imp Nat.ne_of_lt)
  exact List.inj_on_of_nodup_map hnodup hf hg hkey

/-- The key has the new value, the other keys have what they had. -/
theorem Sorted.mem_put_iff {l : List (Nat × β)} (h : Sorted l) {k : Nat} {x : β} {f : Nat × β} :
    f ∈ Table.put k x l ↔ f = (k, x) ∨ f ∈ l ∧ f.1 ≠ k := by
  constructor
  · intro hf
    by_cases hkey : f.1 = k
    · exact .inl (h.put.eq_of_key_eq hf (mem_put_self k x l) hkey)
    · refine (mem_of_mem_put hf).imp_right fun hmem => ⟨hmem, hkey⟩
  · rintro (rfl | ⟨hf, hne⟩)
    · exact mem_put_self k x l
    · exact mem_put_of_mem hne hf

section Forall₂
variable {γ : Type} {R : Nat × β → Nat × γ → Prop} {l : List (Nat × β)} {l' : List (Nat × γ)}

/-- Keeping the keys that have a property. -/
theorem forall₂_filter (hR : ∀ {f g}, R f g → f.1 = g.1) (h : List.Forall₂ R l l') (p : Nat → Bool) :
    List.Forall₂ R (l.filter fun f => p f.1) (l'.filter fun f => p f.1) := by
  induction h with
  | nil => exact .nil
  | @cons f g l l' hfg h ih =>
      rw [List.filter_cons, List.filter_cons, hR hfg]
      split
      · exact .cons hfg ih
      · exact ih

end Forall₂

/-- Sorted tables with the same entries are equal. -/
theorem Sorted.eq_of_mem_iff {l₁ l₂ : List (Nat × β)} (h₁ : Sorted l₁) (h₂ : Sorted l₂) (h : ∀ f, f ∈ l₁ ↔ f ∈ l₂) :
    l₁ = l₂ := by
  have hnodup : ∀ {l : List (Nat × β)}, Sorted l → l.Nodup := by
    intro l hl
    refine List.Pairwise.imp ?_ hl
    rintro f g hlt rfl
    exact Nat.lt_irrefl _ hlt
  have hperm : l₁.Perm l₂ := (List.perm_ext_iff_of_nodup (hnodup h₁) (hnodup h₂)).mpr h
  refine hperm.eq_of_pairwise ?_ h₁ h₂
  intro f g _ _ hfg hgf
  exact absurd hgf (Nat.lt_asymm hfg)

theorem Sorted.of_find? {l : List (Nat × β)} (h : Sorted l) {p : Nat × β → Bool} {f : Nat × β}
    (hfound : l.find? p = some f) : f ∈ l ∧ p f = true ∧ ∀ g ∈ l, p g = true → f.1 ≤ g.1 := by
  obtain ⟨hp, before, behind, rfl, hbefore⟩ := List.find?_eq_some_iff_append.mp hfound
  refine ⟨by simp, hp, fun g hg hgp => ?_⟩
  rcases List.mem_append.mp hg with hg | hg
  · have hno := hbefore g hg
    rw [hgp] at hno
    cases hno
  · rcases List.mem_cons.mp hg with rfl | hg
    · exact Nat.le_refl _
    · have hrest := (List.pairwise_append.mp h).2.1
      exact Nat.le_of_lt ((List.pairwise_cons.mp hrest).1 g hg)

/-- **The first entry of a kind is the one with the smallest key.** -/
theorem Sorted.find?_iff {l : List (Nat × β)} (h : Sorted l) {p : Nat × β → Bool} {f : Nat × β} :
    l.find? p = some f ↔ f ∈ l ∧ p f = true ∧ ∀ g ∈ l, p g = true → f.1 ≤ g.1 := by
  refine ⟨h.of_find?, ?_⟩
  rintro ⟨hf, hp, hleast⟩
  cases hfound : l.find? p with
  | none => exact absurd hp (List.find?_eq_none.mp hfound f hf)
  | some g =>
      obtain ⟨hg, hgp, hgleast⟩ := h.of_find? hfound
      rw [h.eq_of_key_eq hf hg (Nat.le_antisymm (hleast g hg hgp) (hgleast f hf hp))]

/-- The first entry behind an index is the one with the smallest key. -/
theorem Sorted.find?_lt_iff {l : List (Nat × β)} (h : Sorted l) {i : Nat} {f : Nat × β} :
    (l.find? fun g => i < g.1) = some f ↔
      f ∈ l ∧ i < f.1 ∧ ∀ g ∈ l, i < g.1 → f.1 ≤ g.1 := by
  simp only [h.find?_iff, decide_eq_true_eq]

/-- The last entry below an index. -/
def lastBelow (i : Nat) (l : List (Nat × β)) : Option (Nat × β) :=
  (l.filter fun f => f.1 < i).getLast?

theorem Sorted.of_lastBelow {l : List (Nat × β)} (h : Sorted l) {i : Nat} {f : Nat × β}
    (hfound : lastBelow i l = some f) : f ∈ l ∧ f.1 < i ∧ ∀ g ∈ l, g.1 < i → g.1 ≤ f.1 := by
  obtain ⟨before, hsplit⟩ := List.getLast?_eq_some_iff.mp hfound
  have hmem : ∀ {g}, g ∈ before ++ [f] ↔ g ∈ l ∧ g.1 < i := by
    intro g
    rw [← hsplit, List.mem_filter, decide_eq_true_eq]
  obtain ⟨hf, hlt⟩ := hmem.mp (List.mem_append_right _ (List.mem_singleton_self f))
  refine ⟨hf, hlt, fun g hg hgi => ?_⟩
  have hsorted : (before ++ [f]).Pairwise fun f g => f.1 < g.1 := hsplit ▸ h.filter _
  rcases List.mem_append.mp (hmem.mpr ⟨hg, hgi⟩) with hg | hg
  · exact Nat.le_of_lt ((List.pairwise_append.mp hsorted).2.2 g hg f (List.mem_singleton_self f))
  · exact Nat.le_of_eq (congrArg Prod.fst (List.mem_singleton.mp hg))

theorem lastBelow_eq_none_iff {l : List (Nat × β)} {i : Nat} :
    lastBelow i l = none ↔ ∀ f ∈ l, i ≤ f.1 := by
  rw [lastBelow, List.getLast?_eq_none_iff, List.filter_eq_nil_iff]
  simp only [decide_eq_true_eq, Nat.not_lt]

/-- **The last entry below an index is the one with the greatest key.** -/
theorem Sorted.lastBelow_iff {l : List (Nat × β)} (h : Sorted l) {i : Nat} {f : Nat × β} :
    lastBelow i l = some f ↔ f ∈ l ∧ f.1 < i ∧ ∀ g ∈ l, g.1 < i → g.1 ≤ f.1 := by
  refine ⟨h.of_lastBelow, ?_⟩
  rintro ⟨hf, hlt, hgreatest⟩
  cases hfound : lastBelow i l with
  | none => exact absurd (lastBelow_eq_none_iff.mp hfound f hf) (Nat.not_le.mpr hlt)
  | some g =>
      obtain ⟨hg, hgi, hggreatest⟩ := h.of_lastBelow hfound
      rw [h.eq_of_key_eq hf hg (Nat.le_antisymm (hggreatest f hf hlt) (hgreatest g hg hgi))]

theorem lastBelow_cons_of_lt {l : List (Nat × β)} {i : Nat} {f : Nat × β} (hlt : f.1 < i) :
    lastBelow i (f :: l) = (lastBelow i l).or (some f) := by
  rw [lastBelow, List.filter_cons, if_pos (decide_eq_true hlt), List.getLast?_cons,
    lastBelow]
  cases (l.filter fun f => f.1 < i).getLast? <;> rfl

theorem Sorted.lastBelow_cons_of_le {l : List (Nat × β)} {i : Nat} {f : Nat × β}
    (h : Sorted (f :: l)) (hle : i ≤ f.1) : lastBelow i (f :: l) = none := by
  rw [lastBelow_eq_none_iff]
  intro g hg
  rcases List.mem_cons.mp hg with rfl | hg
  · exact hle
  · exact Nat.le_trans hle (Nat.le_of_lt ((List.pairwise_cons.mp h).1 g hg))

end Table
