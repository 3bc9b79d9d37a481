import Mathlib.Data.List.Basic
import Mathlib.Data.List.Sort

/-! # A cursor over keys in lexicographic order

A bucket is a list of entries whose keys are words, in the lexicographic order of the words.
A cursor that is set to a prefix stands at the first key that is not below it and then goes
from key to key.  The keys that have the prefix stand side by side, so a loop that stops at
the first key without it meets all of them (`scan_eq_filter`). -/

namespace Cursor
variable {α β : Type} [LT α] {l : List (List α × β)} {k pre : List α} {x : β}

/-- The keys increase. -/
def Sorted (l : List (List α × β)) : Prop := l.Pairwise fun f g => f.1 < g.1

/-- A word between a prefix and a word that has it has it too. -/
theorem isPrefix_of_lt {t : List α} : ∀ {pre k : List α}, ¬ k < pre → k < pre ++ t → pre <+: k
  | [], k, _, _ => List.nil_prefix
  | a :: pre, [], h, _ => absurd (List.nil_lt_cons a pre) h
  | a :: pre, b :: k, h, hlt => by
      rw [List.cons_append, List.cons_lt_cons_iff] at hlt
      rw [List.cons_lt_cons_iff, not_or, not_and] at h
      obtain ⟨rfl, hrest⟩ := hlt.resolve_left h.1
      obtain ⟨r, rfl⟩ := isPrefix_of_lt (h.2 rfl) hrest
      exact ⟨r, rfl⟩

theorem append_lt_append_left [Std.Irrefl (α := α) (· < ·)] {a b : List α} (pre : List α) :
    pre ++ a < pre ++ b ↔ a < b := by
  induction pre with
  | nil => rfl
  | cons c pre ih =>
      rw [List.cons_append, List.cons_append, List.cons_lt_cons_iff,
        or_iff_right (Std.Irrefl.irrefl (r := (· < ·)) c), and_iff_right rfl]
      exact ih

variable [DecidableEq α]

/-- Behind the first key without the prefix there is none that has it. -/
theorem Sorted.takeWhile_eq_filter (h : Sorted l) (hge : ∀ f ∈ l, ¬ f.1 < pre) :
    l.takeWhile (fun f => pre.isPrefixOf f.1) = l.filter fun f => pre.isPrefixOf f.1 := by
  induction l with
  | nil => rfl
  | cons f l ih =>
      obtain ⟨hf, hl⟩ := List.pairwise_cons.mp h
      rw [List.takeWhile_cons, List.filter_cons]
      split
      · rw [ih hl fun g hg => hge g (List.mem_cons_of_mem f hg)]
      · next hp =>
        refine (List.filter_eq_nil_iff.mpr fun g hg hgp => hp ?_).symm
        obtain ⟨t, ht⟩ := List.isPrefixOf_iff_prefix.mp hgp
        refine List.isPrefixOf_iff_prefix.mpr (isPrefix_of_lt (t := t) (hge f List.mem_cons_self) ?_)
        rw [ht]
        exact hf g hg

/-- The value of a key. -/
def get (k : List α) (l : List (List α × β)) : Option β := (l.find? fun f => f.1 = k).map Prod.snd

/-- A key has the value it stands with. -/
theorem Sorted.get_eq_some_iff [Std.Irrefl (α := α) (· < ·)] (h : Sorted l) :
    get k l = some x ↔ (k, x) ∈ l := by
  rw [get, Option.map_eq_some_iff]
  constructor
  · rintro ⟨f, hf, rfl⟩
    have hkey : f.1 = k := of_decide_eq_true (List.find?_some hf :)
    exact hkey ▸ List.mem_of_find?_eq_some hf
  · intro hmem
    cases hfind : l.find? fun f => f.1 = k with
    | none => exact absurd (decide_eq_true rfl) (List.find?_eq_none.mp hfind (k, x) hmem)
    | some f =>
        have hkey : f.1 = k := of_decide_eq_true (List.find?_some hfind :)
        have hf := List.mem_of_find?_eq_some hfind
        -- two entries with one key would be below each other
        have hne : l.Pairwise fun f g => f.1 ≠ g.1 := by
          refine List.Pairwise.imp (fun {f g} hlt (heq : f.1 = g.1) => ?_) h
          exact List.lt_irrefl g.1 (heq ▸ hlt)
        have hnodup : (l.map Prod.fst).Nodup := List.pairwise_map.mpr hne
        exact ⟨f, rfl, congrArg Prod.snd (List.inj_on_of_nodup_map hnodup hf hmem hkey)⟩

variable [DecidableLT α]

/-- The entries that a loop from `Seek` on meets while the keys have the prefix. -/
def scan (pre : List α) (l : List (List α × β)) : List (List α × β) :=
  (l.dropWhile fun f => f.1 < pre).takeWhile fun f => pre.isPrefixOf f.1

/-- Set the value of a key. -/
def put (k : List α) (x : β) (l : List (List α × β)) : List (List α × β) :=
  l.filter (fun f => f.1 < k) ++ (k, x) :: l.filter fun f => k < f.1

section Order
variable [Trans (α := α) (β := α) (γ := α) (· < ·) (· < ·) (· < ·)]

theorem Sorted.put (h : Sorted l) : Sorted (put k x l) := by
  refine List.pairwise_append.mpr ⟨h.filter _, List.pairwise_cons.mpr ⟨?_, h.filter _⟩, ?_⟩
  · exact fun g hg => of_decide_eq_true (List.mem_filter.mp hg).2
  · intro f hf g hg
    have hlt : f.1 < k := of_decide_eq_true (List.mem_filter.mp hf).2
    rcases List.mem_cons.mp hg with rfl | hg
    · exact hlt
    · exact List.lt_trans hlt (of_decide_eq_true (List.mem_filter.mp hg).2)

variable [Std.Irrefl (α := α) (· < ·)]

/-- **A scan meets every key that has the prefix.** -/
theorem Sorted.scan_eq_filter (h : Sorted l) :
    scan pre l = l.filter fun f => pre.isPrefixOf f.1 := by
  unfold scan
  induction l with
  | nil => rfl
  | cons f l ih =>
      obtain ⟨hf, hl⟩ := List.pairwise_cons.mp h
      rw [List.dropWhile_cons]
      split
      · next hlt =>
        have hp : ¬ pre.isPrefixOf f.1 = true := fun hp =>
          (List.isPrefixOf_iff_prefix.mp hp).le (of_decide_eq_true hlt)
        rw [List.filter_cons, if_neg hp]
        exact ih hl
      · next hge =>
        have hlt : ¬ f.1 < pre := fun hlt => hge (decide_eq_true hlt)
        refine h.takeWhile_eq_filter fun g hg hgp => ?_
        rcases List.mem_cons.mp hg with rfl | hg
        · exact hlt hgp
        · exact hlt (List.lt_trans (hf g hg) hgp)

theorem Sorted.mem_scan (h : Sorted l) {f : List α × β} :
    f ∈ scan pre l ↔ f ∈ l ∧ pre <+: f.1 := by
  rw [h.scan_eq_filter, List.mem_filter, List.isPrefixOf_iff_prefix]

theorem Sorted.scan (h : Sorted l) : Sorted (scan pre l) := by
  rw [h.scan_eq_filter]
  exact h.filter _

end Order

/-- The key has the new value, the other keys have what they had. -/
theorem mem_put [Std.Irrefl (α := α) (· < ·)] [Std.Asymm (α := α) (· < ·)]
    [Std.Trichotomous (α := α) (· < ·)] {f : List α × β} :
    f ∈ put k x l ↔ f = (k, x) ∨ f ∈ l ∧ f.1 ≠ k := by
  have hne : f.1 ≠ k ↔ f.1 < k ∨ k < f.1 := by
    constructor
    · intro hne
      by_contra hno
      rw [not_or] at hno
      exact hne (Std.Trichotomous.trichotomous (r := (· < ·)) _ _ hno.1 hno.2)
    · rintro (h | h) heq
      · exact List.lt_irrefl k (heq ▸ h)
      · exact List.lt_irrefl k (heq ▸ h)
  rw [put, List.mem_append, List.mem_cons, List.mem_filter, List.mem_filter, decide_eq_true_eq,
    decide_eq_true_eq, hne, and_or_left, or_left_comm]

end Cursor
