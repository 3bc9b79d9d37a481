import Mathlib.Data.List.Basic
import Mathlib.Tactic.Push
import Kingbus.Lib.Runs

/-! # Words that lead back to a state

Of the words that lead a partial step function from a state `home` back to it, the shortest
ones are those that pass through `home` only at their two ends.  Every word that leads back is
a concatenation of such words, and its prefixes that lead back are exactly those that end
where one of them ends. -/

variable {σ α : Type}

theorem Runs.exec_append {step : σ → α → Option σ} {s : σ} (xs ys : List α) :
    Runs.exec step s (xs ++ ys) = (Runs.exec step s xs).bind (Runs.exec step · ys) :=
  List.foldlM_append

/-- The word leads from `home` to `home` and nowhere in between to `home`. -/
structure FirstReturn (step : σ → α → Option σ) (home : σ) (u : List α) : Prop where
  ne_nil : u ≠ []
  returns : Runs.exec step home u = some home
  first : ∀ x y, u = x ++ y → x ≠ [] → y ≠ [] → Runs.exec step home x ≠ some home

namespace FirstReturn
variable {step : σ → α → Option σ} {home : σ}

theorem exec_flatten {us : List (List α)} (h : ∀ u ∈ us, FirstReturn step home u) :
    Runs.exec step home us.flatten = some home := by
  induction us with
  | nil => rfl
  | cons u us ih =>
      rw [List.flatten_cons, Runs.exec_append, (h u List.mem_cons_self).returns, Option.bind_some]
      exact ih fun x hx => h x (List.mem_cons_of_mem u hx)

/-- **Every word that leads back is a concatenation of first returns.** -/
theorem exists_flatten_eq {w : List α} (h : Runs.exec step home w = some home) :
    ∃ us : List (List α), (∀ u ∈ us, FirstReturn step home u) ∧ w = us.flatten := by
  -- by induction on the length: a word that is not a first return splits into two shorter ones
  induction hn : w.length using Nat.strongRecOn generalizing w with
  | ind n ih =>
      by_cases hnil : w = []
      · exact ⟨[], List.forall_mem_nil _, hnil⟩
      by_cases hfirst : FirstReturn step home w
      · exact ⟨[w], by simpa using hfirst, by simp⟩
      obtain ⟨x, y, rfl, hx, hy, hback⟩ : ∃ x y, w = x ++ y ∧ x ≠ [] ∧ y ≠ [] ∧
          Runs.exec step home x = some home := by
        by_contra hno
        push Not at hno
        exact hfirst ⟨hnil, h, hno⟩
      have hxpos := List.length_pos_of_ne_nil hx
      have hypos := List.length_pos_of_ne_nil hy
      rw [List.length_append] at hn
      rw [Runs.exec_append, hback, Option.bind_some] at h
      obtain ⟨us, hus, rfl⟩ := ih x.length (by omega) hback rfl
      obtain ⟨vs, hvs, rfl⟩ := ih y.length (by omega) h rfl
      refine ⟨us ++ vs, fun u hu => ?_, List.flatten_append.symm⟩
      rcases List.mem_append.mp hu with hu | hu
      · exact hus u hu
      · exact hvs u hu

/-- **The prefixes that lead back end where a first return ends.** -/
theorem exec_left_iff {us : List (List α)} (hus : ∀ u ∈ us, FirstReturn step home u)
    {x y : List α} (hxy : us.flatten = x ++ y) :
    Runs.exec step home x = some home ↔ ∃ k, x = (us.take k).flatten := by
  constructor
  · intro hback
    induction us generalizing x with
    | nil => exact ⟨0, (List.append_eq_nil_iff.mp hxy.symm).1⟩
    | cons u us ih =>
        have hu := hus u List.mem_cons_self
        rw [List.flatten_cons] at hxy
        rcases List.append_eq_append_iff.mp hxy with ⟨c, rfl, hrest⟩ | ⟨c, rfl, -⟩
        · -- the prefix covers the first word
          rw [Runs.exec_append, hu.returns, Option.bind_some] at hback
          obtain ⟨k, rfl⟩ := ih (fun v hv => hus v (List.mem_cons_of_mem u hv)) hrest hback
          exact ⟨k + 1, by rw [List.take_succ_cons, List.flatten_cons]⟩
        · by_cases hx : x = []
          · exact ⟨0, hx⟩
          by_cases hc : c = []
          · exact ⟨1, by simp [hc]⟩
          · exact absurd hback (hu.first x c rfl hx hc)
  · rintro ⟨k, rfl⟩
    exact exec_flatten fun u hu => hus u (List.mem_of_mem_take hu)

end FirstReturn
