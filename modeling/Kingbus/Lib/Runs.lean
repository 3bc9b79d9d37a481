import Mathlib.Init

/-! # Runs of a partial step function

`step s a` is the state after the action `a`, or `none` if the action is not possible in
`s`.  A run is a sequence of possible actions that all meet a condition on the state they
are taken in. -/

variable {σ α : Type}

/-- `t` is reached from `s` by actions that meet `ok`. -/
inductive Runs (step : σ → α → Option σ) (ok : σ → α → Prop) (s : σ) : σ → Prop where
  | refl : Runs step ok s s
  | next {t u : σ} {a : α} : Runs step ok s t → ok t a → step t a = some u → Runs step ok s u

/-- The state after the actions. -/
def Runs.exec (step : σ → α → Option σ) (s : σ) (as : List α) : Option σ :=
  as.foldlM step s

/-- Every state satisfies `P`, from `s` on along the actions up to one that is not
possible. -/
def Runs.Always (step : σ → α → Option σ) (P : σ → Prop) (s : σ) : List α → Prop
  | [] => P s
  | a :: as => P s ∧ ∀ t, step s a = some t → Always step P t as

/-- Every possible action is taken in a state that meets `ok` with it. -/
def Runs.Each (step : σ → α → Option σ) (ok : σ → α → Prop) (s : σ) : List α → Prop
  | [] => True
  | a :: as => ∀ t, step s a = some t → ok s a ∧ Each step ok t as

variable {step : σ → α → Option σ} {ok : σ → α → Prop} {s t : σ}

/-- What holds at the start and is kept by every step holds in every state of a run. -/
theorem Runs.invariant {I : σ → Prop} (h : Runs step ok s t) (hstart : I s)
    (hstep : ∀ {t u a}, I t → ok t a → step t a = some u → I u) : I t := by
  induction h with
  | refl => exact hstart
  | next _ hok hnext ih => exact hstep ih hok hnext

theorem Runs.exec_cons {a : α} {as : List α} :
    exec step s (a :: as) = (step s a).bind (exec step · as) :=
  rfl

/-- A state that can be computed has a property that can be decided. -/
theorem Runs.exists_of_eval {x : Option σ} {P : σ → Prop} [DecidablePred P]
    (h : x.any (fun s => decide (P s)) = true) : ∃ s, x = some s ∧ P s := by
  cases x with
  | none => cases h
  | some s => exact ⟨s, rfl, of_decide_eq_true h⟩

/-- Actions that are checked one by one make a run. -/
theorem Runs.of_exec [∀ s a, Decidable (ok s a)] (as : List α)
    (h : exec (fun s a => if ok s a then step s a else none) s as = some t) :
    Runs step ok s t := by
  suffices key : ∀ {r}, Runs step ok r s → Runs step ok r t from key .refl
  induction as generalizing s with
  | nil =>
      intro r hr
      cases h
      exact hr
  | cons a as ih =>
      intro r hr
      rw [exec_cons, Option.bind_eq_some_iff] at h
      obtain ⟨u, hu, hrest⟩ := h
      split at hu
      · rename_i hok
        exact ih hrest (hr.next hok hu)
      · cases hu

/-- The same for `Each`. -/
theorem Runs.each_of_exec [∀ s a, Decidable (ok s a)] (as : List α)
    (h : exec (fun s a => if ok s a then step s a else none) s as = some t) :
    Each step ok s as := by
  induction as generalizing s with
  | nil => trivial
  | cons a as ih =>
      rw [exec_cons, Option.bind_eq_some_iff] at h
      obtain ⟨u, hu, hrest⟩ := h
      obtain ⟨hok, hstep⟩ := Option.ite_none_right_eq_some.mp hu
      intro v hv
      rw [hstep] at hv
      cases hv
      exact ⟨hok, ih hrest⟩

/-- **An exact condition on the steps.**  If, as long as `I` holds, a step leads to `P`
exactly when it meets `ok`, then `P` holds all along the actions exactly when every step
meets `ok`. -/
theorem Runs.always_iff_each {I P : σ → Prop} (hI : ∀ {s t a}, I s → step s a = some t → I t)
    (hok : ∀ {s t a}, I s → P s → step s a = some t → (P t ↔ ok s a)) (as : List α) (hs : I s)
    (hP : P s) : Always step P s as ↔ Each step ok s as := by
  induction as generalizing s with
  | nil => exact iff_of_true hP trivial
  | cons a as ih =>
      constructor
      · rintro ⟨-, hrest⟩ t ht
        have hPt : P t := by
          have := hrest t ht
          cases as with
          | nil => exact this
          | cons b bs => exact this.1
        exact ⟨(hok hs hP ht).mp hPt, (ih (hI hs ht) hPt).mp (hrest t ht)⟩
      · intro heach
        refine ⟨hP, fun t ht => ?_⟩
        obtain ⟨hstep, hrest⟩ := heach t ht
        have hPt := (hok hs hP ht).mpr hstep
        exact (ih (hI hs ht) hPt).mpr hrest

/-! ## Traces -/

/-- Everything in a trace meets a condition on what came before it. -/
def Guarded (ok : List α → α → Prop) (t : List α) : Prop :=
  ∀ pre a post, t = pre ++ a :: post → ok pre a

theorem guarded_nil {ok : List α → α → Prop} : Guarded ok [] := by
  intro pre a post h
  exact absurd h.symm (List.append_ne_nil_of_right_ne_nil _ (List.cons_ne_nil _ _))

/-- A trace is extended by one action at its end. -/
theorem Guarded.concat {ok : List α → α → Prop} {t : List α} {a : α} (h : Guarded ok t)
    (ha : ok t a) : Guarded ok (t ++ [a]) := by
  intro pre b post heq
  rcases List.eq_nil_or_concat post with rfl | ⟨post, c, rfl⟩
  · have hpre : t = pre := List.append_inj_left' heq rfl
    have hlast : [a] = [b] := List.append_inj_right' heq rfl
    rw [← hpre, ← (List.cons.inj hlast).1]
    exact ha
  · rw [List.concat_eq_append, ← List.cons_append, ← List.append_assoc] at heq
    exact h pre b post (List.append_inj_left' heq rfl)
