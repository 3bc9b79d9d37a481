import Kingbus.EventSurvival

/-! # Runs of events

Events applied one after the other, and what is left of such a run when only the fields
that transactions act on are kept.  Results about the recording of GTIDs are proved over
`TrxProgress.run` and hold for replicas by `run_of_applyEvents`. -/

namespace Kingbus

/-- The number of raft entries of an event. -/
def MasterEvent.entryCount (event : MasterEvent) : Nat :=
  if event.Fits then 1 else event.dividedCount

/-- Events applied one after the other, the entries of the first from an index on. -/
def KingbusServer.applyEvents (flavor : Flavor) (clock : Nat → Bool) :
    KingbusServer → Nat → List ParsedEvent → Except EventFailure KingbusServer
  | s, _, [] => .ok s
  | s, i, e :: es => (e.applyTo flavor clock s i).bind fun s =>
      applyEvents flavor clock s (i + e.entryCount) es

/-- The index behind the events, when the first entry of the first one is at the given
index. -/
def nextIndex (i : Nat) (es : List ParsedEvent) : Nat := i + (es.map fun e => e.entryCount).sum

theorem nextIndex_cons (i : Nat) (e : ParsedEvent) (es : List ParsedEvent) :
    nextIndex i (e :: es) = nextIndex (i + e.entryCount) es := by
  rw [nextIndex, nextIndex, List.map_cons, List.sum_cons, Nat.add_assoc]

namespace TrxProgress

/-- Events on the fields that transactions act on. -/
def run : TrxProgress → List ParsedEvent → Except EventFailure TrxProgress
  | p, [] => .ok p
  | p, e :: es => (p.step e).bind fun p => p.run es

/-- Every step of the run meets a condition on the state before it and the event. -/
def Along (P : TrxProgress → ParsedEvent → Prop) : TrxProgress → List ParsedEvent → Prop
  | _, [] => True
  | p, e :: es => P p e ∧
      match p.step e with
      | .ok p => Along P p es
      | .error _ => True

/-- A condition along a run can be evaluated. -/
def decideAlong (P : TrxProgress → ParsedEvent → Prop) [∀ p e, Decidable (P p e)] :
    ∀ p es, Decidable (Along P p es)
  | _, [] => .isTrue trivial
  | p, e :: es =>
      have : Decidable (match p.step e with
          | .ok p => Along P p es
          | .error _ => True) :=
        match p.step e with
        | .ok p => decideAlong P p es
        | .error _ => .isTrue trivial
      inferInstanceAs (Decidable (P p e ∧ _))

instance (P : TrxProgress → ParsedEvent → Prop) [∀ p e, Decidable (P p e)] (p : TrxProgress)
    (es : List ParsedEvent) : Decidable (Along P p es) := decideAlong P p es

variable {P : TrxProgress → ParsedEvent → Prop} {p p' q : TrxProgress} {e : ParsedEvent}
  {es fs : List ParsedEvent}

theorem run_cons : run p (e :: es) = .ok q ↔ ∃ p', p.step e = .ok p' ∧ p'.run es = .ok q := by
  rw [run]
  cases p.step e with
  | error f => exact ⟨nofun, by rintro ⟨_, h, -⟩; cases h⟩
  | ok p' => exact ⟨fun h => ⟨p', rfl, h⟩, by rintro ⟨_, h, h'⟩; cases h; exact h'⟩

theorem run_append : run p (es ++ fs) = (p.run es).bind fun p => p.run fs := by
  induction es generalizing p with
  | nil => rfl
  | cons e es ih =>
      rw [List.cons_append, run, run]
      cases p.step e with
      | error f => rfl
      | ok p' => exact ih

/-- **Invariants of runs**: what every step that meets the condition keeps, with the
events so far, holds at the end. -/
theorem Along.invariant {I : List ParsedEvent → TrxProgress → Prop}
    (hstep : ∀ {es p e p'}, I es p → P p e → p.step e = .ok p' → I (es ++ [e]) p') :
    ∀ {es done p q}, I done p → Along P p es → p.run es = .ok q → I (done ++ es) q
  | [], done, p, q, hI, _, hrun => by
      cases hrun
      rwa [List.append_nil]
  | e :: es, done, p, q, hI, hP, hrun => by
      obtain ⟨p', hs, hrun'⟩ := run_cons.mp hrun
      obtain ⟨hPe, hPes⟩ := hP
      rw [hs] at hPes
      have := Along.invariant hstep (hstep hI hPe hs) hPes hrun'
      rwa [List.append_assoc] at this

/-- What an event can do: observe its boundary, then take its GTID. -/
theorem step_cases (h : p.step e = .ok q) :
    ∃ r, p.Observed e.boundary r ∧
      ((e.gtid? = none ∧ q = r.1) ∨
        ∃ g, e.gtid? = some g ∧ q = { r.1 with currentGtid := some g }) := by
  rw [step] at h
  cases hobs : p.observe e.boundary with
  | error f => rw [hobs] at h; cases h
  | ok r =>
      rw [hobs] at h
      refine ⟨r, observed_of_observe hobs, ?_⟩
      cases hg : e.gtid? with
      | none => rw [hg] at h; cases h; exact .inl ⟨rfl, rfl⟩
      | some g => rw [hg] at h; cases h; exact .inr ⟨g, rfl, rfl⟩

end TrxProgress

/-! ## Replicas -/

@[simp] theorem KingbusServer.saveProgress_toTrxProgress (s : KingbusServer) (i : Nat)
    (elapsed : Bool) (p : TrxProgress) (recorded : Bool) (logPos : Nat) :
    (s.saveProgress i elapsed p recorded logPos).binlogProgress.toTrxProgress = p := by
  rw [KingbusServer.saveProgress]
  split <;> rfl

/-- What is written leaves the progress alone but for the GTID. -/
theorem KingbusServer.Writes.toTrxProgress {i : Nat} {event : ParsedEvent}
    {s s' : KingbusServer} (h : s.Writes i event s') :
    s'.binlogProgress.toTrxProgress =
      match event.gtid? with
      | none => s.binlogProgress.toTrxProgress
      | some g => { s.binlogProgress.toTrxProgress with currentGtid := some g } := by
  cases h with
  | fde ht => rw [event.gtid?_eq_none (by rw [ht]; decide)]
  | gtid ht hg => rw [hg]; rfl
  | rotate ht hname => rw [event.gtid?_eq_none (by rw [ht]; decide)]
  | previousGtids ht hset => rw [event.gtid?_eq_none (by rw [ht]; decide)]
  | nothing hn =>
      rw [event.gtid?_eq_none]
      intro ht
      rw [ht] at hn
      cases hn

namespace ParsedEvent
variable {event : ParsedEvent} {flavor : Flavor} {clock : Nat → Bool} {s s' : KingbusServer}
  {i : Nat} {es : List ParsedEvent}

@[simp] theorem withEmptyPart_binlogProgress :
    (event.withEmptyPart s i).binlogProgress = s.binlogProgress := by
  rw [withEmptyPart]
  split <;> rfl

/-- **An applied event is a step.** -/
theorem step_of_applyTo (h : event.applyTo flavor clock s i = .ok s') :
    s.binlogProgress.step event = .ok s'.binlogProgress.toTrxProgress := by
  cases (of_applyTo h).2 with
  | one hobs hw =>
      rw [TrxProgress.step, hobs, hw.toTrxProgress, KingbusServer.saveProgress_toTrxProgress]
      rfl
  | two hobs hw _ =>
      rw [TrxProgress.step, hobs, withEmptyPart_binlogProgress, hw.toTrxProgress,
        KingbusServer.saveProgress_toTrxProgress]
      rfl

/-- A step can be applied, when its entries are taken. -/
theorem applyTo_of_step {p : TrxProgress} (ht : event.Taken)
    (h : s.binlogProgress.step event = .ok p) :
    ∃ s', event.applyTo flavor clock s i = .ok s' ∧ s'.binlogProgress.toTrxProgress = p := by
  cases hobs : s.binlogProgress.observe event.boundary with
  | error f => rw [TrxProgress.step, hobs] at h; cases h
  | ok r =>
      obtain ⟨s', hs', -⟩ := applyTo_ok flavor clock (i := i) ht hobs
      have hstep := step_of_applyTo hs'
      rw [h] at hstep
      exact ⟨s', hs', (Except.ok.inj hstep).symm⟩

theorem applyEvents_cons : s.applyEvents flavor clock i (event :: es) = .ok s' ↔
    ∃ s₁, event.applyTo flavor clock s i = .ok s₁ ∧
      s₁.applyEvents flavor clock (i + event.entryCount) es = .ok s' := by
  rw [KingbusServer.applyEvents]
  cases event.applyTo flavor clock s i with
  | error f => exact ⟨nofun, by rintro ⟨_, h, -⟩; cases h⟩
  | ok s₁ => exact ⟨fun h => ⟨s₁, rfl, h⟩, by rintro ⟨_, h, h'⟩; cases h; exact h'⟩

/-- **Applied events are a run.** -/
theorem run_of_applyEvents (h : s.applyEvents flavor clock i es = .ok s') :
    s.binlogProgress.run es = .ok s'.binlogProgress.toTrxProgress ∧ ∀ e ∈ es, e.Taken := by
  induction es generalizing s i with
  | nil => cases h; exact ⟨rfl, nofun⟩
  | cons e es ih =>
      obtain ⟨s₁, hs₁, hrest⟩ := applyEvents_cons.mp h
      obtain ⟨hrun, htaken⟩ := ih hrest
      refine ⟨TrxProgress.run_cons.mpr ⟨_, step_of_applyTo hs₁, hrun⟩, fun x hx => ?_⟩
      rcases List.mem_cons.mp hx with rfl | hx
      · exact (of_applyTo hs₁).1
      · exact htaken x hx

/-- A run can be applied, when the entries of its events are taken. -/
theorem applyEvents_of_run {p : TrxProgress} (ht : ∀ e ∈ es, e.Taken)
    (h : s.binlogProgress.run es = .ok p) :
    ∃ s', s.applyEvents flavor clock i es = .ok s' ∧ s'.binlogProgress.toTrxProgress = p := by
  induction es generalizing s i with
  | nil => cases h; exact ⟨s, rfl, rfl⟩
  | cons e es ih =>
      obtain ⟨p', hstep, hrun⟩ := TrxProgress.run_cons.mp h
      obtain ⟨s₁, hs₁, hp⟩ : ∃ s₁, e.applyTo flavor clock s i = .ok s₁ ∧ _ :=
        applyTo_of_step (ht e (List.mem_cons_self ..)) hstep
      obtain ⟨s', hs', hq⟩ := ih (fun x hx => ht x (List.mem_cons_of_mem _ hx))
        (s := s₁) (i := i + e.entryCount) (by rw [hp]; exact hrun)
      exact ⟨s', applyEvents_cons.mpr ⟨s₁, hs₁, hs'⟩, hq⟩

theorem applyEvents_append {fs : List ParsedEvent} :
    s.applyEvents flavor clock i (es ++ fs) = .ok s' ↔
      ∃ s₁, s.applyEvents flavor clock i es = .ok s₁ ∧
        s₁.applyEvents flavor clock (nextIndex i es) fs = .ok s' := by
  induction es generalizing s i with
  | nil =>
      exact ⟨fun h => ⟨s, rfl, h⟩, by rintro ⟨s₁, h₁, h⟩; cases h₁; exact h⟩
  | cons e es ih =>
      rw [List.cons_append, applyEvents_cons, nextIndex_cons]
      constructor
      · rintro ⟨s₁, h₁, h⟩
        obtain ⟨s₂, h₂, h⟩ := ih.mp h
        exact ⟨s₂, applyEvents_cons.mpr ⟨s₁, h₁, h₂⟩, h⟩
      · rintro ⟨s₂, h₂, h⟩
        obtain ⟨s₁, h₁, h₂⟩ := applyEvents_cons.mp h₂
        exact ⟨s₁, h₁, ih.mpr ⟨s₂, h₂, h⟩⟩

/-- The last event of a run. -/
theorem applyEvents_concat : s.applyEvents flavor clock i (es ++ [event]) = .ok s' ↔
    ∃ s₁, s.applyEvents flavor clock i es = .ok s₁ ∧
      event.applyTo flavor clock s₁ (nextIndex i es) = .ok s' := by
  rw [applyEvents_append]
  refine exists_congr fun s₁ => and_congr_right fun _ => ?_
  rw [applyEvents_cons]
  exact ⟨by rintro ⟨_, h, h'⟩; cases h'; exact h, fun h => ⟨s', h, rfl⟩⟩

end ParsedEvent

/-! ## The log -/

/-- The events with the indexes of their first entries. -/
def indexed : Nat → List ParsedEvent → List (Nat × ParsedEvent)
  | _, [] => []
  | i, e :: es => (i, e) :: indexed (i + e.entryCount) es

theorem indexed_append (es fs : List ParsedEvent) : ∀ i,
    indexed i (es ++ fs) = indexed i es ++ indexed (nextIndex i es) fs := by
  induction es with
  | nil => exact fun _ => rfl
  | cons e es ih =>
      intro i
      rw [List.cons_append, indexed, indexed, ih, List.cons_append, nextIndex_cons]

theorem nextIndex_append (i : Nat) (es fs : List ParsedEvent) :
    nextIndex i (es ++ fs) = nextIndex (nextIndex i es) fs := by
  rw [nextIndex, nextIndex, nextIndex, List.map_append, List.sum_append, Nat.add_assoc]

theorem nextIndex_concat (i : Nat) (es : List ParsedEvent) (e : ParsedEvent) :
    nextIndex i (es ++ [e]) = nextIndex i es + e.entryCount := nextIndex_append i es [e]

theorem le_nextIndex (i : Nat) (es : List ParsedEvent) : i ≤ nextIndex i es := Nat.le_add_right _ _

theorem MasterEvent.entryCount_pos (event : MasterEvent) : 0 < event.entryCount := by
  rw [entryCount]
  split
  · exact Nat.one_pos
  · next hfits =>
    have hle : 1 ≤ (event.rawData.length + okHeaderByte) / maxPayloadLen :=
      (Nat.le_div_iff_mul_le maxPayloadLen_pos).mpr (by
        rw [Nat.one_mul]
        exact (MasterEvent.not_fits hfits).1)
    exact Nat.lt_of_lt_of_le hle (Nat.le_add_right _ _)

theorem lt_nextIndex_of_mem {es : List ParsedEvent} {f : Nat × ParsedEvent} : ∀ {i : Nat},
    f ∈ indexed i es → i ≤ f.1 ∧ f.1 < nextIndex i es := by
  induction es with
  | nil => nofun
  | cons e es ih =>
      intro i h
      have hpos := e.entryCount_pos
      have hle := le_nextIndex (i + e.entryCount) es
      rw [nextIndex_cons]
      rcases List.mem_cons.mp h with rfl | h
      · exact ⟨Nat.le_refl _, by simp only; omega⟩
      · have := ih h
        omega

theorem mem_indexed {es : List ParsedEvent} {i : Nat} {e : ParsedEvent} :
    (∃ k, (k, e) ∈ indexed i es) ↔ e ∈ es := by
  induction es generalizing i with
  | nil => exact ⟨fun ⟨_, h⟩ => (List.not_mem_nil h).elim, nofun⟩
  | cons x es ih =>
      simp only [indexed, List.mem_cons, Prod.mk.injEq]
      constructor
      · rintro ⟨k, ⟨-, rfl⟩ | h⟩
        · exact .inl rfl
        · exact .inr (ih.mp ⟨k, h⟩)
      · rintro (rfl | h)
        · exact ⟨i, .inl ⟨rfl, rfl⟩⟩
        · obtain ⟨k, hk⟩ := ih.mpr h
          exact ⟨k, .inr hk⟩

end Kingbus
