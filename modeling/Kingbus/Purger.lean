import Kingbus.DiskStorage
import Kingbus.Lib.Runs

/-! # The purger

`StartPurgeLog` is a goroutine that waits in a `select` for its timer or for the cancellation
by `StopPurgeLog`.  A tick takes the oldest segments off the storage and hands them to
`purgeSegments`, which waits four seconds before it removes them; the writer rolls segments
all the while.  The timer is made by `time.NewTimer` before the loop and is not reset: after
the first tick the loop waits for a timer that does not fire again.

Segments are numbered in the order they were made, so that one that is handed over twice can
be told from two segments. -/

namespace Kingbus

/-- A `time.Timer`. -/
inductive Timer where
  /-- Running. -/
  | armed
  /-- Expired, with the time in its channel. -/
  | fired
  /-- Received from, or stopped. -/
  | spent
  deriving DecidableEq

/-- Where the goroutine is. -/
inductive PurgePhase where
  /-- In the `select`. -/
  | waiting
  /-- In `purgeSegments`. -/
  | purging
  /-- Returned. -/
  | quit
  /-- `purgeSegments` failed: `Fatalf`. -/
  | stopped
  deriving DecidableEq

/-- The storage as far as the purger sees it, and the variables of the loop. -/
structure PurgeState where
  /-- `s.Segments`; the last one is the writable one. -/
  segments : List Nat
  /-- The number of segments made so far. -/
  made : Nat
  timer : Timer
  deleteSegments : List Nat
  phase : PurgePhase
  /-- `purgeCtx` is done. -/
  cancelled : Bool
  /-- All segments that were passed to `purgeSegments`, in order. -/
  passed : List Nat
  deriving DecidableEq

/-- The steps of the loop, of the writer and of the clock. -/
inductive PurgeAction where
  /-- The writer makes a new segment. -/
  | roll
  /-- The time of the timer has come. -/
  | expire
  /-- The case `<-timer.C`. -/
  | tick
  /-- `purgeSegments` returns nil. -/
  | purged
  /-- `purgeSegments` returns an error. -/
  | purgeError
  /-- `StopPurgeLog` cancels the context. -/
  | cancel
  /-- The case `<-purgeCtx.Done()`. -/
  | done
  deriving DecidableEq

namespace PurgeState

/-- The body of the case `<-timer.C`, up to the call of `purgeSegments`.  What a tick
before has left in `deleteSegments` stays there when there is nothing to cut off. -/
def check (reserveSegmentCount : Nat) (s : PurgeState) : PurgeState :=
  let s :=
    if reserveSegmentCount < s.segments.length then
      let deleteCount := s.segments.length - reserveSegmentCount
      { s with
        deleteSegments := s.segments.take deleteCount
        segments := s.segments.drop deleteCount }
    else s
  if s.deleteSegments.length = 0 then s
  else { s with phase := .purging, passed := s.passed ++ s.deleteSegments }

/-- What a tick leaves of the segments is what `DiskStorage.purge` leaves of the storage. -/
theorem segments_check {s : PurgeState} {storage : DiskStorage} {segment : Nat → Segment}
    (reserve : Nat) (h : storage.segments = s.segments.map segment) :
    (storage.purge reserve).segments = (s.check reserve).segments.map segment := by
  unfold DiskStorage.purge check
  rw [h, List.length_map]
  by_cases hcut : reserve < s.segments.length
  · simp only [if_pos hcut]
    split <;> exact List.map_drop.symm
  · simp only [if_neg hcut]
    split <;> exact h

/-- A step, `none` if it is not possible. -/
def step (reserveSegmentCount : Nat) (s : PurgeState) : PurgeAction → Option PurgeState
  | .roll =>
      if s.phase = .stopped then none
      else some { s with segments := s.segments ++ [s.made], made := s.made + 1 }
  | .expire => if s.timer = .armed then some { s with timer := .fired } else none
  | .tick =>
      if s.phase = .waiting ∧ s.timer = .fired then
        some (check reserveSegmentCount { s with timer := .spent })
      else none
  | .purged => if s.phase = .purging then some { s with phase := .waiting } else none
  | .purgeError => if s.phase = .purging then some { s with phase := .stopped } else none
  | .cancel => some { s with cancelled := true }
  | .done =>
      if s.phase = .waiting ∧ s.cancelled = true then
        some { s with phase := .quit, timer := .spent }
      else none

/-- The loop before its first wait, in a storage that was opened with `n` segments. -/
def start (n : Nat) : PurgeState :=
  ⟨List.range n, n, .armed, [], .waiting, false, []⟩

/-- What a tick should leave. -/
def TickLeaves (reserveSegmentCount : Nat) (s t : PurgeState) : Prop :=
  t.segments.length ≤ reserveSegmentCount ∧ t.segments.getLast? = s.segments.getLast?

/-- The purger works: as long as it is not cancelled it waits for a timer that will fire, a
tick leaves at most `reserveSegmentCount` segments and the writable one among them, and no
segment was passed to `purgeSegments` twice. -/
structure Works (reserveSegmentCount : Nat) (s : PurgeState) : Prop where
  timer : s.phase = .waiting → s.cancelled = false → s.timer ≠ .spent
  tick : ∀ t, s.step reserveSegmentCount .tick = some t → TickLeaves reserveSegmentCount s t
  once : s.passed.Nodup

/-- The condition on a step: what brings the loop back to its `select` after a tick, the tick
itself when there is nothing to cut off and otherwise the return of `purgeSegments`, comes
after the cancellation. -/
def BackAfterCancel (reserveSegmentCount : Nat) (s : PurgeState) : PurgeAction → Prop
  | .tick => s.segments.length ≤ reserveSegmentCount → s.cancelled = true
  | .purged => s.cancelled = true
  | _ => True

instance (reserve : Nat) (s : PurgeState) : ∀ a, Decidable (BackAfterCancel reserve s a)
  | .tick => inferInstanceAs (Decidable (_ → _))
  | .purged => inferInstanceAs (Decidable (_ = _))
  | .roll | .expire | .purgeError | .cancel | .done => inferInstanceAs (Decidable True)

/-- What every step keeps: until the first tick nothing was passed on and the loop waits,
and the segments passed on stand before those left, in the order they were made. -/
structure Inv (s : PurgeState) : Prop where
  fresh : s.timer ≠ .spent → s.passed = [] ∧ s.deleteSegments = [] ∧ s.phase = .waiting
  ordered : (s.passed ++ s.segments).Pairwise (· < ·)
  lt_made : ∀ i ∈ s.passed ++ s.segments, i < s.made

section Steps
variable {reserve : Nat} {s t : PurgeState}

theorem start_inv (n : Nat) : (start n).Inv where
  fresh _ := ⟨rfl, rfl, rfl⟩
  ordered := List.pairwise_lt_range
  lt_made _ hi := List.mem_range.mp hi

/-- The first tick.  There is no other one, so nothing is left from a tick before. -/
theorem Inv.tick_eq (h : s.Inv) (ht : s.step reserve .tick = some t) :
    s.phase = .waiting ∧ s.timer = .fired ∧
      t = if reserve < s.segments.length then
          { s with
            timer := .spent
            deleteSegments := s.segments.take (s.segments.length - reserve)
            segments := s.segments.drop (s.segments.length - reserve)
            phase := .purging
            passed := s.segments.take (s.segments.length - reserve) }
        else { s with timer := .spent } := by
  obtain ⟨⟨hphase, htimer⟩, ⟨⟩⟩ := Option.ite_none_right_eq_some.mp ht
  obtain ⟨hpassed, hdelete, -⟩ := h.fresh (by rw [htimer]; nofun)
  refine ⟨hphase, htimer, ?_⟩
  unfold check
  by_cases hcut : reserve < s.segments.length
  · have hlen : (s.segments.take (s.segments.length - reserve)).length ≠ 0 := by
      rw [List.length_take]
      omega
    simp only [if_pos hcut, hlen, if_false, hpassed, List.nil_append]
  · simp only [if_neg hcut, hdelete, List.length_nil, if_true]

/-- **The step lemma**: every step keeps the invariant. -/
theorem Inv.step {a : PurgeAction} (h : s.Inv) (ha : s.step reserve a = some t) : t.Inv := by
  cases a with
  | roll =>
      obtain ⟨-, ⟨⟩⟩ := Option.ite_none_left_eq_some.mp ha
      refine ⟨h.fresh, ?_, ?_⟩
      · rw [← List.append_assoc]
        refine List.pairwise_append.mpr ⟨h.ordered, List.pairwise_singleton _ _, ?_⟩
        intro i hi j hj
        rw [List.mem_singleton.mp hj]
        exact h.lt_made i hi
      · intro i hi
        rw [← List.append_assoc] at hi
        rcases List.mem_append.mp hi with hi | hi
        · exact Nat.lt_succ_of_lt (h.lt_made i hi)
        · rw [List.mem_singleton.mp hi]
          exact Nat.lt_succ_self _
  | expire =>
      obtain ⟨htimer, ⟨⟩⟩ := Option.ite_none_right_eq_some.mp ha
      exact ⟨fun _ => h.fresh (by rw [htimer]; nofun), h.ordered, h.lt_made⟩
  | tick =>
      obtain ⟨-, htimer, rfl⟩ := h.tick_eq ha
      obtain ⟨hpassed, -, -⟩ := h.fresh (by rw [htimer]; nofun)
      have hordered := h.ordered
      have hlt := h.lt_made
      rw [hpassed, List.nil_append] at hordered hlt
      split
      · refine ⟨fun hne => absurd rfl hne, ?_, ?_⟩
        · simpa only [List.take_append_drop] using hordered
        · simpa only [List.take_append_drop] using hlt
      · exact ⟨fun hne => absurd rfl hne, h.ordered, h.lt_made⟩
  | purged | purgeError =>
      obtain ⟨hphase, ⟨⟩⟩ := Option.ite_none_right_eq_some.mp ha
      refine ⟨fun hne => ?_, h.ordered, h.lt_made⟩
      have := (h.fresh hne).2.2
      rw [hphase] at this
      cases this
  | cancel =>
      cases ha
      exact ⟨h.fresh, h.ordered, h.lt_made⟩
  | done =>
      obtain ⟨-, ⟨⟩⟩ := Option.ite_none_right_eq_some.mp ha
      exact ⟨fun hne => absurd rfl hne, h.ordered, h.lt_made⟩

/-- A tick leaves what it should, in every state. -/
theorem Inv.tickLeaves (h : s.Inv) (hr : 1 ≤ reserve) (ht : s.step reserve .tick = some t) :
    TickLeaves reserve s t := by
  obtain ⟨-, -, rfl⟩ := h.tick_eq ht
  unfold TickLeaves
  split
  · next hcut =>
    refine ⟨by simp only [List.length_drop]; omega, ?_⟩
    simp only
    rw [List.getLast?_drop, if_neg (by omega)]
  · next hkeep => exact ⟨Nat.le_of_not_lt hkeep, rfl⟩

/-- Only the timer can be wrong. -/
theorem Inv.works_iff (h : s.Inv) (hr : 1 ≤ reserve) : Works reserve s ↔
    (s.phase = .waiting → s.cancelled = false → s.timer ≠ .spent) := by
  refine ⟨Works.timer, fun htimer => ⟨htimer, fun t ht => h.tickLeaves hr ht, ?_⟩⟩
  exact (List.pairwise_append.mp h.ordered).1.imp Nat.ne_of_lt

/-- A loop that waits for a spent timer is excused by the cancellation only. -/
theorem waiting_spent_iff (hphase : t.phase = .waiting) (hspent : t.timer = .spent) :
    (t.phase = .waiting → t.cancelled = false → t.timer ≠ .spent) ↔ t.cancelled = true := by
  constructor
  · intro htimer
    by_contra hc
    exact htimer hphase (Bool.eq_false_iff.mpr hc) hspent
  · intro hc _ hfalse
    rw [hc] at hfalse
    cases hfalse

/-- **When a step leads to a purger that works.** -/
theorem Inv.works_step_iff {a : PurgeAction} (h : s.Inv) (hr : 1 ≤ reserve)
    (hw : Works reserve s) (ha : s.step reserve a = some t) :
    Works reserve t ↔ BackAfterCancel reserve s a := by
  rw [(h.step ha).works_iff hr]
  cases a with
  | roll =>
      obtain ⟨-, ⟨⟩⟩ := Option.ite_none_left_eq_some.mp ha
      exact iff_of_true hw.timer trivial
  | expire =>
      obtain ⟨-, ⟨⟩⟩ := Option.ite_none_right_eq_some.mp ha
      exact iff_of_true (fun _ _ => by nofun) trivial
  | tick =>
      obtain ⟨hphase, -, rfl⟩ := h.tick_eq ha
      by_cases hcut : reserve < s.segments.length
      · rw [if_pos hcut]
        exact iff_of_true nofun fun hle => absurd hle (Nat.not_le_of_lt hcut)
      · rw [if_neg hcut, waiting_spent_iff (t := { s with timer := .spent }) hphase rfl]
        exact ⟨fun hc _ => hc, fun hback => hback (Nat.le_of_not_lt hcut)⟩
  | purged =>
      obtain ⟨hphase, ⟨⟩⟩ := Option.ite_none_right_eq_some.mp ha
      have hspent : s.timer = .spent := by
        by_contra hne
        have := (h.fresh hne).2.2
        rw [hphase] at this
        cases this
      exact waiting_spent_iff rfl hspent
  | purgeError =>
      obtain ⟨-, ⟨⟩⟩ := Option.ite_none_right_eq_some.mp ha
      exact iff_of_true nofun trivial
  | cancel =>
      cases ha
      exact iff_of_true nofun trivial
  | done =>
      obtain ⟨-, ⟨⟩⟩ := Option.ite_none_right_eq_some.mp ha
      exact iff_of_true nofun trivial

end Steps

/-- **The purger over a whole run**: it works in every state of a run exactly when every step
that brings it back to its `select` after a tick comes after the cancellation. -/
theorem purger_works_iff {reserve : Nat} (hr : 1 ≤ reserve) (n : Nat) (as : List PurgeAction) :
    Runs.Always (step reserve) (Works reserve) (start n) as ↔
      Runs.Each (step reserve) (BackAfterCancel reserve) (start n) as := by
  refine Runs.always_iff_each (I := Inv) (fun h ha => h.step ha)
    (fun h hw ha => h.works_step_iff hr hw ha) as (start_inv n) ?_
  exact ((start_inv n).works_iff hr).mpr fun _ _ => by nofun

/-- Two segments are cut off, the cancellation comes during the four seconds, and the loop
returns. -/
theorem purger_works_cancelled :
    Runs.exec (step 1) (start 3) [.expire, .tick, .roll, .cancel, .purged, .done] =
        some ⟨[2, 3], 4, .spent, [0, 1], .quit, true, [0, 1]⟩ ∧
      Runs.Always (step 1) (Works 1) (start 3)
        [.expire, .tick, .roll, .cancel, .purged, .done] := by
  refine ⟨by decide, (purger_works_iff (Nat.le_refl 1) 3 _).mpr ?_⟩
  exact Runs.each_of_exec (t := ⟨[2, 3], 4, .spent, [0, 1], .quit, true, [0, 1]⟩) _ (by decide)

/-- **The purger that stops working**: after the first tick, which has nothing to cut off, the
loop waits for a spent timer, and the storage grows beyond the two segments it should keep. -/
theorem purger_waits_forever :
    Runs.exec (step 2) (start 1) [.expire, .tick, .roll, .roll] =
      some ⟨[0, 1, 2], 3, .spent, [], .waiting, false, []⟩ := by
  decide

end PurgeState

end Kingbus
