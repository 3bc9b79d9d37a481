import Kingbus.Lib.Runs
import Mathlib.Tactic.Push

/-! # The reader of a dump and the apply loop

The apply loop (`apply`, `applyEntryNormal`) handles one committed entry after the other.
For a binlog event it calls `applyBroadcast.Send`, which closes the channel of the
broadcast and makes a new one, and only then `SetAppliedIndex`.  The reader (`DumpBinlogAt`)
compares its next index with the applied index.  If it has read everything it fetches the
channel of the broadcast and waits for it to close.

Each of these four is a step of its own.  A reader that fetches the channel after `Send` and
has compared before `SetAppliedIndex` waits on a new channel, with the event unread
(`reader_sleeps`).  A reader that fetches the channel while every event that was signalled
is behind it, or while the loop is at an event that it will signal yet, is never left asleep
(`never_asleep`).  After any other fetch the reader is asleep as soon as the loop is through
with its entry (`asleep_of_late_receive`). -/

namespace Kingbus

/-- What a committed entry is to the apply loop: only the binlog events are signalled. -/
inductive EntryKind where
  | binlogEvent
  | other
  deriving DecidableEq

/-- Where the apply loop is with the entry after the applied one. -/
inductive LoopPhase where
  /-- Between two entries. -/
  | idle
  /-- In `applyEntryNormal` or `applyConfChange`, before `Send`. -/
  | applying
  /-- After `Send`, before `SetAppliedIndex`. -/
  | sent
  deriving DecidableEq

/-- Where the goroutine of `DumpBinlogAt` is. -/
inductive ReaderPhase where
  /-- Before the comparison with the applied index. -/
  | compare
  /-- There is something to read. -/
  | getNext
  /-- At `eventC <- event`. -/
  | deliver
  /-- There is nothing to read, and the channel is not fetched yet. -/
  | receive
  /-- Waiting for the channel to close. -/
  | wait (channel : Nat)
  | quit
  deriving DecidableEq

/-- The state that the two goroutines share and where they are.  The channels of the
broadcast are numbered, and all before the current one are closed. -/
structure DumpState where
  appliedIndex : Nat
  channel : Nat
  loop : LoopPhase
  nextRaftIndex : Nat
  reader : ReaderPhase
  deriving DecidableEq

/-- The steps of the two. -/
inductive DumpAction where
  /-- The loop takes the next entry. -/
  | apply
  | send
  | setAppliedIndex
  | compare
  /-- `GetNext`, with the verdict of `skipEvent` on an event. -/
  | getNext (inExcludeGroup : Bool)
  /-- `GetNext` fails. -/
  | getNextError
  /-- The event is taken from `eventC`. -/
  | deliver
  /-- `broadcast.Receive()`. -/
  | receive
  /-- The channel that is waited for is closed. -/
  | wake
  /-- `ctx.Done()`. -/
  | cancel
  deriving DecidableEq

namespace DumpState

/-- A step of the loop or of the reader, `none` if it is not there. -/
def step (log : Nat → EntryKind) (s : DumpState) : DumpAction → Option DumpState
  | .apply => if s.loop = .idle then some { s with loop := .applying } else none
  | .send =>
      if s.loop = .applying ∧ log (s.appliedIndex + 1) = .binlogEvent then
        some { s with loop := .sent, channel := s.channel + 1 }
      else none
  | .setAppliedIndex =>
      -- an entry that is not signalled goes from `applying` straight to the index
      if s.loop = .sent ∨ s.loop = .applying ∧ log (s.appliedIndex + 1) = .other then
        some { s with loop := .idle, appliedIndex := s.appliedIndex + 1 }
      else none
  | .compare =>
      if s.reader = .compare then
        some { s with reader := if s.nextRaftIndex ≤ s.appliedIndex then .getNext else .receive }
      else none
  | .getNext inExcludeGroup =>
      if s.reader = .getNext then
        some { s with
          nextRaftIndex := s.nextRaftIndex + 1
          reader :=
            if log s.nextRaftIndex = .other ∨ inExcludeGroup = true then .compare else .deliver }
      else none
  | .getNextError => if s.reader = .getNext then some { s with reader := .quit } else none
  | .deliver => if s.reader = .deliver then some { s with reader := .compare } else none
  | .receive => if s.reader = .receive then some { s with reader := .wait s.channel } else none
  | .wake =>
      match s.reader with
      | .wait channel => if channel < s.channel then some { s with reader := .compare } else none
      | _ => none
  | .cancel =>
      match s.reader with
      | .wait _ | .deliver => some { s with reader := .quit }
      | _ => none

/-- A reader at the index, with nothing going on. -/
def start (appliedIndex nextRaftIndex : Nat) : DumpState :=
  ⟨appliedIndex, 0, .idle, nextRaftIndex, .compare⟩

/-- The loop is idle and the reader waits on an open channel, with an event that it has not
read. -/
def Asleep (log : Nat → EntryKind) (s : DumpState) : Prop :=
  s.loop = .idle ∧ s.reader = .wait s.channel ∧
    ∃ i, s.nextRaftIndex ≤ i ∧ i ≤ s.appliedIndex ∧ log i = .binlogEvent

/-- The last index that is signalled: the applied one, or the one after it between `Send`
and `SetAppliedIndex`. -/
def signalled (s : DumpState) : Nat :=
  if s.loop = .sent then s.appliedIndex + 1 else s.appliedIndex

/-- No event that is signalled is ahead of the reader. -/
def CaughtUp (log : Nat → EntryKind) (s : DumpState) : Prop :=
  ∀ i, i ≤ s.signalled → s.nextRaftIndex ≤ i → log i ≠ .binlogEvent

/-- The loop is at an event, before `Send`. -/
def Signalling (log : Nat → EntryKind) (s : DumpState) : Prop :=
  s.loop = .applying ∧ log (s.appliedIndex + 1) = .binlogEvent

/-- The condition on a step: the channel is fetched by a reader that has caught up, or before a
`Send` that is yet to come. -/
def TimelyReceive (log : Nat → EntryKind) (s : DumpState) (a : DumpAction) : Prop :=
  a = .receive → s.CaughtUp log ∨ s.Signalling log

instance (log : Nat → EntryKind) (s : DumpState) (a : DumpAction) :
    Decidable (s.TimelyReceive log a) :=
  inferInstanceAs (Decidable (a = .receive → (∀ i, i ≤ s.signalled → _) ∨ (_ ∧ _)))

/-- The channel of a reader that waits is closed, or it will be before the reader falls behind. -/
def Watching (log : Nat → EntryKind) (s : DumpState) : Prop :=
  ∀ channel, s.reader = .wait channel →
    channel < s.channel ∨ channel = s.channel ∧ (s.CaughtUp log ∨ s.Signalling log)

variable {log : Nat → EntryKind} {s t : DumpState}

/-- What a step does, with what it needs. -/
inductive Stepped (log : Nat → EntryKind) (s : DumpState) : DumpAction → DumpState → Prop where
  | apply (hloop : s.loop = .idle) : Stepped log s .apply { s with loop := .applying }
  | send (hloop : s.loop = .applying) (hevent : log (s.appliedIndex + 1) = .binlogEvent) :
      Stepped log s .send { s with loop := .sent, channel := s.channel + 1 }
  | setAppliedIndex
      (hloop : s.loop = .sent ∨ s.loop = .applying ∧ log (s.appliedIndex + 1) = .other) :
      Stepped log s .setAppliedIndex
        { s with loop := .idle, appliedIndex := s.appliedIndex + 1 }
  | receive (hreader : s.reader = .receive) :
      Stepped log s .receive { s with reader := .wait s.channel }
  /-- The other steps of the reader; it does not wait after them. -/
  | reader {a : DumpAction} (next : Nat) (phase : ReaderPhase)
      (hphase : ∀ channel, phase ≠ .wait channel) :
      Stepped log s a { s with nextRaftIndex := next, reader := phase }

/-- **A step is one of these.** -/
theorem stepped_of_step {a : DumpAction} (h : s.step log a = some t) : Stepped log s a t := by
  cases a with
  | apply =>
      obtain ⟨hloop, ⟨⟩⟩ := Option.ite_none_right_eq_some.mp h
      exact .apply hloop
  | send =>
      obtain ⟨⟨hloop, hevent⟩, ⟨⟩⟩ := Option.ite_none_right_eq_some.mp h
      exact .send hloop hevent
  | setAppliedIndex =>
      obtain ⟨hloop, ⟨⟩⟩ := Option.ite_none_right_eq_some.mp h
      exact .setAppliedIndex hloop
  | receive =>
      obtain ⟨hreader, ⟨⟩⟩ := Option.ite_none_right_eq_some.mp h
      exact .receive hreader
  | compare =>
      obtain ⟨-, ⟨⟩⟩ := Option.ite_none_right_eq_some.mp h
      refine .reader s.nextRaftIndex _ fun channel => ?_
      split <;> exact nofun
  | getNext inExcludeGroup =>
      obtain ⟨-, ⟨⟩⟩ := Option.ite_none_right_eq_some.mp h
      refine .reader (s.nextRaftIndex + 1) _ fun channel => ?_
      split <;> exact nofun
  | getNextError =>
      obtain ⟨-, ⟨⟩⟩ := Option.ite_none_right_eq_some.mp h
      exact .reader s.nextRaftIndex .quit fun channel => nofun
  | deliver =>
      obtain ⟨-, ⟨⟩⟩ := Option.ite_none_right_eq_some.mp h
      exact .reader s.nextRaftIndex .compare fun channel => nofun
  | wake =>
      cases hreader : s.reader with
      | wait channel =>
          simp only [step, hreader] at h
          obtain ⟨-, ⟨⟩⟩ := Option.ite_none_right_eq_some.mp h
          exact .reader s.nextRaftIndex .compare fun channel => nofun
      | _ => simp only [step, hreader, reduceCtorEq] at h
  | cancel =>
      cases hreader : s.reader with
      | wait _ | deliver =>
          simp only [step, hreader] at h
          obtain rfl := Option.some.inj h
          exact .reader s.nextRaftIndex .quit fun channel => nofun
      | _ => simp only [step, hreader, reduceCtorEq] at h

/-- The index moves past a signalled event or past an entry that is none. -/
theorem caughtUp_setAppliedIndex (h : s.CaughtUp log)
    (hloop : s.loop = .sent ∨ s.loop = .applying ∧ log (s.appliedIndex + 1) = .other) :
    CaughtUp log { s with loop := .idle, appliedIndex := s.appliedIndex + 1 } := by
  intro i hle hi
  change i ≤ s.appliedIndex + 1 at hle
  rcases hloop with hsent | ⟨happlying, hother⟩
  · refine h i ?_ hi
    rwa [signalled, if_pos hsent]
  · by_cases hlast : i = s.appliedIndex + 1
    · rw [hlast, hother]
      exact nofun
    · refine h i ?_ hi
      rw [signalled, happlying]
      change i ≤ s.appliedIndex
      omega

/-- **One step keeps the channel of a waiting reader right.** -/
theorem watching_step {a : DumpAction} (h : s.Watching log) (hok : s.TimelyReceive log a)
    (hstep : s.step log a = some t) : t.Watching log := by
  intro channel hwait
  cases stepped_of_step hstep with
  | apply hloop =>
      rcases h channel hwait with hlt | ⟨hchannel, hcaught | ⟨happlying, -⟩⟩
      · exact .inl hlt
      · refine .inr ⟨hchannel, .inl fun i hle => hcaught i ?_⟩
        rwa [signalled, hloop]
      · rw [hloop] at happlying
        cases happlying
  | send hloop hevent =>
      -- the channel that the reader waits on is closed now
      rcases h channel hwait with hlt | ⟨rfl, -⟩
      · exact .inl (Nat.lt_succ_of_lt hlt)
      · exact .inl (Nat.lt_succ_self _)
  | setAppliedIndex hloop =>
      rcases h channel hwait with hlt | ⟨hchannel, hcaught | ⟨happlying, hevent⟩⟩
      · exact .inl hlt
      · exact .inr ⟨hchannel, .inl (caughtUp_setAppliedIndex hcaught hloop)⟩
      · -- an event is signalled before the index is set
        exfalso
        rw [happlying, hevent] at hloop
        exact hloop.elim nofun fun h => nomatch h.2
  | receive hreader =>
      cases hwait
      exact .inr ⟨rfl, hok rfl⟩
  | reader next phase hphase => exact absurd hwait (hphase channel)

/-- A watching reader is not asleep. -/
theorem Watching.not_asleep (h : s.Watching log) : ¬ s.Asleep log := by
  rintro ⟨hidle, hwait, i, hnext, hle, hevent⟩
  rcases h s.channel hwait with hlt | ⟨-, hcaught | ⟨happlying, -⟩⟩
  · exact Nat.lt_irrefl _ hlt
  · refine hcaught i ?_ hnext hevent
    rwa [signalled, hidle]
  · rw [hidle] at happlying
    cases happlying

/-- **No other fetch is safe**: the reader is asleep as soon as the loop is through with its
entry. -/
theorem asleep_of_late_receive (hlate : ¬ (s.CaughtUp log ∨ s.Signalling log))
    (hreader : s.reader = .receive) :
    ∃ t, s.step log .receive = some t ∧
      (t.Asleep log ∨ ∃ u, t.step log .setAppliedIndex = some u ∧ u.Asleep log) := by
  obtain ⟨hbehind, hsilent⟩ := not_or.mp hlate
  unfold CaughtUp at hbehind
  push Not at hbehind
  obtain ⟨i, hle, hnext, hevent⟩ := hbehind
  refine ⟨_, if_pos hreader, ?_⟩
  have hphases : s.loop = .idle ∨ s.loop = .sent ∨ s.loop = .applying := by
    cases s.loop <;> simp
  rcases hphases with hloop | hloop | hloop
  · rw [signalled, hloop] at hle
    exact .inl ⟨hloop, rfl, i, hnext, hle, hevent⟩
  · rw [signalled, hloop] at hle
    exact .inr ⟨_, if_pos (.inl hloop), rfl, rfl, i, hnext, hle, hevent⟩
  · have hother : log (s.appliedIndex + 1) = .other := by
      cases hkind : log (s.appliedIndex + 1) with
      | other => rfl
      | binlogEvent => exact absurd ⟨hloop, hkind⟩ hsilent
    rw [signalled, hloop] at hle
    exact .inr ⟨_, if_pos (.inr ⟨hloop, hother⟩), rfl, rfl, i, hnext, Nat.le_succ_of_le hle,
      hevent⟩

/-- The reader fetches the channel between `Send` and `SetAppliedIndex`. -/
theorem asleep_of_late_receive_sent :
    ∃ t, step (fun _ => .binlogEvent) ⟨0, 1, .sent, 1, .receive⟩ .receive = some t ∧
      (t.Asleep (fun _ => .binlogEvent) ∨
        ∃ u, t.step (fun _ => .binlogEvent) .setAppliedIndex = some u ∧
          u.Asleep fun _ => .binlogEvent) := by
  refine asleep_of_late_receive ?_ rfl
  rintro (hcaught | ⟨hloop, -⟩)
  · exact hcaught 1 (by decide) (by decide) rfl
  · cases hloop

end DumpState

/-- **A reader is never left asleep on an event**, in any interleaving in which the channel
is fetched only by a reader that has caught up with what was signalled, or before a `Send` that
is yet to come. -/
theorem never_asleep (log : Nat → EntryKind) (appliedIndex nextRaftIndex : Nat) (s : DumpState)
    (h : Runs (DumpState.step log) (DumpState.TimelyReceive log)
      (.start appliedIndex nextRaftIndex) s) :
    ¬ s.Asleep log :=
  (h.invariant (fun _ => nofun) DumpState.watching_step).not_asleep

/-- The reader waits, and the next entry is an event. -/
theorem never_asleep_woken :
    ¬ DumpState.Asleep (fun _ => .binlogEvent) ⟨1, 1, .idle, 1, .wait 0⟩ :=
  never_asleep (fun _ => .binlogEvent) 0 1 ⟨1, 1, .idle, 1, .wait 0⟩
    (Runs.of_exec [.compare, .receive, .apply, .send, .setAppliedIndex] (by decide))

/-- The reader compares, the loop signals the event, the reader fetches the new channel, and
the index is set. -/
theorem reader_sleeps :
    ∃ s, Runs.exec (DumpState.step fun _ => .binlogEvent) (.start 0 1)
        [.compare, .apply, .send, .receive, .setAppliedIndex] = some s ∧
      s.Asleep fun _ => .binlogEvent :=
  ⟨⟨1, 1, .idle, 1, .wait 1⟩, by decide, rfl, rfl, 1, by decide, by decide, rfl⟩

end Kingbus
