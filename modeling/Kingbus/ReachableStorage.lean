import Kingbus.CrashPoints

/-! # A clean restart is invisible, up to one kind of truncation

`Reachable` collects the storages a process can hold, over any number of clean
restarts, from a new directory or from a process that has come back from crashes.
Closing and reopening one of them gives a storage that answers every further
sequence of calls in the same way, as long as no batch starts strictly inside a
segment that the restart opened read-only.  Such a batch is refused by the reopened
storage and accepted by the other one. -/

namespace Kingbus

/-- The storages a process can hold: any calls that succeed, any purges that keep
the last segment, any clean restarts, also with index files that a crash has left in
the directory. -/
inductive Reachable (c : Config) : DiskStorage → Prop
  | recovered {w : World} : World.Reached c w → Reachable c w.storage
  | append {s s' : DiskStorage} (es : List Entry) : Reachable c s → s.Settled → s.Handed es →
      s.appendRaftEntries c es = (s', .ok ()) → Reachable c s'
  | truncate {s s' : DiskStorage} (i : Nat) : Reachable c s → s.Settled →
      s.truncateSuffix i = (s', .ok ()) → Reachable c s'
  | purge {s : DiskStorage} (reserveSegmentCount : Nat) : Reachable c s →
      1 ≤ reserveSegmentCount → Reachable c (s.purge reserveSegmentCount)
  | restart {s s' : DiskStorage} (orphans : List (FileName × Bytes)) : Reachable c s → s.Settled →
      DiskStorage.newDiskStorage c ⟨s.close.logs, s.close.indexes ++ orphans⟩ false = .ok s' →
      Reachable c s'

/-- A new directory. -/
theorem Reachable.init {c : Config} : Reachable c .empty := .recovered (w := .of .empty []) .init

/-- What a recovery opens. -/
theorem Reachable.opened {c : Config} {w : World} {s : DiskStorage} (op : Op) (k : Nat)
    (h : World.Reached c w) (hop : op.Valid c w.storage) (hwarm : op.Warm w.storage)
    (hsafe : op.SafePoint w.storage k)
    (hs : DiskStorage.newDiskStorage c (w.crash c op k) true = .ok s) : Reachable c s :=
  .recovered (World.Reached.crash op k h hop hwarm hsafe hs)

section Invariant
variable {c : Config} {z : Bool} {s s' : DiskStorage} {v : SegLog}

/-! What a recovery needs to know of the bytes behind the entries, nothing else does. -/

theorem MmapFile.Holds.forget {f : MmapFile} {es : List Entry} (h : f.Holds c z es) :
    f.Holds c false es := by
  obtain ⟨⟨tail, htail, -⟩, hsize, hmax⟩ := h
  exact ⟨⟨tail, htail, nofun⟩, hsize, hmax⟩

theorem DiskStorage.Rep.forget (h : s.Rep c z v) : s.Rep c false v := by
  cases v with
  | empty => exact h
  | segs d w =>
      obtain ⟨init, last, hs, hinit, hlast⟩ := h
      exact ⟨init, last, hs, hinit.imp fun _ _ h => { h with file := h.file.forget },
        { hlast with file := hlast.file.forget }⟩

/-- Every reachable storage holds a segmented log. -/
theorem Reachable.rep (h : Reachable c s) : ∃ v, s.Rep c false v ∧ v.WF := by
  induction h with
  | recovered h =>
      obtain ⟨v, hinv⟩ := h.inv
      exact ⟨v, hinv.rep.forget, hinv.wf⟩
  | append es _ hs hh happ ih =>
      obtain ⟨v, hrep, hwf⟩ := ih
      obtain ⟨v', hrep', hwf', -⟩ := append_inv hrep hwf (full_of_settled hrep hwf hs) hh happ
      exact ⟨v', hrep', hwf'⟩
  | truncate i _ _ htr ih =>
      obtain ⟨v, hrep, hwf⟩ := ih
      obtain ⟨hlo, hhi, hrep'⟩ := hrep.truncated hwf htr
      exact ⟨_, hrep', (hwf.truncate hlo hhi).1⟩
  | purge reserve _ hr ih =>
      obtain ⟨v, hrep, hwf⟩ := ih
      exact ⟨_, hrep.purge hr, (hwf.purge reserve).1⟩
  | restart orphans _ hs hnew ih =>
      obtain ⟨v, hrep, hwf⟩ := ih
      obtain ⟨s₁, heq, hrep'⟩ := hrep.reopen_with hwf (full_of_settled hrep hwf hs) orphans
      rw [hnew] at heq
      cases heq
      exact ⟨_, hrep', (SegLog.like_reopened hrep.writable_hot).wf hwf⟩

end Invariant

/-- **A clean restart is invisible** to every sequence of calls in which no batch
starts strictly inside a segment that the restart opened read-only, whatever index
files a crash has left in the directory. -/
theorem clean_restart_invisible {c : Config} {s : DiskStorage} (h : Reachable c s)
    (hs : s.Settled) (orphans : List (FileName × Bytes)) :
    ∃ s', DiskStorage.newDiskStorage c ⟨s.close.logs, s.close.indexes ++ orphans⟩ false = .ok s' ∧
      ∀ calls, Call.All c (fun s call => call.Respects s) s' calls →
        Call.All c (fun s call => call.Avoids s) s' calls →
        Call.replies c s calls = Call.replies c s' calls := by
  obtain ⟨v, hrep, hwf⟩ := h.rep
  have hfull := full_of_settled hrep hwf hs
  obtain ⟨s', hnew, hrep'⟩ := hrep.reopen_with hwf hfull orphans
  refine ⟨s', hnew, fun calls hresp havoid => ?_⟩
  exact SameLog.replies_eq calls
    ⟨v, _, hrep, hrep', SegLog.like_reopened hrep.writable_hot, hwf, hfull⟩ hresp havoid

/-- Two entries in a read-only segment, one in the writable one. -/
def smallRolled : DiskStorage :=
  let s := (DiskStorage.empty.appendRaftEntries .small [small11, small12]).1
  (s.appendRaftEntries .small [small13]).1

theorem Reachable.appended {c : Config} {s : DiskStorage} {es : List Entry} (h : Reachable c s)
    (hs : s.Settled) (hh : s.Handed es) (hok : (s.appendRaftEntries c es).2 = .ok ()) :
    Reachable c (s.appendRaftEntries c es).1 :=
  .append es h hs hh (by rw [← hok])

theorem smallRolled_reachable : Reachable .small smallRolled := by
  unfold smallRolled
  refine Reachable.appended (Reachable.appended .init ?_ ?_ ?_) ?_ ?_ ?_
  all_goals decide +kernel

/-- The same after a restart. -/
def smallReopened : DiskStorage :=
  (DiskStorage.newDiskStorage .small smallRolled.close false).toOption.getD .empty

/-- What a recovery makes of a crash right behind the first record that follows a roll. -/
def smallRecovered : DiskStorage :=
  (DiskStorage.newDiskStorage .small (smallFull.crash .small (.save [small13]) 6) true).toOption.getD
    .empty

theorem smallRecovered_reachable : Reachable .small smallRecovered := by
  have hopen : DiskStorage.newDiskStorage .small (smallFull.crash .small (.save [small13]) 6) true =
      .ok smallRecovered := by
    decide +kernel
  exact .opened (.save [small13]) 6 smallFull_reached (by decide +kernel) trivial
    (by decide +kernel) hopen

/-- It is closed and opened once more, and a batch at the first index of the read-only segment
goes through. -/
theorem clean_restart_invisible_smallRecovered :
    ∃ s', DiskStorage.newDiskStorage .small
        ⟨smallRecovered.close.logs, smallRecovered.close.indexes ++ []⟩ false = .ok s' ∧
      Call.replies .small smallRecovered [.append [.small 2 1], .lastIndex] =
        Call.replies .small s' [.append [.small 2 1], .lastIndex] := by
  obtain ⟨s', hs', h⟩ := clean_restart_invisible smallRecovered_reachable (by decide +kernel) []
  have heq : s' = (DiskStorage.newDiskStorage .small
      ⟨smallRecovered.close.logs, smallRecovered.close.indexes ++ []⟩ false).toOption.getD .empty := by
    rw [hs']
    rfl
  refine ⟨s', hs', h _ ?_ ?_⟩
  · exact ⟨by rw [heq]; decide +kernel, fun _ => ⟨trivial, fun _ => trivial⟩⟩
  · exact ⟨by rw [heq]; decide +kernel, fun _ => ⟨trivial, fun _ => trivial⟩⟩

/-- **A restart shows**: raft replaces entry 2, which lies inside the read-only
segment.  The storage that was not restarted accepts the batch, the reopened one
returns `ErrOutOfBound`, upon which `Node.Run` stops the process. -/
theorem clean_restart_visible :
    ∃ s s', Reachable .small s ∧ s.Settled ∧
      DiskStorage.newDiskStorage .small s.close false = .ok s' ∧
      Call.All .small (fun s call => call.Respects s) s' [.append [.small 2 2]] ∧
      Call.replies .small s [.append [.small 2 2]] = [.done (.ok ())] ∧
      Call.replies .small s' [.append [.small 2 2]] = [.done (.error (.error .outOfBound))] :=
  ⟨smallRolled, smallReopened, smallRolled_reachable, by decide +kernel, by decide +kernel,
    ⟨by decide +kernel, fun _ => trivial⟩, by decide +kernel, by decide +kernel⟩

end Kingbus
