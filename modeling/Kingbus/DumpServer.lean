import Kingbus.SingleCalls
import Kingbus.DumpReader
import Kingbus.DumpFilter

/-! # A dump while the log grows

The reader of `DumpBinlogAt` together with what it reads: the storage, to which raft appends
and from which segments are purged, and the applied index.  The two loops are those of
`DumpState`; here `GetNext` reads the storage, the event in the entry is filtered, and what is
taken from `eventC` is recorded.

`dump_sends_missing_groups` says what has been sent at any moment.  The index moves on before
the event is sent, so the event at `eventC <- event` has to be counted too. -/

namespace Kingbus

/-- What an entry is to the apply loop. -/
def Entry.entryKind (e : Entry) : EntryKind := if e.isBinlogEvent then .binlogEvent else .other

/-- The steps of the two loops that neither read the storage nor pass on an event. -/
def DumpAction.isBare : DumpAction → Bool
  | .apply | .send | .compare | .receive | .wake | .cancel => true
  | .setAppliedIndex | .getNext _ | .getNextError | .deliver => false

/-- The server, as far as one dump sees it. -/
structure DumpServer extends DumpState where
  storage : DiskStorage
  inExcludeGroup : Bool
  /-- The event at `eventC <- event`.  It stays there when the dump is cancelled. -/
  event : Option BinlogEvent
  /-- The events taken from `eventC`. -/
  sent : List BinlogEvent

/-- The steps of the server. -/
inductive DumpServerAction where
  | save (entries : List Entry)
  | truncate (raftIndex : Nat)
  | purge (reserveSegmentCount : Nat)
  | setAppliedIndex
  /-- `GetNext`, and on to the next comparison or to `eventC <- event`. -/
  | getNext
  /-- The event is taken from `eventC`. -/
  | deliver
  | bare (a : DumpAction)

namespace DumpServer

/-- The start of `DumpBinlogAt`, with `NewEntryReaderAt`. -/
def dumpBinlogAt (storage : DiskStorage) (shared : DumpState) (startRaftIndex : Nat) :
    Except Failure DumpServer :=
  (storage.checkRaftIndex startRaftIndex).map fun _ =>
    { shared with
      nextRaftIndex := startRaftIndex
      reader := .compare
      storage := storage
      inExcludeGroup := false
      event := none
      sent := [] }

/-- A step of the two loops alone. -/
def loopStep (log : Nat → Entry) (s : DumpServer) (a : DumpAction) : Option DumpServer :=
  (s.toDumpState.step (fun i => (log i).entryKind) a).map fun d => { s with toDumpState := d }

/-- `SetAppliedIndex`, where `stored` is what the storage has behind the applied index: what is
applied is in the storage. -/
def setAppliedIndex (log : Nat → Entry) (s : DumpServer) :
    Except Failure (List Entry) → Option DumpServer
  | .ok [entry] =>
      if entry = log (s.appliedIndex + 1) then s.loopStep log .setAppliedIndex else none
  | _ => none

/-- The reader, once `GetNext` has returned. -/
def getNext (log : Nat → Entry) (slaveGtids : MysqlGTIDSet) (s : DumpServer) :
    Except Failure (List Entry) → Option DumpServer
  | .ok (raftEntry :: _) =>
      match filterEntry slaveGtids s.inExcludeGroup raftEntry with
      | .ok (inExcludeGroup, event) =>
          (s.toDumpState.step (fun _ => raftEntry.entryKind) (.getNext inExcludeGroup)).map
            fun d => { s with toDumpState := d, inExcludeGroup := inExcludeGroup, event := event }
      -- a panic ends the process
      | .error _ => s.loopStep log .getNextError
  | _ => s.loopStep log .getNextError

/-- A step; `log` are the entries that are applied. -/
def step (c : Config) (log : Nat → Entry) (slaveGtids : MysqlGTIDSet) (s : DumpServer) :
    DumpServerAction → Option DumpServer
  | .save entries =>
      if Numbered Entry.index s.storage.nextIndex entries then
        match s.storage.saveRaftEntries c entries with
        | (storage, .ok ()) => some { s with storage := storage }
        | (_, .error _) => none
      else none
  | .truncate raftIndex =>
      -- raft does not take back what is applied
      if s.appliedIndex < raftIndex then
        match s.storage.truncateSuffix raftIndex with
        | (storage, .ok ()) => some { s with storage := storage }
        | (_, .error _) => none
      else none
  | .purge reserveSegmentCount =>
      if 1 ≤ reserveSegmentCount then
        some { s with storage := s.storage.purge reserveSegmentCount }
      else none
  | .setAppliedIndex =>
      s.setAppliedIndex log
        (s.storage.entries (s.appliedIndex + 1) (s.appliedIndex + 1 + 1) noLimit)
  | .getNext =>
      s.getNext log slaveGtids
        (s.storage.entries s.nextRaftIndex (s.nextRaftIndex + 1) noLimit)
  | .deliver =>
      (s.loopStep log .deliver).map fun t =>
        { t with sent := s.sent ++ s.event.toList, event := none }
  | .bare a => if a.isBare then s.loopStep log a else none

end DumpServer

/-! ## The storage under the reader -/

namespace DiskStorage
variable {c : Config} {z : Bool} {s s' : DiskStorage} {v : SegLog} {log : Nat → Entry}
  {i appliedIndex : Nat}

/-- What `GetNext` can read is the entry with the index. -/
theorem Rep.entry_of_entries (h : s.Rep c z v) (hwf : v.WF) {es : List Entry}
    (hread : s.entries i (i + 1) noLimit = .ok es) :
    ∃ e, es = [e] ∧ e ∈ v.entries ∧ e.index = i := by
  obtain ⟨-, hfull⟩ := h.full_of_entries hwf hread
  obtain ⟨h1, h2, h3⟩ := bounds_of_entries hread
  have hlast : (i + 1 + (2 ^ 64 - 1)) % 2 ^ 64 = i := by omega
  rw [hlast] at h3
  rw [Refines.entries_slice h hwf hfull h2 (Nat.lt_succ_self i) (Nat.succ_le_succ h3)] at hread
  have hnext := h.lastIndex hfull
  have hlen := hwf.next_eq
  have hlo : v.log.first ≤ i := by
    rw [h.firstIndex hfull] at h2
    exact h2
  obtain ⟨e, hslice, hget⟩ := Refines.slice_one hlo
    (show i ≤ v.log.first + v.log.entries.length - 1 by
      change i ≤ v.start + v.entries.length - 1
      omega) v.start_pos
  rw [hslice] at hread
  cases hread
  refine ⟨e, rfl, List.mem_of_getElem? hget, ?_⟩
  rw [hwf.numbered.getElem? hget]
  exact Nat.add_sub_cancel' hlo

/-- The entries up to the applied index are those of the log. -/
def HoldsApplied (c : Config) (log : Nat → Entry) (appliedIndex : Nat) (s : DiskStorage) : Prop :=
  ∃ v : SegLog, s.Rep c false v ∧ v.WF ∧ appliedIndex < v.next ∧
    ∀ e ∈ v.entries, e.index ≤ appliedIndex → e = log e.index

namespace HoldsApplied

theorem save (h : s.HoldsApplied c log appliedIndex) {es : List Entry}
    (hes : Numbered Entry.index s.nextIndex es) (hsave : s.saveRaftEntries c es = (s', .ok ())) :
    s'.HoldsApplied c log appliedIndex := by
  obtain ⟨v, hrep, hwf, hlt, hlog⟩ := h
  rw [hrep.nextIndex] at hes
  obtain ⟨v', hrep', hwf', hstart, hentries⟩ := hrep.saved hwf hes hsave
  have hnext := hwf.next_eq
  have hnext' := hwf'.next_eq
  rw [hstart, hentries, List.length_append] at hnext'
  refine ⟨v', hrep', hwf', by omega, fun e he hle => ?_⟩
  rw [hentries] at he
  rcases List.mem_append.mp he with he | he
  · exact hlog e he hle
  · have := (hes.of_mem he).1
    omega

theorem truncate (h : s.HoldsApplied c log appliedIndex) (hi : appliedIndex < i)
    (htr : s.truncateSuffix i = (s', .ok ())) : s'.HoldsApplied c log appliedIndex := by
  obtain ⟨v, hrep, hwf, hlt, hlog⟩ := h
  obtain ⟨hlo, hhi, hrep'⟩ := hrep.truncated hwf htr
  obtain ⟨hwf', -, hnext, hentries⟩ := hwf.truncate hlo hhi
  refine ⟨_, hrep', hwf', by rwa [hnext], fun e he hle => hlog e ?_ hle⟩
  rw [hentries] at he
  exact List.mem_of_mem_take he

theorem purge (h : s.HoldsApplied c log appliedIndex) {reserve : Nat} (hr : 1 ≤ reserve) :
    (s.purge reserve).HoldsApplied c log appliedIndex := by
  obtain ⟨v, hrep, hwf, hlt, hlog⟩ := h
  obtain ⟨hwf', hdrop⟩ := hwf.purge reserve
  have hstart : (v.purge reserve).start = v.start + v.dropped reserve :=
    congrArg PlainLog.first hdrop
  have hentries : (v.purge reserve).entries = v.entries.drop (v.dropped reserve) :=
    congrArg PlainLog.entries hdrop
  have hnext := hwf.next_eq
  have hnext' := hwf'.next_eq
  rw [hstart, hentries, List.length_drop] at hnext'
  refine ⟨_, hrep.purge hr, hwf', by omega, fun e he hle => hlog e ?_ hle⟩
  rw [hentries] at he
  exact List.mem_of_mem_drop he

/-- An index has one entry. -/
theorem eq_of_index_eq (hwf : v.WF) {e e' : Entry} (he : e ∈ v.entries) (he' : e' ∈ v.entries)
    (hidx : e.index = e'.index) : e = e' := by
  obtain ⟨k, hk⟩ := List.mem_iff_getElem?.mp he
  obtain ⟨k', hk'⟩ := List.mem_iff_getElem?.mp he'
  have h1 := hwf.numbered.getElem? hk
  have h2 := hwf.numbered.getElem? hk'
  obtain rfl : k = k' := by omega
  rw [hk, Option.some_inj] at hk'
  exact hk'

/-- The entry that was applied is in the storage. -/
theorem advance (h : s.HoldsApplied c log appliedIndex)
    (hread : s.entries (appliedIndex + 1) (appliedIndex + 1 + 1) noLimit =
      .ok [log (appliedIndex + 1)]) : s.HoldsApplied c log (appliedIndex + 1) := by
  obtain ⟨v, hrep, hwf, hlt, hlog⟩ := h
  obtain ⟨e, heq, he, hidx⟩ := hrep.entry_of_entries hwf hread
  have heq : log (appliedIndex + 1) = e := by simpa using heq
  have := hwf.numbered.of_mem he
  have := hwf.next_eq
  refine ⟨v, hrep, hwf, by omega, fun e' he' hle => ?_⟩
  by_cases hlast : e'.index = appliedIndex + 1
  · rw [hlast, heq]
    exact eq_of_index_eq hwf he' he (hlast.trans hidx.symm)
  · exact hlog e' he' (by omega)

/-- Up to the applied index the reader gets the entries of the log. -/
theorem read (h : s.HoldsApplied c log appliedIndex) (hi : i ≤ appliedIndex) {es : List Entry}
    (hread : s.entries i (i + 1) noLimit = .ok es) : es = [log i] := by
  obtain ⟨v, hrep, hwf, -, hlog⟩ := h
  obtain ⟨e, rfl, he, rfl⟩ := hrep.entry_of_entries hwf hread
  rw [← hlog e he hi]

/-- A storage from which everything applied can be read. -/
theorem of_entries (h : InProcess c s) {start : Nat} (hs : s.firstIndex ≤ start)
    (hle : start ≤ appliedIndex)
    (hread : ∀ i, s.firstIndex ≤ i → i ≤ appliedIndex →
      s.entries i (i + 1) noLimit = .ok [log i]) : s.HoldsApplied c log appliedIndex := by
  obtain ⟨v, hrep, hwf⟩ := h.rep
  have hlast := hread appliedIndex (hs.trans hle) (Nat.le_refl _)
  obtain ⟨e, -, he, hidx⟩ := hrep.entry_of_entries hwf hlast
  have hmem := hwf.numbered.of_mem he
  have hnext := hwf.next_eq
  refine ⟨v, hrep, hwf, by omega, fun e' he' hle' => ?_⟩
  have hlo : s.firstIndex ≤ e'.index := by
    rw [hrep.firstIndex (hrep.full_of_entries hwf hlast).2]
    exact (hwf.numbered.of_mem he').1
  obtain ⟨e'', heq, he'', hidx'⟩ := hrep.entry_of_entries hwf (hread e'.index hlo hle')
  have heq : log e'.index = e'' := by simpa using heq
  rw [heq]
  exact eq_of_index_eq hwf he' he'' hidx'.symm

end HoldsApplied

end DiskStorage

/-! ## What has been sent -/

/-- The entries `is` between `start` and `n` hold the binlog events of groups that the slave
misses, and `events` are these events in order. -/
structure Sends (log : Nat → Entry) (slaveGtids : MysqlGTIDSet) (start n : Nat) (is : List Nat)
    (events : List BinlogEvent) : Prop where
  increasing : is.Pairwise (· < ·)
  mem_iff : ∀ i, i ∈ is ↔ start ≤ i ∧ i < n ∧ (∃ e, (log i).event? = some e) ∧
    Missing log slaveGtids start i
  events_eq : events.map some = is.map fun i => (log i).event?

namespace Sends
variable {log : Nat → Entry} {slave : MysqlGTIDSet} {start n : Nat} {is : List Nat}
  {events : List BinlogEvent}

theorem init (log : Nat → Entry) (slave : MysqlGTIDSet) (start : Nat) :
    Sends log slave start start [] [] where
  increasing := .nil
  mem_iff i := by simp only [List.not_mem_nil, false_iff]; omega
  events_eq := rfl

/-- An entry that is no event, or an event of a group that the slave has. -/
theorem skip (h : Sends log slave start n is events)
    (hskip : (∃ e, (log n).event? = some e) → ¬ Missing log slave start n) :
    Sends log slave start (n + 1) is events where
  increasing := h.increasing
  mem_iff i := by
    rw [h.mem_iff]
    by_cases hi : i = n
    · subst hi
      exact iff_of_false (fun h => Nat.lt_irrefl _ h.2.1) fun h => hskip h.2.2.1 h.2.2.2
    · have hlt : i < n ↔ i < n + 1 := by omega
      rw [hlt]
  events_eq := h.events_eq

/-- An event of a group that the slave misses. -/
theorem send (h : Sends log slave start n is events) (hs : start ≤ n) {e : BinlogEvent}
    (he : (log n).event? = some e) (hmissing : Missing log slave start n) :
    Sends log slave start (n + 1) (is ++ [n]) (events ++ [e]) where
  increasing := by
    refine List.pairwise_append.mpr ⟨h.increasing, List.pairwise_singleton _ _, fun i hi j hj => ?_⟩
    rw [List.mem_singleton.mp hj]
    exact ((h.mem_iff i).mp hi).2.1
  mem_iff i := by
    rw [List.mem_append, List.mem_singleton, h.mem_iff]
    by_cases hi : i = n
    · subst hi
      exact iff_of_true (.inr rfl) ⟨hs, Nat.lt_succ_self _, ⟨e, he⟩, hmissing⟩
    · have hlt : i < n ↔ i < n + 1 := by omega
      rw [hlt, or_iff_left hi]
  events_eq := by simp [h.events_eq, he]

end Sends

namespace DumpServer
variable {c : Config} {log : Nat → Entry} {slave : MysqlGTIDSet} {start : Nat}
  {s t : DumpServer}

/-- What a step does, with what it needs. -/
inductive Stepped (c : Config) (log : Nat → Entry) (slave : MysqlGTIDSet) (s : DumpServer) :
    DumpServer → Prop where
  | storage {storage : DiskStorage}
      (hkeep : s.storage.HoldsApplied c log s.appliedIndex →
        storage.HoldsApplied c log s.appliedIndex) :
      Stepped c log slave s { s with storage := storage }
  | applied (hread : s.storage.entries (s.appliedIndex + 1) (s.appliedIndex + 1 + 1) noLimit =
      .ok [log (s.appliedIndex + 1)]) :
      Stepped c log slave s { s with loop := .idle, appliedIndex := s.appliedIndex + 1 }
  | failed (hreader : s.reader = .getNext) : Stepped c log slave s { s with reader := .quit }
  | read {entry : Entry} {rest : List Entry} {flag : Bool} {event : Option BinlogEvent}
      (hreader : s.reader = .getNext)
      (hread : s.storage.entries s.nextRaftIndex (s.nextRaftIndex + 1) noLimit =
        .ok (entry :: rest))
      (hfilter : filterEntry slave s.inExcludeGroup entry = .ok (flag, event)) :
      Stepped c log slave s
        { s with
          nextRaftIndex := s.nextRaftIndex + 1
          reader := if entry.entryKind = .other ∨ flag = true then .compare else .deliver
          inExcludeGroup := flag
          event := event }
  | delivered (hreader : s.reader = .deliver) :
      Stepped c log slave s
        { s with reader := .compare, sent := s.sent ++ s.event.toList, event := none }
  /-- The reader does not come to read beyond the applied index, nor away from the event it is
  at but by leaving. -/
  | bare {loop : LoopPhase} {channel : Nat} {reader : ReaderPhase}
      (hread : reader = .getNext → s.reader = .getNext ∨ s.nextRaftIndex ≤ s.appliedIndex)
      (hhand : s.reader = .deliver ∨ s.reader = .quit → reader = .deliver ∨ reader = .quit) :
      Stepped c log slave s { s with loop := loop, channel := channel, reader := reader }

theorem stepped_of_getNextError (h : s.loopStep log .getNextError = some t) :
    Stepped c log slave s t := by
  obtain ⟨d, hd, rfl⟩ := Option.map_eq_some_iff.mp h
  obtain ⟨hreader, ⟨⟩⟩ := Option.ite_none_right_eq_some.mp hd
  exact .failed hreader

theorem stepped_of_setAppliedIndex {stored : Except Failure (List Entry)}
    (hstored : s.storage.entries (s.appliedIndex + 1) (s.appliedIndex + 1 + 1) noLimit = stored)
    (h : s.setAppliedIndex log stored = some t) : Stepped c log slave s t := by
  unfold setAppliedIndex at h
  split at h
  · obtain ⟨rfl, hloop⟩ := Option.ite_none_right_eq_some.mp h
    obtain ⟨d, hd, rfl⟩ := Option.map_eq_some_iff.mp hloop
    obtain ⟨-, ⟨⟩⟩ := Option.ite_none_right_eq_some.mp hd
    exact .applied hstored
  · cases h

theorem stepped_of_getNext {read : Except Failure (List Entry)}
    (hread : s.storage.entries s.nextRaftIndex (s.nextRaftIndex + 1) noLimit = read)
    (h : s.getNext log slave read = some t) : Stepped c log slave s t := by
  unfold getNext at h
  split at h
  · split at h
    · next hfilter =>
      obtain ⟨d, hd, rfl⟩ := Option.map_eq_some_iff.mp h
      obtain ⟨hreader, ⟨⟩⟩ := Option.ite_none_right_eq_some.mp hd
      exact .read hreader hread hfilter
    · exact stepped_of_getNextError h
  · exact stepped_of_getNextError h

theorem stepped_of_bare {a : DumpAction} (ha : a.isBare = true)
    (h : s.loopStep log a = some t) : Stepped c log slave s t := by
  obtain ⟨d, hd, rfl⟩ := Option.map_eq_some_iff.mp h
  cases a with
  | apply =>
      obtain ⟨-, ⟨⟩⟩ := Option.ite_none_right_eq_some.mp hd
      exact .bare .inl id
  | send =>
      obtain ⟨-, ⟨⟩⟩ := Option.ite_none_right_eq_some.mp hd
      exact .bare .inl id
  | compare =>
      obtain ⟨hreader, ⟨⟩⟩ := Option.ite_none_right_eq_some.mp hd
      refine .bare (fun hnext => .inr ?_) (by simp [hreader])
      by_contra hlt
      rw [if_neg hlt] at hnext
      cases hnext
  | receive =>
      obtain ⟨hreader, ⟨⟩⟩ := Option.ite_none_right_eq_some.mp hd
      exact .bare (by simp) (by simp [hreader])
  | wake =>
      cases hreader : s.reader with
      | wait channel =>
          simp only [DumpState.step, hreader] at hd
          obtain ⟨-, ⟨⟩⟩ := Option.ite_none_right_eq_some.mp hd
          exact .bare (by simp) (by simp [hreader])
      | _ => simp only [DumpState.step, hreader, reduceCtorEq] at hd
  | cancel =>
      cases hreader : s.reader with
      | wait _ | deliver =>
          simp only [DumpState.step, hreader] at hd
          obtain rfl := Option.some.inj hd
          exact .bare (by simp) (by simp)
      | _ => simp only [DumpState.step, hreader, reduceCtorEq] at hd
  | _ => cases ha

/-- **A step is one of these.** -/
theorem stepped_of_step {a : DumpServerAction} (h : s.step c log slave a = some t) :
    Stepped c log slave s t := by
  cases a with
  | save entries =>
      obtain ⟨hes, h⟩ := Option.ite_none_right_eq_some.mp h
      cases hsave : s.storage.saveRaftEntries c entries with
      | mk storage r =>
          cases r with
          | error f =>
              rw [hsave] at h
              cases h
          | ok u =>
              rw [hsave] at h
              cases h
              exact .storage fun hold => hold.save hes hsave
  | truncate raftIndex =>
      obtain ⟨hlt, h⟩ := Option.ite_none_right_eq_some.mp h
      cases htr : s.storage.truncateSuffix raftIndex with
      | mk storage r =>
          cases r with
          | error f =>
              rw [htr] at h
              cases h
          | ok u =>
              rw [htr] at h
              cases h
              exact .storage fun hold => hold.truncate hlt htr
  | purge reserveSegmentCount =>
      obtain ⟨hr, ⟨⟩⟩ := Option.ite_none_right_eq_some.mp h
      exact .storage fun hold => hold.purge hr
  | setAppliedIndex => exact stepped_of_setAppliedIndex rfl h
  | getNext => exact stepped_of_getNext rfl h
  | deliver =>
      obtain ⟨t', ht', rfl⟩ := Option.map_eq_some_iff.mp h
      obtain ⟨d, hd, rfl⟩ := Option.map_eq_some_iff.mp ht'
      obtain ⟨hreader, ⟨⟩⟩ := Option.ite_none_right_eq_some.mp hd
      exact .delivered hreader
  | bare a =>
      obtain ⟨ha, h⟩ := Option.ite_none_right_eq_some.mp h
      exact stepped_of_bare ha h

/-- What holds at every moment of a dump. -/
structure Inv (c : Config) (log : Nat → Entry) (slave : MysqlGTIDSet) (start : Nat)
    (s : DumpServer) : Prop where
  holds : s.storage.HoldsApplied c log s.appliedIndex
  start_le : start ≤ s.nextRaftIndex
  next_le : s.nextRaftIndex ≤ s.appliedIndex + 1
  reading : s.reader = .getNext → s.nextRaftIndex ≤ s.appliedIndex
  flag : FlagAt log slave start s.nextRaftIndex s.inExcludeGroup
  sends : ∃ is, Sends log slave start s.nextRaftIndex is (s.sent ++ s.event.toList)
  inHand : s.event ≠ none → s.reader = .deliver ∨ s.reader = .quit

/-- An entry that was read moves the flag and what is to be sent on together. -/
theorem Inv.read (h : Inv c log slave start s) (hreader : s.reader = .getNext)
    (hdec : ∀ e, (log s.nextRaftIndex).event? = some e → e.eventType = .gtid → e.DecodableGtid)
    {flag : Bool} {event : Option BinlogEvent}
    (hfilter : filterEntry slave s.inExcludeGroup (log s.nextRaftIndex) = .ok (flag, event)) :
    FlagAt log slave start (s.nextRaftIndex + 1) flag ∧
      (∃ is, Sends log slave start (s.nextRaftIndex + 1) is (s.sent ++ event.toList)) ∧
      (event ≠ none → ¬ ((log s.nextRaftIndex).entryKind = .other ∨ flag = true)) := by
  have hempty : s.event = none := by
    by_contra hne
    rcases h.inHand hne with hr | hr
    · rw [hreader] at hr
      cases hr
    · rw [hreader] at hr
      cases hr
  obtain ⟨is, hsends⟩ := h.sends
  rw [hempty] at hsends
  rcases filterEntry_cases hfilter with ⟨hb, rfl, rfl⟩ | ⟨e, hb, he, hskip, rfl⟩
  · -- no event
    have hnone : (log s.nextRaftIndex).event? = none := if_neg (by simp [hb])
    refine ⟨h.flag.other hnone, ⟨is, hsends.skip ?_⟩, fun hne => absurd rfl hne⟩
    rintro ⟨e, he⟩
    rw [hnone] at he
    cases he
  · have hflag := h.flag.skipEvent h.start_le he (hdec e he) hskip
    refine ⟨hflag, ?_, ?_⟩
    · by_cases hf : flag = true
      · rw [if_pos hf]
        refine ⟨is, hsends.skip fun _ hmissing => ?_⟩
        rw [hflag.mpr hmissing] at hf
        cases hf
      · rw [if_neg hf]
        rw [Option.toList_none, List.append_nil] at hsends
        exact ⟨_, hsends.send h.start_le he (hflag.mp (eq_false_of_ne_true hf))⟩
    · intro hne hor
      rcases hor with hk | hf
      · rw [Entry.entryKind, if_pos hb] at hk
        cases hk
      · rw [if_pos hf] at hne
        exact hne rfl

/-- **One step keeps it.** -/
theorem Inv.step {a : DumpServerAction} (h : Inv c log slave start s)
    (hdec : ∀ k, start ≤ k → ∀ e, (log k).event? = some e → e.eventType = .gtid →
      e.DecodableGtid)
    (hstep : s.step c log slave a = some t) : Inv c log slave start t := by
  cases stepped_of_step hstep with
  | storage hkeep => exact { h with holds := hkeep h.holds }
  | applied hread =>
      exact { h with
        holds := h.holds.advance hread
        next_le := Nat.le_succ_of_le h.next_le
        reading := fun hr => Nat.le_succ_of_le (h.reading hr) }
  | failed hreader =>
      exact { h with
        reading := fun hr => absurd hr (by simp)
        inHand := fun _ => .inr rfl }
  | read hreader hread hfilter =>
      have hlog := h.holds.read (h.reading hreader) hread
      obtain ⟨rfl, -⟩ := List.cons.inj hlog
      obtain ⟨hflag, hsends, hhand⟩ := h.read hreader (hdec _ h.start_le) hfilter
      refine ⟨h.holds, Nat.le_succ_of_le h.start_le, Nat.succ_le_succ (h.reading hreader), ?_,
        hflag, hsends, fun hne => .inl (if_neg (hhand hne))⟩
      intro hr
      change (if _ then ReaderPhase.compare else .deliver) = .getNext at hr
      split at hr
      · cases hr
      · cases hr
  | delivered hreader =>
      refine { h with
        reading := fun hr => absurd hr (by simp)
        sends := ?_
        inHand := fun hne => absurd rfl hne }
      rw [Option.toList_none, List.append_nil]
      exact h.sends
  | bare hread hhand =>
      exact { h with
        reading := fun hr => (hread hr).elim h.reading id
        inHand := fun hne => hhand (h.inHand hne) }

/-- The start of a dump. -/
theorem Inv.opened {storage : DiskStorage} {shared : DumpState} (hproc : InProcess c storage)
    (happlied : ∀ i, storage.firstIndex ≤ i → i ≤ shared.appliedIndex →
      storage.entries i (i + 1) noLimit = .ok [log i])
    (hstart : start ≤ shared.appliedIndex) (hopen : dumpBinlogAt storage shared start = .ok s) :
    Inv c log slave start s := by
  rw [dumpBinlogAt, DiskStorage.checkRaftIndex] at hopen
  by_cases hlo : start < storage.firstIndex
  · rw [if_pos hlo] at hopen
    cases hopen
  rw [if_neg hlo] at hopen
  split at hopen
  · cases hopen
  · cases hopen
    exact {
      holds := .of_entries hproc (Nat.not_lt.mp hlo) hstart happlied
      start_le := Nat.le_refl start
      next_le := Nat.le_succ_of_le hstart
      reading := fun hr => absurd hr (by simp)
      flag := flagAt_start
      sends := ⟨[], .init log slave start⟩
      inHand := fun hne => absurd rfl hne }

end DumpServer

/-- **A dump sends exactly the missing groups, in order.**  At any moment of any interleaving of
the reader with appends, truncations, purges and applies, the events sent so far, followed by
the one at `eventC <- event`, are the binlog events before the next index whose nearest GTID or
ROTATE event is absent, a ROTATE event, or a GTID that the slave does not have. -/
theorem dump_sends_missing_groups (c : Config) (log : Nat → Entry) (slave : MysqlGTIDSet)
    (storage : DiskStorage) (shared : DumpState) (start : Nat) (s₀ s : DumpServer)
    (hproc : InProcess c storage)
    (happlied : ∀ i, storage.firstIndex ≤ i → i ≤ shared.appliedIndex →
      storage.entries i (i + 1) noLimit = .ok [log i])
    (hstart : start ≤ shared.appliedIndex)
    (hdec : ∀ k, start ≤ k → ∀ e, (log k).event? = some e → e.eventType = .gtid →
      e.DecodableGtid)
    (hopen : DumpServer.dumpBinlogAt storage shared start = .ok s₀)
    (hrun : Runs (DumpServer.step c log slave) (fun _ _ => True) s₀ s) :
    s.nextRaftIndex ≤ s.appliedIndex + 1 ∧
      (s.event ≠ none → s.reader = .deliver ∨ s.reader = .quit) ∧
      ∃ is, Sends log slave start s.nextRaftIndex is (s.sent ++ s.event.toList) ∧
        ∀ (event : MasterEvent) parts i j, event.divideBinlogEvent = .ok parts →
          start ≤ i → i ≤ j → j < s.nextRaftIndex →
          (∃ e, (log i).event? = some e) → (∃ e, (log j).event? = some e) →
          (∀ k, i ≤ k → k ≤ j → ∀ e, (log k).event? = some e → e ∈ parts) →
          (i ∈ is ↔ j ∈ is) := by
  have hinv : DumpServer.Inv c log slave start s :=
    hrun.invariant (.opened hproc happlied hstart hopen) fun h _ hstep => h.step hdec hstep
  obtain ⟨is, hsends⟩ := hinv.sends
  refine ⟨hinv.next_le, hinv.inHand, is, hsends, ?_⟩
  intro event parts i j hdiv hi hij hj hei hej hparts
  rw [hsends.mem_iff, hsends.mem_iff, missing_iff_of_parts hdec hdiv hi hij hparts hei hej]
  simp only [hi, hi.trans hij, hj, Nat.lt_of_le_of_lt hij hj, hei, hej, true_and]

/-! ## Two groups -/

/-- A `QUERY_EVENT`. -/
def queryEvent : BinlogEvent :=
  { BinlogEvent.zero with
    type := EventType.query.toByte.toNat
    type_lt := EventType.toNat_toByte_lt .query
    data := some [7] }

/-- A `GTID_EVENT` of the first server, between header and checksum. -/
def gtidEvent (gno : UInt8) : BinlogEvent :=
  { BinlogEvent.zero with
    type := EventType.gtid.toByte.toNat
    type_lt := EventType.toNat_toByte_lt .gtid
    data := some (Bytes.zeros 19 ++ 0 :: MetaStore.serverOne.bytes ++ gno :: Bytes.zeros 7 ++
      Bytes.zeros 4) }

/-- Two transactions of the first server. -/
def groupLog : Nat → Entry
  | 1 => { small11 with data := some (gtidEvent 1).encode }
  | 2 => { small12 with data := some queryEvent.encode }
  | 3 => { small13 with data := some (gtidEvent 2).encode }
  | _ => { small14 with data := some queryEvent.encode }

/-- A segment size with room for both. -/
def Config.groups : Config where
  segmentSize := 512

/-- A storage with these entries. -/
def groupStorage : DiskStorage :=
  (DiskStorage.empty.appendRaftEntries .groups [groupLog 1, groupLog 2, groupLog 3, groupLog 4]).1

/-- A dump from index 1 on, with the entries applied. -/
def groupDump : DumpServer :=
  { DumpState.start 4 1 with
    storage := groupStorage
    inExcludeGroup := false
    event := none
    sent := [] }

/-- A slave that has the first of the transactions. -/
def groupSlave : MysqlGTIDSet := MysqlGTIDSet.empty.addSet MetaStore.serverOne [⟨1, 2⟩]

theorem gtid_groupLog {k : Nat} {e : BinlogEvent} (he : (groupLog k).event? = some e)
    (hg : e.eventType = .gtid) : e = gtidEvent 1 ∨ e = gtidEvent 2 := by
  have hquery : queryEvent.eventType ≠ .gtid := by decide
  unfold groupLog at he
  split at he
  · exact .inl (Option.some.inj (he.symm.trans (by decide +kernel)))
  · obtain rfl : e = queryEvent := Option.some.inj (he.symm.trans (by decide +kernel))
    exact absurd hg hquery
  · exact .inr (Option.some.inj (he.symm.trans (by decide +kernel)))
  · obtain rfl : e = queryEvent := Option.some.inj (he.symm.trans (by decide +kernel))
    exact absurd hg hquery

theorem decodable_gtidEvent {e : BinlogEvent} (h : e = gtidEvent 1 ∨ e = gtidEvent 2) :
    e.DecodableGtid := by
  rcases h with rfl | rfl
  · exact ⟨rfl, ⟨MetaStore.serverOne, 1, by decide, by decide⟩, by decide +kernel, by decide,
      by decide⟩
  · exact ⟨rfl, ⟨MetaStore.serverOne, 2, by decide, by decide⟩, by decide +kernel, by decide,
      by decide⟩

/-- The first transaction is left out, the second is sent. -/
theorem dump_sends_second_group :
    ∃ s, Runs (DumpServer.step .groups groupLog groupSlave) (fun _ _ => True) groupDump s ∧
      s.nextRaftIndex = 5 ∧ s.sent = [gtidEvent 2, queryEvent] ∧
      ∃ is, Sends groupLog groupSlave 1 s.nextRaftIndex is (s.sent ++ s.event.toList) := by
  obtain ⟨s, hexec, hnext, hsent⟩ : ∃ s, Runs.exec (fun s a => if True then
        DumpServer.step .groups groupLog groupSlave s a else none) groupDump
          [.bare .compare, .getNext, .bare .compare, .getNext, .bare .compare, .getNext, .deliver,
            .bare .compare, .getNext, .deliver] = some s ∧
      s.nextRaftIndex = 5 ∧ s.sent = [gtidEvent 2, queryEvent] :=
    Runs.exists_of_eval (by decide +kernel)
  have hrun : Runs (DumpServer.step .groups groupLog groupSlave) (fun _ _ => True) groupDump s :=
    .of_exec _ hexec
  have hproc : InProcess .groups groupStorage :=
    .opened (.appended .init (by decide +kernel) (by decide +kernel) (by decide +kernel))
  have hstored : ∀ i, groupStorage.firstIndex ≤ i → i ≤ 4 →
      groupStorage.entries i (i + 1) noLimit = .ok [groupLog i] := by
    intro i hi hle
    have hfirst : groupStorage.firstIndex = 1 := by decide +kernel
    obtain rfl | rfl | rfl | rfl : i = 1 ∨ i = 2 ∨ i = 3 ∨ i = 4 := by omega
    all_goals decide +kernel
  have hopen : DumpServer.dumpBinlogAt groupStorage (.start 4 1) 1 = .ok groupDump := by
    have hcheck : groupStorage.checkRaftIndex 1 = .ok () := by decide +kernel
    rw [DumpServer.dumpBinlogAt, hcheck]
    rfl
  obtain ⟨-, -, is, hsends, -⟩ := dump_sends_missing_groups .groups groupLog groupSlave
    groupStorage (.start 4 1) 1 groupDump s hproc hstored (by decide)
    (fun k _ e he hg => decodable_gtidEvent (gtid_groupLog he hg)) hopen hrun
  exact ⟨s, hrun, hnext, hsent, is, hsends⟩

/-! ## One event -/

/-- The raft entry of the event. -/
def queryEntry : Entry := { small11 with data := some queryEvent.encode }

/-- A storage with this entry. -/
def queryStorage : DiskStorage := (DiskStorage.empty.appendRaftEntries .small [queryEntry]).1

/-- A dump from index 1 on, with the entry applied. -/
def queryDump : DumpServer :=
  { DumpState.start 1 1 with
    storage := queryStorage
    inExcludeGroup := false
    event := none
    sent := [] }

theorem queryEntry_event : queryEntry.event? = some queryEvent := by decide +kernel

theorem queryEvent_not_marks : ¬ queryEvent.Marks := by
  rw [BinlogEvent.Marks]
  decide

/-- **The index moves on before the event is sent**: with the event of entry 1 still at the send
the next index is 2, and when the dump is cancelled there the event is never sent. -/
theorem event_at_send_is_not_sent :
    (∃ s, Runs.exec (DumpServer.step .small (fun _ => queryEntry) .empty) queryDump
        [.bare .compare, .getNext] = some s ∧
      s.nextRaftIndex = 2 ∧ s.sent = [] ∧ s.reader = .deliver) ∧
    (∃ s, Runs.exec (DumpServer.step .small (fun _ => queryEntry) .empty) queryDump
        [.bare .compare, .getNext, .bare .cancel] = some s ∧
      s.nextRaftIndex = 2 ∧ s.sent = [] ∧ s.reader = .quit) ∧
    queryEntry.event? = some queryEvent ∧ Missing (fun _ => queryEntry) .empty 1 1 := by
  refine ⟨Runs.exists_of_eval (by decide +kernel),
    Runs.exists_of_eval (by decide +kernel), queryEntry_event, ?_⟩
  intro j e hnear
  have he := hnear.event
  rw [queryEntry_event, Option.some_inj] at he
  exact absurd (he ▸ hnear.marks) queryEvent_not_marks

end Kingbus
