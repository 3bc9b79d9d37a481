import Kingbus.GtidPurged

/-! # The log of a replica, entry by entry

A committed log with the entries that act on `BinlogProgress`: storage events, which the
syncer made of the events of its master, and `MasterGtidPurged`.  Entries of the other
kinds (`MasterInfo`, syncer arguments, node attributes, configuration changes, the empty
entry of a new leader) take an index and leave progress and binlog metadata as they are.

Two replicas that take the same entries need not have the same progress: one may have
restarted, or have been reset.  `TrxProgress.Ahead` is what stays true of the pair. -/

namespace Kingbus

/-! ## Storage events of a syncer -/

/-- The storage events of an event of the master. -/
def MasterEvent.parts (event : MasterEvent) (flavor : Flavor) : List BinlogEvent :=
  match event.proposeBinlogEvent flavor with
  | .ok parts => parts
  | .error _ => []

/-- `updateProcess` is called for the storage event. -/
def BinlogEvent.IsFirst (e : BinlogEvent) : Prop :=
  e.dividedCount = 0 ∨ (e.dividedCount ≠ 0 ∧ e.dividedSeqNum = 0)

instance (e : BinlogEvent) : Decidable e.IsFirst := inferInstanceAs (Decidable (_ ∨ _))

/-- The storage event was made by a syncer, of an event whose header is that of its
bytes. -/
def BinlogEvent.FromSyncer (e : BinlogEvent) : Prop :=
  ∃ (event : MasterEvent) (flavor : Flavor),
    event.header = .read event.rawData ∧ e ∈ event.parts flavor

/-! ## Entries -/

/-- An entry of the log. -/
inductive LogEntry where
  | binlog (e : BinlogEvent)
  | masterGtidPurged (text : GtidText)
  | other

/-- The entries of an event of the master. -/
def ParsedEvent.entries (event : ParsedEvent) (flavor : Flavor) : List LogEntry :=
  (event.parts flavor).map .binlog

/-- The entry is one that the servers of the cluster propose. -/
def LogEntry.FromSyncer : LogEntry → Prop
  | binlog e => e.FromSyncer
  | _ => True

namespace KingbusServer

/-- `applyEntryNormal`, for the entries that act on the progress. -/
def applyEntry (s : KingbusServer) (elapsed : Bool) (raftIndex : Nat) :
    LogEntry → Except EventFailure KingbusServer
  | .binlog e => s.applyMySQLBinlogEvent elapsed raftIndex e.encode
  | .masterGtidPurged text => s.applyMasterGtidPurged text
  | .other => .ok s

/-- Entries applied one after the other, the first at the given index. -/
def applyLog (clock : Nat → Bool) :
    KingbusServer → Nat → List LogEntry → Except EventFailure KingbusServer
  | s, _, [] => .ok s
  | s, i, entry :: log =>
      (s.applyEntry (clock i) i entry).bind fun s => applyLog clock s (i + 1) log

/-- The first half of `applyMySQLBinlogEvent`, up to the end of `updateProcess`. -/
def updateStored (s : KingbusServer) (elapsed : Bool) (raftIndex : Nat) (e : BinlogEvent) :
    Except EventFailure KingbusServer :=
  if e.IsFirst then
    fatalOn "resetBinlogProgress error,err:%s,eventType:%v,data:%v"
      (s.updateProcess elapsed raftIndex e.bytes)
  else .ok s

/-- The second half. -/
def writeStored (s : KingbusServer) (raftIndex : Nat) (e : BinlogEvent) :
    Except EventFailure KingbusServer :=
  if needApply e.eventType then
    fatalOn "apply binlog event error,err:%v,eventType:%v,binlogEvent:%v"
      (s.applyBinlogEvent e.bytes e.eventType raftIndex)
  else .ok s

theorem applyStored_halves (s : KingbusServer) (elapsed : Bool) (i : Nat) (e : BinlogEvent) :
    s.applyStored elapsed i e = (s.updateStored elapsed i e).bind fun s => s.writeStored i e := rfl

theorem applyLog_cons {clock : Nat → Bool} {s s' : KingbusServer} {i : Nat} {entry : LogEntry}
    {log : List LogEntry} : s.applyLog clock i (entry :: log) = .ok s' ↔
      ∃ s₁, s.applyEntry (clock i) i entry = .ok s₁ ∧ s₁.applyLog clock (i + 1) log = .ok s' := by
  rw [applyLog]
  cases s.applyEntry (clock i) i entry with
  | error f => exact ⟨nofun, by rintro ⟨_, h, -⟩; cases h⟩
  | ok s₁ => exact ⟨fun h => ⟨s₁, rfl, h⟩, by rintro ⟨_, h, h'⟩; cases h; exact h'⟩

/-- What every entry of a log keeps, the log keeps. -/
theorem applyLog_invariant {I : KingbusServer → Prop} {clock : Nat → Bool} {log : List LogEntry}
    (hstep : ∀ {s s₁ elapsed i}, ∀ entry ∈ log, I s → s.applyEntry elapsed i entry = .ok s₁ → I s₁)
    {s s' : KingbusServer} {i : Nat} (h : I s) (hs : s.applyLog clock i log = .ok s') : I s' := by
  induction log generalizing s i with
  | nil =>
      cases hs
      exact h
  | cons entry log ih =>
      obtain ⟨s₁, hs₁, hs⟩ := applyLog_cons.mp hs
      exact ih (fun x hx => hstep x (List.mem_cons_of_mem _ hx))
        (hstep entry (List.mem_cons_self ..) h hs₁) hs

theorem applyLog_append {clock : Nat → Bool} {s s' : KingbusServer} {i : Nat}
    {log log' : List LogEntry} : s.applyLog clock i (log ++ log') = .ok s' ↔
      ∃ s₁, s.applyLog clock i log = .ok s₁ ∧
        s₁.applyLog clock (i + log.length) log' = .ok s' := by
  induction log generalizing s i with
  | nil => exact ⟨fun h => ⟨s, rfl, h⟩, by rintro ⟨s₁, h₁, h⟩; cases h₁; exact h⟩
  | cons entry log ih =>
      rw [List.cons_append, applyLog_cons, List.length_cons, Nat.add_comm log.length,
        ← Nat.add_assoc]
      constructor
      · rintro ⟨s₁, h₁, h⟩
        obtain ⟨s₂, h₂, h⟩ := ih.mp h
        exact ⟨s₂, applyLog_cons.mpr ⟨s₁, h₁, h₂⟩, h⟩
      · rintro ⟨s₂, h₂, h⟩
        obtain ⟨s₁, h₁, h₂⟩ := applyLog_cons.mp h₂
        exact ⟨s₁, h₁, ih.mpr ⟨s₂, h₂, h⟩⟩

end KingbusServer

/-! ## What storage events of a syncer are -/

namespace MasterEvent
variable {event : MasterEvent} {flavor : Flavor} {e : BinlogEvent}

/-- A numbered part, with its number. -/
theorem exists_of_mem_partsFrom {ds : List Bytes} : ∀ {i : Nat}, e ∈ event.partsFrom i ds →
    ∃ k d, e = event.part event.dividedCount k d ∧ d ∈ ds ∧ i ≤ k ∧ k < i + ds.length ∧
      (k = i → ds.head? = some d) := by
  induction ds with
  | nil => nofun
  | cons d ds ih =>
      intro i h
      rcases List.mem_cons.mp h with rfl | h
      · exact ⟨i, d, rfl, List.mem_cons_self .., Nat.le_refl i,
          by rw [List.length_cons]; omega, fun _ => rfl⟩
      · obtain ⟨k, d', he, hd', hik, hk, -⟩ := ih h
        exact ⟨k, d', he, List.mem_cons_of_mem _ hd', by omega,
          by rw [List.length_cons]; omega, fun heq => by omega⟩

/-- The parts of a divided event have numbers below their count, and the first one the
head of the event. -/
theorem exists_of_mem_parts (h : e ∈ event.parts flavor) (hfits : ¬ event.Fits) :
    ∃ k d, e = event.part event.dividedCount k d ∧ k < event.dividedCount ∧
      d.length ≤ maxPayloadLen ∧ (k = 0 → d = event.rawData.take (maxPayloadLen - 1)) := by
  obtain ⟨ds, hdivide, hcut⟩ := divideBinlogEvent_head hfits
  rw [parts, proposeBinlogEvent, if_neg hfits, hdivide] at h
  obtain ⟨k, d, he, hd, -, hk, hhead⟩ := exists_of_mem_partsFrom h
  have hcount : ds.length + 1 = event.dividedCount := by
    rw [← Packets.length_cut event.dividedCount (0 :: event.rawData), ← hcut]
    rfl
  refine ⟨k, d, he, ?_, ?_, fun h0 => (Option.some.inj (hhead h0)).symm⟩
  · rw [List.length_cons] at hk
    omega
  · rcases List.mem_cons.mp hd with rfl | hd
    · exact Nat.le_trans (List.length_take_le _ _) (Nat.sub_le _ _)
    · have hmem : d ∈ Packets.cut maxPayloadLen event.dividedCount (0 :: event.rawData) :=
        hcut ▸ List.mem_cons_of_mem _ hd
      exact Packets.length_le_of_mem_cut hmem

end MasterEvent

namespace BinlogEvent
variable {e : BinlogEvent}

/-- What the replicas rely on: the entry can be decoded again, and where `updateProcess`
reads a header, the type in it is that of the storage event. -/
structure Consistent (e : BinlogEvent) : Prop where
  data : ∃ d, e.data = some d ∧ d.length < 2 ^ 62
  type_eq : e.IsFirst → (EventHeader.read e.bytes).eventType = e.eventType

theorem FromSyncer.consistent (h : e.FromSyncer) : e.Consistent := by
  obtain ⟨event, flavor, hheader, hmem⟩ := h
  have htype : EventType.ofByte (UInt8.ofNat event.header.eventType.toByte.toNat) =
      event.header.eventType := by
    rw [hheader, EventHeader.read, EventType.toByte_ofByte, UInt8.ofNat_toNat]
  by_cases hfits : event.Fits
  · rw [MasterEvent.parts, MasterEvent.proposeBinlogEvent, if_pos hfits] at hmem
    cases List.mem_singleton.mp hmem
    refine ⟨⟨_, rfl, Nat.lt_trans event.rawData_length_lt (by decide)⟩, fun _ => ?_⟩
    exact (congrArg EventHeader.eventType hheader.symm).trans htype.symm
  · obtain ⟨k, d, rfl, hk, hlen, hd⟩ := MasterEvent.exists_of_mem_parts hmem hfits
    refine ⟨⟨d, rfl, Nat.lt_of_le_of_lt hlen (by decide)⟩, fun hfirst => ?_⟩
    have hlt := event.dividedCount_lt
    -- only part 0 has the number 0: there are fewer than `2 ^ 32` parts
    have hk0 : k = 0 := by
      rcases hfirst with h0 | ⟨-, h0⟩
      · have : event.dividedCount % 2 ^ 32 = 0 := h0
        rw [Nat.mod_eq_of_lt hlt] at this
        omega
      · have : k % 2 ^ 32 = 0 := h0
        rwa [Nat.mod_eq_of_lt (by omega)] at this
    change (EventHeader.read d).eventType = _
    rw [hd hk0, EventHeader.read_take (by decide)]
    exact (congrArg EventHeader.eventType hheader.symm).trans htype.symm

end BinlogEvent

theorem ParsedEvent.fromSyncer_of_mem {events : List ParsedEvent} {flavor : Flavor}
    {entry : LogEntry} (h : entry ∈ events.flatMap (·.entries flavor)) : entry.FromSyncer := by
  obtain ⟨event, -, hmem⟩ := List.mem_flatMap.mp h
  obtain ⟨e, he, rfl⟩ := List.mem_map.mp hmem
  exact ⟨event.toMasterEvent, flavor, event.header_eq, he⟩

/-! ## What a storage event does -/

/-- The boundary type that `updateProcess` finds in the data of a storage event. -/
def boundaryOf (eventRawData : Bytes) : Except EventFailure EventBoundaryType :=
  (EventHeader.decode eventRawData).bind fun h =>
    if eventRawData.length - eventHeaderSize ≠ h.eventSize - eventHeaderSize then
      .error (.error "invalid data size %d in event %s, less event length %d")
    else (eventBody eventRawData).bind fun body => getEventBoundaryType h body

theorem exists_of_boundaryOf {data : Bytes} {b : EventBoundaryType} (h : boundaryOf data = .ok b) :
    ∃ body, getEventBoundaryType (EventHeader.read data) body = .ok b := by
  rw [boundaryOf, EventHeader.decode] at h
  split at h
  · cases h
  · split at h
    · cases h
    · change (if _ then _ else _) = _ at h
      split at h
      · cases h
      · cases hbody : eventBody data with
        | error f => rw [hbody] at h; cases h
        | ok body =>
            rw [hbody] at h
            exact ⟨body, h⟩

namespace KingbusServer
variable {s s' : KingbusServer} {elapsed : Bool} {i : Nat} {e : BinlogEvent}

/-- What the first half of applying a storage event can do. -/
inductive Observes (e : BinlogEvent) (elapsed : Bool) (i : Nat) (s : KingbusServer) :
    KingbusServer → Prop
  | first {b : EventBoundaryType} {r : TrxProgress × Bool} (hfirst : e.IsFirst)
      (hb : boundaryOf e.bytes = .ok b) (hobs : s.binlogProgress.observe b = .ok r) :
      Observes e elapsed i s (s.saveProgress i elapsed r.1 r.2 (EventHeader.read e.bytes).logPos)
  | later (hlater : ¬ e.IsFirst) : Observes e elapsed i s s

/-- What the second half can do. -/
inductive Stores (e : BinlogEvent) (i : Nat) (s : KingbusServer) : KingbusServer → Prop
  | fde (h : e.eventType = .formatDescription) :
      Stores e i s { s with
        store := { s.store with fde := Table.put i e.bytes s.store.fde } }
  | gtid {g : Gtid} (h : e.eventType = .gtid)
      (hg : (eventBody e.bytes).bind decodeGtid = .ok g) : Stores e i s (s.setCurrentGtid g)
  | rotate {nextLogName : Bytes} (h : e.eventType = .rotate)
      (hname : (eventBody e.bytes).bind decodeRotate = .ok nextLogName) :
      Stores e i s
        { binlogProgress := { s.binlogProgress with lastBinlogFile := nextLogName }
          store := { s.store with nextBinlog := Table.put i nextLogName s.store.nextBinlog } }
  | previousGtids {gset : MysqlGTIDSet} (h : e.eventType = .previousGtids)
      (hset : (eventBody e.bytes).bind MysqlGTIDSet.decode = .ok gset) :
      Stores e i s { s with store := s.store.setPreviousGtidSet i gset }
  | nothing (h : needApply e.eventType = false) : Stores e i s s

theorem updateProcess_eq_boundaryOf {data : Bytes} : s.updateProcess elapsed i data =
    (boundaryOf data).bind fun b => (s.binlogProgress.observe b).map fun r =>
      s.saveProgress i elapsed r.1 r.2 (EventHeader.read data).logPos := by
  rw [updateProcess, boundaryOf]
  cases hd : EventHeader.decode data with
  | error f => rfl
  | ok h =>
      have hread : h = EventHeader.read data := by
        rw [EventHeader.decode] at hd
        split at hd
        · cases hd
        · split at hd
          · cases hd
          · exact (Except.ok.inj hd).symm
      subst hread
      simp only [Except.bind]
      split
      · rfl
      · cases eventBody data <;> rfl

/-- **The first half.** -/
theorem observes_of_updateStored (h : s.updateStored elapsed i e = .ok s') :
    s.Observes e elapsed i s' := by
  rw [updateStored] at h
  split at h
  · next hfirst =>
    have hup := of_fatalOn h
    rw [updateProcess_eq_boundaryOf] at hup
    cases hb : boundaryOf e.bytes with
    | error f => rw [hb] at hup; cases hup
    | ok b =>
        rw [hb] at hup
        change (s.binlogProgress.observe b).map _ = _ at hup
        cases hobs : s.binlogProgress.observe b with
        | error f => rw [hobs] at hup; cases hup
        | ok r =>
            rw [hobs] at hup
            cases hup
            exact .first hfirst hb hobs
  · next hlater =>
    cases h
    exact .later hlater

theorem exists_of_map {ε α β : Type} {x : Except ε α} {f : α → β} {b : β}
    (h : x.map f = .ok b) : ∃ a, x = .ok a ∧ b = f a := by
  cases x with
  | error e => cases h
  | ok a => exact ⟨a, rfl, (Except.ok.inj h).symm⟩

theorem bind_map {ε α β γ : Type} (x : Except ε α) (f : α → Except ε β) (g : β → γ) :
    (x.bind fun a => (f a).map g) = (x.bind f).map g := by
  cases x <;> rfl

/-- **The second half.** -/
theorem stores_of_writeStored (h : s.writeStored i e = .ok s') : s.Stores e i s' := by
  rw [writeStored] at h
  split at h
  · next hn =>
    have hw := of_fatalOn h
    rcases needApply_iff.mp hn with ht | ht | ht | ht
    · rw [ht, applyBinlogEvent, bind_map] at hw
      obtain ⟨g, hg, rfl⟩ := exists_of_map hw
      exact .gtid ht hg
    · rw [ht] at hw
      cases hw
      exact .fde ht
    · rw [ht, applyBinlogEvent, bind_map] at hw
      obtain ⟨name, hname, rfl⟩ := exists_of_map hw
      exact .rotate ht hname
    · rw [ht, applyBinlogEvent, bind_map] at hw
      obtain ⟨gset, hset, rfl⟩ := exists_of_map hw
      exact .previousGtids ht hset
  · next hn =>
    cases h
    exact .nothing (Bool.not_eq_true _ ▸ hn)

theorem applyEntry_binlog (h : e.Consistent) :
    s.applyEntry elapsed i (.binlog e) = s.applyStored elapsed i e := by
  obtain ⟨d, hd, hlen⟩ := h.data
  change (BinlogEvent.decode e.encode).bind _ = _
  rw [BinlogEvent.decode_encode hd hlen]
  rfl

/-- **Applying an entry with a storage event**: both halves. -/
theorem of_applyEntry_binlog (hc : e.Consistent)
    (h : s.applyEntry elapsed i (.binlog e) = .ok s') :
    ∃ s₁, s.updateStored elapsed i e = .ok s₁ ∧ s.Observes e elapsed i s₁ ∧ s₁.Stores e i s' := by
  rw [applyEntry_binlog hc, applyStored_halves] at h
  cases hup : s.updateStored elapsed i e with
  | error f => rw [hup] at h; cases h
  | ok s₁ =>
      rw [hup] at h
      exact ⟨s₁, rfl, observes_of_updateStored hup, stores_of_writeStored h⟩

/-- The reset of an applied `MasterGtidPurged`. -/
theorem of_applyEntry_masterGtidPurged {text : GtidText}
    (h : s.applyEntry elapsed i (.masterGtidPurged text) = .ok s') :
    ∃ m, ResetBy text { s with store := { s.store with gtidPurged := m } } s' := by
  obtain ⟨m, -, -, heq⟩ := applyMasterGtidPurged_cases s text
  change s.applyMasterGtidPurged text = _ at h
  rw [heq] at h
  exact ⟨m, resetBy_of_reset (of_fatalOn h)⟩

/-- It is applied exactly when its text has at most one identifier. -/
theorem applyEntry_masterGtidPurged_iff {text : GtidText} :
    (∃ s', s.applyEntry elapsed i (.masterGtidPurged text) = .ok s') ↔ text.sets.length ≤ 1 := by
  obtain ⟨m, -, -, heq⟩ := applyMasterGtidPurged_cases s text
  change (∃ s', s.applyMasterGtidPurged text = .ok s') ↔ _
  rw [heq]
  constructor
  · rintro ⟨s', h⟩
    by_contra hlt
    obtain ⟨f, hf⟩ := reset_error (s := { s with store := { s.store with gtidPurged := m } })
      (Nat.lt_of_not_le hlt)
    rw [of_fatalOn h] at hf
    cases hf
  · intro hlen
    obtain ⟨s', hs', -⟩ :=
      reset_ok (s := { s with store := { s.store with gtidPurged := m } }) hlen
    rw [hs']
    exact ⟨s', rfl⟩

end KingbusServer

/-! ## Two replicas on the same entries -/

/-- `Update` takes the GTID, and what it records for it is in the set. -/
structure Gtid.RecordedIn (g : Gtid) (executed : MysqlGTIDSet) : Prop where
  storable : Storable g.gno
  mem : ∀ n, HalfOpenInterval.MemList n (HalfOpenInterval.normalize [gnoInterval g.gno]) → executed.Mem g.sid n

theorem Gtid.RecordedIn.mono {g : Gtid} {executed executed' : MysqlGTIDSet}
    (h : g.RecordedIn executed) (hsub : executed.Subset executed') : g.RecordedIn executed' :=
  ⟨h.storable, fun n hn => hsub _ _ (h.mem n hn)⟩

namespace TrxProgress

/-- Outside of transactions, with nothing left to record. -/
structure Settled (p : TrxProgress) : Prop where
  parser : p.trxBoundaryParser = .none
  current : ∀ g, p.currentGtid = some g → g.RecordedIn p.executedGtidSet

/-- The second progress has seen the entries of the first from some settled point on, and
its executed set has, in addition, only what is in `X`. -/
structure Ahead (X : Sid → Int → Prop) (p q : TrxProgress) : Prop where
  parser : q.trxBoundaryParser = p.trxBoundaryParser
  lower : p.executedGtidSet.Subset q.executedGtidSet
  upper : ∀ sid n, q.executedGtidSet.Mem sid n → p.executedGtidSet.Mem sid n ∨ X sid n
  current : q.currentGtid = p.currentGtid ∨
    (q.currentGtid = none ∧ ∀ g, p.currentGtid = some g → g.RecordedIn p.executedGtidSet)
  saved : ∀ g, p.lastSaveGtid = some g → g.RecordedIn p.executedGtidSet
  saved' : ∀ g, q.lastSaveGtid = some g → g.RecordedIn q.executedGtidSet

variable {X Y : Sid → Int → Prop} {p q p' : TrxProgress} {b : EventBoundaryType}
  {r r' : TrxProgress × Bool}

theorem subset_addSet {executed : MysqlGTIDSet} {sid : Sid} {l : List (HalfOpenInterval Int)} :
    executed.Subset (executed.addSet sid l) :=
  fun _ _ h => MysqlGTIDSet.mem_addSet.mpr (.inl h)

theorem recordedIn_addSet {executed : MysqlGTIDSet} {g : Gtid} (hs : Storable g.gno) :
    g.RecordedIn (executed.addSet g.sid (HalfOpenInterval.normalize [gnoInterval g.gno])) :=
  ⟨hs, fun _ hn => MysqlGTIDSet.mem_addSet.mpr (.inr ⟨rfl, hn⟩)⟩

/-- What is in the set behind `Update` was in it, or is the GTID. -/
theorem forall_mem_addSet {executed : MysqlGTIDSet} {g : Gtid} {P : Sid → Int → Prop}
    (hold : ∀ sid n, executed.Mem sid n → P sid n)
    (hnew : ∀ n, HalfOpenInterval.MemList n (HalfOpenInterval.normalize [gnoInterval g.gno]) → P g.sid n) :
    ∀ sid n, (executed.addSet g.sid (HalfOpenInterval.normalize [gnoInterval g.gno])).Mem sid n →
      P sid n := by
  intro sid n h
  rcases MysqlGTIDSet.mem_addSet.mp h with h | ⟨rfl, hn⟩
  · exact hold sid n h
  · exact hnew n hn

theorem Ahead.mono (h : Ahead X p q) (hXY : ∀ sid n, X sid n → Y sid n) : Ahead Y p q :=
  { h with upper := fun sid n hn => (h.upper sid n hn).imp_right (hXY sid n) }

theorem Observed.subset (h : p.Observed b r) : p.executedGtidSet.Subset r.1.executedGtidSet := by
  cases h with
  | partialTrx _ => exact fun _ _ => id
  | recorded _ _ => exact subset_addSet
  | moved _ _ => exact fun _ _ => id

theorem Observed.saved (h : p.Observed b r)
    (hsaved : ∀ g, p.lastSaveGtid = some g → g.RecordedIn p.executedGtidSet) :
    ∀ g, r.1.lastSaveGtid = some g → g.RecordedIn r.1.executedGtidSet := by
  cases h with
  | partialTrx _ => exact hsaved
  | recorded _ hs =>
      intro g hg
      cases hg
      exact recordedIn_addSet hs
  | moved _ _ => exact hsaved

/-- Where one records and the other does not, the other has the GTID. -/
theorem Ahead.recordedIn_of_due {g : Gtid} (h : Ahead X p q) (hp : p.Due b g)
    (hq : ¬ q.Due b g) : g.RecordedIn q.executedGtidSet := by
  obtain ⟨hstate, hcur, -⟩ := hp
  rcases h.current with heq | ⟨-, hrec⟩
  · have hlast : q.lastSaveGtid = some g := by
      by_contra hne
      exact hq ⟨h.parser ▸ hstate, heq.trans hcur, hne⟩
    exact h.saved' g hlast
  · exact (hrec g hcur).mono h.lower

theorem Ahead.current_of_due {g : Gtid} (h : Ahead X p q) (hq : q.Due b g) :
    p.currentGtid = some g := by
  rcases h.current with heq | ⟨hnone, -⟩
  · exact heq ▸ hq.2.1
  · rw [hq.2.1] at hnone
    cases hnone

theorem Ahead.recordedIn_of_due' {g : Gtid} (h : Ahead X p q) (hq : q.Due b g)
    (hp : ¬ p.Due b g) : g.RecordedIn p.executedGtidSet := by
  have hlast : p.lastSaveGtid = some g := by
    by_contra hne
    exact hp ⟨h.parser ▸ hq.1, h.current_of_due hq, hne⟩
  exact h.saved g hlast

/-- What the first can observe, the second can. -/
theorem Ahead.observe_ok (h : Ahead X p q) (hp : ∃ r, p.observe b = .ok r) :
    ∃ r', q.observe b = .ok r' := by
  rw [observe_ok_iff] at hp ⊢
  intro g hq
  by_cases hdue : p.Due b g
  · exact hp g hdue
  · exact (h.recordedIn_of_due' hq hdue).storable

/-- **A boundary type keeps the relation.** -/
theorem Ahead.observe (h : Ahead X p q) (hp : p.Observed b r) (hq : q.Observed b r') :
    Ahead X r.1 r'.1 := by
  have hsaved := hp.saved h.saved
  have hsaved' := hq.saved h.saved'
  have hparser := h.parser
  cases hp with
  | partialTrx herr =>
      cases hq with
      | partialTrx _ => exact ⟨rfl, h.lower, h.upper, .inl rfl, hsaved, hsaved'⟩
      | recorded hdue _ => rw [← hparser, hdue.1] at herr; cases herr
      | moved hst _ => rw [← hparser, hst] at herr; cases herr
  | @recorded g hdue hs =>
      cases hq with
      | partialTrx herr => rw [hparser, hdue.1] at herr; cases herr
      | @recorded g' hdue' hs' =>
          have hg : g = g' := Option.some.inj (hdue.2.1.symm.trans (h.current_of_due hdue'))
          subst hg
          refine ⟨rfl, ?_, ?_, .inl (hdue'.2.1.trans hdue.2.1.symm), hsaved, hsaved'⟩
          · exact forall_mem_addSet (fun sid n hn => subset_addSet _ _ (h.lower sid n hn))
              (recordedIn_addSet hs).mem
          · exact forall_mem_addSet
              (fun sid n hn => (h.upper sid n hn).imp_left (subset_addSet _ _))
              (fun n hn => .inl ((recordedIn_addSet hs).mem n hn))
      | moved hst hnot =>
          have hrec := h.recordedIn_of_due hdue (hnot g)
          rw [hparser, hdue.1] at hst
          refine ⟨(Prod.ext_iff.mp hst).1.symm, forall_mem_addSet h.lower hrec.mem,
            fun sid n hn => (h.upper sid n hn).imp_left (subset_addSet _ _), ?_, hsaved, hsaved'⟩
          exact h.current.imp_right fun hc => ⟨hc.1, fun g hg => (hc.2 g hg).mono subset_addSet⟩
  | moved hst hnot =>
      cases hq with
      | partialTrx herr => rw [hparser, hst] at herr; cases herr
      | @recorded g hdue' hs' =>
          have hrec := h.recordedIn_of_due' hdue' (hnot g)
          rw [← hparser, hdue'.1] at hst
          exact ⟨(Prod.ext_iff.mp hst).1, fun sid n hn => subset_addSet _ _ (h.lower sid n hn),
            forall_mem_addSet h.upper fun n hn => .inl (hrec.mem n hn), h.current, hsaved, hsaved'⟩
      | moved hst' _ =>
          rw [hparser, hst] at hst'
          exact ⟨(Prod.ext_iff.mp hst').1.symm, h.lower, h.upper, h.current, hsaved, hsaved'⟩

/-- Where the second records, the first is settled. -/
theorem Ahead.settled_of_recorded (h : Ahead X p q) (hp : p.Observed b r)
    (hq : q.Observed b r') (hrec : r'.2 = true) : r.1.Settled := by
  cases hq with
  | partialTrx _ => cases hrec
  | moved _ _ => cases hrec
  | @recorded g' hdue' hs' =>
      have hcur := h.current_of_due hdue'
      have hstate : p.trxBoundaryParser.updateState b = (.none, false) := h.parser ▸ hdue'.1
      cases hp with
      | partialTrx herr => rw [hstate] at herr; cases herr
      | @recorded g hdue hs =>
          refine ⟨rfl, fun g'' hg'' => ?_⟩
          cases hdue.2.1.symm.trans hg''
          exact recordedIn_addSet hs
      | moved hst hnot =>
          rw [hstate] at hst
          refine ⟨(Prod.ext_iff.mp hst).1.symm, fun g hg => ?_⟩
          cases hcur.symm.trans hg
          exact h.recordedIn_of_due' hdue' (hnot _)

end TrxProgress

namespace KingbusServer
variable {X : Sid → Int → Prop} {s s' t t' : KingbusServer} {elapsed elapsed' : Bool} {i j : Nat}
  {e : BinlogEvent} {text : GtidText}

/-- What the second half does to the progress. -/
theorem Stores.toTrxProgress (h : s.Stores e i s') :
    (e.eventType ≠ .gtid ∧ s'.binlogProgress.toTrxProgress = s.binlogProgress.toTrxProgress) ∨
      ∃ g, e.eventType = .gtid ∧ (eventBody e.bytes).bind decodeGtid = .ok g ∧
        s'.binlogProgress.toTrxProgress =
          { s.binlogProgress.toTrxProgress with currentGtid := some g } := by
  cases h with
  | fde ht => exact .inl ⟨ht ▸ by decide, rfl⟩
  | gtid ht hg => exact .inr ⟨_, ht, hg, rfl⟩
  | rotate ht _ => exact .inl ⟨ht ▸ by decide, rfl⟩
  | previousGtids ht _ => exact .inl ⟨ht ▸ by decide, rfl⟩
  | nothing hn =>
      refine .inl ⟨fun ht => ?_, rfl⟩
      rw [ht] at hn
      cases hn

theorem Stores.executed (h : s.Stores e i s') :
    s'.binlogProgress.executedGtidSet = s.binlogProgress.executedGtidSet := by
  cases h <;> rfl

theorem Stores.lastSave (h : s.Stores e i s') :
    s'.binlogProgress.lastSaveGtid = s.binlogProgress.lastSaveGtid := by
  cases h <;> rfl

/-- The second half leaves what a restart begins with. -/
theorem Stores.persisted (h : s.Stores e i s') :
    s'.store.appliedIndex = s.store.appliedIndex ∧
      s'.store.executedGtidSet = s.store.executedGtidSet := by
  cases h with
  | previousGtids _ _ =>
      simp only [MetaStore.setPreviousGtidSet]
      split <;> exact ⟨rfl, rfl⟩
  | _ => exact ⟨rfl, rfl⟩

theorem Observes.ahead {s₁ t₁ : KingbusServer}
    (h : TrxProgress.Ahead X s.binlogProgress.toTrxProgress t.binlogProgress.toTrxProgress)
    (hs : s.Observes e elapsed i s₁) (ht : t.Observes e elapsed' j t₁) :
    TrxProgress.Ahead X s₁.binlogProgress.toTrxProgress t₁.binlogProgress.toTrxProgress := by
  cases hs with
  | first hfirst hb hobs =>
      cases ht with
      | first _ hb' hobs' =>
          cases hb.symm.trans hb'
          rw [saveProgress_toTrxProgress, saveProgress_toTrxProgress]
          exact h.observe (TrxProgress.observed_of_observe hobs)
            (TrxProgress.observed_of_observe hobs')
      | later hlater => exact absurd hfirst hlater
  | later hlater =>
      cases ht with
      | first hfirst _ _ => exact absurd hfirst hlater
      | later _ => exact h

theorem Stores.ahead
    (h : TrxProgress.Ahead X s.binlogProgress.toTrxProgress t.binlogProgress.toTrxProgress)
    (hs : s.Stores e i s') (ht : t.Stores e j t') :
    TrxProgress.Ahead X s'.binlogProgress.toTrxProgress t'.binlogProgress.toTrxProgress := by
  rcases hs.toTrxProgress with ⟨hne, heq⟩ | ⟨g, hgtid, hg, heq⟩
  · rcases ht.toTrxProgress with ⟨-, heq'⟩ | ⟨_, hgtid', -, -⟩
    · rwa [heq, heq']
    · exact absurd hgtid' hne
  · rcases ht.toTrxProgress with ⟨hne, -⟩ | ⟨g', -, hg', heq'⟩
    · exact absurd hgtid hne
    · cases hg.symm.trans hg'
      rw [heq, heq']
      exact { h with current := .inl rfl }

theorem ResetBy.ahead
    (h : TrxProgress.Ahead X s.binlogProgress.toTrxProgress t.binlogProgress.toTrxProgress)
    (hs : ResetBy text s s') (ht : ResetBy text t t') :
    TrxProgress.Ahead X s'.binlogProgress.toTrxProgress t'.binlogProgress.toTrxProgress where
  parser := ht.parser.trans hs.parser.symm
  lower sid n hn := (ht.executed sid n).mpr (((hs.executed sid n).mp hn).imp_left (h.lower sid n))
  upper sid n hn := by
    rcases (ht.executed sid n).mp hn with hn | hn
    · exact (h.upper sid n hn).imp_left fun hn => (hs.executed sid n).mpr (.inl hn)
    · exact .inl ((hs.executed sid n).mpr (.inr hn))
  current := .inl (ht.current.trans hs.current.symm)
  saved g hg := (h.saved g (hs.lastSave ▸ hg)).mono fun sid n hn => (hs.executed sid n).mpr (.inl hn)
  saved' g hg :=
    (h.saved' g (ht.lastSave ▸ hg)).mono fun sid n hn => (ht.executed sid n).mpr (.inl hn)

/-- Whether the second half fails depends on the storage event only. -/
theorem Stores.writeStored_ok (h : s.Stores e i s') (t : KingbusServer) (j : Nat) :
    ∃ t', t.writeStored j e = .ok t' := by
  rw [writeStored]
  cases h with
  | nothing hn => exact ⟨t, by rw [hn]; rfl⟩
  | fde ht => exact ⟨_, by rw [ht]; rfl⟩
  | gtid ht hg => exact ⟨_, by rw [ht, applyBinlogEvent, bind_map, hg]; rfl⟩
  | rotate ht hname => exact ⟨_, by rw [ht, applyBinlogEvent, bind_map, hname]; rfl⟩
  | previousGtids ht hset => exact ⟨_, by rw [ht, applyBinlogEvent, bind_map, hset]; rfl⟩

/-- **An entry that the first applies, the second can apply.** -/
theorem applyEntry_ok_of_ahead {entry : LogEntry} (hsyncer : entry.FromSyncer)
    (h : TrxProgress.Ahead X s.binlogProgress.toTrxProgress t.binlogProgress.toTrxProgress)
    (hs : s.applyEntry elapsed i entry = .ok s') (elapsed' : Bool) (j : Nat) :
    ∃ t', t.applyEntry elapsed' j entry = .ok t' := by
  cases entry with
  | binlog e =>
      have hc : e.Consistent := BinlogEvent.FromSyncer.consistent hsyncer
      obtain ⟨s₁, -, hobs, hw⟩ := of_applyEntry_binlog hc hs
      obtain ⟨t₁, ht₁⟩ : ∃ t₁, t.updateStored elapsed' j e = .ok t₁ := by
        rw [updateStored]
        cases hobs with
        | later hlater => exact ⟨t, if_neg hlater⟩
        | first hfirst hb hobs =>
            obtain ⟨r', hr'⟩ := h.observe_ok ⟨_, hobs⟩
            rw [if_pos hfirst, updateProcess_eq_boundaryOf, hb]
            change ∃ t₁, fatalOn _ ((t.binlogProgress.observe _).map _) = _
            rw [hr']
            exact ⟨_, rfl⟩
      obtain ⟨t', ht'⟩ := hw.writeStored_ok t₁ j
      refine ⟨t', ?_⟩
      rw [applyEntry_binlog hc, applyStored_halves, ht₁]
      exact ht'
  | masterGtidPurged text =>
      exact applyEntry_masterGtidPurged_iff.mpr (applyEntry_masterGtidPurged_iff.mp ⟨s', hs⟩)
  | other => exact ⟨t, rfl⟩

/-- **An entry that both apply keeps the relation**, whatever the clocks say and at
whatever indexes. -/
theorem ahead_of_applyEntry {entry : LogEntry} (hsyncer : entry.FromSyncer)
    (h : TrxProgress.Ahead X s.binlogProgress.toTrxProgress t.binlogProgress.toTrxProgress)
    (hs : s.applyEntry elapsed i entry = .ok s') (ht : t.applyEntry elapsed' j entry = .ok t') :
    TrxProgress.Ahead X s'.binlogProgress.toTrxProgress t'.binlogProgress.toTrxProgress := by
  cases entry with
  | binlog e =>
      have hc : e.Consistent := BinlogEvent.FromSyncer.consistent hsyncer
      obtain ⟨s₁, -, hobs, hw⟩ := of_applyEntry_binlog hc hs
      obtain ⟨t₁, -, hobs', hw'⟩ := of_applyEntry_binlog hc ht
      exact Stores.ahead (Observes.ahead h hobs hobs') hw hw'
  | masterGtidPurged text =>
      obtain ⟨m, hr⟩ := of_applyEntry_masterGtidPurged hs
      obtain ⟨m', hr'⟩ := of_applyEntry_masterGtidPurged ht
      exact ResetBy.ahead (s := { s with store := { s.store with gtidPurged := m } })
        (t := { t with store := { t.store with gtidPurged := m' } }) h hr hr'
  | other =>
      cases hs
      cases ht
      exact h

/-- The progress has in its executed set what it recorded last. -/
def Saved (s : KingbusServer) : Prop :=
  ∀ g, s.binlogProgress.lastSaveGtid = some g → g.RecordedIn s.binlogProgress.executedGtidSet

/-- An entry only adds to the executed set, and what was recorded last is in it. -/
theorem subset_of_applyEntry {entry : LogEntry} (hsyncer : entry.FromSyncer)
    (hs : s.applyEntry elapsed i entry = .ok s') :
    s.binlogProgress.executedGtidSet.Subset s'.binlogProgress.executedGtidSet ∧
      (s.Saved → s'.Saved) := by
  cases entry with
  | binlog e =>
      obtain ⟨s₁, -, hobs, hw⟩ :=
        of_applyEntry_binlog (BinlogEvent.FromSyncer.consistent hsyncer) hs
      rw [Saved, Saved, hw.executed, hw.lastSave]
      cases hobs with
      | first hfirst hb hobs =>
          rw [saveProgress_toTrxProgress]
          have ho := TrxProgress.observed_of_observe hobs
          exact ⟨ho.subset, ho.saved⟩
      | later _ => exact ⟨fun _ _ => id, id⟩
  | masterGtidPurged text =>
      obtain ⟨m, hr⟩ := of_applyEntry_masterGtidPurged hs
      have hsub : s.binlogProgress.executedGtidSet.Subset s'.binlogProgress.executedGtidSet :=
        fun sid n hn => (hr.executed sid n).mpr (.inl hn)
      exact ⟨hsub, fun hsaved g hg => (hsaved g (hr.lastSave ▸ hg)).mono hsub⟩
  | other =>
      cases hs
      exact ⟨fun _ _ => id, id⟩

end KingbusServer

end Kingbus
