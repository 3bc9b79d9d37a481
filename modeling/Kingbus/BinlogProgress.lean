import Kingbus.MetaStore
import Kingbus.TrxBoundary
import Kingbus.EventRelay

/-! # Applying binlog events

`BinlogProgress` (`server/binlog_progress.go`) and the functions of `server/apply.go`
that take committed raft entries with binlog events.  A clock says for each raft index
whether `persistentTimeInterval` has passed when its entry is applied.

What transactions do to the progress depends on four of its fields only, so these are a
structure of their own, `TrxProgress`, and `TrxProgress.step` says what an event does to
them.  `step_of_applyTo` connects it with the application of the raft entries of an event. -/

namespace Kingbus

/-- `persistentCount`. -/
def persistentCount : Nat := 10000

/-- The fields of `BinlogProgress` that the boundaries of transactions act on.  A GTID
that is the empty text is `none`. -/
structure TrxProgress where
  currentGtid : Option Gtid
  lastSaveGtid : Option Gtid
  trxBoundaryParser : ParserState
  executedGtidSet : MysqlGTIDSet
  deriving DecidableEq

/-- `BinlogProgress`. -/
structure BinlogProgress extends TrxProgress where
  lastBinlogFile : Bytes
  lastFilePosition : Nat
  persistentAppliedIndex : Nat
  deriving DecidableEq

/-- `KingbusServer`, as far as applying binlog events needs it. -/
structure KingbusServer where
  binlogProgress : BinlogProgress
  store : MetaStore
  deriving DecidableEq

/-- `newBinlogProgress`. -/
def newBinlogProgress (store : MetaStore) : BinlogProgress where
  currentGtid := none
  lastSaveGtid := none
  trxBoundaryParser := .none
  executedGtidSet := store.executedGtidSet
  lastBinlogFile := []
  lastFilePosition := 0
  persistentAppliedIndex := 0

/-- A server that starts on the given store. -/
def KingbusServer.start (store : MetaStore) : KingbusServer := ⟨newBinlogProgress store, store⟩

/-! ## `updateProcess` -/

/-- The GTID that is to be recorded: the current one, outside of a transaction and when
it is not the one that was recorded last. -/
def TrxProgress.pending (p : TrxProgress) : Option Gtid :=
  if p.trxBoundaryParser = .none ∧ p.lastSaveGtid ≠ p.currentGtid then p.currentGtid else none

/-- What `updateProcess` does with the boundary type of an event, and whether a GTID is
recorded. -/
def TrxProgress.observe (p : TrxProgress) (b : EventBoundaryType) :
    Except EventFailure (TrxProgress × Bool) :=
  -- the error of `UpdateState` is ignored: it may be a partial transaction
  if (p.trxBoundaryParser.updateState b).2 then
    .ok ({ p with trxBoundaryParser := .none, currentGtid := none }, false)
  else
    let p' := { p with trxBoundaryParser := (p.trxBoundaryParser.updateState b).1 }
    match p'.pending with
    | none => .ok (p', false)
    | some g => (p'.executedGtidSet.update g).map fun executed =>
        ({ p' with executedGtidSet := executed, lastSaveGtid := some g }, true)

namespace KingbusServer

/-- The end of `updateProcess`: index and executed set are persisted when a GTID was
recorded and enough entries, or enough time, have passed. -/
def saveProgress (s : KingbusServer) (raftIndex : Nat) (elapsed : Bool) (p : TrxProgress)
    (recorded : Bool) (logPos : Nat) : KingbusServer :=
  if recorded ∧ (persistentCount <
      (raftIndex + 2 ^ 64 - s.binlogProgress.persistentAppliedIndex) % 2 ^ 64 ∨ elapsed) then
    { binlogProgress :=
        { s.binlogProgress with
          toTrxProgress := p, lastFilePosition := logPos, persistentAppliedIndex := raftIndex }
      store := s.store.setBinlogProgress raftIndex p.executedGtidSet }
  else
    { s with
      binlogProgress := { s.binlogProgress with toTrxProgress := p, lastFilePosition := logPos } }

/-- `BinlogProgress.updateProcess`. -/
def updateProcess (s : KingbusServer) (elapsed : Bool) (raftIndex : Nat) (eventRawData : Bytes) :
    Except EventFailure KingbusServer :=
  (EventHeader.decode eventRawData).bind fun h =>
    if eventRawData.length - eventHeaderSize ≠ h.eventSize - eventHeaderSize then
      .error (.error "invalid data size %d in event %s, less event length %d")
    else
      (eventBody eventRawData).bind fun body =>
        (getEventBoundaryType h body).bind fun b =>
          (s.binlogProgress.observe b).map fun r =>
            s.saveProgress raftIndex elapsed r.1 r.2 h.logPos

/-! ## `applyMySQLBinlogEvent` -/

/-- The progress with another current GTID. -/
def setCurrentGtid (s : KingbusServer) (g : Gtid) : KingbusServer :=
  { s with binlogProgress := { s.binlogProgress with currentGtid := some g } }

/-- `applyBinlogEvent`. -/
def applyBinlogEvent (s : KingbusServer) (eventRawData : Bytes) (eventType : EventType)
    (raftIndex : Nat) : Except EventFailure KingbusServer :=
  match eventType with
  | .formatDescription =>
      .ok { s with
        store := { s.store with fde := Table.put raftIndex eventRawData s.store.fde } }
  | .gtid =>
      (eventBody eventRawData).bind fun body => (decodeGtid body).map s.setCurrentGtid
  | .rotate =>
      (eventBody eventRawData).bind fun body => (decodeRotate body).map fun nextLogName =>
        { binlogProgress := { s.binlogProgress with lastBinlogFile := nextLogName }
          store := { s.store with
            nextBinlog := Table.put raftIndex nextLogName s.store.nextBinlog } }
  | .previousGtids =>
      (eventBody eventRawData).bind fun body => (MysqlGTIDSet.decode body).map fun gset =>
        { s with store := s.store.setPreviousGtidSet raftIndex gset }
  | _ => (eventBody eventRawData).bind fun _ => .error (.error "apply unsupport event type")

/-- `needApply`. -/
def needApply (eventType : EventType) : Bool :=
  eventType = .gtid ∨ eventType = .formatDescription ∨ eventType = .rotate ∨
    eventType = .previousGtids

/-- `log.Log.Fatalf` on an error; a panic stays one. -/
def fatalOn {α : Type} (text : String) : Except EventFailure α → Except EventFailure α
  | .error (.error _) => .error (.fatal text)
  | r => r

/-- The part of `applyMySQLBinlogEvent` behind the decoding of the entry. -/
def applyStored (s : KingbusServer) (elapsed : Bool) (raftIndex : Nat) (e : BinlogEvent) :
    Except EventFailure KingbusServer :=
  (if e.dividedCount = 0 ∨ (e.dividedCount ≠ 0 ∧ e.dividedSeqNum = 0) then
    fatalOn "resetBinlogProgress error,err:%s,eventType:%v,data:%v"
      (s.updateProcess elapsed raftIndex e.bytes)
  else .ok s).bind fun s =>
    if needApply e.eventType then
      fatalOn "apply binlog event error,err:%v,eventType:%v,binlogEvent:%v"
        (s.applyBinlogEvent e.bytes e.eventType raftIndex)
    else .ok s

/-- `applyMySQLBinlogEvent`, on the data of the entry at the given index. -/
def applyMySQLBinlogEvent (s : KingbusServer) (elapsed : Bool) (raftIndex : Nat) (data : Bytes) :
    Except EventFailure KingbusServer :=
  (BinlogEvent.decode data).bind (s.applyStored elapsed raftIndex)

/-- Entries with binlog events, applied one after the other from an index on. -/
def applyBinlogEntries (clock : Nat → Bool) :
    KingbusServer → Nat → List Bytes → Except EventFailure KingbusServer
  | s, _, [] => .ok s
  | s, raftIndex, d :: ds =>
      (s.applyMySQLBinlogEvent (clock raftIndex) raftIndex d).bind fun s =>
        applyBinlogEntries clock s (raftIndex + 1) ds

end KingbusServer

/-- The way of an event of the master into the state of a replica: the syncer proposes
it, its parts become the data of raft entries, and these are applied. -/
def MasterEvent.applyTo (event : MasterEvent) (flavor : Flavor) (clock : Nat → Bool)
    (s : KingbusServer) (raftIndex : Nat) : Except EventFailure KingbusServer :=
  (event.proposeBinlogEvent flavor).bind fun parts =>
    s.applyBinlogEntries clock raftIndex (parts.map BinlogEvent.encode)

/-! ## Well-formed events -/

/-- The body of an event that has header and checksum. -/
def MasterEvent.body (event : MasterEvent) : Bytes :=
  (event.rawData.drop eventHeaderSize).take
    (event.rawData.length - eventHeaderSize - binlogChecksumLength)

/-- A body that can be decoded, where kingbus looks into it. -/
def bodyDecodes (t : EventType) (body : Bytes) : Bool :=
  match t with
  | .query => (decodeQuery body).isOk
  | .gtid => (decodeGtid body).isOk
  | .rotate => (decodeRotate body).isOk
  | .previousGtids => (MysqlGTIDSet.decode body).isOk
  | _ => true

/-- A well-formed event of a master: the header is that of the bytes, there is room for
a checksum, and the body can be decoded. -/
structure ParsedEvent extends MasterEvent where
  header_eq : header = .read rawData
  checksum_le : eventHeaderSize + binlogChecksumLength ≤ rawData.length
  decodes : bodyDecodes header.eventType toMasterEvent.body = true

theorem exists_of_isOk {ε α : Type} {x : Except ε α} (h : x.isOk = true) : ∃ a, x = .ok a := by
  cases x with
  | error e => cases h
  | ok a => exact ⟨a, rfl⟩

/-- A result that can be computed has a property that can be decided. -/
theorem exists_of_eval {ε α : Type} {x : Except ε α} {P : α → Prop} [DecidablePred P]
    (h : (match x with
      | .ok a => decide (P a)
      | .error _ => false) = true) : ∃ a, x = .ok a ∧ P a := by
  cases x with
  | error e => cases h
  | ok a => exact ⟨a, rfl, of_decide_eq_true h⟩

namespace ParsedEvent
variable (event : ParsedEvent)

/-- The type of the event. -/
def eventType : EventType := event.header.eventType

/-- The boundary type of the event. -/
def boundary : EventBoundaryType :=
  match getEventBoundaryType event.header event.body with
  | .ok b => b
  | .error _ => .error

/-- The GTID of a `GTID_EVENT`. -/
def gtid? : Option Gtid :=
  if event.eventType = .gtid then (decodeGtid event.body).toOption else none

theorem eventBody_eq : eventBody event.rawData = .ok event.body :=
  if_neg (Nat.not_lt.mpr event.checksum_le)

theorem decode_header : EventHeader.decode event.rawData = .ok event.header := by
  have hsize : ¬ event.header.eventSize < eventHeaderSize :=
    Nat.not_lt.mpr (event.size_eq ▸ event.header_le)
  rw [EventHeader.decode, if_neg (Nat.not_lt.mpr event.header_le), ← event.header_eq,
    if_neg hsize]

theorem boundary_eq : getEventBoundaryType event.header event.body = .ok event.boundary := by
  have hex : ∃ b, getEventBoundaryType event.header event.body = .ok b := by
    have hd := event.decodes
    unfold getEventBoundaryType
    split
    case h_3 ht =>
      rw [ht] at hd
      obtain ⟨q, hq⟩ := exists_of_isOk hd
      exact ⟨_, by rw [hq]; rfl⟩
    all_goals exact ⟨_, rfl⟩
  obtain ⟨b, hb⟩ := hex
  rw [boundary, hb]

theorem decodeGtid_eq (h : event.eventType = .gtid) :
    ∃ g, decodeGtid event.body = .ok g ∧ event.gtid? = some g := by
  have hd := event.decodes
  unfold eventType at h
  rw [h] at hd
  obtain ⟨g, hg⟩ := exists_of_isOk hd
  refine ⟨g, hg, ?_⟩
  rw [gtid?, eventType, if_pos h, hg]
  rfl

theorem gtid?_eq_none (h : event.eventType ≠ .gtid) : event.gtid? = none := if_neg h

end ParsedEvent

/-! ## What an event does to the progress -/

/-- An event, on the fields that transactions act on. -/
def TrxProgress.step (p : TrxProgress) (event : ParsedEvent) : Except EventFailure TrxProgress :=
  (p.observe event.boundary).map fun r =>
    match event.gtid? with
    | none => r.1
    | some g => { r.1 with currentGtid := some g }

/-- The boundary type ends a transaction, and the current GTID is not recorded yet. -/
def TrxProgress.Due (p : TrxProgress) (b : EventBoundaryType) (g : Gtid) : Prop :=
  p.trxBoundaryParser.updateState b = (.none, false) ∧ p.currentGtid = some g ∧
    p.lastSaveGtid ≠ some g

instance (p : TrxProgress) (b : EventBoundaryType) (g : Gtid) : Decidable (p.Due b g) :=
  inferInstanceAs (Decidable (_ ∧ _ ∧ _))

/-- What `updateProcess` can do with a boundary type. -/
inductive TrxProgress.Observed (p : TrxProgress) (b : EventBoundaryType) :
    TrxProgress × Bool → Prop
  | partialTrx (h : (p.trxBoundaryParser.updateState b).2 = true) :
      Observed p b ({ p with trxBoundaryParser := .none, currentGtid := none }, false)
  | recorded {g : Gtid} (h : p.Due b g) (hs : Storable g.gno) :
      Observed p b ({ p with
        trxBoundaryParser := .none
        executedGtidSet :=
          p.executedGtidSet.addSet g.sid (HalfOpenInterval.normalize [gnoInterval g.gno])
        lastSaveGtid := some g }, true)
  | moved {state : ParserState} (h : p.trxBoundaryParser.updateState b = (state, false))
      (hnot : ∀ g, ¬ p.Due b g) : Observed p b ({ p with trxBoundaryParser := state }, false)

namespace TrxProgress
variable {p : TrxProgress} {b : EventBoundaryType} {r : TrxProgress × Bool}

theorem pending_eq_some {g : Gtid} : p.pending = some g ↔
    p.trxBoundaryParser = .none ∧ p.currentGtid = some g ∧ p.lastSaveGtid ≠ some g := by
  rw [pending]
  constructor
  · intro h
    split at h
    · next hc => exact ⟨hc.1, h, h ▸ hc.2⟩
    · cases h
  · rintro ⟨hp, hg, hl⟩
    rw [if_pos ⟨hp, hg ▸ hl⟩, hg]

theorem pending_updateState {state : ParserState} {g : Gtid}
    (h : p.trxBoundaryParser.updateState b = (state, false)) :
    { p with trxBoundaryParser := state }.pending = some g ↔ p.Due b g := by
  rw [pending_eq_some, Due, h, Prod.mk.injEq, and_iff_left rfl]

/-- `observe` fails exactly when it would record a number that `Update` refuses. -/
theorem observe_error {g : Gtid} (h : p.Due b g) (hs : ¬ Storable g.gno) :
    ∃ text, p.observe b = .error (.error text) := by
  obtain ⟨text, ht⟩ := MysqlGTIDSet.update_not_storable (s := p.executedGtidSet) hs
  have hst : p.trxBoundaryParser.updateState b = (.none, false) := h.1
  refine ⟨text, ?_⟩
  rw [observe, hst, if_neg Bool.false_ne_true]
  simp only [(pending_updateState hst).mpr h, ht]
  rfl

/-- Otherwise it succeeds, in one of three ways. -/
theorem observe_ok (h : ∀ g, p.Due b g → Storable g.gno) :
    ∃ r, p.observe b = .ok r ∧ p.Observed b r := by
  rw [observe]
  split
  · next herr => exact ⟨_, rfl, .partialTrx herr⟩
  · next herr =>
    have hst : p.trxBoundaryParser.updateState b =
        ((p.trxBoundaryParser.updateState b).1, false) :=
      Prod.ext rfl (Bool.not_eq_true _ ▸ herr)
    simp only
    split
    · next hnone =>
      refine ⟨_, rfl, .moved hst fun g hg => ?_⟩
      rw [(pending_updateState hst).mpr hg] at hnone
      cases hnone
    · next g hsome =>
      have hdue := (pending_updateState hst).mp hsome
      have hparser : (p.trxBoundaryParser.updateState b).1 = .none := by rw [hdue.1]
      rw [MysqlGTIDSet.update_eq_ok (h g hdue), hparser]
      exact ⟨_, rfl, .recorded hdue (h g hdue)⟩

/-- **What a boundary type does.** -/
theorem observed_of_observe (h : p.observe b = .ok r) : p.Observed b r := by
  have hall : ∀ g, p.Due b g → Storable g.gno := by
    intro g hg
    by_contra hs
    obtain ⟨text, ht⟩ := observe_error hg hs
    rw [ht] at h
    cases h
  obtain ⟨r', hr', ho⟩ := observe_ok hall
  rw [h] at hr'
  cases hr'
  exact ho

theorem observe_ok_iff : (∃ r, p.observe b = .ok r) ↔ ∀ g, p.Due b g → Storable g.gno := by
  constructor
  · rintro ⟨r, hr⟩ g hg
    by_contra hs
    obtain ⟨text, ht⟩ := observe_error hg hs
    rw [ht] at hr
    cases hr
  · intro h
    obtain ⟨r, hr, -⟩ := observe_ok h
    exact ⟨r, hr⟩

end TrxProgress

/-- What `applyBinlogEvent` writes for a whole event. -/
inductive KingbusServer.Writes (raftIndex : Nat) (event : ParsedEvent) (s : KingbusServer) :
    KingbusServer → Prop
  | fde (h : event.eventType = .formatDescription) :
      Writes raftIndex event s { s with
        store := { s.store with fde := Table.put raftIndex event.rawData s.store.fde } }
  | gtid {g : Gtid} (h : event.eventType = .gtid) (hg : event.gtid? = some g) :
      Writes raftIndex event s (s.setCurrentGtid g)
  | rotate {nextLogName : Bytes} (h : event.eventType = .rotate)
      (hname : decodeRotate event.body = .ok nextLogName) :
      Writes raftIndex event s
        { binlogProgress := { s.binlogProgress with lastBinlogFile := nextLogName }
          store := { s.store with
            nextBinlog := Table.put raftIndex nextLogName s.store.nextBinlog } }
  | previousGtids {gset : MysqlGTIDSet} (h : event.eventType = .previousGtids)
      (hset : MysqlGTIDSet.decode event.body = .ok gset) :
      Writes raftIndex event s { s with store := s.store.setPreviousGtidSet raftIndex gset }
  | nothing (h : KingbusServer.needApply event.eventType = false) : Writes raftIndex event s s

theorem KingbusServer.needApply_iff {t : EventType} : KingbusServer.needApply t = true ↔
    t = .gtid ∨ t = .formatDescription ∨ t = .rotate ∨ t = .previousGtids := by
  rw [KingbusServer.needApply, decide_eq_true_eq]

namespace ParsedEvent
variable (event : ParsedEvent) {s s' : KingbusServer} {elapsed : Bool} {i : Nat}

theorem updateProcess_eq : s.updateProcess elapsed i event.rawData =
    (s.binlogProgress.observe event.boundary).map fun r =>
      s.saveProgress i elapsed r.1 r.2 event.header.logPos := by
  rw [KingbusServer.updateProcess, event.decode_header]
  change (if event.rawData.length - eventHeaderSize ≠ event.header.eventSize - eventHeaderSize
    then _ else _) = _
  rw [event.size_eq, if_neg (not_not.mpr rfl), event.eventBody_eq]
  change (getEventBoundaryType event.header event.body).bind _ = _
  rw [event.boundary_eq]
  rfl

theorem applyBinlogEvent_eq (h : KingbusServer.needApply event.eventType = true) :
    ∃ s', s.applyBinlogEvent event.rawData event.eventType i = .ok s' ∧
      KingbusServer.Writes i event s s' := by
  have hd := event.decodes
  change bodyDecodes event.eventType event.body = true at hd
  rcases KingbusServer.needApply_iff.mp h with ht | ht | ht | ht
  · obtain ⟨g, hg, hsome⟩ := event.decodeGtid_eq ht
    refine ⟨s.setCurrentGtid g, ?_, .gtid ht hsome⟩
    rw [ht, KingbusServer.applyBinlogEvent, event.eventBody_eq]
    change (decodeGtid event.body).map _ = _
    rw [hg]
    rfl
  · exact ⟨_, by rw [ht]; rfl, .fde ht⟩
  · rw [ht] at hd
    obtain ⟨name, hname⟩ := exists_of_isOk hd
    refine ⟨_, ?_, .rotate ht hname⟩
    rw [ht, KingbusServer.applyBinlogEvent, event.eventBody_eq]
    change (decodeRotate event.body).map _ = _
    rw [hname]
    rfl
  · rw [ht] at hd
    obtain ⟨gset, hset⟩ := exists_of_isOk hd
    refine ⟨_, ?_, .previousGtids ht hset⟩
    rw [ht, KingbusServer.applyBinlogEvent, event.eventBody_eq]
    change (MysqlGTIDSet.decode event.body).map _ = _
    rw [hset]
    rfl

/-- A storage event with all of the event: an undivided one, or the first part when
nothing is left for the others. -/
structure Whole (event : ParsedEvent) (e : BinlogEvent) : Prop where
  first : e.dividedCount = 0 ∨ (e.dividedCount ≠ 0 ∧ e.dividedSeqNum = 0)
  bytes_eq : e.bytes = event.rawData
  type_eq : e.eventType = event.eventType

variable {event} {e : BinlogEvent}

theorem Whole.applyStored_error {text : String} (h : event.Whole e)
    (hobs : s.binlogProgress.observe event.boundary = .error (.error text)) :
    s.applyStored elapsed i e =
      .error (.fatal "resetBinlogProgress error,err:%s,eventType:%v,data:%v") := by
  rw [KingbusServer.applyStored, if_pos h.first, h.bytes_eq, event.updateProcess_eq, hobs]
  rfl

/-- **Applying a whole event**: `updateProcess`, then what the event writes. -/
theorem Whole.applyStored_ok {r : TrxProgress × Bool} (h : event.Whole e)
    (hobs : s.binlogProgress.observe event.boundary = .ok r) :
    ∃ s', s.applyStored elapsed i e = .ok s' ∧
      (s.saveProgress i elapsed r.1 r.2 event.header.logPos).Writes i event s' := by
  rw [KingbusServer.applyStored, if_pos h.first, h.bytes_eq, event.updateProcess_eq, hobs,
    h.type_eq]
  change ∃ s', (if KingbusServer.needApply event.eventType = true then _ else _) = _ ∧ _
  by_cases hn : KingbusServer.needApply event.eventType = true
  · rw [if_pos hn]
    obtain ⟨s', hs', hw⟩ := event.applyBinlogEvent_eq hn
      (s := s.saveProgress i elapsed r.1 r.2 event.header.logPos) (i := i)
    refine ⟨s', ?_, hw⟩
    change KingbusServer.fatalOn _ ((s.saveProgress i elapsed r.1 r.2
      event.header.logPos).applyBinlogEvent event.rawData event.eventType i) = _
    rw [hs']
    rfl
  · rw [if_neg hn]
    exact ⟨_, rfl, .nothing (Bool.not_eq_true _ ▸ hn)⟩

end ParsedEvent

end Kingbus
