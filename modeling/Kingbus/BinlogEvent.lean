import Mathlib.Data.Fintype.Basic
import Kingbus.RaftEntry

/-! # Binlog events

`replication.EventHeader` and the event a syncer receives from its master, and
`storagepb.BinlogEvent`, the form in which events and parts of events travel in
raft entries, with its generated `Marshal` and `Unmarshal`. -/

namespace Kingbus
open Wire

/-- How a call on the binlog side can end without a result. -/
inductive EventFailure where
  | error (text : String)
  | fatal (text : String)
  | panic (text : String)
  deriving DecidableEq, Repr

/-- `replication.EventType`; a byte without a name is `other`. -/
inductive EventType where
  | unknown | startV3 | query | stop | rotate | intvar | load | slave | createFile | appendBlock
  | execLoad | deleteFile | newLoad | rand | userVar | formatDescription | xid | beginLoadQuery
  | executeLoadQuery | tableMap | writeRowsV0 | updateRowsV0 | deleteRowsV0 | writeRowsV1
  | updateRowsV1 | deleteRowsV1 | incident | heartbeat | ignorable | rowsQuery | writeRowsV2
  | updateRowsV2 | deleteRowsV2 | gtid | anonymousGtid | previousGtids | transactionContext
  | viewChange | xaPrepareLog
  | other (b : UInt8)
  deriving DecidableEq, Repr

namespace EventType

/-- The named types in the order of their values, from 0 on. -/
def named : List EventType :=
  [unknown, startV3, query, stop, rotate, intvar, load, slave, createFile, appendBlock, execLoad,
    deleteFile, newLoad, rand, userVar, formatDescription, xid, beginLoadQuery, executeLoadQuery,
    tableMap, writeRowsV0, updateRowsV0, deleteRowsV0, writeRowsV1, updateRowsV1, deleteRowsV1,
    incident, heartbeat, ignorable, rowsQuery, writeRowsV2, updateRowsV2, deleteRowsV2, gtid,
    anonymousGtid, previousGtids, transactionContext, viewChange, xaPrepareLog]

/-- The type a byte stands for. -/
def ofByte (b : UInt8) : EventType := named.getD b.toNat (other b)

/-- The byte of a type. -/
def toByte : EventType → UInt8
  | other b => b
  | t => UInt8.ofNat (named.idxOf t)

/-- No byte is lost when it is read as a type. -/
theorem toByte_ofByte (b : UInt8) : (ofByte b).toByte = b := by
  have h : ∀ n : Fin 256, (ofByte (UInt8.ofNat n)).toByte = UInt8.ofNat n := by decide +kernel
  have hb := h ⟨b.toNat, b.toNat_lt⟩
  rwa [UInt8.ofNat_toNat] at hb

end EventType

/-! ## Events from a master -/

/-- `EventHeaderSize`. -/
def eventHeaderSize : Nat := 19

/-- `BinlogChecksumLength`. -/
def binlogChecksumLength : Nat := 4

/-- `replication.EventHeader`. -/
@[ext] structure EventHeader where
  timestamp : Nat
  eventType : EventType
  serverID : Nat
  eventSize : Nat
  logPos : Nat
  flags : Nat
  eventSize_lt : eventSize < 2 ^ 32 := by decide
  deriving Repr

instance : DecidableEq EventHeader := fun _ _ => decidable_of_iff' _ EventHeader.ext_iff

/-- The little-endian number in `n` bytes from position `p` on. -/
def leAt (data : Bytes) (p n : Nat) : Nat := Bytes.leNat ((data.drop p).take n)

theorem leAt_lt (data : Bytes) (p n : Nat) : leAt data p n < 256 ^ n :=
  Nat.lt_of_lt_of_le (Bytes.leNat_lt _)
    (Nat.pow_le_pow_right (by decide) (List.length_take_le _ _))

/-- The header fields of at least 19 bytes. -/
def EventHeader.read (data : Bytes) : EventHeader where
  timestamp := leAt data 0 4
  eventType := .ofByte (data.getD 4 0)
  serverID := leAt data 5 4
  eventSize := leAt data 9 4
  logPos := leAt data 13 4
  flags := leAt data 17 2
  eventSize_lt := leAt_lt data 9 4

/-- `EventHeader.Decode`. -/
def EventHeader.decode (data : Bytes) : Except EventFailure EventHeader :=
  if data.length < eventHeaderSize then .error (.error "header size too short %d, must 19")
  else if (EventHeader.read data).eventSize < eventHeaderSize then
    .error (.error "invalid event size %d, must >= 19")
  else .ok (.read data)

/-- `replication.BinlogEvent`, as far as the syncer uses it: the header and all the
bytes of the event, as many as the header says. -/
structure MasterEvent where
  header : EventHeader
  rawData : Bytes
  size_eq : rawData.length = header.eventSize
  header_le : eventHeaderSize ≤ rawData.length

/-- An event of the given type and body; the fields that nothing depends on are
zero. -/
def MasterEvent.of (t : EventType) (body : Bytes) (h : eventHeaderSize + body.length < 2 ^ 32) :
    MasterEvent where
  header :=
    { timestamp := 0
      eventType := t
      serverID := 0
      eventSize := eventHeaderSize + body.length
      logPos := 0
      flags := 0
      eventSize_lt := h }
  rawData := Bytes.zeros 4 ++ ([t.toByte] ++ (Bytes.zeros 4 ++
    (Bytes.leBytes 4 (eventHeaderSize + body.length) ++ (Bytes.zeros 6 ++ body))))
  size_eq := by
    simp only [List.length_append, Bytes.length_zeros, Bytes.length_leBytes,
      List.length_singleton, eventHeaderSize]
    omega
  header_le := by
    simp only [List.length_append, Bytes.length_zeros, Bytes.length_leBytes,
      List.length_singleton, eventHeaderSize]
    omega

theorem MasterEvent.length_of {t : EventType} {body : Bytes}
    (h : eventHeaderSize + body.length < 2 ^ 32) :
    (MasterEvent.of t body h).rawData.length = eventHeaderSize + body.length :=
  (MasterEvent.of t body h).size_eq

/-! ## Events in raft entries -/

/-- `storagepb.BinlogEvent`.  `flavor` is the bit pattern of an `int32`. -/
@[ext] structure BinlogEvent where
  type : Nat
  flavor : Nat
  dividedCount : Nat
  dividedSeqNum : Nat
  data : Option Bytes
  type_lt : type < 2 ^ 32 := by decide
  flavor_lt : flavor < 2 ^ 32 := by decide
  dividedCount_lt : dividedCount < 2 ^ 32 := by decide
  dividedSeqNum_lt : dividedSeqNum < 2 ^ 32 := by decide
  deriving Repr

instance : DecidableEq BinlogEvent := fun _ _ => decidable_of_iff' _ BinlogEvent.ext_iff

namespace BinlogEvent

/-- `storagepb.BinlogEvent{}`. -/
def zero : BinlogEvent where
  type := 0
  flavor := 0
  dividedCount := 0
  dividedSeqNum := 0
  data := none
  type_lt := zero_lt_uint32
  flavor_lt := zero_lt_uint32
  dividedCount_lt := zero_lt_uint32
  dividedSeqNum_lt := zero_lt_uint32

/-- The bytes a possibly nil slice holds. -/
def bytes (e : BinlogEvent) : Bytes := e.data.getD []

/-- `replication.EventType(e.Type)`. -/
def eventType (e : BinlogEvent) : EventType := .ofByte (UInt8.ofNat e.type)

/-- The bytes of the `Data` field, absent when it is nil. -/
def dataField : Option Bytes → Bytes
  | none => []
  | some d => bytesField 5 d

/-- `BinlogEvent.Marshal`. -/
def marshal (e : BinlogEvent) : Bytes :=
  varintField 1 e.type ++ (varintField 2 (Entry.typeBits e.flavor) ++
    (varintField 3 e.dividedCount ++ (varintField 4 e.dividedSeqNum ++ dataField e.data)))

/-- The fields `BinlogEvent.Unmarshal` knows. -/
def kind : Nat → Option Kind
  | 1 | 2 | 3 | 4 => some .varint
  | 5 => some .bytes
  | _ => none

/-- One decoded field, stored. -/
def setField (m : BinlogEvent) : Nat × Value → BinlogEvent
  | (1, .varint v) => { m with type := v % 2 ^ 32, type_lt := mod_uint32_lt v }
  | (2, .varint v) => { m with flavor := v % 2 ^ 32, flavor_lt := mod_uint32_lt v }
  | (3, .varint v) =>
      { m with dividedCount := v % 2 ^ 32, dividedCount_lt := mod_uint32_lt v }
  | (4, .varint v) =>
      { m with dividedSeqNum := v % 2 ^ 32, dividedSeqNum_lt := mod_uint32_lt v }
  | (5, .bytes b) => { m with data := some b }
  | _ => m

/-- `BinlogEvent.Unmarshal` into `m`. -/
def unmarshal (m : BinlogEvent) (b : Bytes) : Except WireError BinlogEvent :=
  match decodeMessage kind b with
  | .error e => .error e
  | .ok fs => .ok (fs.foldl setField m)

/-- The fields of a marshalled event, in the order `Marshal` writes them. -/
theorem decodeMessage_marshal {e : BinlogEvent} {d : Bytes} (hd : e.data = some d)
    (h : d.length < 2 ^ 62) :
    decodeMessage kind e.marshal = .ok [(1, .varint e.type),
      (2, .varint (Entry.typeBits e.flavor)), (3, .varint e.dividedCount),
      (4, .varint e.dividedSeqNum), (5, .bytes d)] := by
  have h1 := sov_le e.type
  have h2 := sov_le (Entry.typeBits e.flavor)
  have h3 := sov_le e.dividedCount
  have h4 := sov_le e.dividedSeqNum
  have h5 := sov_le d.length
  have hlen : e.marshal.length = 1 + sov e.type + (1 + sov (Entry.typeBits e.flavor) +
      (1 + sov e.dividedCount + (1 + sov e.dividedSeqNum +
        (1 + d.length + sov d.length)))) := by
    rw [marshal, hd]
    simp only [dataField, List.length_append, length_varintField, length_bytesField]
  obtain ⟨f, hf⟩ : ∃ f, e.marshal.length = f + 1 + 1 + 1 + 1 + 1 :=
    ⟨e.marshal.length - 5, by omega⟩
  rw [decodeMessage, hf, marshal, hd, dataField, ← List.append_nil (bytesField 5 d)]
  refine decodeFields_varintField rfl (by omega) (by omega)
    (Nat.lt_trans e.type_lt (by decide)) ?_
  refine decodeFields_varintField rfl (by omega) (by omega) (Entry.typeBits_lt e.flavor_lt) ?_
  refine decodeFields_varintField rfl (by omega) (by omega)
    (Nat.lt_trans e.dividedCount_lt (by decide)) ?_
  refine decodeFields_varintField rfl (by omega) (by omega)
    (Nat.lt_trans e.dividedSeqNum_lt (by decide)) ?_
  refine decodeFields_bytesField rfl (by omega) (by omega) ?_ (decodeFields_nil kind _ _)
  simp only [length_varintField, length_bytesField]
  omega

/-- **Reading an event back.** -/
theorem unmarshal_marshal {e : BinlogEvent} {d : Bytes} (hd : e.data = some d)
    (h : d.length < 2 ^ 62) : unmarshal zero e.marshal = .ok e := by
  have h1 : e.type % 2 ^ 32 = e.type := Nat.mod_eq_of_lt e.type_lt
  have h2 := Entry.typeBits_mod e.flavor_lt
  have h3 : e.dividedCount % 2 ^ 32 = e.dividedCount := Nat.mod_eq_of_lt e.dividedCount_lt
  have h4 : e.dividedSeqNum % 2 ^ 32 = e.dividedSeqNum := Nat.mod_eq_of_lt e.dividedSeqNum_lt
  rw [unmarshal, decodeMessage_marshal hd h]
  simp only [List.foldl_cons, List.foldl_nil, setField, h1, h2, h3, h4, ← hd]

/-- `MySQLBinlogEventType`. -/
def mySQLBinlogEventType : UInt8 := 1

/-- `EncodeBinlogEvent`. -/
def encode (e : BinlogEvent) : Bytes := mySQLBinlogEventType :: e.marshal

/-- `DecodeBinlogEvent`, on the data of a raft entry. -/
def decode : Bytes → Except EventFailure BinlogEvent
  | [] => .error (.panic "slice bounds out of range")
  | _ :: b =>
      match unmarshal zero b with
      | .error _ => .error (.panic "unmarshal should never fail (%v)")
      | .ok e => .ok e

/-- **An event survives its raft entry.** -/
theorem decode_encode {e : BinlogEvent} {d : Bytes} (hd : e.data = some d)
    (h : d.length < 2 ^ 62) : decode e.encode = .ok e := by
  rw [encode, decode, unmarshal_marshal hd h]

end BinlogEvent

end Kingbus
