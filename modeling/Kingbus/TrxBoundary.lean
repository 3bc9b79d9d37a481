import Kingbus.GtidSet

/-! # Event bodies and transaction boundaries

The decoders of the vendored `replication` package for the bodies that kingbus looks
into, and `TransactionBoundaryParser` of `mysql/trx_boundary_parser.go`. -/

namespace Kingbus

/-! ## Bodies -/

/-- A slice expression or an index out of range. -/
def outOfRange : EventFailure := .panic "slice bounds out of range"

/-- An event without its header and its checksum. -/
def eventBody (data : Bytes) : Except EventFailure Bytes :=
  if data.length < eventHeaderSize + binlogChecksumLength then .error outOfRange
  else .ok ((data.drop eventHeaderSize).take
    (data.length - eventHeaderSize - binlogChecksumLength))

/-- `QueryEvent.Decode`: the text of the query, behind status variables and schema. -/
def decodeQuery (data : Bytes) : Except EventFailure Bytes :=
  let pos := 13 + leAt data 11 2 + (data.getD 8 0).toNat + 1
  if data.length < 13 ∨ data.length < pos then .error outOfRange else .ok (data.drop pos)

theorem toInt64_ge (v : Nat) : -2 ^ 63 ≤ Wire.toInt64 v := by
  unfold Wire.toInt64
  simp only
  split <;> omega

theorem toInt64_lt (v : Nat) : Wire.toInt64 v < 2 ^ 63 := by
  unfold Wire.toInt64
  simp only
  split <;> omega

/-- `GTIDEvent.Decode`: the identifier and the number. -/
def decodeGtid (data : Bytes) : Except EventFailure Gtid :=
  if h : data.length < 25 then .error outOfRange
  else .ok
    { sid := ⟨(data.drop 1).take 16, by rw [List.length_take, List.length_drop]; omega⟩
      gno := Wire.toInt64 (leAt data 17 8)
      gno_ge := toInt64_ge _
      gno_lt := toInt64_lt _ }

/-- `RotateEvent.Decode`: the name of the next log. -/
def decodeRotate (data : Bytes) : Except EventFailure Bytes :=
  if data.length < 8 then .error outOfRange else .ok (data.drop 8)

/-! ## Query texts -/

/-- The bytes of an ASCII text. -/
def ascii (s : String) : Bytes := s.toList.map fun c => UInt8.ofNat c.toNat

/-- The upper case of an ASCII byte. -/
def upperByte (b : UInt8) : UInt8 := if 97 ≤ b ∧ b ≤ 122 then b - 32 else b

/-- `strings.ToUpper`, as far as comparison with ASCII texts can tell: of the
characters beyond ASCII only the dotless i and the long s have an ASCII upper case,
and all others stay beyond ASCII. -/
def toUpper : Bytes → Bytes
  | [] => []
  | [b] => [upperByte b]
  | b :: b' :: t =>
      if b = 0xc4 ∧ b' = 0xb1 then 0x49 :: toUpper t
      else if b = 0xc5 ∧ b' = 0xbf then 0x53 :: toUpper t
      else upperByte b :: toUpper (b' :: t)

/-! ## The parser -/

/-- `EventBoundaryType`. -/
inductive EventBoundaryType where
  | error
  | gtid
  | beginTrx
  | endTrx
  | endXaTrx
  | preStatement
  | statement
  | incident
  | ignore
  deriving DecidableEq, Repr

/-- `eventParserState`. -/
inductive ParserState where
  | none
  | gtid
  | ddl
  | dml
  | error
  deriving DecidableEq, Repr

/-- `LOG_EVENT_IGNORABLE_F`. -/
def logEventIgnorable : Nat := 0x80

/-- The boundary type of a query, from its text. -/
def queryBoundary (query : Bytes) : EventBoundaryType :=
  if toUpper query = ascii "BEGIN" ∨ toUpper query = ascii "XA START" then .beginTrx
  -- `ROLLBACK TO` is not told apart from `ROLLBACK`
  else if ascii "ROLLBACK" <+: toUpper query ∨ ascii "ROLLBACK TO " <+: toUpper query then .endTrx
  else if ascii "XA ROLLBACK" <+: toUpper query then .endXaTrx
  else .statement

/-- `GetEventBoundaryType`. -/
def getEventBoundaryType (h : EventHeader) (eventBody : Bytes) :
    Except EventFailure EventBoundaryType :=
  match h.eventType with
  | .gtid | .anonymousGtid => .ok .gtid
  | .query => (decodeQuery eventBody).map queryBoundary
  | .xid | .xaPrepareLog => .ok .endTrx
  | .intvar | .rand | .userVar => .ok .preStatement
  | .executeLoadQuery | .tableMap | .appendBlock | .beginLoadQuery | .rowsQuery | .writeRowsV2
  | .updateRowsV2 | .deleteRowsV2 | .writeRowsV1 | .updateRowsV1 | .deleteRowsV1 | .writeRowsV0
  | .updateRowsV0 | .deleteRowsV0 | .viewChange => .ok .statement
  | .incident => .ok .incident
  | .rotate | .formatDescription | .heartbeat | .previousGtids | .startV3 | .stop | .load | .slave
  | .createFile | .deleteFile | .newLoad | .execLoad | .transactionContext => .ok .ignore
  | .unknown | .ignorable | .other _ =>
      .ok (if h.flags = logEventIgnorable then .ignore else .error)

/-- `UpdateState`: the new state, and whether the call returns an error. -/
def ParserState.updateState (current : ParserState) : EventBoundaryType → ParserState × Bool
  | .gtid =>
      match current with
      | .gtid | .ddl | .dml | .error => (.gtid, true)
      | .none => (.gtid, false)
  | .beginTrx =>
      match current with
      | .ddl | .dml | .error => (.dml, true)
      | .none | .gtid => (.dml, false)
  | .endTrx =>
      match current with
      | .none | .gtid | .ddl | .error => (.none, true)
      | .dml => (.none, false)
  | .endXaTrx =>
      match current with
      | .none | .ddl | .error => (.none, true)
      | .dml | .gtid => (.none, false)
  | .statement =>
      match current with
      | .none | .gtid | .ddl => (.none, false)
      | .dml => (.dml, false)
      | .error => (.none, true)
  | .preStatement =>
      match current with
      | .none | .gtid => (.ddl, false)
      | .ddl | .dml => (current, false)
      | .error => (.none, true)
  | .incident => (.none, false)
  | .ignore => (current, false)
  | .error => (.error, true)

end Kingbus
