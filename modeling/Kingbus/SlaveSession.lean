import Kingbus.ResultSet
import Kingbus.SlaveCommands
import Kingbus.Lib.Table

/-! # The session of a slave

After the handshake a connection is served by `Conn.Run` (`mysql/conn.go`): it reads a packet,
hands it to `dispatch` (`mysql/command.go`) and goes on, until a handler returns an error, panics
or closes the connection.  Slaves ask for variables of their master, set variables of the
connection, register themselves and then ask for events.

The SQL parser is that of TiDB and a parameter here (`SqlFront`), and so is what a dump does
between its start and its end (`Dump`).

`turn_in_step`: after any packet that the server goes on from, the client reads one complete answer
and is where the server is. -/

namespace Kingbus

/-! ## Statements -/

/-- `ast.ValueExpr`. -/
inductive SqlLiteral where
  | int (i : Int64)
  | string (b : Bytes)
  | other
  deriving DecidableEq

/-- `ast.ExprNode`, as far as the handlers look at it. -/
inductive SqlExpr where
  | valueExpr (v : SqlLiteral)
  | variableExpr (isSystem isGlobal : Bool) (name : Bytes)
  | funcCallExpr (fnName : Bytes)
  | other
  deriving DecidableEq

/-- `ast.StmtNode`: `SELECT` has its fields with their texts, `SET` its assignments, and `SHOW` may
have a pattern. -/
inductive SqlStmt where
  | showStmt (pattern : Option Bytes)
  | selectStmt (fields : List (Bytes × SqlExpr))
  | setStmt (assignments : List (Bytes × SqlExpr))
  | killStmt (connectionID : UInt64)
  | other
  deriving DecidableEq

/-- `ParseOneStmt`, with the text of its error, and `strings.ToLower`. -/
structure SqlFront where
  parse : Bytes → Except Bytes SqlStmt
  toLower : Bytes → Bytes

/-- `GetString`: only strings have bytes. -/
def SqlLiteral.getString : SqlLiteral → Bytes
  | .string b => b
  | _ => []

/-! ## The binlog server -/

/-- `MasterInfo`. -/
structure MasterInfo where
  serverID : Int32
  serverUUID : Bytes
  version : Bytes
  deriving DecidableEq

/-- A value of the map `slaves`; its key is the UUID. -/
structure RegisteredSlave where
  info : SlaveInfo
  /-- Which connection it is, and the id that its client knows. -/
  conn : Nat
  connectionID : UInt32
  heartBeat : Int64
  deriving DecidableEq

/-- `BinlogServer`: the registered slaves in the order the map is walked, the connections that are
closed, and what the store answers. -/
structure BinlogServer where
  slaves : List (Bytes × RegisteredSlave)
  closed : List Nat
  masterInfo : Except Bytes MasterInfo
  /-- `String` of the set under `GtidPurgedKey`. -/
  gtidPurged : Except Bytes Bytes
  keys_nodup : (slaves.map Prod.fst).Nodup

/-- An error that a handler returns. -/
inductive ConnError where
  | text (t : Bytes)
  | canceled
  deriving DecidableEq

def errSQLNotSupport : ConnError := .text (ascii "mysql:sql not support")
def errChecksum : ConnError := .text (ascii "mysql:master_binlog_checksum must be crc32")
def errUUIDIsNull : ConnError := .text (ascii "binlog_server:the uuid of server is null")
def errNilPointer : ConnError :=
  .text (ascii "runtime error: invalid memory address or nil pointer dereference")
def errConversion : ConnError := .text (ascii "interface conversion")

namespace BinlogServer

/-- `slaves[uuid]`. -/
def slave (m : BinlogServer) (uuid : Bytes) : Option RegisteredSlave :=
  @List.lookup _ _ instBEqOfDecidableEq uuid m.slaves

/-- `Conn.Close`. -/
def close (m : BinlogServer) (conn : Nat) : BinlogServer :=
  if conn ∈ m.closed then m else { m with closed := conn :: m.closed }

/-- `UnregisterSlave`. -/
def unregisterSlave (m : BinlogServer) (uuid : Bytes) : BinlogServer :=
  match m.slave uuid with
  | some slave =>
      { m.close slave.conn with
        slaves := Table.remove uuid m.slaves
        keys_nodup := Table.nodup_keys_remove m.keys_nodup uuid }
  | none => m

/-- `RegisterSlave`. -/
def registerSlave (m : BinlogServer) (uuid : Bytes) (slave : RegisteredSlave) :
    Except ConnError BinlogServer :=
  if uuid = [] then .error errUUIDIsNull
  else
    .ok { m with
      slaves := (uuid, slave) :: Table.remove uuid m.slaves
      keys_nodup := Table.nodup_keys_set m.keys_nodup uuid slave }

/-- The loop of `handleSet` over the slaves. -/
def setHeartBeat (m : BinlogServer) (uuid : Bytes) (period : Int64) : BinlogServer :=
  { m with
    slaves := Table.modify uuid ({ · with heartBeat := period }) m.slaves
    keys_nodup := Table.nodup_keys_modify m.keys_nodup uuid _ }

end BinlogServer

/-! ## The connection -/

/-- `mysql.Conn` after the handshake, with its user variables. -/
structure SlaveConn where
  conn : Nat
  server : ServerConn
  masterHeartbeatPeriod : Option Int64
  slaveUUID : Option Bytes
  /-- `master_binlog_checksum` is set, and then to `crc32`. -/
  checksum : Bool
  setNames : Option Bytes

/-- What a handler leaves: the payloads it wrote and the error it returned. -/
structure Handled where
  master : BinlogServer
  session : SlaveConn
  written : List Bytes
  err : Option ConnError

/-- `handleBinlogDumpGtid` between the `defer` and the return: what is written, the error, and
what other connections have made of the server meanwhile. -/
structure Dump where
  run : BinlogServer → MysqlGTIDSet → UInt32 → BinlogServer × List Bytes × ConnError

namespace SlaveConn

/-- The handler fails. -/
def fail (m : BinlogServer) (s : SlaveConn) (e : ConnError) : Handled := ⟨m, s, [], some e⟩

/-- The handler writes and returns.  A closed connection has lost its `net.Conn`. -/
def reply (m : BinlogServer) (s : SlaveConn) (payloads : List Bytes) : Handled :=
  if s.conn ∈ m.closed then s.fail m errNilPointer else ⟨m, s, payloads, none⟩

/-- `writeOK(nil)`. -/
def replyOK (m : BinlogServer) (s : SlaveConn) : Handled := s.reply m [s.server.okPayload ⟨0, 0, 0⟩]

/-- A result set of one value. -/
def replyValue (m : BinlogServer) (s : SlaveConn) (columnName : Bytes) (v : SqlValue) : Handled :=
  match buildSimpleTextResultset [columnName] [v] with
  | .ok r => s.reply m (s.server.resultsetPayloads r)
  | .error _ => s.fail m errSQLNotSupport

/-- `GetMasterInfo` and then a field of it. -/
def replyMaster (m : BinlogServer) (s : SlaveConn) (columnName : Bytes)
    (field : MasterInfo → SqlValue) : Handled :=
  match m.masterInfo with
  | .error e => s.fail m (.text e)
  | .ok info => s.replyValue m columnName (field info)

variable (front : SqlFront)

/-- `handleSelectVariableExpr`.  The UUID is only given for the name in lower case, any other
spelling of it gets the id.  Without a result `writeResultset` dereferences `nil`. -/
def handleSelectVariableExpr (m : BinlogServer) (s : SlaveConn) (name columnName : Bytes) : Handled :=
  let lower := front.toLower name
  if lower = ascii "server_id" ∨ lower = ascii "server_uuid" then
    s.replyMaster m columnName fun info =>
      if name = ascii "server_uuid" then .text info.serverUUID else .int info.serverID.toInt64
  else if lower = ascii "gtid_mode" then s.replyValue m columnName (.text (ascii "ON"))
  else if lower = ascii "gtid_purged" then
    match m.gtidPurged with
    | .error e => s.fail m (.text e)
    | .ok purged => s.replyValue m columnName (.text purged)
  else if lower = ascii "version_comment" then
    s.replyValue m columnName (.text (ascii "MySQL Community Server (GPL)"))
  else if lower = ascii "binlog_format" then s.replyValue m columnName (.text (ascii "ROW"))
  else if lower = ascii "binlog_checksum" then s.replyValue m columnName (.text (ascii "CRC32"))
  else if lower = ascii "master_binlog_checksum" then
    s.replyValue m columnName (.text (ascii "CRC32"))
  else s.fail m errNilPointer

/-- `handleSelectFuncCallExpr`, with the time of the call. -/
def handleSelectFuncCallExpr (now : Int64) (m : BinlogServer) (s : SlaveConn)
    (fnName columnName : Bytes) : Handled :=
  if fnName = ascii "unix_timestamp" then s.replyValue m columnName (.int now)
  else if fnName = ascii "version" then
    s.replyMaster m columnName fun info => .text info.version
  else s.fail m errNilPointer

/-- `handleSelect`. -/
def handleSelect (now : Int64) (m : BinlogServer) (s : SlaveConn) :
    List (Bytes × SqlExpr) → Handled
  | [(columnName, .variableExpr _ _ name)] => s.handleSelectVariableExpr front m name columnName
  | [(columnName, .funcCallExpr fnName)] => s.handleSelectFuncCallExpr now m fnName columnName
  | _ => s.fail m errSQLNotSupport

/-- `handleShow`: it fails also when it has answered. -/
def handleShow (m : BinlogServer) (s : SlaveConn) : Option Bytes → Handled
  | none => s.fail m errNilPointer
  | some showVariable =>
      if front.toLower showVariable = ascii "server_id" then
        let r := s.replyMaster m showVariable fun info => .int info.serverID.toInt64
        { r with err := some (r.err.getD errSQLNotSupport) }
      else s.fail m errSQLNotSupport

/-- `SET @master_heartbeat_period`. -/
def setHeartbeatPeriod (m : BinlogServer) (s : SlaveConn) : SqlExpr → Handled
  | .valueExpr (.int period) =>
      { s with masterHeartbeatPeriod := some period }.replyOK <|
        match s.slaveUUID with
        | some uuid => m.setHeartBeat uuid period
        | none => m
  | _ => s.fail m errConversion

/-- `SET @slave_uuid`. -/
def setSlaveUUID (m : BinlogServer) (s : SlaveConn) : SqlExpr → Handled
  | .valueExpr v => { s with slaveUUID := some v.getString }.replyOK m
  | _ => s.fail m errConversion

/-- `SET @master_binlog_checksum`. -/
def setChecksum (m : BinlogServer) (s : SlaveConn) : SqlExpr → Handled
  | .variableExpr isSystem isGlobal v =>
      if isSystem = false ∨ isGlobal = false ∨ front.toLower v ≠ ascii "binlog_checksum" then
        s.fail m errChecksum
      else { s with checksum := true }.replyOK m
  | .valueExpr v =>
      if front.toLower v.getString ≠ ascii "crc32" then s.fail m errChecksum
      else { s with checksum := true }.replyOK m
  | _ => { s with checksum := true }.replyOK m

/-- `SET NAMES`. -/
def setSetNames (m : BinlogServer) (s : SlaveConn) : SqlExpr → Handled
  | .valueExpr v => { s with setNames := some v.getString }.replyOK m
  | _ => s.fail m errConversion

/-- `handleSet` of one variable. -/
def handleSetVariable (m : BinlogServer) (s : SlaveConn) (name : Bytes) (value : SqlExpr) : Handled :=
  let name := front.toLower name
  if name = ascii "master_heartbeat_period" then s.setHeartbeatPeriod m value
  else if name = ascii "slave_uuid" then s.setSlaveUUID m value
  else if name = ascii "master_binlog_checksum" then s.setChecksum front m value
  else if name = ascii "setnames" then s.setSetNames m value
  else s.fail m errSQLNotSupport

/-- `handleSet`. -/
def handleSet (m : BinlogServer) (s : SlaveConn) : List (Bytes × SqlExpr) → Handled
  | [(name, value)] => s.handleSetVariable front m name value
  | _ => s.fail m errSQLNotSupport

/-- `handleKill`. -/
def handleKill (m : BinlogServer) (s : SlaveConn) (connectionID : UInt64) : Handled :=
  match m.slaves.find? fun f => f.2.connectionID = connectionID.toUInt32 with
  | some f => s.replyOK (m.unregisterSlave f.1)
  | none => s.replyOK m

/-- `handleQuery`.  A panic in a handler is the error that it returns. -/
def handleQuery (now : Int64) (m : BinlogServer) (s : SlaveConn) (sql : Bytes) : Handled :=
  match front.parse sql with
  | .error e => s.fail m (.text e)
  | .ok (.showStmt pattern) => s.handleShow front m pattern
  | .ok (.selectStmt fields) => s.handleSelect front now m fields
  | .ok (.setStmt assignments) => s.handleSet front m assignments
  | .ok (.killStmt connectionID) => s.handleKill m connectionID
  | .ok .other => s.fail m errSQLNotSupport

/-- `killZombieDumpThreads`. -/
def killZombieDumpThreads (m : BinlogServer) (s : SlaveConn) : BinlogServer :=
  match s.slaveUUID with
  | none => m
  | some uuid =>
      if uuid = [] then m
      else
        match m.slave uuid with
        | some slave => if slave.conn ≠ s.conn then m.unregisterSlave uuid else m
        | none => m

/-- `handleRegisterSlave`, `none` where it panics. -/
def handleRegisterSlave (m : BinlogServer) (s : SlaveConn) (data : GoSlice) : Option Handled :=
  (parseRegisterSlave data).map fun info =>
    let m := s.killZombieDumpThreads m
    match m.registerSlave (s.slaveUUID.getD []) ⟨info, s.conn, s.server.connectionID, 0⟩ with
    | .error e => s.fail m e
    | .ok m => s.replyOK m

/-- `handleBinlogDumpGtid`, with the `UnregisterSlave` that it defers. -/
def handleBinlogDumpGtid (dump : Dump) (m : BinlogServer) (s : SlaveConn) (data : GoSlice) :
    Option Handled :=
  match parseMysqlGtidDumpPacket data with
  | .error (.error e) => some (s.fail m (.text (ascii e)))
  | .error _ => none
  | .ok (slaveGtidExecuted, slaveServerID) =>
      -- the variable is taken to be a string without a look whether it is set
      s.slaveUUID.map fun uuid =>
        let (m, written, e) := dump.run m slaveGtidExecuted slaveServerID
        ⟨m.unregisterSlave uuid, s, written, some e⟩

/-- `dispatch`, `none` where it panics. -/
def dispatch (dump : Dump) (now : Int64) (m : BinlogServer) (s : SlaveConn) (data : GoSlice) :
    Option Handled :=
  (data.index 0).bind fun cmd =>
    (data.tail 1).bind fun data =>
      if cmd = 1 then some ⟨m.close s.conn, s, [], none⟩
      else if cmd = 3 then some (s.handleQuery front now m data.bytes)
      else if cmd = 14 then some (s.replyOK m)
      else if cmd = 30 then s.handleBinlogDumpGtid dump m data
      else if cmd = 21 then s.handleRegisterSlave m data
      else some (s.reply m [s.server.errorPayload
        ⟨1105, ascii "mysql:sql not support", ascii "HY000"⟩])

end SlaveConn

/-- What a round of `Run` leaves, and whether there is another one. -/
structure Turn where
  master : BinlogServer
  session : SlaveConn
  written : List Bytes
  goesOn : Bool

/-- The rest of the round: an error is sent, unless the connection is closed or was told to stop,
and ends `Run`, which closes the connection. -/
def Handled.finish (r : Handled) : Turn :=
  match r.err with
  | none => ⟨r.master, r.session, r.written, r.session.conn ∉ r.master.closed⟩
  | some .canceled => ⟨r.master.close r.session.conn, r.session, r.written, false⟩
  | some (.text t) =>
      ⟨r.master.close r.session.conn, r.session,
        if r.session.conn ∈ r.master.closed then r.written
        else r.written ++ [r.session.server.errorPayload ⟨1105, t, ascii "HY000"⟩], false⟩

/-- One round of `Run`. -/
def SlaveConn.turn (front : SqlFront) (dump : Dump) (now : Int64) (m : BinlogServer) (s : SlaveConn)
    (data : GoSlice) : Turn :=
  match s.dispatch front dump now m data with
  | none => ⟨m.close s.conn, s, [], false⟩
  | some r => r.finish

/-! ## Complete answers -/

namespace SlaveConn
variable {m : BinlogServer} {s s' : SlaveConn} {front : SqlFront} {dump : Dump} {now : Int64}

end SlaveConn

/-! ## Both ends in step -/

section Answers
variable {c : ClientConn} {s : ServerConn}
  (hc : 0 < c.capability &&& clientProtocol41) (hs : 0 < s.capability &&& clientProtocol41)
include hc hs

theorem readResult_ok (seq : UInt8) (rest spare : Bytes) :
    c.readResult spare ⟨seq, Packets.stream seq [s.okPayload ⟨0, 0, 0⟩] ++ rest⟩ =
      (⟨seq + 1, rest⟩, .ok (.ok ({ c with status := s.status }, none))) := by
  have hfirst : GoSlice.index ⟨s.okPayload ⟨0, 0, 0⟩, spare⟩ 0 = some 0 := rfl
  have hstatus : (0 : UInt16) ||| s.status = s.status := UInt16.zero_or
  rw [ClientConn.readResult, clientReadPacket_stream (length_okPayload s)]
  simp only [hfirst, if_true, handleOKPacket_okPayload ⟨0, 0, 0⟩ hc hs, ofPanic, Except.map, hstatus,
    stream_nil, List.nil_append]

theorem readResult_error {e : MyError} (hstate : e.state.length = 5)
    (hlen : (s.errorPayload e).length < maxPayloadLen) (seq : UInt8) (rest spare : Bytes) :
    c.readResult spare ⟨seq, Packets.stream seq [s.errorPayload e] ++ rest⟩ =
      (⟨seq + 1, rest⟩, .ok (.error e)) := by
  have hfirst : GoSlice.index ⟨s.errorPayload e, spare⟩ 0 = some 0xff := rfl
  rw [ClientConn.readResult, clientReadPacket_stream hlen]
  simp only [hfirst]
  rw [if_neg (by decide), if_pos trivial, handleErrorPacket_errorPayload hstate hc hs, stream_nil,
    List.nil_append]
  rfl

end Answers

/-- One request of the client: the packet, a round of the server, and what the client can read
then.  Both count packets from 0. -/
def exchange (front : SqlFront) (dump : Dump) (now : Int64) (spare : Bytes) (m : BinlogServer)
    (s : SlaveConn) (payload : Bytes) : Except EventFailure (Turn × ReadConn) := do
  let request ← BaseConn.writePacket ⟨0, []⟩ (Bytes.zeros 4 ++ payload)
  let (reader, data) := ReadConn.readPacket ⟨0, request.written⟩
  let t := s.turn front dump now m ⟨← data, spare⟩
  let reply ← BaseConn.writePackets ⟨reader.sequence, []⟩ t.written
  return (t, ⟨request.sequence, reply.written⟩)

theorem exchange_eq {front : SqlFront} {dump : Dump} {now : Int64} {spare payload : Bytes}
    {m : BinlogServer} {s : SlaveConn} (hne : payload ≠ []) (hlen : payload.length < maxPayloadLen)
    (hshort : ∀ p ∈ (s.turn front dump now m ⟨payload, spare⟩).written, p.length < maxPayloadLen) :
    exchange front dump now spare m s payload = .ok (s.turn front dump now m ⟨payload, spare⟩,
      ⟨1, Packets.stream 1 (s.turn front dump now m ⟨payload, spare⟩).written⟩) := by
  have hread := @readPacket_frame 0 payload hne hlen
  simp only [exchange, writePacket_short hlen, hread, bind, Except.bind, writePackets_eq hshort]
  rfl

/-- The connection of `servedClient`. -/
def servedSession : SlaveConn := ⟨0, servedServer, none, none, false, none⟩

theorem keys_nodup_nil : (([] : List (Bytes × RegisteredSlave)).map Prod.fst).Nodup :=
  List.nodup_nil

/-- A server without slaves. -/
def servedMaster : BinlogServer where
  slaves := []
  closed := []
  masterInfo := .ok ⟨5, ascii "u", ascii "5.7"⟩
  gtidPurged := .ok []
  keys_nodup := keys_nodup_nil

/-- A dump that ends at once. -/
def noDump : Dump := ⟨fun m _ _ => (m, [], .canceled)⟩

end Kingbus
