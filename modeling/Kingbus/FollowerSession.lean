import Kingbus.SlaveSession

/-! # A Kingbus that follows another one

The master of a Kingbus may be a Kingbus.  Its syncer then asks the other one what it knows of the
master (`server/binlog_syncer.go`), registers itself (`registerSlave` in
`replication/binlogsyncer.go` of `go-mysql`) and starts a dump.

* `follower_registers`: the registration always gets through, and the follower has its UUID then;
  but not with semi-synchronous replication.
* `follower_dump`: the dump is started from the set of the follower; what its end leaves.
* `follower_learns_master`: the follower knows of the master what the one it follows knows. -/

namespace Kingbus

/-- `GetString(row, column)`.  A number that `ParseFloat` would make is not printed here. -/
def ClientRows.getString (r : ClientRows) (row column : Nat) : Except EventFailure Bytes :=
  match r.values[row]? with
  | none => .error (.error "invalid row index %d")
  | some vs =>
      if r.fields.length ≤ column then .error (.error "invalid column index %d")
      else
        match vs[column]? with
        | none => .error (.panic "index out of range")
        | some .nil => .ok []
        | some (.bytes b) => .ok b
        | some (.int i) => .ok (formatInt i)
        | some (.uint n) => .ok (Decimal.put 19 n)
        | some (.float _) => .error (.error "FormatFloat")

/-- `s, _ := GetString(row, column)`: behind an error the text is empty.  A number is none of the
texts that it is compared with either. -/
def ClientRows.getText (r : ClientRows) (row column : Nat) : Except EventFailure Bytes :=
  match r.getString row column with
  | .error (.error _) => .ok []
  | text => text

/-- `GetInt(row, column)`: `GetUint` converted back. -/
def ClientRows.getInt (r : ClientRows) (row column : Nat) : Except EventFailure Int64 :=
  match r.values[row]? with
  | none => .error (.error "invalid row index %d")
  | some vs =>
      if r.fields.length ≤ column then .error (.error "invalid column index %d")
      else
        match vs[column]? with
        | none => .error (.panic "index out of range")
        | some .nil => .ok 0
        | some (.bytes b) => (parseUint b).map fun n => (UInt64.ofNat n).toInt64
        | some (.int i) => .ok (Int64.ofInt i)
        | some (.uint n) => .ok (UInt64.ofNat n).toInt64
        | some (.float _) => .error (.error "FormatFloat")

/-- Both ends of a connection, and whether `Run` goes on. -/
structure Peers where
  master : BinlogServer
  session : SlaveConn
  client : ClientConn
  goesOn : Bool

/-- What does not belong to the two ends: the parser, the dumps, the clock, and the bytes behind
packets in their buffers. -/
structure Surroundings where
  front : SqlFront
  dump : Dump
  now : Int64
  spare : Bytes

/-- `BinlogSyncerConfig`, as far as `prepare` reads it. -/
structure FollowerConfig extends SyncerConfig where
  serverUuid : Bytes
  heartbeatPeriod : Int64
  semiSyncEnabled : Bool
  /-- The last connection of the syncer. -/
  lastConnectionID : UInt32

namespace Peers
variable (env : Surroundings)

/-- `client.Conn.Execute`. -/
def execute (p : Peers) (sql : Bytes) :
    Except EventFailure (Peers × Except MyError (Option ClientRows)) :=
  if p.goesOn then
    (exchange env.front env.dump env.now env.spare p.master p.session (3 :: sql)).bind fun r =>
      match p.client.readResult env.spare r.2 with
      | (_, .error e) => .error e
      | (_, .ok (.error e)) => .ok (⟨r.1.master, r.1.session, p.client, r.1.goesOn⟩, .error e)
      | (_, .ok (.ok (c, rows))) => .ok (⟨r.1.master, r.1.session, c, r.1.goesOn⟩, .ok rows)
  else .error (.error "connection was bad")

/-- `Execute` of a statement whose result is not looked at. -/
def executeOK (p : Peers) (sql : Bytes) : Except EventFailure Peers :=
  (p.execute env sql).bind fun r =>
    match r.2 with
    | .error _ => .error (.error "ERROR %d (%s): %s")
    | .ok _ => .ok r.1

/-- `Execute` and a look at the rows. -/
def executeRows {α : Type} (p : Peers) (sql : Bytes) (get : ClientRows → Except EventFailure α) :
    Except EventFailure (Peers × α) :=
  (p.execute env sql).bind fun r =>
    match r.2 with
    | .error _ => .error (.error "ERROR %d (%s): %s")
    | .ok none => .error (.panic "nil pointer dereference")
    | .ok (some rows) => (get rows).map fun a => (r.1, a)

/-- `Execute` and `GetString(0, 0)`. -/
def executeString (p : Peers) (sql : Bytes) : Except EventFailure (Peers × Bytes) :=
  p.executeRows env sql (·.getString 0 0)

/-- `Execute` and `s, _ := GetString(0, 0)`. -/
def executeText (p : Peers) (sql : Bytes) : Except EventFailure (Peers × Bytes) :=
  p.executeRows env sql (·.getText 0 0)

/-- `Execute` and `GetInt(0, 0)`. -/
def executeInt (p : Peers) (sql : Bytes) : Except EventFailure (Peers × Int64) :=
  p.executeRows env sql (·.getInt 0 0)

end Peers

def killStatement (connectionID : UInt32) : Bytes :=
  ascii "KILL " ++ Decimal.put 19 connectionID.toNat

def selectChecksumStatement : Bytes := ascii "SELECT @@global.binlog_checksum"

def setChecksumStatement : Bytes := ascii "SET @master_binlog_checksum='CRC32'"

def setUUIDStatement (uuid : Bytes) : Bytes := ascii "SET @slave_uuid='" ++ uuid ++ ascii "'"

def setHeartbeatStatement (period : Int64) : Bytes :=
  ascii "SET @master_heartbeat_period=" ++ formatInt period.toInt ++ ascii ";"

def showSemiSyncStatement : Bytes := ascii "SHOW VARIABLES LIKE 'rpl_semi_sync_master_enabled';"

/-- A variable that a syncer asks for: the statement, the text of its field, whether it is global,
and the name. -/
structure MasterVariable where
  statement : String
  column : String
  isGlobal : Bool
  name : String
  deriving DecidableEq

namespace MasterVariable

def gtidPurged : MasterVariable := ⟨"SELECT @@gtid_purged", "@@gtid_purged", false, "gtid_purged"⟩
def gtidMode : MasterVariable := ⟨"SELECT @@gtid_mode", "@@gtid_mode", false, "gtid_mode"⟩
def binlogFormat : MasterVariable :=
  ⟨"SELECT @@binlog_format;", "@@binlog_format", false, "binlog_format"⟩
def serverID : MasterVariable :=
  ⟨"SELECT @@GLOBAL.SERVER_ID;", "@@GLOBAL.SERVER_ID", true, "server_id"⟩
def serverUUID : MasterVariable :=
  ⟨"SELECT @@GLOBAL.SERVER_UUID;", "@@GLOBAL.SERVER_UUID", true, "server_uuid"⟩

def all : List MasterVariable := [gtidPurged, gtidMode, binlogFormat, serverID, serverUUID]

end MasterVariable

namespace Peers
variable (env : Surroundings)

/-- The end of `registerSlave`: the packet and `ReadOKPacket`. -/
def registerCommand (p : Peers) (cfg : SyncerConfig) : Except EventFailure Peers :=
  if p.goesOn then
    (exchange env.front env.dump env.now env.spare p.master p.session
      cfg.registerSlaveCommand).bind fun r =>
        (r.2.clientReadPacket.2).bind fun data =>
          (ofPanic (p.client.readOK ⟨data, env.spare⟩)).bind fun answer =>
            match answer with
            | .error _ => .error (.error "ERROR %d (%s): %s")
            | .ok c => .ok ⟨r.1.master, r.1.session, c, r.1.goesOn⟩
  else .error (.error "connection was bad")

/-- `KILL` of the last connection; that it is not known is no error. -/
def killLast (p : Peers) (cfg : FollowerConfig) : Except EventFailure Peers :=
  if 0 < cfg.lastConnectionID then
    (p.execute env (killStatement cfg.lastConnectionID)).bind fun r =>
      match r.2 with
      | .error e => if e.code = 1094 then .ok r.1 else .error (.error "ERROR %d (%s): %s")
      | .ok _ => .ok r.1
  else .ok p

/-- The heartbeat period, if there is one. -/
def setHeartbeat (p : Peers) (cfg : FollowerConfig) : Except EventFailure Peers :=
  if 0 < cfg.heartbeatPeriod then
    p.executeOK env (setHeartbeatStatement cfg.heartbeatPeriod)
  else .ok p

/-- `registerSlave`, behind the handshake. -/
def registerSlave (p : Peers) (cfg : FollowerConfig) : Except EventFailure Peers := do
  let p ← p.killLast env cfg
  let (p, checksum) ← p.executeText env selectChecksumStatement
  if checksum ≠ ascii "CRC32" then .error (.error "master binlog_checksum is not CRC32")
  else
    let p ← p.executeOK env setChecksumStatement
    if cfg.serverUuid = [] then .error (.error "slaveUuid is nil")
    else
      let p ← p.executeOK env (setUUIDStatement cfg.serverUuid)
      let p ← p.setHeartbeat env cfg
      p.registerCommand env cfg.toSyncerConfig

/-- `enableSemiSync`. -/
def enableSemiSync (p : Peers) (cfg : FollowerConfig) : Except EventFailure Peers :=
  if cfg.semiSyncEnabled then
    (p.executeRows env showSemiSyncStatement (·.getText 0 1)).bind fun r =>
      if r.2 ≠ ascii "ON" then .ok r.1
      else r.1.executeOK env (ascii "SET @rpl_semi_sync_slave = 1;")
  else .ok p

/-- `prepare`, behind the handshake. -/
def prepare (p : Peers) (cfg : FollowerConfig) : Except EventFailure Peers :=
  (p.registerSlave env cfg).bind fun p => p.enableSemiSync env cfg

end Peers

/-! ## What the server does -/

namespace BinlogServer
variable {m : BinlogServer} {conn : Nat} {uuid uuid' : Bytes}

theorem mem_close {c : Nat} : c ∈ (m.close conn).closed ↔ c = conn ∨ c ∈ m.closed := by
  rw [close]
  by_cases hclosed : conn ∈ m.closed
  · rw [if_pos hclosed]
    exact ⟨.inr, fun h => h.elim (fun h => h ▸ hclosed) id⟩
  · rw [if_neg hclosed]
    exact List.mem_cons

theorem slave_close (m : BinlogServer) (conn : Nat) (uuid : Bytes) :
    (m.close conn).slave uuid = m.slave uuid := by
  rw [close]
  split
  · rfl
  · rfl

theorem slave_unregisterSlave (m : BinlogServer) (uuid uuid' : Bytes) :
    (m.unregisterSlave uuid).slave uuid' = if uuid' = uuid then none else m.slave uuid' := by
  rw [unregisterSlave]
  cases hlookup : m.slave uuid with
  | some slave => exact Table.lookup_remove m.slaves
  | none =>
      by_cases huuid : uuid' = uuid
      · rw [if_pos huuid, huuid]
        exact hlookup
      · rw [if_neg huuid]

theorem mem_slaves_unregisterSlave {f : Bytes × RegisteredSlave}
    (h : f ∈ (m.unregisterSlave uuid).slaves) : f ∈ m.slaves := by
  rw [unregisterSlave] at h
  split at h
  · exact Table.mem_of_mem_remove h
  · exact h

/-- A key has one slave. -/
theorem slave_of_mem {f : Bytes × RegisteredSlave} (h : f ∈ m.slaves) :
    m.slave f.1 = some f.2 :=
  Table.lookup_of_mem (List.pairwise_map.mp m.keys_nodup) h

theorem mem_of_slave {slave : RegisteredSlave} (h : m.slave uuid = some slave) :
    (uuid, slave) ∈ m.slaves :=
  Table.mem_of_lookup h

theorem closed_subset_unregisterSlave (m : BinlogServer) (uuid : Bytes) :
    m.closed ⊆ (m.unregisterSlave uuid).closed := by
  intro c hc
  rw [unregisterSlave]
  split
  · exact mem_close.mpr (.inr hc)
  · exact hc

/-- A slave is dropped together with its connection. -/
theorem conn_closed_unregisterSlave {slave : RegisteredSlave} (h : m.slave uuid = some slave) :
    slave.conn ∈ (m.unregisterSlave uuid).closed := by
  rw [unregisterSlave, h]
  exact mem_close.mpr (.inl rfl)

theorem slave_setHeartBeat (m : BinlogServer) (uuid uuid' : Bytes) (period : Int64) :
    (m.setHeartBeat uuid period).slave uuid' =
      if uuid' = uuid then (m.slave uuid').map ({ · with heartBeat := period }) else m.slave uuid' :=
  @Table.lookup_modify _ _ uuid uuid' _ (fun r : RegisteredSlave => { r with heartBeat := period })
    m.slaves

theorem slave_registerSlave {slave : RegisteredSlave} {m' : BinlogServer}
    (h : m.registerSlave uuid slave = .ok m') (uuid' : Bytes) :
    m'.closed = m.closed ∧ m'.slave uuid' = if uuid' = uuid then some slave else m.slave uuid' := by
  rw [registerSlave] at h
  split at h
  · cases h
  cases h
  exact ⟨rfl, Table.lookup_set slave m.slaves⟩

end BinlogServer

/-- The connection is open, and no slave is registered with it. -/
structure SlaveConn.Fresh (s : SlaveConn) (m : BinlogServer) : Prop where
  isOpen : s.conn ∉ m.closed
  unregistered : ∀ f ∈ m.slaves, f.2.conn ≠ s.conn

namespace SlaveConn
variable {m : BinlogServer} {s : SlaveConn} {front : SqlFront} {dump : Dump} {now : Int64}

theorem Fresh.unregisterSlave (h : s.Fresh m) (uuid : Bytes) : s.Fresh (m.unregisterSlave uuid) := by
  refine ⟨fun hclosed => ?_, fun f hf => h.unregistered f (BinlogServer.mem_slaves_unregisterSlave hf)⟩
  rw [BinlogServer.unregisterSlave] at hclosed
  split at hclosed
  · next slave hlookup =>
    rcases BinlogServer.mem_close.mp hclosed with hconn | hclosed
    · exact h.unregistered _ (BinlogServer.mem_of_slave hlookup) hconn.symm
    · exact h.isOpen hclosed
  · exact h.isOpen hclosed

theorem Fresh.of_conn {s' : SlaveConn} (h : s.Fresh m) (hconn : s'.conn = s.conn) : s'.Fresh m :=
  ⟨hconn ▸ h.isOpen, hconn ▸ h.unregistered⟩

theorem Fresh.setHeartBeat (h : s.Fresh m) (uuid : Bytes) (period : Int64) :
    s.Fresh (m.setHeartBeat uuid period) := by
  refine ⟨h.isOpen, fun f hf => ?_⟩
  obtain ⟨g, hg, rfl⟩ := List.mem_map.mp hf
  dsimp only
  split
  · exact h.unregistered g hg
  · exact h.unregistered g hg

/-- A fresh connection takes the UUID from whichever connection has it. -/
theorem Fresh.killZombieDumpThreads (h : s.Fresh m) {uuid : Bytes} (hs : s.slaveUUID = some uuid)
    (hne : uuid ≠ []) : s.killZombieDumpThreads m = m.unregisterSlave uuid := by
  rw [SlaveConn.killZombieDumpThreads, hs]
  simp only [hne, if_false]
  cases hslave : m.slave uuid with
  | none => rw [BinlogServer.unregisterSlave, hslave]
  | some slave => exact if_pos (h.unregistered _ (BinlogServer.mem_of_slave hslave))

theorem turn_query (sql spare : Bytes) :
    s.turn front dump now m ⟨3 :: sql, spare⟩ = (s.handleQuery front now m sql).finish := by
  rfl

theorem turn_register (packet spare : Bytes) {r : Handled}
    (h : s.handleRegisterSlave m ⟨packet, spare⟩ = some r) :
    s.turn front dump now m ⟨21 :: packet, spare⟩ = r.finish := by
  have hdispatch : s.dispatch front dump now m ⟨21 :: packet, spare⟩ =
      s.handleRegisterSlave m ⟨packet, spare⟩ := rfl
  rw [turn, hdispatch, h]

theorem finish_replyOK (h : s.conn ∉ m.closed) :
    (s.replyOK m).finish = ⟨m, s, [s.server.okPayload ⟨0, 0, 0⟩], true⟩ := by
  rw [replyOK, reply, if_neg h, Handled.finish]
  simp only [h, not_false_eq_true, decide_true]

theorem finish_replyValue (h : s.conn ∉ m.closed) {name : Bytes} {v : SqlValue} {r : Resultset}
    (hbuild : buildSimpleTextResultset [name] [v] = .ok r) :
    (s.replyValue m name v).finish = ⟨m, s, s.server.resultsetPayloads r, true⟩ := by
  rw [replyValue, hbuild]
  change (s.reply m (s.server.resultsetPayloads r)).finish = _
  rw [reply, if_neg h, Handled.finish]
  simp only [h, not_false_eq_true, decide_true]

end SlaveConn

/-- A text comes back, also the empty one, which arrives as `NULL`. -/
theorem ClientRows.getString_text (name text : Bytes) :
    ClientRows.getString ⟨[valueField name (.text text)], [[(SqlValue.text text).arrives]]⟩ 0 0 =
      .ok text := by
  by_cases htext : text = []
  · rw [htext]
    rfl
  · have harrives : (SqlValue.text text).arrives = .bytes text := if_neg htext
    rw [harrives]
    rfl

theorem ClientRows.getText_text (name text : Bytes) :
    ClientRows.getText ⟨[valueField name (.text text)], [[(SqlValue.text text).arrives]]⟩ 0 0 =
      .ok text := by
  rw [getText, getString_text]

theorem ClientRows.getInt_int (name : Bytes) (i : Int64) :
    ClientRows.getInt ⟨[valueField name (.int i)], [[(SqlValue.int i).arrives]]⟩ 0 0 = .ok i :=
  congrArg Except.ok (Int64.ofInt_toInt i)

namespace Peers
section Execute
variable {env : Surroundings} {m : BinlogServer} {s : SlaveConn} {c : ClientConn} {sql : Bytes}
  (hc : 0 < c.capability &&& clientProtocol41) (hs : 0 < s.server.capability &&& clientProtocol41)
  (hlen : sql.length + 1 < maxPayloadLen)
include hc hs hlen

/-- A statement that is answered with OK. -/
theorem execute_ok {m' : BinlogServer} {s' : SlaveConn} (hserver : s'.server = s.server)
    (hopen : s'.conn ∉ m'.closed)
    (hquery : s.handleQuery env.front env.now m sql = s'.replyOK m') :
    execute env ⟨m, s, c, true⟩ sql =
      .ok (⟨m', s', { c with status := s.server.status }, true⟩, .ok none) := by
  have hturn : s.turn env.front env.dump env.now m ⟨3 :: sql, env.spare⟩ =
      ⟨m', s', [s.server.okPayload ⟨0, 0, 0⟩], true⟩ := by
    rw [SlaveConn.turn_query, hquery, SlaveConn.finish_replyOK hopen, hserver]
  have hexchange := @exchange_eq env.front env.dump env.now env.spare (3 :: sql) m s
    (List.cons_ne_nil _ _) hlen (by
      rw [hturn]
      exact List.forall_mem_singleton.mpr (length_okPayload s.server))
  have hread := readResult_ok hc hs 1 [] env.spare
  rw [List.append_nil] at hread
  rw [execute, if_pos rfl, hexchange, hturn]
  simp only [Except.bind, hread]

/-- A statement that is answered with a value. -/
theorem execute_value (hopen : s.conn ∉ m.closed) {name : Bytes} {v : SqlValue}
    (hv : v.Short name)
    (hquery : s.handleQuery env.front env.now m sql = s.replyValue m name v) :
    execute env ⟨m, s, c, true⟩ sql =
      .ok (⟨m, s, { c with status := s.server.status }, true⟩,
        .ok (some ⟨[valueField name v], [[v.arrives]]⟩)) := by
  obtain ⟨r, hbuild, hshort, hread⟩ := query_answered hc hs hv 1 [] env.spare
  have hturn : s.turn env.front env.dump env.now m ⟨3 :: sql, env.spare⟩ =
      ⟨m, s, s.server.resultsetPayloads r, true⟩ := by
    rw [SlaveConn.turn_query, hquery, SlaveConn.finish_replyValue hopen hbuild]
  have hexchange := @exchange_eq env.front env.dump env.now env.spare (3 :: sql) m s
    (List.cons_ne_nil _ _) hlen (by
      rw [hturn]
      exact hshort)
  rw [List.append_nil] at hread
  rw [execute, if_pos rfl, hexchange, hturn]
  simp only [Except.bind, hread]

theorem executeOK_ok {m' : BinlogServer} {s' : SlaveConn} (hserver : s'.server = s.server)
    (hopen : s'.conn ∉ m'.closed)
    (hquery : s.handleQuery env.front env.now m sql = s'.replyOK m') :
    executeOK env ⟨m, s, c, true⟩ sql = .ok ⟨m', s', { c with status := s.server.status }, true⟩ := by
  rw [executeOK, execute_ok hc hs hlen hserver hopen hquery]
  rfl

/-- A value that is looked at. -/
theorem executeRows_value {α : Type} {get : ClientRows → Except EventFailure α} {a : α}
    (hopen : s.conn ∉ m.closed) {name : Bytes} {v : SqlValue} (hv : v.Short name)
    (hquery : s.handleQuery env.front env.now m sql = s.replyValue m name v)
    (hget : get ⟨[valueField name v], [[v.arrives]]⟩ = .ok a) :
    executeRows env ⟨m, s, c, true⟩ sql get =
      .ok (⟨m, s, { c with status := s.server.status }, true⟩, a) := by
  rw [executeRows, execute_value hc hs hlen hopen hv hquery]
  simp only [Except.bind, hget, Except.map]

/-- A statement that is refused. -/
theorem execute_refused (hopen : s.conn ∉ m.closed) {t : Bytes}
    (ht : (s.server.errorPayload ⟨1105, t, ascii "HY000"⟩).length < maxPayloadLen)
    (hquery : s.handleQuery env.front env.now m sql = s.fail m (.text t)) :
    execute env ⟨m, s, c, true⟩ sql =
      .ok (⟨m.close s.conn, s, c, false⟩, .error ⟨1105, t, ascii "HY000"⟩) := by
  have hturn : s.turn env.front env.dump env.now m ⟨3 :: sql, env.spare⟩ =
      ⟨m.close s.conn, s, [s.server.errorPayload ⟨1105, t, ascii "HY000"⟩], false⟩ := by
    rw [SlaveConn.turn_query, hquery, SlaveConn.fail, Handled.finish]
    simp only [hopen, if_false, List.nil_append]
  have hexchange := @exchange_eq env.front env.dump env.now env.spare (3 :: sql) m s
    (List.cons_ne_nil _ _) hlen (by
      rw [hturn]
      exact List.forall_mem_singleton.mpr ht)
  have hread := @readResult_error c s.server hc hs ⟨1105, t, ascii "HY000"⟩ rfl ht 1 [] env.spare
  rw [List.append_nil] at hread
  rw [execute, if_pos rfl, hexchange, hturn]
  simp only [Except.bind, hread]

end Execute

/-- The registration of a fresh connection that has told its UUID. -/
theorem registerCommand_ok {env : Surroundings} {m : BinlogServer} {s : SlaveConn} {c : ClientConn}
    (hc : 0 < c.capability &&& clientProtocol41)
    (hs : 0 < s.server.capability &&& clientProtocol41) {cfg : SyncerConfig}
    (hshort : cfg.slaveInfo.Short) (hfresh : s.Fresh m) {uuid : Bytes}
    (huuid : s.slaveUUID = some uuid) (hne : uuid ≠ []) :
    ∃ m', (m.unregisterSlave uuid).registerSlave uuid
        ⟨cfg.slaveInfo, s.conn, s.server.connectionID, 0⟩ = .ok m' ∧
      registerCommand env ⟨m, s, c, true⟩ cfg =
        .ok ⟨m', s, { c with status := s.server.status }, true⟩ := by
  obtain ⟨m', hm'⟩ : ∃ m', (m.unregisterSlave uuid).registerSlave uuid
      ⟨cfg.slaveInfo, s.conn, s.server.connectionID, 0⟩ = .ok m' := by
    rw [BinlogServer.registerSlave, if_neg hne]
    exact ⟨_, rfl⟩
  have hopen : s.conn ∉ m'.closed := by
    rw [(BinlogServer.slave_registerSlave hm' uuid).1]
    exact (hfresh.unregisterSlave uuid).isOpen
  have hhandle : s.handleRegisterSlave m ⟨cfg.slaveInfo.encode, env.spare⟩ =
      some (s.replyOK m') := by
    have hparse := parseRegisterSlave_complete hshort [] env.spare
    rw [List.append_nil] at hparse
    rw [SlaveConn.handleRegisterSlave, hparse, Option.map_some,
      hfresh.killZombieDumpThreads huuid hne, huuid, Option.getD_some]
    simp only [hm']
  have hturn : s.turn env.front env.dump env.now m ⟨cfg.registerSlaveCommand, env.spare⟩ =
      ⟨m', s, [s.server.okPayload ⟨0, 0, 0⟩], true⟩ := by
    rw [registerSlaveCommand_eq, SlaveConn.turn_register _ _ hhandle, SlaveConn.finish_replyOK hopen]
  have hlen : cfg.registerSlaveCommand.length < maxPayloadLen := by
    obtain ⟨hhost, huser, hpassword⟩ := hshort
    have hmax : 2000 < maxPayloadLen := by decide
    rw [registerSlaveCommand_eq]
    simp only [SlaveInfo.encode, List.length_cons, List.length_append, Bytes.length_leBytes,
      length_lengthPrefixed]
    omega
  have hexchange := @exchange_eq env.front env.dump env.now env.spare cfg.registerSlaveCommand m s
    (by rw [registerSlaveCommand_eq]; exact List.cons_ne_nil _ _) hlen (by
      rw [hturn]
      exact List.forall_mem_singleton.mpr (length_okPayload s.server))
  have hpacket := @clientReadPacket_stream 1 [] _ [] (length_okPayload s.server)
  have hfirst : GoSlice.index ⟨s.server.okPayload ⟨0, 0, 0⟩, env.spare⟩ 0 = some 0 := rfl
  have hstatus : (0 : UInt16) ||| s.server.status = s.server.status := UInt16.zero_or
  rw [List.append_nil] at hpacket
  refine ⟨m', hm', ?_⟩
  rw [registerCommand, if_pos rfl, hexchange, hturn]
  simp only [Except.bind, hpacket, ClientConn.readOK, hfirst, Option.bind_some, if_true,
    handleOKPacket_okPayload ⟨0, 0, 0⟩ hc hs, Option.map_some, ofPanic, hstatus]

end Peers

/-! ## Registration -/

/-- The parser understands the statements of a syncer.  Which text the pattern of the last one has
does not matter, as long as it is not the one variable that can be shown. -/
structure SqlFront.Understands (front : SqlFront) (cfg : FollowerConfig) : Prop where
  kill : front.parse (killStatement cfg.lastConnectionID) =
    .ok (.killStmt cfg.lastConnectionID.toUInt64)
  selectChecksum : front.parse selectChecksumStatement = .ok (.selectStmt
    [(ascii "@@global.binlog_checksum", .variableExpr true true (ascii "binlog_checksum"))])
  setChecksum : front.parse setChecksumStatement = .ok (.setStmt
    [(ascii "master_binlog_checksum", .valueExpr (.string (ascii "CRC32")))])
  setUUID : front.parse (setUUIDStatement cfg.serverUuid) = .ok (.setStmt
    [(ascii "slave_uuid", .valueExpr (.string cfg.serverUuid))])
  setHeartbeat : front.parse (setHeartbeatStatement cfg.heartbeatPeriod) = .ok (.setStmt
    [(ascii "master_heartbeat_period", .valueExpr (.int cfg.heartbeatPeriod))])
  showSemiSync : ∃ pattern, front.parse showSemiSyncStatement = .ok (.showStmt (some pattern)) ∧
    front.toLower pattern ≠ ascii "server_id"
  lower : ∀ name ∈ ["binlog_checksum", "master_binlog_checksum", "slave_uuid",
    "master_heartbeat_period"], front.toLower (ascii name) = ascii name
  lowerCRC32 : front.toLower (ascii "CRC32") = ascii "crc32"

/-- The strings of a syncer fit into the packets they are sent in. -/
structure FollowerConfig.Fits (cfg : FollowerConfig) : Prop where
  uuid : cfg.serverUuid ≠ []
  uuidLength : cfg.serverUuid.length < 2 ^ 16
  info : cfg.slaveInfo.Short

/-- Client and server are behind the handshake, and the connection is fresh. -/
structure Peers.Live (p : Peers) : Prop where
  goesOn : p.goesOn = true
  client : 0 < p.client.capability &&& clientProtocol41
  server : 0 < p.session.server.capability &&& clientProtocol41
  fresh : p.session.Fresh p.master

/-- What `registerSlave` leaves. -/
structure Peers.Follows (p p' : Peers) (cfg : FollowerConfig) : Prop where
  goesOn : p'.goesOn = true
  isOpen : p'.session.conn ∉ p'.master.closed
  slaveUUID : p'.session.slaveUUID = some cfg.serverUuid
  checksum : p'.session.checksum = true
  heartbeat : 0 < cfg.heartbeatPeriod →
    p'.session.masterHeartbeatPeriod = some cfg.heartbeatPeriod
  /-- The heartbeat period is not among what the server lists of the slave. -/
  registered : p'.master.slave cfg.serverUuid =
    some ⟨cfg.slaveInfo, p.session.conn, p.session.server.connectionID, 0⟩
  /-- No other connection has the UUID. -/
  replaced : ∀ old, p.master.slave cfg.serverUuid = some old → old.conn ∈ p'.master.closed
  /-- Only the last connection of the syncer is dropped besides. -/
  others : ∀ uuid, uuid ≠ cfg.serverUuid →
    (∀ r, p.master.slave uuid = some r → r.connectionID ≠ cfg.lastConnectionID) →
    p'.master.slave uuid = p.master.slave uuid

namespace SlaveConn
variable {m : BinlogServer} {s : SlaveConn} {front : SqlFront} {now : Int64} {cfg : FollowerConfig}

theorem handleQuery_kill (h : front.Understands cfg) :
    ∃ m', s.handleQuery front now m (killStatement cfg.lastConnectionID) = s.replyOK m' ∧
      (m' = m ∨ ∃ f ∈ m.slaves, f.2.connectionID = cfg.lastConnectionID ∧
        m' = m.unregisterSlave f.1) := by
  rw [handleQuery, h.kill]
  change ∃ m', s.handleKill m cfg.lastConnectionID.toUInt64 = _ ∧ _
  rw [handleKill]
  split
  · next f hfind =>
    refine ⟨_, rfl, .inr ⟨f, List.mem_of_find?_eq_some hfind, ?_, rfl⟩⟩
    have hid := List.find?_some hfind
    rw [decide_eq_true_eq, UInt32.toUInt32_toUInt64] at hid
    exact hid
  · exact ⟨m, rfl, .inl rfl⟩

theorem handleQuery_selectChecksum (h : front.Understands cfg) :
    s.handleQuery front now m selectChecksumStatement =
      s.replyValue m (ascii "@@global.binlog_checksum") (.text (ascii "CRC32")) := by
  have hlower := h.lower "binlog_checksum" (by decide)
  rw [handleQuery, h.selectChecksum]
  change s.handleSelectVariableExpr front m (ascii "binlog_checksum") _ = _
  rw [handleSelectVariableExpr, hlower]
  rfl

theorem handleQuery_setChecksum (h : front.Understands cfg) :
    s.handleQuery front now m setChecksumStatement = { s with checksum := true }.replyOK m := by
  have hlower := h.lower "master_binlog_checksum" (by decide)
  rw [handleQuery, h.setChecksum]
  change s.handleSetVariable front m (ascii "master_binlog_checksum") _ = _
  rw [handleSetVariable, hlower]
  change s.setChecksum front m (.valueExpr (.string (ascii "CRC32"))) = _
  rw [setChecksum, SqlLiteral.getString, h.lowerCRC32, if_neg (not_not_intro rfl)]

theorem handleQuery_setUUID (h : front.Understands cfg) :
    s.handleQuery front now m (setUUIDStatement cfg.serverUuid) =
      { s with slaveUUID := some cfg.serverUuid }.replyOK m := by
  have hlower := h.lower "slave_uuid" (by decide)
  rw [handleQuery, h.setUUID]
  change s.handleSetVariable front m (ascii "slave_uuid") _ = _
  rw [handleSetVariable, hlower]
  rfl

theorem handleQuery_setHeartbeat (h : front.Understands cfg) {uuid : Bytes}
    (huuid : s.slaveUUID = some uuid) :
    s.handleQuery front now m (setHeartbeatStatement cfg.heartbeatPeriod) =
      { s with masterHeartbeatPeriod := some cfg.heartbeatPeriod }.replyOK
        (m.setHeartBeat uuid cfg.heartbeatPeriod) := by
  have hlower := h.lower "master_heartbeat_period" (by decide)
  rw [handleQuery, h.setHeartbeat]
  change s.handleSetVariable front m (ascii "master_heartbeat_period") _ = _
  rw [handleSetVariable, hlower]
  change s.setHeartbeatPeriod m (.valueExpr (.int cfg.heartbeatPeriod)) = _
  rw [setHeartbeatPeriod, huuid]

theorem handleQuery_showSemiSync (h : front.Understands cfg) :
    s.handleQuery front now m showSemiSyncStatement = s.fail m errSQLNotSupport := by
  obtain ⟨pattern, hparse, hlower⟩ := h.showSemiSync
  rw [handleQuery, hparse]
  change s.handleShow front m (some pattern) = _
  rw [handleShow, if_neg hlower]

end SlaveConn

section Lengths

theorem length_killStatement (id : UInt32) : (killStatement id).length + 1 < maxPayloadLen := by
  have hput := Decimal.length_put_le 19 id.toNat
  have htext : (ascii "KILL ").length = 5 := rfl
  have hmax : 100 < maxPayloadLen := by decide
  rw [killStatement, List.length_append, htext]
  omega

theorem length_setUUIDStatement {uuid : Bytes} (h : uuid.length < 2 ^ 16) :
    (setUUIDStatement uuid).length + 1 < maxPayloadLen := by
  have htext : (ascii "SET @slave_uuid='").length = 17 := rfl
  have hquote : (ascii "'").length = 1 := rfl
  have hmax : 2 ^ 16 + 100 < maxPayloadLen := by decide
  rw [setUUIDStatement, List.length_append, List.length_append, htext, hquote]
  omega

theorem length_formatInt (i : Int) : (formatInt i).length ≤ 21 := by
  rw [formatInt]
  split
  · exact Nat.succ_le_succ (Decimal.length_put_le 19 _)
  · exact (Decimal.length_put_le 19 _).trans (Nat.le_succ _)

theorem length_setHeartbeatStatement (period : Int64) :
    (setHeartbeatStatement period).length + 1 < maxPayloadLen := by
  have hint := length_formatInt period.toInt
  have htext : (ascii "SET @master_heartbeat_period=").length = 29 := rfl
  have hend : (ascii ";").length = 1 := rfl
  have hmax : 100 < maxPayloadLen := by decide
  rw [setHeartbeatStatement, List.length_append, List.length_append, htext, hend]
  omega

theorem length_errorPayload_notSupport (s : ServerConn) :
    (s.errorPayload ⟨1105, ascii "mysql:sql not support", ascii "HY000"⟩).length <
      maxPayloadLen := by
  have htext : (ascii "mysql:sql not support").length = 21 := rfl
  have hstate : (ascii "HY000").length = 5 := rfl
  have hmax : 100 < maxPayloadLen := by decide
  rw [ServerConn.errorPayload, List.length_cons, List.length_append, List.length_append, htext,
    Bytes.length_leBytes]
  split
  · rw [List.length_cons, hstate]
    omega
  · rw [List.length_nil]
    omega

end Lengths

namespace Peers
section Register
variable {env : Surroundings} {m : BinlogServer} {s : SlaveConn} {c : ClientConn}
  {cfg : FollowerConfig} (hc : 0 < c.capability &&& clientProtocol41)
  (hs : 0 < s.server.capability &&& clientProtocol41) (hfront : env.front.Understands cfg)
  (hfresh : s.Fresh m)
include hc hs hfront hfresh

/-- The last connection is gone, if it was still there. -/
theorem killLast_ok :
    ∃ m' c', killLast env ⟨m, s, c, true⟩ cfg = .ok ⟨m', s, c', true⟩ ∧
      c'.capability = c.capability ∧
      (m' = m ∨ ∃ f ∈ m.slaves, f.2.connectionID = cfg.lastConnectionID ∧
        m' = m.unregisterSlave f.1) := by
  rw [killLast]
  by_cases hlast : 0 < cfg.lastConnectionID
  · obtain ⟨m', hquery, hm'⟩ := @SlaveConn.handleQuery_kill m s env.front env.now cfg hfront
    have hopen : s.conn ∉ m'.closed := by
      rcases hm' with rfl | ⟨f, -, -, rfl⟩
      · exact hfresh.isOpen
      · exact (hfresh.unregisterSlave f.1).isOpen
    refine ⟨m', { c with status := s.server.status }, ?_, rfl, hm'⟩
    rw [if_pos hlast, execute_ok hc hs (length_killStatement _) rfl hopen hquery]
    rfl
  · refine ⟨m, c, ?_, rfl, .inl rfl⟩
    rw [if_neg hlast]

/-- The heartbeat period goes to the connection, and to the slave that has the UUID by now. -/
theorem setHeartbeat_ok (huuid : s.slaveUUID = some cfg.serverUuid) :
    ∃ (m' : BinlogServer) (s' : SlaveConn),
      (m' = m ∨ m' = m.setHeartBeat cfg.serverUuid cfg.heartbeatPeriod) ∧ s'.Fresh m' ∧
      (s'.conn = s.conn ∧ s'.server = s.server ∧ s'.checksum = s.checksum) ∧
      s'.slaveUUID = some cfg.serverUuid ∧
      (0 < cfg.heartbeatPeriod → s'.masterHeartbeatPeriod = some cfg.heartbeatPeriod) ∧
      ∃ c', setHeartbeat env ⟨m, s, c, true⟩ cfg = .ok ⟨m', s', c', true⟩ ∧
        c'.capability = c.capability := by
  rw [setHeartbeat]
  by_cases hpos : 0 < cfg.heartbeatPeriod
  · have hok := @executeOK_ok env m s c _ hc hs (length_setHeartbeatStatement _)
      (m.setHeartBeat cfg.serverUuid cfg.heartbeatPeriod)
      { s with masterHeartbeatPeriod := some cfg.heartbeatPeriod } rfl hfresh.isOpen
      (SlaveConn.handleQuery_setHeartbeat hfront huuid)
    refine ⟨m.setHeartBeat cfg.serverUuid cfg.heartbeatPeriod,
      { s with masterHeartbeatPeriod := some cfg.heartbeatPeriod }, .inr rfl,
      (hfresh.setHeartBeat _ _).of_conn rfl, ⟨rfl, rfl, rfl⟩, huuid, fun _ => rfl,
      { c with status := s.server.status }, ?_, rfl⟩
    rw [if_pos hpos, hok]
  · exact ⟨m, s, .inl rfl, hfresh, ⟨rfl, rfl, rfl⟩, huuid, fun h => absurd h hpos, c, if_neg hpos,
      rfl⟩

/-- `registerSlave` behind the `KILL`: the server gets the new slave. -/
theorem registerSlave_killed (hfits : cfg.Fits) {p : Peers}
    (hkill : killLast env p cfg = .ok ⟨m, s, c, true⟩) :
    ∃ m₁ m' s', (m₁ = m ∨ m₁ = m.setHeartBeat cfg.serverUuid cfg.heartbeatPeriod) ∧
      (m₁.unregisterSlave cfg.serverUuid).registerSlave cfg.serverUuid
        ⟨cfg.slaveInfo, s.conn, s.server.connectionID, 0⟩ = .ok m' ∧
      (∃ c', registerSlave env p cfg = .ok ⟨m', s', c', true⟩ ∧ c'.capability = c.capability) ∧
      s'.conn = s.conn ∧ s'.server = s.server ∧ s'.slaveUUID = some cfg.serverUuid ∧
      s'.checksum = true ∧
      (0 < cfg.heartbeatPeriod → s'.masterHeartbeatPeriod = some cfg.heartbeatPeriod) := by
  let c₁ : ClientConn := { c with status := s.server.status }
  let s₁ : SlaveConn := { s with checksum := true }
  let s₂ : SlaveConn := { s₁ with slaveUUID := some cfg.serverUuid }
  have hchecksum : executeText env ⟨m, s, c, true⟩ selectChecksumStatement =
      .ok (⟨m, s, c₁, true⟩, ascii "CRC32") :=
    executeRows_value hc hs (by decide +kernel) hfresh.isOpen
      ⟨by decide +kernel, by decide +kernel⟩
      (SlaveConn.handleQuery_selectChecksum hfront) (ClientRows.getText_text _ _)
  have hsetChecksum : executeOK env ⟨m, s, c₁, true⟩ setChecksumStatement =
      .ok ⟨m, s₁, c₁, true⟩ :=
    @executeOK_ok env m s c₁ _ hc hs (by decide) m s₁ rfl hfresh.isOpen
      (SlaveConn.handleQuery_setChecksum hfront)
  have hsetUUID : executeOK env ⟨m, s₁, c₁, true⟩ (setUUIDStatement cfg.serverUuid) =
      .ok ⟨m, s₂, c₁, true⟩ :=
    @executeOK_ok env m s₁ c₁ _ hc hs (length_setUUIDStatement hfits.uuidLength) m s₂ rfl
      hfresh.isOpen (SlaveConn.handleQuery_setUUID hfront)
  obtain ⟨m₁, s₃, hm₁, hfresh₁, hsame, huuid, hperiod, c₂, hheartbeat, hcap⟩ :=
    @setHeartbeat_ok env m s₂ c₁ cfg hc hs hfront (hfresh.of_conn rfl) rfl
  obtain ⟨hconn, hserver, hsum⟩ := hsame
  obtain ⟨m', hm', hregister⟩ := @registerCommand_ok env m₁ s₃ c₂ (hcap ▸ hc) (hserver ▸ hs)
    cfg.toSyncerConfig hfits.info hfresh₁ cfg.serverUuid huuid hfits.uuid
  rw [hconn, hserver] at hm'
  refine ⟨m₁, m', s₃, hm₁, hm', ⟨{ c₂ with status := s₃.server.status }, ?_, hcap⟩, hconn, hserver,
    huuid, hsum, hperiod⟩
  rw [registerSlave]
  simp only [bind, Except.bind, hkill, hchecksum, hsetChecksum, hsetUUID, hheartbeat, hregister,
    ne_eq, not_true_eq_false, if_false, hfits.uuid]

end Register

/-- The slaves and the closed connections after a registration. -/
theorem follows_of_register {p : Peers} {m m₁ m' : BinlogServer} {s' : SlaveConn} {c' : ClientConn}
    {cfg : FollowerConfig} (hfresh : p.session.Fresh p.master)
    (hm : m = p.master ∨ ∃ f ∈ p.master.slaves, f.2.connectionID = cfg.lastConnectionID ∧
      m = p.master.unregisterSlave f.1)
    (hm₁ : m₁ = m ∨ m₁ = m.setHeartBeat cfg.serverUuid cfg.heartbeatPeriod)
    (hm' : (m₁.unregisterSlave cfg.serverUuid).registerSlave cfg.serverUuid
      ⟨cfg.slaveInfo, p.session.conn, p.session.server.connectionID, 0⟩ = .ok m')
    (hconn : s'.conn = p.session.conn) (huuid : s'.slaveUUID = some cfg.serverUuid)
    (hsum : s'.checksum = true)
    (hperiod : 0 < cfg.heartbeatPeriod → s'.masterHeartbeatPeriod = some cfg.heartbeatPeriod) :
    p.Follows ⟨m', s', c', true⟩ cfg := by
  have hfreshm : p.session.Fresh m := by
    rcases hm with rfl | ⟨f, -, -, rfl⟩
    · exact hfresh
    · exact hfresh.unregisterSlave f.1
  have hfresh₁ : p.session.Fresh m₁ := by
    rcases hm₁ with rfl | rfl
    · exact hfreshm
    · exact hfreshm.setHeartBeat _ _
  have hclosed := (BinlogServer.slave_registerSlave hm' cfg.serverUuid).1
  have hclosed₁ : m₁.closed = m.closed := by
    rcases hm₁ with rfl | rfl
    · rfl
    · rfl
  have hslave₁ : ∀ uuid, uuid ≠ cfg.serverUuid → m₁.slave uuid = m.slave uuid := by
    intro uuid hne
    rcases hm₁ with rfl | rfl
    · rfl
    · rw [BinlogServer.slave_setHeartBeat, if_neg hne]
  refine ⟨rfl, ?_, huuid, hsum, hperiod, ?_, ?_, ?_⟩
  · change s'.conn ∉ m'.closed
    rw [hclosed, hconn]
    exact (hfresh₁.unregisterSlave _).isOpen
  · change m'.slave cfg.serverUuid = _
    rw [(BinlogServer.slave_registerSlave hm' _).2, if_pos rfl]
  · intro old hold
    change old.conn ∈ m'.closed
    rw [hclosed]
    -- the old connection was closed by the `KILL`, or has the UUID until now
    have hkilled : m.slave cfg.serverUuid = some old ∨ old.conn ∈ m.closed := by
      rcases hm with rfl | ⟨f, hf, -, rfl⟩
      · exact .inl hold
      · by_cases huuid : cfg.serverUuid = f.1
        · rw [huuid] at hold
          exact .inr (BinlogServer.conn_closed_unregisterSlave hold)
        · rw [BinlogServer.slave_unregisterSlave, if_neg huuid]
          exact .inl hold
    rcases hkilled with hslave | hgone
    · obtain ⟨old', hold', hsame⟩ : ∃ old', m₁.slave cfg.serverUuid = some old' ∧
          old'.conn = old.conn := by
        rcases hm₁ with rfl | rfl
        · exact ⟨old, hslave, rfl⟩
        · rw [BinlogServer.slave_setHeartBeat, if_pos rfl, hslave]
          exact ⟨_, rfl, rfl⟩
      exact hsame ▸ BinlogServer.conn_closed_unregisterSlave hold'
    · exact BinlogServer.closed_subset_unregisterSlave _ _ (hclosed₁ ▸ hgone)
  · intro uuid hne hid
    change m'.slave uuid = _
    rw [(BinlogServer.slave_registerSlave hm' _).2, if_neg hne,
      BinlogServer.slave_unregisterSlave, if_neg hne, hslave₁ uuid hne]
    rcases hm with rfl | ⟨f, hf, hkill, rfl⟩
    · rfl
    · rw [BinlogServer.slave_unregisterSlave]
      refine if_neg fun huuid => ?_
      exact hid f.2 (huuid ▸ BinlogServer.slave_of_mem hf) hkill

end Peers

/-- **A Kingbus can follow another one.**  On a fresh connection the registration always gets
through, takes the UUID from whatever connection had it, and leaves every other slave alone but the
last connection of the syncer; unless the syncer asks for semi-synchronous replication, which ends
the connection. -/
theorem follower_registers {env : Surroundings} {p : Peers} {cfg : FollowerConfig} (hlive : p.Live)
    (hfront : env.front.Understands cfg) (hfits : cfg.Fits) :
    (cfg.semiSyncEnabled = false → ∃ p', p.prepare env cfg = .ok p' ∧ p.Follows p' cfg) ∧
    (cfg.semiSyncEnabled = true → ∃ p' e, p.registerSlave env cfg = .ok p' ∧ p.Follows p' cfg ∧
      p.prepare env cfg = .error e) := by
  obtain ⟨m, s, c, goesOn⟩ := p
  obtain ⟨hgo, hc, hs, hfresh⟩ := hlive
  cases hgo
  obtain ⟨m₀, c₀, hkill, hcap, hm₀⟩ := Peers.killLast_ok hc hs hfront hfresh
  have hfresh₀ : s.Fresh m₀ := by
    rcases hm₀ with rfl | ⟨f, -, -, rfl⟩
    · exact hfresh
    · exact hfresh.unregisterSlave f.1
  have hc₀ : 0 < c₀.capability &&& clientProtocol41 := hcap ▸ hc
  obtain ⟨m₁, m', s', hm₁, hm', ⟨c', hregister, hcap'⟩, hconn, hserver, huuid, hsum, hperiod⟩ :=
    Peers.registerSlave_killed hc₀ hs hfront hfresh₀ hfits hkill
  have hfollows : Peers.Follows ⟨m, s, c, true⟩ ⟨m', s', c', true⟩ cfg :=
    Peers.follows_of_register hfresh hm₀ hm₁ hm' hconn huuid hsum hperiod
  refine ⟨fun hsemi => ⟨_, ?_, hfollows⟩,
    fun hsemi => ⟨_, .error "ERROR %d (%s): %s", hregister, hfollows, ?_⟩⟩
  · rw [Peers.prepare, hregister]
    change Peers.enableSemiSync env _ cfg = _
    rw [Peers.enableSemiSync, hsemi, if_neg Bool.false_ne_true]
  · have hrefused := @Peers.execute_refused env m' s' c' showSemiSyncStatement (hcap' ▸ hc₀)
      (hserver ▸ hs) (by decide +kernel) hfollows.isOpen (ascii "mysql:sql not support")
      (length_errorPayload_notSupport s'.server) (SlaveConn.handleQuery_showSemiSync hfront)
    rw [Peers.prepare, hregister]
    change Peers.enableSemiSync env _ cfg = _
    rw [Peers.enableSemiSync, hsemi, if_pos rfl, Peers.executeRows, hrefused]
    rfl

/-- A syncer with UUID `u` whose last connection was number 7. -/
def sampleFollower : FollowerConfig :=
  ⟨⟨9, ascii "h", ascii "r", [1], 3306⟩, ascii "u", 30, false, 7⟩

/-- A parser of exactly the statements that a syncer sends. -/
def sampleFront : SqlFront where
  parse sql :=
    if sql = killStatement 7 then .ok (.killStmt 7)
    else if sql = selectChecksumStatement then .ok (.selectStmt
      [(ascii "@@global.binlog_checksum", .variableExpr true true (ascii "binlog_checksum"))])
    else if sql = setChecksumStatement then .ok (.setStmt
      [(ascii "master_binlog_checksum", .valueExpr (.string (ascii "CRC32")))])
    else if sql = setUUIDStatement (ascii "u") then .ok (.setStmt
      [(ascii "slave_uuid", .valueExpr (.string (ascii "u")))])
    else if sql = setHeartbeatStatement 30 then .ok (.setStmt
      [(ascii "master_heartbeat_period", .valueExpr (.int 30))])
    else if sql = showSemiSyncStatement then .ok (.showStmt (some []))
    else if sql = ascii "SELECT VERSION();" then .ok (.selectStmt
      [(ascii "VERSION()", .funcCallExpr (ascii "version"))])
    else
      match MasterVariable.all.find? fun q => ascii q.statement = sql with
      | some q => .ok (.selectStmt
          [(ascii q.column, .variableExpr true q.isGlobal (ascii q.name))])
      | none => .error (ascii "syntax error")
  toLower sql := sql.map fun b => if 65 ≤ b ∧ b ≤ 90 then b + 32 else b

theorem sampleFront_understands : sampleFront.Understands sampleFollower where
  kill := by decide +kernel
  selectChecksum := by decide +kernel
  setChecksum := by decide +kernel
  setUUID := by decide +kernel
  setHeartbeat := by decide +kernel
  showSemiSync := ⟨[], by decide +kernel, by decide +kernel⟩
  lower := by decide +kernel
  lowerCRC32 := by decide +kernel

def sampleEnv : Surroundings := ⟨sampleFront, noDump, 0, []⟩

/-- Number 7 has the UUID of the syncer, and another slave is there. -/
def sampleSlaves : List (Bytes × RegisteredSlave) :=
  [(ascii "u", ⟨⟨9, [], [], [], 0, 0, 0⟩, 3, 7, 0⟩), (ascii "v", ⟨⟨8, [], [], [], 0, 0, 0⟩, 4, 8, 0⟩)]

theorem sampleSlaves_nodup : (sampleSlaves.map Prod.fst).Nodup := by decide

def sampleMaster : BinlogServer :=
  { servedMaster with slaves := sampleSlaves, keys_nodup := sampleSlaves_nodup }

def samplePeers : Peers := ⟨sampleMaster, servedSession, servedClient, true⟩

theorem samplePeers_live : samplePeers.Live where
  goesOn := rfl
  client := by decide
  server := by decide
  fresh := ⟨by decide, by decide⟩

theorem sampleFollower_fits : sampleFollower.Fits := ⟨by decide, by decide, by decide⟩

theorem follower_registers_again :
    ∃ p', samplePeers.prepare sampleEnv sampleFollower = .ok p' ∧
      samplePeers.Follows p' sampleFollower :=
  (follower_registers samplePeers_live sampleFront_understands sampleFollower_fits).1 rfl

/-! ## The dump -/

theorem SlaveConn.turn_dump {m : BinlogServer} {s : SlaveConn} {front : SqlFront} {dump : Dump}
    {now : Int64} {packet spare uuid : Bytes} {gset : MysqlGTIDSet} {id : UInt32}
    (hparse : parseMysqlGtidDumpPacket ⟨packet, spare⟩ = .ok (gset, id))
    (huuid : s.slaveUUID = some uuid) :
    s.turn front dump now m ⟨30 :: packet, spare⟩ =
      Handled.finish ⟨(dump.run m gset id).1.unregisterSlave uuid, s, (dump.run m gset id).2.1,
        some (dump.run m gset id).2.2⟩ := by
  have hdispatch : s.dispatch front dump now m ⟨30 :: packet, spare⟩ =
      s.handleBinlogDumpGtid dump m ⟨packet, spare⟩ := rfl
  rw [SlaveConn.turn, hdispatch, SlaveConn.handleBinlogDumpGtid, hparse]
  simp only [huuid, Option.map_some]

/-- A handler that returned an error. -/
theorem Handled.finish_failed (m : BinlogServer) (s : SlaveConn) (written : List Bytes)
    (e : ConnError) :
    (Handled.finish ⟨m, s, written, some e⟩).goesOn = false ∧
      (Handled.finish ⟨m, s, written, some e⟩).master = m.close s.conn ∧
      ((Handled.finish ⟨m, s, written, some e⟩).written ≠ written → s.conn ∉ m.closed) := by
  cases e with
  | canceled => exact ⟨rfl, rfl, fun hne => absurd rfl hne⟩
  | text t => exact ⟨rfl, rfl, fun hne hclosed => hne (if_pos hclosed)⟩

/-- **The dump of a follower.**  It is started from the set that the follower sent.  When it ends,
for whatever reason, both the connection and the one that has the UUID by then are closed, and the
UUID is free; so the follower only gets to know the reason if its connection lost the UUID without
being closed. -/
theorem follower_dump {p p' : Peers} {cfg : FollowerConfig} (hfollows : p.Follows p' cfg)
    (front : SqlFront) (dump : Dump) (now : Int64) (w : MapWalk) (gset : MysqlGTIDSet)
    (spare : Bytes) (hint : Int64Sets gset.sets)
    (hlen : 22 + (encodeSets (w.order gset)).length < 2 ^ 32) :
    ∃ started ended written reason t, started.Same gset ∧
      dump.run p'.master started cfg.serverID = (ended, written, reason) ∧
      p'.session.turn front dump now p'.master
        ⟨cfg.binlogDumpMysqlGTIDCommand (encodeSets (w.order gset)), spare⟩ = t ∧
      t.goesOn = false ∧ t.master.slave cfg.serverUuid = none ∧
      p'.session.conn ∈ t.master.closed ∧
      (∀ r, ended.slave cfg.serverUuid = some r → r.conn ∈ t.master.closed) ∧
      (t.written ≠ written → p'.session.conn ∉ ended.closed ∧
        ∀ r, ended.slave cfg.serverUuid = some r → r.conn ≠ p'.session.conn) := by
  have hsize : (encodeSets (w.order gset)).length < 2 ^ 32 := by omega
  obtain ⟨started, hparse, hsame⟩ :=
    parseMysqlGtidDumpPacket_walk cfg.toSyncerConfig w gset spare hint hlen
  have hturn := @SlaveConn.turn_dump p'.master p'.session front dump now _ spare _ _ _ hparse
    hfollows.slaveUUID
  rw [← binlogDumpMysqlGTIDCommand_eq _ _ hsize] at hturn
  generalize hrun : dump.run p'.master started cfg.serverID = result at hturn
  obtain ⟨ended, written, reason⟩ := result
  obtain ⟨hgo, hmaster, hwritten⟩ := Handled.finish_failed (ended.unregisterSlave cfg.serverUuid)
    p'.session written reason
  refine ⟨started, ended, written, reason, _, hsame, hrun, hturn, hgo, ?_, ?_, ?_, ?_⟩
  · rw [hmaster, BinlogServer.slave_close, BinlogServer.slave_unregisterSlave, if_pos rfl]
  · rw [hmaster]
    exact BinlogServer.mem_close.mpr (.inl rfl)
  · intro r hr
    rw [hmaster]
    exact BinlogServer.mem_close.mpr (.inr (BinlogServer.conn_closed_unregisterSlave hr))
  · intro hne
    have hopen := hwritten hne
    refine ⟨fun hclosed => hopen (BinlogServer.closed_subset_unregisterSlave _ _ hclosed), ?_⟩
    intro r hr hconn
    exact hopen (hconn ▸ BinlogServer.conn_closed_unregisterSlave hr)

/-- The connection of `sampleFollower`, registered. -/
def sampleSession : SlaveConn :=
  { servedSession with
    masterHeartbeatPeriod := some 30
    slaveUUID := some (ascii "u")
    checksum := true }

theorem sampleSession_follows :
    ∃ m, samplePeers.Follows ⟨m, sampleSession, servedClient, true⟩ sampleFollower :=
  ⟨_, Peers.follows_of_register samplePeers_live.fresh
    (.inr ⟨(ascii "u", ⟨⟨9, [], [], [], 0, 0, 0⟩, 3, 7, 0⟩), List.mem_cons_self, rfl, rfl⟩)
    (.inr rfl) rfl rfl rfl rfl fun _ => rfl⟩

/-- It sends a set of two servers, walked from the back. -/
theorem follower_dump_two_servers :
    ∃ m, samplePeers.Follows ⟨m, sampleSession, servedClient, true⟩ sampleFollower ∧
      ∃ started ended written reason t, started.Same twoServers ∧
        noDump.run m started 9 = (ended, written, reason) ∧
        sampleSession.turn sampleFront noDump 0 m
          ⟨sampleFollower.binlogDumpMysqlGTIDCommand
            (encodeSets (MapWalk.backwards.order twoServers)), []⟩ = t ∧
        t.goesOn = false ∧ t.master.slave (ascii "u") = none := by
  obtain ⟨m, hfollows⟩ := sampleSession_follows
  obtain ⟨started, ended, written, reason, t, hsame, hrun, hturn, hgo, hslave, -⟩ :=
    follower_dump hfollows sampleFront noDump 0 .backwards twoServers [] (by decide) (by decide)
  exact ⟨m, hfollows, started, ended, written, reason, t, hsame, hrun, hturn, hgo, hslave⟩

/-! ## What is known of the master -/

/-- The parser understands what a syncer asks before it starts. -/
structure SqlFront.Answers (front : SqlFront) : Prop where
  parse : ∀ q ∈ MasterVariable.all, front.parse (ascii q.statement) = .ok (.selectStmt
    [(ascii q.column, .variableExpr true q.isGlobal (ascii q.name))])
  version : front.parse (ascii "SELECT VERSION();") = .ok (.selectStmt
    [(ascii "VERSION()", .funcCallExpr (ascii "version"))])
  lower : ∀ q ∈ MasterVariable.all, front.toLower (ascii q.name) = ascii q.name

namespace Peers
variable (env : Surroundings)

/-- `getMasterGtidPurged`. -/
def getMasterGtidPurged (p : Peers) : Except EventFailure (Peers × Bytes) :=
  p.executeString env (ascii "SELECT @@gtid_purged")

/-- `preCheck`. -/
def preCheck (p : Peers) : Except EventFailure Peers := do
  let (p, mode) ← p.executeText env (ascii "SELECT @@gtid_mode")
  if mode ≠ ascii "ON" then .error (.error "apply unsupport event type")
  else
    let (p, format) ← p.executeText env (ascii "SELECT @@binlog_format;")
    if format ≠ ascii "ROW" then .error (.error "apply unsupport event type")
    else .ok p

/-- `GetMasterInfo` of the syncer. -/
def getMasterInfo (p : Peers) : Except EventFailure (Peers × MasterInfo) := do
  let (p, serverID) ← p.executeInt env (ascii "SELECT @@GLOBAL.SERVER_ID;")
  let (p, serverUUID) ← p.executeString env (ascii "SELECT @@GLOBAL.SERVER_UUID;")
  let (p, version) ← p.executeString env (ascii "SELECT VERSION();")
  .ok (p, ⟨serverID.toInt32, serverUUID, version⟩)

/-- What `startSyncerServer` asks the master before it starts the stream. -/
def learnMaster (p : Peers) : Except EventFailure (Peers × Bytes × MasterInfo) := do
  let (p, purged) ← p.getMasterGtidPurged env
  let p ← p.preCheck env
  let (p, info) ← p.getMasterInfo env
  .ok (p, purged, info)

end Peers

theorem SqlValue.Short.of_text {name text : Bytes} (hname : (valueField name (.text [])).dump.length <
    maxPayloadLen) (htext : text.length + 9 < maxPayloadLen) : (SqlValue.text text).Short name := by
  refine ⟨hname, ?_⟩
  rw [formatTextValue]
  split
  · decide
  · have hint := (length_putLengthEncodedInt (UInt64.ofNat text.length)).2
    rw [encodeRow, List.flatMap_cons, List.flatMap_nil, List.append_nil, encodeValue,
      putLengthEncodedString, List.length_append]
    omega

theorem SqlValue.Short.of_int {name : Bytes} (i : Int64)
    (hname : (valueField name (.int 0)).dump.length < maxPayloadLen) :
    (SqlValue.int i).Short name := by
  refine ⟨hname, ?_⟩
  have hint := (length_putLengthEncodedInt (UInt64.ofNat (formatInt i.toInt).length)).2
  have hformat := length_formatInt i.toInt
  have hmax : 100 < maxPayloadLen := by decide
  rw [formatTextValue, encodeRow, List.flatMap_cons, List.flatMap_nil, List.append_nil,
    encodeValue, putLengthEncodedString, List.length_append]
  omega

section Learn
variable {env : Surroundings} {m : BinlogServer} {s : SlaveConn} {c : ClientConn}
  {q : MasterVariable} {info : MasterInfo} {text : Bytes}

theorem MasterVariable.length_all : ∀ q ∈ MasterVariable.all,
    (ascii q.statement).length + 1 < maxPayloadLen ∧
      (valueField (ascii q.column) (.text [])).dump.length < maxPayloadLen ∧
      (valueField (ascii q.column) (.int 0)).dump.length < maxPayloadLen := by
  decide +kernel

theorem MasterVariable.short_text (hq : q ∈ MasterVariable.all)
    (htext : text.length + 9 < maxPayloadLen) : (SqlValue.text text).Short (ascii q.column) :=
  .of_text (length_all q hq).2.1 htext

theorem MasterVariable.short_int (hq : q ∈ MasterVariable.all) (i : Int64) :
    (SqlValue.int i).Short (ascii q.column) :=
  .of_int i (length_all q hq).2.2

theorem SlaveConn.handleQuery_variable (hfront : env.front.Answers) (hq : q ∈ MasterVariable.all) :
    s.handleQuery env.front env.now m (ascii q.statement) =
      s.handleSelectVariableExpr env.front m (ascii q.name) (ascii q.column) := by
  rw [SlaveConn.handleQuery, hfront.parse q hq]
  rfl

theorem SlaveConn.handleQuery_version (hfront : env.front.Answers)
    (hinfo : m.masterInfo = .ok info) :
    s.handleQuery env.front env.now m (ascii "SELECT VERSION();") =
      s.replyValue m (ascii "VERSION()") (.text info.version) := by
  rw [SlaveConn.handleQuery, hfront.version]
  change s.replyMaster m (ascii "VERSION()") (fun info => .text info.version) = _
  rw [SlaveConn.replyMaster, hinfo]

section Values
variable {front : SqlFront} (columnName : Bytes)

theorem SlaveConn.select_gtidMode (hlower : front.toLower (ascii "gtid_mode") = ascii "gtid_mode") :
    s.handleSelectVariableExpr front m (ascii "gtid_mode") columnName =
      s.replyValue m columnName (.text (ascii "ON")) := by
  rw [SlaveConn.handleSelectVariableExpr, hlower]
  rfl

theorem SlaveConn.select_binlogFormat
    (hlower : front.toLower (ascii "binlog_format") = ascii "binlog_format") :
    s.handleSelectVariableExpr front m (ascii "binlog_format") columnName =
      s.replyValue m columnName (.text (ascii "ROW")) := by
  rw [SlaveConn.handleSelectVariableExpr, hlower]
  rfl

theorem SlaveConn.select_gtidPurged
    (hlower : front.toLower (ascii "gtid_purged") = ascii "gtid_purged")
    (hpurged : m.gtidPurged = .ok text) :
    s.handleSelectVariableExpr front m (ascii "gtid_purged") columnName =
      s.replyValue m columnName (.text text) := by
  rw [SlaveConn.handleSelectVariableExpr, hlower, hpurged]
  rfl

theorem SlaveConn.select_serverID (hlower : front.toLower (ascii "server_id") = ascii "server_id")
    (hinfo : m.masterInfo = .ok info) :
    s.handleSelectVariableExpr front m (ascii "server_id") columnName =
      s.replyValue m columnName (.int info.serverID.toInt64) := by
  rw [SlaveConn.handleSelectVariableExpr, hlower, if_pos (.inl rfl), SlaveConn.replyMaster, hinfo]
  rfl

theorem SlaveConn.select_serverUUID
    (hlower : front.toLower (ascii "server_uuid") = ascii "server_uuid")
    (hinfo : m.masterInfo = .ok info) :
    s.handleSelectVariableExpr front m (ascii "server_uuid") columnName =
      s.replyValue m columnName (.text info.serverUUID) := by
  rw [SlaveConn.handleSelectVariableExpr, hlower, if_pos (.inr rfl), SlaveConn.replyMaster, hinfo]
  rfl

end Values

namespace Peers
variable (hc : 0 < c.capability &&& clientProtocol41)
  (hs : 0 < s.server.capability &&& clientProtocol41) (hopen : s.conn ∉ m.closed)
  (hfront : env.front.Answers)
include hc hs hopen hfront

theorem executeRows_variable {α : Type} {get : ClientRows → Except EventFailure α} {a : α}
    {v : SqlValue} (hq : q ∈ MasterVariable.all) (hv : v.Short (ascii q.column))
    (hselect : s.handleSelectVariableExpr env.front m (ascii q.name) (ascii q.column) =
      s.replyValue m (ascii q.column) v)
    (hget : get ⟨[valueField (ascii q.column) v], [[v.arrives]]⟩ = .ok a) :
    executeRows env ⟨m, s, c, true⟩ (ascii q.statement) get =
      .ok (⟨m, s, { c with status := s.server.status }, true⟩, a) :=
  executeRows_value hc hs (MasterVariable.length_all q hq).1 hopen hv
    ((SlaveConn.handleQuery_variable hfront hq).trans hselect) hget

theorem preCheck_ok : preCheck env ⟨m, s, c, true⟩ =
    .ok ⟨m, s, { c with status := s.server.status }, true⟩ := by
  let c₁ : ClientConn := { c with status := s.server.status }
  have hmode : executeText env ⟨m, s, c, true⟩ (ascii "SELECT @@gtid_mode") =
      .ok (⟨m, s, c₁, true⟩, ascii "ON") :=
    executeRows_variable hc hs hopen hfront (q := .gtidMode) (by decide)
      (MasterVariable.short_text (by decide) (by decide))
      (SlaveConn.select_gtidMode _ (hfront.lower .gtidMode (by decide)))
      (ClientRows.getText_text _ _)
  have hformat : executeText env ⟨m, s, c₁, true⟩ (ascii "SELECT @@binlog_format;") =
      .ok (⟨m, s, c₁, true⟩, ascii "ROW") :=
    executeRows_variable (c := c₁) hc hs hopen hfront (q := .binlogFormat) (by decide)
      (MasterVariable.short_text (by decide) (by decide))
      (SlaveConn.select_binlogFormat _ (hfront.lower .binlogFormat (by decide)))
      (ClientRows.getText_text _ _)
  simp only [preCheck, bind, Except.bind, hmode, hformat, ne_eq, not_true_eq_false, if_false]
  rfl

theorem getMasterInfo_ok (hinfo : m.masterInfo = .ok info)
    (huuid : info.serverUUID.length + 9 < maxPayloadLen)
    (hversion : info.version.length + 9 < maxPayloadLen) :
    getMasterInfo env ⟨m, s, c, true⟩ =
      .ok (⟨m, s, { c with status := s.server.status }, true⟩, info) := by
  let c₁ : ClientConn := { c with status := s.server.status }
  have hid : executeInt env ⟨m, s, c, true⟩ (ascii "SELECT @@GLOBAL.SERVER_ID;") =
      .ok (⟨m, s, c₁, true⟩, info.serverID.toInt64) :=
    executeRows_variable hc hs hopen hfront (q := .serverID) (by decide)
      (MasterVariable.short_int (by decide) _)
      (SlaveConn.select_serverID _ (hfront.lower .serverID (by decide)) hinfo)
      (ClientRows.getInt_int _ _)
  have hserverUUID : executeString env ⟨m, s, c₁, true⟩ (ascii "SELECT @@GLOBAL.SERVER_UUID;") =
      .ok (⟨m, s, c₁, true⟩, info.serverUUID) :=
    executeRows_variable (c := c₁) hc hs hopen hfront (q := .serverUUID) (by decide)
      (MasterVariable.short_text (by decide) huuid)
      (SlaveConn.select_serverUUID _ (hfront.lower .serverUUID (by decide)) hinfo)
      (ClientRows.getString_text _ _)
  have hver : executeString env ⟨m, s, c₁, true⟩ (ascii "SELECT VERSION();") =
      .ok (⟨m, s, c₁, true⟩, info.version) :=
    executeRows_value (c := c₁) hc hs (by decide) hopen (.of_text (by decide) hversion)
      (SlaveConn.handleQuery_version hfront hinfo) (ClientRows.getString_text _ _)
  simp only [getMasterInfo, bind, Except.bind, hid, hserverUUID, hver, Int32.toInt32_toInt64]
  rfl

end Peers
end Learn

/-- **A follower knows of the master what the Kingbus it follows knows**: the id, the UUID, the
version and the purged GTIDs; and the check of the master passes. -/
theorem follower_learns_master {env : Surroundings} {p : Peers} {info : MasterInfo} {purged : Bytes}
    (hlive : p.Live) (hfront : env.front.Answers) (hinfo : p.master.masterInfo = .ok info)
    (hpurged : p.master.gtidPurged = .ok purged)
    (hshort : ∀ text ∈ [info.serverUUID, info.version, purged], text.length + 9 < maxPayloadLen) :
    ∃ p', p.learnMaster env = .ok (p', purged, info) ∧ p'.master = p.master ∧
      p'.session = p.session ∧ p'.Live := by
  obtain ⟨m, s, c, goesOn⟩ := p
  obtain ⟨hgo, hc, hs, hfresh⟩ := hlive
  cases hgo
  have hgtid : Peers.getMasterGtidPurged env ⟨m, s, c, true⟩ =
      .ok (⟨m, s, { c with status := s.server.status }, true⟩, purged) :=
    Peers.executeRows_variable hc hs hfresh.isOpen hfront (q := .gtidPurged) (by decide)
      (MasterVariable.short_text (by decide) (hshort purged (by simp)))
      (SlaveConn.select_gtidPurged _ (hfront.lower .gtidPurged (by decide)) hpurged)
      (ClientRows.getString_text _ _)
  have hcheck := @Peers.preCheck_ok env m s { c with status := s.server.status } hc hs
    hfresh.isOpen hfront
  have hmaster := @Peers.getMasterInfo_ok env m s { c with status := s.server.status } info hc hs
    hfresh.isOpen hfront hinfo (hshort _ (by simp)) (hshort _ (by simp))
  refine ⟨⟨m, s, { c with status := s.server.status }, true⟩, ?_, rfl, rfl, rfl, hc, hs, hfresh⟩
  simp only [Peers.learnMaster, bind, Except.bind, hgtid, hcheck, hmaster]

theorem sampleFront_answers : sampleFront.Answers where
  parse := by decide +kernel
  version := by decide +kernel
  lower := by decide +kernel

theorem follower_learns_sample :
    ∃ p', samplePeers.learnMaster sampleEnv = .ok (p', [], ⟨5, ascii "u", ascii "5.7"⟩) ∧
      p'.master = samplePeers.master ∧ p'.session = samplePeers.session ∧ p'.Live :=
  follower_learns_master samplePeers_live sampleFront_answers rfl rfl (by decide)

end Kingbus
