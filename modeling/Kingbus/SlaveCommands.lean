import Kingbus.MetaBucketStore
import Kingbus.Handshake

/-! # The two commands of a slave

After the handshake a slave registers itself (`COM_REGISTER_SLAVE`) and asks for the events behind
its GTID set (`COM_BINLOG_DUMP_GTID`).  The client is that of `go-mysql`
(`replication/binlogsyncer.go`), the server that of `mysql/command.go`, which reads both packets
by positions and checks none of them: a packet that is too short is a run-time panic, from which
`Conn.Run` recovers by closing the connection.

* `register_accepted_iff`, `dump_accepted_iff`: the packets the server reads without a panic, and
  what it makes of them.
* `register_read_back_iff`: a slave is registered as it describes itself exactly when no string is
  longer than its length byte can say.
* `parseMysqlGtidDumpPacket_walk`: the server gets the GTID set that the client sent, in whatever
  order the client walked it. -/

namespace Kingbus

/-! ## Registration -/

/-- A string behind a byte with its length. -/
def lengthPrefixed (b : Bytes) : Bytes := UInt8.ofNat b.length :: b

/-- The part of `Slave` that the packet describes. -/
structure SlaveInfo where
  serverID : Int32
  hostName : Bytes
  user : Bytes
  password : Bytes
  port : Int16
  rank : UInt32
  masterID : UInt32
  deriving DecidableEq

/-- `uint8(len)` is the length of each string. -/
def SlaveInfo.Short (s : SlaveInfo) : Prop :=
  s.hostName.length < 256 ∧ s.user.length < 256 ∧ s.password.length < 256

instance (s : SlaveInfo) : Decidable s.Short := inferInstanceAs (Decidable (_ ∧ _))

/-- The bytes of the packet behind the command. -/
def SlaveInfo.encode (s : SlaveInfo) : Bytes :=
  Bytes.leBytes 4 s.serverID.toUInt32.toNat ++ (lengthPrefixed s.hostName ++
    (lengthPrefixed s.user ++ (lengthPrefixed s.password ++
      (Bytes.leBytes 2 s.port.toUInt16.toNat ++ (Bytes.leBytes 4 s.rank.toNat ++
        Bytes.leBytes 4 s.masterID.toNat)))))

/-- `BinlogSyncerConfig`, as far as the two commands read it; `hostname` is what
`localHostname` gives. -/
structure SyncerConfig where
  serverID : UInt32
  hostname : Bytes
  user : Bytes
  password : Bytes
  port : UInt16

/-- The slave as it describes itself. -/
def SyncerConfig.slaveInfo (cfg : SyncerConfig) : SlaveInfo :=
  ⟨cfg.serverID.toInt32, cfg.hostname, cfg.user, cfg.password, cfg.port.toInt16, 0, 0⟩

/-- `writeRegisterSlaveCommand`: the payload. -/
def SyncerConfig.registerSlaveCommand (cfg : SyncerConfig) : Bytes :=
  21 :: (Bytes.leBytes 4 cfg.serverID.toNat ++ (lengthPrefixed cfg.hostname ++
    (lengthPrefixed cfg.user ++ (lengthPrefixed cfg.password ++
      (Bytes.leBytes 2 cfg.port.toNat ++ (Bytes.leBytes 4 0 ++ Bytes.leBytes 4 0))))))

/-- `data[pos]` bytes behind `pos`, and the position behind them. -/
def lengthString (data : GoSlice) (pos : Nat) : Option (Bytes × Nat) :=
  (data.index pos).bind fun len =>
    (data.range (pos + 1) (pos + 1 + len.toNat)).map fun b => (b, pos + 1 + len.toNat)

/-- The reading half of `handleRegisterSlave`. -/
def parseRegisterSlave (data : GoSlice) : Option SlaveInfo :=
  (data.le 0 4).bind fun serverID =>
  (lengthString data 4).bind fun hostName =>
  (lengthString data hostName.2).bind fun user =>
  (lengthString data user.2).bind fun password =>
  (data.le password.2 2).bind fun port =>
  (data.le (password.2 + 2) 4).bind fun rank =>
  (data.le (password.2 + 2 + 4) 4).map fun masterID =>
    ⟨(UInt32.ofNat serverID).toInt32, hostName.1, user.1, password.1,
      (UInt16.ofNat port).toInt16, UInt32.ofNat rank, UInt32.ofNat masterID⟩

section Strings

variable {data : GoSlice} {a b c spare : Bytes} {pos next : Nat}

@[simp] theorem length_lengthPrefixed (b : Bytes) : (lengthPrefixed b).length = 1 + b.length := by
  rw [lengthPrefixed, List.length_cons, Nat.add_comm]

/-- The string may have been read from behind the packet, but not if the packet goes on behind
it. -/
theorem lengthString_sound (h : lengthString data pos = some (b, next))
    (hnext : next ≤ data.bytes.length) :
    next = pos + (1 + b.length) ∧ b.length < 256 ∧
      data.bytes.drop pos = lengthPrefixed b ++ data.bytes.drop next := by
  obtain ⟨len, hlen, hmap⟩ := Option.bind_eq_some_iff.mp h
  obtain ⟨b', hrange, heq⟩ := Option.map_eq_some_iff.mp hmap
  cases heq
  obtain ⟨-, hhead⟩ := GoSlice.index_sound hlen
  obtain ⟨hsize, htail⟩ := GoSlice.range_sound hrange hnext
  have hb : b.length = len.toNat := by omega
  have hlt : len.toNat < 256 := len.toNat_lt
  refine ⟨by omega, by omega, ?_⟩
  rw [hhead, htail, lengthPrefixed, hb, UInt8.ofNat_toNat, List.cons_append]

theorem lengthString_complete (hb : b.length < 256)
    (h : data.bytes.drop pos = lengthPrefixed b ++ c) :
    lengthString data pos = some (b, pos + (1 + b.length)) ∧
      data.bytes.drop (pos + (1 + b.length)) = c := by
  have hlen : (UInt8.ofNat b.length).toNat = b.length := by
    rw [UInt8.toNat_ofNat']
    omega
  obtain ⟨hhead, hbehind⟩ := GoSlice.index_complete (h.trans List.cons_append)
  obtain ⟨hrange, hrest⟩ := GoSlice.range_complete (GoSlice.index_sound hhead).1 hbehind
  constructor
  · rw [lengthString, hhead, Option.bind_some, hlen, hrange, Option.map_some, Nat.add_assoc pos 1]
  · rw [← Nat.add_assoc, hrest]

end Strings

/-! ### What is accepted -/

/-- A packet that is read describes the slave that is made of it. -/
theorem parseRegisterSlave_sound {data : GoSlice} {s : SlaveInfo}
    (h : parseRegisterSlave data = some s) : s.Short ∧ ∃ rest, data.bytes = s.encode ++ rest := by
  obtain ⟨serverID, h1, h⟩ := Option.bind_eq_some_iff.mp h
  obtain ⟨⟨hostName, p2⟩, h2, h⟩ := Option.bind_eq_some_iff.mp h
  obtain ⟨⟨user, p3⟩, h3, h⟩ := Option.bind_eq_some_iff.mp h
  obtain ⟨⟨password, p4⟩, h4, h⟩ := Option.bind_eq_some_iff.mp h
  obtain ⟨port, h5, h⟩ := Option.bind_eq_some_iff.mp h
  obtain ⟨rank, h6, h⟩ := Option.bind_eq_some_iff.mp h
  obtain ⟨masterID, h7, h⟩ := Option.map_eq_some_iff.mp h
  cases h
  dsimp only at h3 h4 h5 h6 h7
  -- from the back: the packet reaches behind each of the strings
  obtain ⟨hlen7, hlt7, hmaster⟩ := GoSlice.le_sound h7
  obtain ⟨-, hlt6, hrank⟩ := GoSlice.le_sound h6
  obtain ⟨-, hlt5, hport⟩ := GoSlice.le_sound h5
  obtain ⟨hp4, hshort4, hpassword⟩ := lengthString_sound h4 (by omega)
  obtain ⟨hp3, hshort3, huser⟩ := lengthString_sound h3 (by omega)
  obtain ⟨hp2, hshort2, hhost⟩ := lengthString_sound h2 (by omega)
  obtain ⟨-, hlt1, hserver⟩ := GoSlice.le_sound h1
  refine ⟨⟨hshort2, hshort3, hshort4⟩, data.bytes.drop (p4 + 2 + 4 + 4), ?_⟩
  have hid : (UInt32.ofNat serverID).toInt32.toUInt32.toNat = serverID :=
    UInt32.toNat_ofNat_of_lt' hlt1
  have hport' : (UInt16.ofNat port).toInt16.toUInt16.toNat = port :=
    UInt16.toNat_ofNat_of_lt' hlt5
  have hrank' : (UInt32.ofNat rank).toNat = rank := UInt32.toNat_ofNat_of_lt' hlt6
  have hmaster' : (UInt32.ofNat masterID).toNat = masterID := UInt32.toNat_ofNat_of_lt' hlt7
  rw [List.drop_zero, Nat.zero_add] at hserver
  simp only [SlaveInfo.encode, hid, hport', hrank', hmaster', List.append_assoc]
  refine hserver.trans ?_
  rw [hhost, huser, hpassword, hport, hrank, hmaster]

theorem parseRegisterSlave_complete {s : SlaveInfo} (hs : s.Short) (rest spare : Bytes) :
    parseRegisterSlave ⟨s.encode ++ rest, spare⟩ = some s := by
  obtain ⟨serverID, hostName, user, password, port, rank, masterID⟩ := s
  obtain ⟨hhost, huser, hpassword⟩ := hs
  have hid : serverID.toUInt32.toNat < 256 ^ 4 := serverID.toUInt32.toNat_lt
  have hport : port.toUInt16.toNat < 256 ^ 2 := port.toUInt16.toNat_lt
  have hrank : rank.toNat < 256 ^ 4 := rank.toNat_lt
  have hmaster : masterID.toNat < 256 ^ 4 := masterID.toNat_lt
  -- from the front: behind each field stands the next one
  obtain ⟨h1, r1⟩ := @GoSlice.le_complete 0
    ⟨SlaveInfo.encode ⟨serverID, hostName, user, password, port, rank, masterID⟩ ++ rest, spare⟩
    4 _ _ (by decide) hid (List.append_assoc ..)
  obtain ⟨h2, r2⟩ := lengthString_complete hhost (r1.trans (List.append_assoc ..))
  obtain ⟨h3, r3⟩ := lengthString_complete huser (r2.trans (List.append_assoc ..))
  obtain ⟨h4, r4⟩ := lengthString_complete hpassword (r3.trans (List.append_assoc ..))
  obtain ⟨h5, r5⟩ := GoSlice.le_complete (by decide) hport (r4.trans (List.append_assoc ..))
  obtain ⟨h6, r6⟩ := GoSlice.le_complete (by decide) hrank (r5.trans (List.append_assoc ..))
  obtain ⟨h7, -⟩ := GoSlice.le_complete (by decide) hmaster r6
  rw [Nat.zero_add] at h2 h3 h4 h5 h6 h7
  rw [parseRegisterSlave, h1, Option.bind_some, h2, Option.bind_some, h3, Option.bind_some, h4,
    Option.bind_some, h5, Option.bind_some, h6, Option.bind_some, h7, Option.map_some]
  simp

/-- **The packets a slave is registered from**, and as what. -/
theorem register_accepted_iff (data : GoSlice) (s : SlaveInfo) :
    parseRegisterSlave data = some s ↔ s.Short ∧ ∃ rest, data.bytes = s.encode ++ rest := by
  constructor
  · exact parseRegisterSlave_sound
  · rintro ⟨hs, rest, hrest⟩
    have h := parseRegisterSlave_complete hs rest data.spare
    rw [← hrest] at h
    exact h

theorem registerSlaveCommand_eq (cfg : SyncerConfig) :
    cfg.registerSlaveCommand = 21 :: cfg.slaveInfo.encode := by
  simp [SyncerConfig.registerSlaveCommand, SyncerConfig.slaveInfo, SlaveInfo.encode]

/-- **A slave is registered as it describes itself exactly when its strings are short.**  The
packet of any other slave is refused or gives another slave. -/
theorem register_read_back_iff (cfg : SyncerConfig) (spare : Bytes) :
    (GoSlice.tail ⟨cfg.registerSlaveCommand, spare⟩ 1).bind parseRegisterSlave =
        some cfg.slaveInfo ↔
      cfg.hostname.length < 256 ∧ cfg.user.length < 256 ∧ cfg.password.length < 256 := by
  have htail : GoSlice.tail ⟨cfg.registerSlaveCommand, spare⟩ 1 =
      some ⟨cfg.slaveInfo.encode, spare⟩ := by
    rw [registerSlaveCommand_eq]
    exact GoSlice.tail_append (a := [21]) rfl
  rw [htail, Option.bind_some]
  constructor
  · intro h
    exact (parseRegisterSlave_sound h).1
  · intro h
    have hread := @parseRegisterSlave_complete cfg.slaveInfo h [] spare
    rw [List.append_nil] at hread
    exact hread

/-! ## The request for events -/

/-- The packet behind the command `COM_BINLOG_DUMP_GTID`. -/
structure DumpPacket where
  flags : UInt16
  slaveServerID : UInt32
  binlogFileName : Bytes
  binlogPos : UInt64
  dataSize : UInt32
  /-- The encoded GTID set, and whatever follows it. -/
  data : Bytes

/-- Its bytes. -/
def DumpPacket.encode (p : DumpPacket) : Bytes :=
  Bytes.leBytes 2 p.flags.toNat ++ (Bytes.leBytes 4 p.slaveServerID.toNat ++
    (Bytes.leBytes 4 p.binlogFileName.length ++ (p.binlogFileName ++
      (Bytes.leBytes 8 p.binlogPos.toNat ++ (Bytes.leBytes 4 p.dataSize.toNat ++ p.data)))))

/-- `writeBinlogDumpMysqlGTIDCommand`: the payload, with the encoded set. -/
def SyncerConfig.binlogDumpMysqlGTIDCommand (cfg : SyncerConfig) (gtidData : Bytes) : Bytes :=
  30 :: (Bytes.leBytes 2 0 ++ (Bytes.leBytes 4 cfg.serverID.toNat ++ (Bytes.leBytes 4 0 ++
    (Bytes.leBytes 8 4 ++ (Bytes.leBytes 4 gtidData.length ++ gtidData)))))

/-- `parseMysqlGtidDumpPacket` up to the set: the id of the slave and where the set begins.
Positions are `uint32` values. -/
def dumpHeader (data : GoSlice) : Option (UInt32 × Nat) :=
  (data.le 0 2).bind fun _flags =>
  (data.le 2 4).bind fun slaveServerID =>
  (data.le 6 4).bind fun nameSize =>
  (data.range 10 ((10 + nameSize) % 2 ^ 32)).bind fun _binlogFileName =>
  (data.le ((10 + nameSize) % 2 ^ 32) 8).bind fun _binlogPos =>
  (data.le ((10 + nameSize + 8) % 2 ^ 32) 4).map fun _dataSize =>
    (UInt32.ofNat slaveServerID, (10 + nameSize + 8 + 4) % 2 ^ 32)

/-- `parseMysqlGtidDumpPacket`.  What it says about the size of the set is not looked at. -/
def parseMysqlGtidDumpPacket (data : GoSlice) : Except EventFailure (MysqlGTIDSet × UInt32) :=
  match (dumpHeader data).bind fun h => (data.tail h.2).map fun t => (h.1, t.bytes) with
  | none => .error (.panic "runtime error: slice bounds out of range")
  | some (slaveServerID, gtidData) =>
      (MysqlGTIDSet.decode gtidData).map fun s => (s, slaveServerID)

theorem dumpHeader_complete (p : DumpPacket) (spare : Bytes) (hlen : p.encode.length < 2 ^ 32) :
    ∃ pos, dumpHeader ⟨p.encode, spare⟩ = some (p.slaveServerID, pos) ∧
      GoSlice.tail ⟨p.encode, spare⟩ pos = some ⟨p.data, spare⟩ := by
  have hsize : p.encode.length = 2 + 4 + 4 + p.binlogFileName.length + 8 + 4 + p.data.length := by
    simp only [DumpPacket.encode, List.length_append, Bytes.length_leBytes]
    omega
  obtain ⟨h1, r1⟩ := @GoSlice.le_complete 0 ⟨p.encode, spare⟩ 2 _ _ (by decide)
    p.flags.toNat_lt rfl
  obtain ⟨h2, r2⟩ := GoSlice.le_complete (by decide) p.slaveServerID.toNat_lt r1
  obtain ⟨h3, r3⟩ := GoSlice.le_complete (by decide) (by omega) r2
  obtain ⟨h4, r4⟩ := GoSlice.range_complete (by show _ ≤ p.encode.length; omega) r3
  obtain ⟨h5, r5⟩ := GoSlice.le_complete (by decide) p.binlogPos.toNat_lt r4
  obtain ⟨h6, r6⟩ := GoSlice.le_complete (by decide) p.dataSize.toNat_lt r5
  simp only [Nat.zero_add, Nat.reduceAdd] at h2 h3 h4 h5 h6 r6
  refine ⟨10 + p.binlogFileName.length + 8 + 4, ?_, ?_⟩
  · rw [dumpHeader, h1, Option.bind_some, h2, Option.bind_some, h3, Option.bind_some,
      Nat.mod_eq_of_lt (by omega : 10 + p.binlogFileName.length < 2 ^ 32), h4, Option.bind_some, h5,
      Option.bind_some, Nat.mod_eq_of_lt (by omega : 10 + p.binlogFileName.length + 8 < 2 ^ 32), h6,
      Option.map_some, Nat.mod_eq_of_lt (by omega), UInt32.ofNat_toNat]
  · rw [GoSlice.tail, if_pos (by show _ ≤ p.encode.length; omega), r6]

theorem parseMysqlGtidDumpPacket_encode (p : DumpPacket) (spare : Bytes)
    (hlen : p.encode.length < 2 ^ 32) :
    parseMysqlGtidDumpPacket ⟨p.encode, spare⟩ =
      (MysqlGTIDSet.decode p.data).map fun s => (s, p.slaveServerID) := by
  obtain ⟨pos, hheader, htail⟩ := dumpHeader_complete p spare hlen
  rw [parseMysqlGtidDumpPacket, hheader, Option.bind_some, htail, Option.map_some]

/-- What the client sends behind the command. -/
def SyncerConfig.dumpPacket (cfg : SyncerConfig) (gtidData : Bytes) : DumpPacket :=
  ⟨0, cfg.serverID, [], 4, UInt32.ofNat gtidData.length, gtidData⟩

theorem binlogDumpMysqlGTIDCommand_eq (cfg : SyncerConfig) (gtidData : Bytes)
    (hlen : gtidData.length < 2 ^ 32) :
    cfg.binlogDumpMysqlGTIDCommand gtidData = 30 :: (cfg.dumpPacket gtidData).encode := by
  have hsize : (UInt32.ofNat gtidData.length).toNat = gtidData.length :=
    UInt32.toNat_ofNat_of_lt' hlen
  simp only [SyncerConfig.binlogDumpMysqlGTIDCommand, SyncerConfig.dumpPacket, DumpPacket.encode,
    hsize, List.length_nil, List.nil_append]
  rfl

theorem length_dumpPacket (cfg : SyncerConfig) (gtidData : Bytes) :
    (cfg.dumpPacket gtidData).encode.length = 22 + gtidData.length := by
  simp only [SyncerConfig.dumpPacket, DumpPacket.encode, List.length_append, Bytes.length_leBytes,
    List.length_nil]
  omega

/-- **The server gets the set that the client sent**, whatever the order in which the client walked
it, and the id of the slave. -/
theorem parseMysqlGtidDumpPacket_walk (cfg : SyncerConfig) (w : MapWalk) (s : MysqlGTIDSet)
    (spare : Bytes) (hint : Int64Sets s.sets)
    (hlen : 22 + (encodeSets (w.order s)).length < 2 ^ 32) :
    ∃ t, parseMysqlGtidDumpPacket ⟨(cfg.dumpPacket (encodeSets (w.order s))).encode, spare⟩ =
        .ok (t, cfg.serverID) ∧ t.Same s := by
  have hnodup : ((w.order s).map Prod.fst).Nodup :=
    ((w.perm s).map Prod.fst).nodup_iff.mpr s.keys_nodup
  have hint' : Int64Sets (w.order s) := fun u hu => hint u ((w.perm s).subset hu)
  have hdecode : MysqlGTIDSet.decode (encodeSets (w.order s)) = .ok ⟨w.order s, hnodup⟩ := by
    have h := MysqlGTIDSet.decode_encodeSets [] hint' hnodup (by
      rw [List.append_nil]
      omega)
    rwa [List.append_nil] at h
  refine ⟨⟨w.order s, hnodup⟩, ?_, w.perm s⟩
  rw [parseMysqlGtidDumpPacket_encode _ spare (by rw [length_dumpPacket]; exact hlen)]
  exact congrArg (Except.map fun s => (s, cfg.serverID)) hdecode

/-- A walk from the back. -/
def MapWalk.backwards : MapWalk where
  order s := s.sets.reverse
  perm s := List.reverse_perm s.sets

end Kingbus
