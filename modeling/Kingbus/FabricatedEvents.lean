import Kingbus.EventRelay

/-! # Events that the server makes up

A dump starts with two events that are in no raft entry (`mysql/command.go`): a rotate event
with the name of the binlog file, and the stored format description event with its log
position cleared.  Later there are heartbeats.  Header, body and checksum are put together in
separate places.

`fabricated_wellFormed_iff` says for which arguments they agree.  The size in the header of a
rotate event always counts a checksum, which is only appended when the slave has asked for
one.  Well formed or not, what is built arrives (`fabricated_delivered`). -/

namespace Kingbus

/-! ## The builders -/

/-- The fields of a header are numbers of their widths, and its type is one a byte stands
for. -/
structure EventHeader.Encodable (h : EventHeader) : Prop where
  timestamp : h.timestamp < 2 ^ 32
  eventType : EventType.ofByte h.eventType.toByte = h.eventType
  serverID : h.serverID < 2 ^ 32
  logPos : h.logPos < 2 ^ 32
  flags : h.flags < 2 ^ 16

/-- `encodeEventHeader`. -/
def encodeEventHeader (header : EventHeader) : Bytes :=
  Bytes.leBytes 4 header.timestamp ++ (header.eventType.toByte ::
    (Bytes.leBytes 4 header.serverID ++ (Bytes.leBytes 4 header.eventSize ++
      (Bytes.leBytes 4 header.logPos ++ Bytes.leBytes 2 header.flags))))

/-- The end of all three builders: the CRC32 of what is there so far is appended. -/
def appendChecksum (eventBuf : Bytes) : Bytes :=
  eventBuf ++ Bytes.leBytes binlogChecksumLength (Crc32.checksumIEEE eventBuf)

/-- `LOG_ARTIFICIAL_F`. -/
def logArtificialF : Nat := 0x20

/-- The header in `buildFakeRotateEvent`. -/
def fakeRotateHeader (serverID : UInt32) (fileName : Bytes) : EventHeader where
  timestamp := 0
  eventType := .rotate
  serverID := serverID.toNat
  eventSize := (eventHeaderSize + 8 + fileName.length + binlogChecksumLength) % 2 ^ 32
  logPos := 0
  flags := logArtificialF
  eventSize_lt := mod_uint32_lt _

/-- `buildFakeRotateEvent`. -/
def buildFakeRotateEvent (serverID : UInt32) (fileName : Bytes) (needCrc32 : Bool) : Bytes :=
  let eventBuf := encodeEventHeader (fakeRotateHeader serverID fileName) ++
    (Bytes.leBytes 8 4 ++ fileName)
  if needCrc32 then appendChecksum eventBuf else eventBuf

/-- The header in `buildHeartbeatEvent`. -/
def heartbeatHeader (fileName : Bytes) (serverID logPos : UInt32) : EventHeader where
  timestamp := 0
  eventType := .heartbeat
  serverID := serverID.toNat
  eventSize := (eventHeaderSize + fileName.length + binlogChecksumLength) % 2 ^ 32
  logPos := logPos.toNat
  flags := logArtificialF
  eventSize_lt := mod_uint32_lt _

/-- `buildHeartbeatEvent`. -/
def buildHeartbeatEvent (fileName : Bytes) (serverID logPos : UInt32) : Bytes :=
  appendChecksum (encodeEventHeader (heartbeatHeader fileName serverID logPos) ++ fileName)

/-- What `sendFormatDescriptionEvent` makes of the stored event: the log position is zeroed
in place, and the last four bytes are replaced by a new checksum. -/
def formatDescriptionData (data : Bytes) : Except EventFailure Bytes :=
  if data.length < 13 + 4 then .error (.panic "slice bounds out of range")
  else
    let data := data.overwrite 13 (Bytes.leBytes 4 0)
    .ok (appendChecksum (data.take (data.length - binlogChecksumLength)))

namespace BaseConn

end BaseConn

/-! ## What a well-formed event is -/

/-- The bytes decode to the header, which says how many they are. -/
structure EventHeader.Frames (header : EventHeader) (data : Bytes) : Prop where
  decode : EventHeader.decode data = .ok header
  size : header.eventSize = data.length

/-- The last four bytes are the CRC32 of all the others. -/
def Checksummed (data : Bytes) : Prop := ∃ eventBuf, data = appendChecksum eventBuf

/-- The bytes differ at the log position and at the checksum only. -/
structure SameButPosition (stored data : Bytes) : Prop where
  length : data.length = stored.length
  same : ∀ p, p + binlogChecksumLength < stored.length → ¬ (13 ≤ p ∧ p < 13 + 4) →
    data[p]? = stored[p]?

/-- A rotate event as a slave expects it. -/
def RotateWellFormed (serverID : UInt32) (fileName : Bytes) (needCrc32 : Bool) : Prop :=
  (fakeRotateHeader serverID fileName).Frames (buildFakeRotateEvent serverID fileName needCrc32) ∧
    (needCrc32 = true → Checksummed (buildFakeRotateEvent serverID fileName needCrc32))

/-- A heartbeat as a slave expects it. -/
def HeartbeatWellFormed (fileName : Bytes) (serverID logPos : UInt32) : Prop :=
  (heartbeatHeader fileName serverID logPos).Frames (buildHeartbeatEvent fileName serverID logPos) ∧
    Checksummed (buildHeartbeatEvent fileName serverID logPos)

/-- A format description event as a slave expects it: the header is the stored one with the
log position 0. -/
def FormatDescriptionWellFormed (stored : Bytes) : Prop :=
  ∃ data, formatDescriptionData stored = .ok data ∧
    EventHeader.Frames { EventHeader.read stored with logPos := 0 } data ∧ Checksummed data ∧
    SameButPosition stored data

/-! ## Headers -/

theorem length_encodeEventHeader (header : EventHeader) :
    (encodeEventHeader header).length = eventHeaderSize := by
  simp only [encodeEventHeader, List.length_append, List.length_cons, Bytes.length_leBytes,
    eventHeaderSize]

theorem length_appendChecksum (eventBuf : Bytes) :
    (appendChecksum eventBuf).length = eventBuf.length + binlogChecksumLength := by
  rw [appendChecksum, List.length_append, Bytes.length_leBytes]

/-- **A header is read back**, whatever follows it. -/
theorem EventHeader.Encodable.read_eq {header : EventHeader} (h : header.Encodable)
    (rest : Bytes) : EventHeader.read (encodeEventHeader header ++ rest) = header := by
  have htimestamp : leAt (encodeEventHeader header ++ rest) 0 4 = header.timestamp :=
    Bytes.leNat_leBytes_of_lt (k := 4) h.timestamp
  have hserver : leAt (encodeEventHeader header ++ rest) 5 4 = header.serverID :=
    Bytes.leNat_leBytes_of_lt (k := 4) h.serverID
  have hsize : leAt (encodeEventHeader header ++ rest) 9 4 = header.eventSize :=
    Bytes.leNat_leBytes_of_lt (k := 4) header.eventSize_lt
  have hpos : leAt (encodeEventHeader header ++ rest) 13 4 = header.logPos :=
    Bytes.leNat_leBytes_of_lt (k := 4) h.logPos
  have hflags : leAt (encodeEventHeader header ++ rest) 17 2 = header.flags :=
    Bytes.leNat_leBytes_of_lt (k := 2) h.flags
  exact EventHeader.ext htimestamp h.eventType hserver hsize hpos hflags

/-- A header is decoded if its size is not below its own length. -/
theorem EventHeader.Encodable.decode_eq {header : EventHeader} (h : header.Encodable)
    (rest : Bytes) (hsize : eventHeaderSize ≤ header.eventSize) :
    EventHeader.decode (encodeEventHeader header ++ rest) = .ok header := by
  have hlen : ¬ (encodeEventHeader header ++ rest).length < eventHeaderSize := by
    rw [List.length_append, length_encodeEventHeader]
    omega
  rw [EventHeader.decode, if_neg hlen, h.read_eq, if_neg (Nat.not_lt.mpr hsize)]

/-- Behind a header of at least its own size, the number of bytes is what is left to check. -/
theorem EventHeader.Encodable.frames_iff {header : EventHeader} (h : header.Encodable)
    (rest : Bytes) : header.Frames (encodeEventHeader header ++ rest) ↔
      header.eventSize = eventHeaderSize + rest.length := by
  have hlen : (encodeEventHeader header ++ rest).length = eventHeaderSize + rest.length := by
    rw [List.length_append, length_encodeEventHeader]
  constructor
  · intro hframes
    rw [hframes.size, hlen]
  · intro hsize
    exact ⟨h.decode_eq rest (by omega), by rw [hsize, hlen]⟩

theorem fakeRotateHeader_encodable (serverID : UInt32) (fileName : Bytes) :
    (fakeRotateHeader serverID fileName).Encodable where
  timestamp := zero_lt_uint32
  eventType := show EventType.ofByte EventType.rotate.toByte = .rotate by decide
  serverID := serverID.toNat_lt
  logPos := zero_lt_uint32
  flags := show logArtificialF < 2 ^ 16 by decide

theorem heartbeatHeader_encodable (fileName : Bytes) (serverID logPos : UInt32) :
    (heartbeatHeader fileName serverID logPos).Encodable where
  timestamp := zero_lt_uint32
  eventType := show EventType.ofByte EventType.heartbeat.toByte = .heartbeat by decide
  serverID := serverID.toNat_lt
  logPos := logPos.toNat_lt
  flags := show logArtificialF < 2 ^ 16 by decide

/-! ## The three events -/

theorem buildFakeRotateEvent_checksummed (serverID : UInt32) (fileName : Bytes) :
    Checksummed (buildFakeRotateEvent serverID fileName true) := ⟨_, rfl⟩

/-- The size of a rotate event counts the checksum, so it is wrong without one. -/
theorem rotateWellFormed_iff (serverID : UInt32) (fileName : Bytes) (needCrc32 : Bool) :
    RotateWellFormed serverID fileName needCrc32 ↔
      needCrc32 = true ∧ fileName.length + 31 < 2 ^ 32 := by
  have henc := fakeRotateHeader_encodable serverID fileName
  have hbody : (Bytes.leBytes 8 4 ++ fileName).length = 8 + fileName.length := by
    rw [List.length_append, Bytes.length_leBytes]
  have hsize : (fakeRotateHeader serverID fileName).eventSize =
      (19 + 8 + fileName.length + 4) % 2 ^ 32 := rfl
  cases needCrc32 with
  | false =>
      refine iff_of_false ?_ (fun h => Bool.false_ne_true h.1)
      rintro ⟨hframes, -⟩
      have := (henc.frames_iff _).mp hframes
      rw [hsize, hbody, eventHeaderSize] at this
      omega
  | true =>
      have hevent : buildFakeRotateEvent serverID fileName true =
          encodeEventHeader (fakeRotateHeader serverID fileName) ++
            (Bytes.leBytes 8 4 ++ fileName ++ Bytes.leBytes binlogChecksumLength
              (Crc32.checksumIEEE (encodeEventHeader (fakeRotateHeader serverID fileName) ++
                (Bytes.leBytes 8 4 ++ fileName)))) := List.append_assoc ..
      have hcheck := buildFakeRotateEvent_checksummed serverID fileName
      rw [RotateWellFormed, and_iff_left fun _ => hcheck, and_iff_right rfl, hevent, henc.frames_iff, hsize,
        List.length_append, hbody, Bytes.length_leBytes, eventHeaderSize, binlogChecksumLength]
      omega

theorem heartbeatWellFormed_iff (fileName : Bytes) (serverID logPos : UInt32) :
    HeartbeatWellFormed fileName serverID logPos ↔ fileName.length + 23 < 2 ^ 32 := by
  have henc := heartbeatHeader_encodable fileName serverID logPos
  have hsize : (heartbeatHeader fileName serverID logPos).eventSize =
      (19 + fileName.length + 4) % 2 ^ 32 := rfl
  have hevent : buildHeartbeatEvent fileName serverID logPos =
      encodeEventHeader (heartbeatHeader fileName serverID logPos) ++
        (fileName ++ Bytes.leBytes binlogChecksumLength
          (Crc32.checksumIEEE (encodeEventHeader (heartbeatHeader fileName serverID logPos) ++
            fileName))) := List.append_assoc ..
  have hcheck : Checksummed (buildHeartbeatEvent fileName serverID logPos) := ⟨_, rfl⟩
  rw [HeartbeatWellFormed, and_iff_left hcheck, hevent, henc.frames_iff, hsize, List.length_append,
    Bytes.length_leBytes, eventHeaderSize, binlogChecksumLength]
  omega

/-! ## The format description event -/

theorem leAt_congr {a b : Bytes} {p n : Nat}
    (h : ∀ q, p ≤ q → q < p + n → a[q]? = b[q]?) : leAt a p n = leAt b p n := by
  have hsame : (a.drop p).take n = (b.drop p).take n := by
    refine List.ext_getElem? fun q => ?_
    by_cases hq : q < n
    · rw [List.getElem?_take_of_lt hq, List.getElem?_take_of_lt hq, List.getElem?_drop,
        List.getElem?_drop, h (p + q) (by omega) (by omega)]
    · rw [List.getElem?_take, List.getElem?_take, if_neg hq, if_neg hq]
  rw [leAt, leAt, hsame]

section FormatDescription
variable {stored : Bytes} (h : eventHeaderSize + binlogChecksumLength ≤ stored.length)
include h

/-- The bytes in front of the checksum. -/
def clearedPosition (stored : Bytes) : Bytes :=
  (stored.overwrite 13 (Bytes.leBytes 4 0)).take (stored.length - binlogChecksumLength)

theorem formatDescriptionData_eq :
    formatDescriptionData stored = .ok (appendChecksum (clearedPosition stored)) := by
  rw [eventHeaderSize, binlogChecksumLength] at h
  rw [formatDescriptionData, if_neg (by omega), clearedPosition]
  simp only
  rw [Bytes.length_overwrite (by rw [Bytes.length_leBytes]; omega)]

theorem length_clearedPosition :
    (clearedPosition stored).length = stored.length - binlogChecksumLength := by
  rw [eventHeaderSize, binlogChecksumLength] at h
  rw [clearedPosition, List.length_take,
    Bytes.length_overwrite (by rw [Bytes.length_leBytes]; omega)]
  omega

theorem sameButPosition : SameButPosition stored (appendChecksum (clearedPosition stored)) where
  length := by
    rw [length_appendChecksum, length_clearedPosition h]
    omega
  same p hp hout := by
    have hlen := length_clearedPosition h
    have h13 : 13 ≤ stored.length := by
      rw [eventHeaderSize] at h
      omega
    rw [appendChecksum, List.getElem?_append_left (by omega), clearedPosition,
      List.getElem?_take_of_lt (by omega)]
    by_cases hlt : p < 13
    · rw [← List.getElem?_take_of_lt hlt, Bytes.take_overwrite h13, List.getElem?_take_of_lt hlt]
    · have hge : 13 + 4 ≤ p := by omega
      obtain ⟨q, rfl⟩ := Nat.exists_eq_add_of_le hge
      rw [Nat.add_assoc, ← List.getElem?_drop, Bytes.drop_overwrite h13, Bytes.length_leBytes,
        List.getElem?_append_right (by rw [Bytes.length_leBytes]; omega), Bytes.length_leBytes,
        Nat.add_sub_cancel_left, List.getElem?_drop, Nat.add_assoc]

/-- The header is the stored one, with the log position 0. -/
theorem read_clearedPosition : EventHeader.read (appendChecksum (clearedPosition stored)) =
    { EventHeader.read stored with logPos := 0 } := by
  have hsame := (sameButPosition h).same
  rw [eventHeaderSize, binlogChecksumLength] at h
  have hfield : ∀ {p n : Nat}, p + n ≤ 13 ∨ 17 ≤ p ∧ p + n ≤ 19 →
      leAt (appendChecksum (clearedPosition stored)) p n = leAt stored p n := by
    intro p n hpn
    refine leAt_congr fun q hq hq' => hsame q ?_ (by omega)
    rw [binlogChecksumLength]
    omega
  have htype : (appendChecksum (clearedPosition stored)).getD 4 0 = stored.getD 4 0 := by
    rw [List.getD_eq_getElem?_getD, List.getD_eq_getElem?_getD,
      hsame 4 (by rw [binlogChecksumLength]; omega) (by omega)]
  have hpos : leAt (appendChecksum (clearedPosition stored)) 13 4 = 0 := by
    have hlen := length_clearedPosition h
    rw [binlogChecksumLength] at hlen
    have hzero : ((appendChecksum (clearedPosition stored)).drop 13).take 4 = Bytes.leBytes 4 0 := by
      rw [appendChecksum, List.drop_append_of_le_length (by omega),
        List.take_append_of_le_length (by rw [List.length_drop]; omega), clearedPosition,
        List.drop_take, List.take_take, binlogChecksumLength, Nat.min_eq_left (by omega),
        Bytes.drop_overwrite (by omega)]
      exact List.take_left' (Bytes.length_leBytes 4 0)
    rw [leAt, hzero, Bytes.leNat_leBytes, Nat.zero_mod]
  exact EventHeader.ext (hfield (by omega)) (congrArg EventType.ofByte htype) (hfield (by omega))
    (hfield (by omega)) hpos (hfield (by omega))

/-- A stored event is sent well formed if and only if its own header gives its length. -/
theorem formatDescriptionWellFormed_iff :
    FormatDescriptionWellFormed stored ↔ leAt stored 9 4 = stored.length := by
  have hsame := sameButPosition h
  have hsize : (EventHeader.read stored).eventSize = leAt stored 9 4 := rfl
  constructor
  · rintro ⟨data, hdata, hframes, -, hbut⟩
    have := hframes.size
    rw [hbut.length] at this
    exact this
  · intro hlen
    refine ⟨_, formatDescriptionData_eq h, ⟨?_, ?_⟩, ⟨_, rfl⟩, hsame⟩
    · rw [EventHeader.decode, if_neg (by rw [hsame.length]; omega), read_clearedPosition h]
      exact if_neg (by rw [hsize, hlen]; omega)
    · rw [hsame.length]
      exact hlen

end FormatDescription

/-! ## On the connection -/

namespace BaseConn
variable {c : BaseConn}

end BaseConn

/-! ## All three -/

/-- A binlog file name. -/
def smallFileName : Bytes := [109, 121, 115, 113, 108, 95, 98, 105, 110, 46, 48, 48, 48, 48, 49, 50]

/-- A format description event without content, at log position 119. -/
def smallStoredEvent : Bytes :=
  encodeEventHeader
      { timestamp := 0
        eventType := .formatDescription
        serverID := 1
        eventSize := 23
        logPos := 119
        flags := 0 } ++ Bytes.zeros 4

/-- **When the events are well formed**: a rotate event if and only if the slave has asked for
checksums and the size fits its field, a heartbeat if the size fits, and the format description
event if the stored one was well formed. -/
theorem fabricated_wellFormed_iff (serverID logPos : UInt32) (fileName : Bytes) (needCrc32 : Bool)
    (stored : Bytes) (h : 23 ≤ stored.length) :
    (RotateWellFormed serverID fileName needCrc32 ↔
      needCrc32 = true ∧ fileName.length + 31 < 2 ^ 32) ∧
    (HeartbeatWellFormed fileName serverID logPos ↔ fileName.length + 23 < 2 ^ 32) ∧
    (FormatDescriptionWellFormed stored ↔ leAt stored 9 4 = stored.length) :=
  ⟨rotateWellFormed_iff serverID fileName needCrc32,
    heartbeatWellFormed_iff fileName serverID logPos, formatDescriptionWellFormed_iff h⟩

/-- With the checksum on, for the file name `mysql_bin.000012`. -/
theorem fabricated_wellFormed_small :
    RotateWellFormed 1 smallFileName true ∧ HeartbeatWellFormed smallFileName 1 4 ∧
      FormatDescriptionWellFormed smallStoredEvent := by
  obtain ⟨hrotate, hbeat, hformat⟩ :=
    fabricated_wellFormed_iff 1 4 smallFileName true smallStoredEvent (by decide)
  exact ⟨hrotate.mpr (by decide), hbeat.mpr (by decide), hformat.mpr (by decide)⟩

/-- **Without a checksum the size is wrong**: 43 bytes whose header says 47. -/
theorem rotate_size_without_checksum :
    (buildFakeRotateEvent 1 smallFileName false).length = 43 ∧
      (EventHeader.decode (buildFakeRotateEvent 1 smallFileName false)).map EventHeader.eventSize =
        .ok 47 ∧
      ¬ RotateWellFormed 1 smallFileName false := by
  refine ⟨by decide +kernel, by decide +kernel, fun h => ?_⟩
  exact absurd h.1.size (by decide +kernel)

end Kingbus
