import Kingbus.RaftEntry

/-! # Memory-mapped files

`storage/mmap_file.go`.  The mapping is shared with the file, so `mappedData` is
also what the file holds; the file's name is kept in `filePath`.  Every system
call is taken to succeed.  What can still go wrong is a slice expression out of
range (a run-time panic), a `log.Fatalf`, or a returned error. -/

namespace Kingbus
open Wire

/-- The errors of `storage/errors.go` and of the raft library that the storage
returns. -/
inductive StorageError where
  | keyNotFound
  | keyIsNil
  | argsIllegal
  | notContain
  | outOfBound
  | notContinuous
  | closed
  | notWritable
  | compacted
  | unavailable
  deriving DecidableEq, Repr

/-- How a call can end without a result: it returns an error, it stops the
process with `log.Fatalf`, or it panics. -/
inductive Failure where
  | error (e : StorageError)
  | fatal (text : String)
  | panic (text : String)
  deriving DecidableEq, Repr

/-- The names of segment and index files: `%020d-%020d` for a read-only pair,
`%020d-inprogress` for a writable one. -/
inductive FileName where
  | readonly (first last : Nat)
  | inprogress (first : Nat)
  deriving DecidableEq, Repr

/-- The first index in a file name. -/
def FileName.first : FileName → Nat
  | .readonly first _ => first
  | .inprogress first => first

/-- `index.go`: an entry of an index file. -/
@[ext] structure IndexEntry where
  raftIndex : Nat
  filePosition : Nat
  raftIndex_lt : raftIndex < 2 ^ 64 := by decide
  filePosition_lt : filePosition < 2 ^ 32 := by decide
  deriving Repr

instance : DecidableEq IndexEntry := fun _ _ => decidable_of_iff' _ IndexEntry.ext_iff

/-- `IndexEntrySize`. -/
def indexEntrySize : Nat := 12

namespace IndexEntry

/-- An index entry built from a 64-bit index and an `int` position; the position
is cut to 32 bits. -/
def of (raftIndex filePosition : Nat) : IndexEntry where
  raftIndex := raftIndex % 2 ^ 64
  filePosition := filePosition % 2 ^ 32
  raftIndex_lt := mod_uint64_lt raftIndex
  filePosition_lt := mod_uint32_lt filePosition

/-- `IndexEntry.Marshal`. -/
def marshal (i : IndexEntry) : Bytes := Bytes.leBytes 8 i.raftIndex ++ Bytes.leBytes 4 i.filePosition

/-- `IndexEntry.Unmarshal`, of a buffer of `IndexEntrySize` bytes. -/
def unmarshal (b : Bytes) : IndexEntry := of (Bytes.leNat (b.take 8)) (Bytes.leNat ((b.drop 8).take 4))

@[simp] theorem length_marshal (i : IndexEntry) : i.marshal.length = 12 := by
  rw [marshal, List.length_append, Bytes.length_leBytes, Bytes.length_leBytes]

/-- **An index entry is read back as it was written.** -/
@[simp] theorem unmarshal_marshal (i : IndexEntry) : unmarshal i.marshal = i := by
  have h8 : (i.marshal).take 8 = Bytes.leBytes 8 i.raftIndex :=
    List.take_left' (Bytes.length_leBytes 8 _)
  have h4 : (i.marshal).drop 8 = Bytes.leBytes 4 i.filePosition :=
    List.drop_left' (Bytes.length_leBytes 8 _)
  have hr := i.raftIndex_lt
  have hp := i.filePosition_lt
  rw [unmarshal, h8, h4, List.take_of_length_le (by rw [Bytes.length_leBytes]),
    Bytes.leNat_leBytes_of_lt (by omega), Bytes.leNat_leBytes_of_lt (by omega)]
  cases i
  simp only [of, mk.injEq]
  exact ⟨Nat.mod_eq_of_lt hr, Nat.mod_eq_of_lt hp⟩

end IndexEntry

/-- `MmapFile`. -/
structure MmapFile where
  filePath : FileName
  mappedData : Bytes
  writePosition : Nat
  syncPosition : Nat
  maxBytes : Nat
  deriving DecidableEq, Repr

namespace MmapFile

/-- `b[lo:hi]`, panicking when out of range. -/
def sliceOf (b : Bytes) (lo hi : Nat) : Except Failure Bytes :=
  match Bytes.slice b lo hi with
  | none => .error (.panic "slice bounds out of range")
  | some s => .ok s

/-- `newMmapFile`: a preallocated file of zero bytes. -/
def create (name : FileName) (fileSize : Nat) : MmapFile where
  filePath := name
  mappedData := Bytes.zeros fileSize
  writePosition := 0
  syncPosition := 0
  maxBytes := fileSize

/-- `openMmapFile` of a file with the given contents.  The write position is not
restored.  An empty file cannot be mapped. -/
def openFile (name : FileName) (contents : Bytes) : Except Failure MmapFile :=
  if contents = [] then .error (.fatal "Mmap error,err:%s,filePath:%s,fileSize:%d")
  else .ok {
    filePath := name
    mappedData := contents
    writePosition := 0
    syncPosition := 0
    maxBytes := contents.length }

/-- `MmapFile.append`: the position the data was written at. -/
def append (f : MmapFile) (data : Bytes) : Except Failure (MmapFile × Nat) :=
  if f.writePosition + data.length ≤ f.mappedData.length then
    .ok ({ f with
      mappedData := Bytes.overwrite f.mappedData f.writePosition data
      writePosition := f.writePosition + data.length }, f.writePosition)
  else .error (.panic "slice bounds out of range")

/-- `MmapFile.sync`. -/
def sync (f : MmapFile) : MmapFile := { f with syncPosition := f.writePosition }

/-- `MmapFile.setPosition`; positions are never negative here. -/
def setPosition (f : MmapFile) (position : Nat) : MmapFile :=
  { f with writePosition := position, syncPosition := position }

/-- `record.Unmarshal` and the checks both readers make of a record, as the scan
of `rebuildIndex` and `readRaftEntry` share them: the record read into `record`
and the entry read into `entry`. -/
def parseRecord (record : Record) (entry : Entry) (buf : Bytes) :
    Except Failure (Record × Entry) :=
  match record.unmarshal buf with
  | .error .outOfRange => .error (.panic "slice bounds out of range")
  | .error _ => .error (.fatal "record Unmarshal error,err:%s,buf:%v")
  | .ok record =>
      if Crc32.checksumIEEE record.bytes ≠ record.crc then
        .error (.fatal "crc not equal,record.crc:%d,calculatedCrc:%d,buf:%v")
      else match entry.unmarshal record.bytes with
        | .error .outOfRange => .error (.panic "slice bounds out of range")
        | .error _ => .error (.fatal "entry Unmarshal error,err:%s,buf:%v")
        | .ok entry => .ok (record, entry)

/-- `MmapFile.readRaftEntry`: the entry at `position` and the position behind
it. -/
def readRaftEntry (f : MmapFile) (position : Nat) : Except Failure (Entry × Nat) := do
  let lenBuf ← sliceOf f.mappedData position (position + recordLengthSize)
  let recordLen := Bytes.leNat lenBuf
  let endPosition := position + recordLengthSize + recordLen
  let recordBuf ← sliceOf f.mappedData (position + recordLengthSize) endPosition
  let (_, entry) ← parseRecord Record.zero Entry.zero recordBuf
  return (entry, endPosition)

/-- `MmapFile.readIndexEntry`. -/
def readIndexEntry (f : MmapFile) (position : Nat) : Except Failure IndexEntry := do
  let buf ← sliceOf f.mappedData position (position + indexEntrySize)
  return IndexEntry.unmarshal buf

/-- `MmapFile.truncateSuffix`: zero what was written from `position` on. -/
def truncateSuffix (f : MmapFile) (position : Nat) : Except Failure MmapFile :=
  if f.writePosition < position then .error (.error .outOfBound)
  else
    let zeroDataLen := f.writePosition - position
    if position + zeroDataLen ≤ f.mappedData.length then
      .ok { f with
        mappedData := Bytes.overwrite f.mappedData position (Bytes.zeros zeroDataLen)
        writePosition := position
        syncPosition := position }
    else .error (.panic "slice bounds out of range")

/-- `MmapFile.rename`. -/
def rename (f : MmapFile) (name : FileName) : MmapFile := { f with filePath := name }

/-! ## Specifications -/

theorem sliceOf_append_of_eq {a m c : Bytes} {lo hi : Nat} (hlo : lo = a.length)
    (hhi : hi = lo + m.length) : sliceOf (a ++ (m ++ c)) lo hi = .ok m := by
  rw [sliceOf, Bytes.slice_append_of_eq hlo hhi]

/-- A record read back from its own bytes, into any values. -/
theorem parseRecord_marshal (record : Record) (entry e : Entry) (h : e.toRecord.size < 2 ^ 63) :
    parseRecord record entry e.toRecord.marshal =
      .ok (e.toRecord, { e with data := e.data <|> entry.data }) := by
  have hsize := size_lt_toRecord_size e
  have hcrc : Crc32.checksumIEEE e.toRecord.bytes = e.toRecord.crc := rfl
  have hentry : entry.unmarshal e.toRecord.bytes = .ok { e with data := e.data <|> entry.data } :=
    Entry.unmarshal_marshal entry e (by omega)
  unfold parseRecord
  rw [Record.unmarshal_marshal record e.toRecord rfl h]
  simp only [hcrc, ne_eq, not_true_eq_false, if_false, hentry]

/-- The length prefix of a frame, read back. -/
theorem leNat_frameLength {e : Entry} (h : (frame e).length ≤ 2 ^ 32) :
    Bytes.leNat (Bytes.leBytes 4 e.toRecord.size) = e.toRecord.size := by
  rw [length_frame] at h
  exact Bytes.leNat_leBytes_of_lt (by omega)

/-- **Reading a frame.**  An entry stored behind `pre` is read back, and the next
position is behind its frame. -/
theorem readRaftEntry_frame {f : MmapFile} {pre rest : Bytes} {e : Entry}
    (hf : f.mappedData = pre ++ (frame e ++ rest)) (h : (frame e).length ≤ 2 ^ 32) :
    f.readRaftEntry pre.length = .ok (e, pre.length + (frame e).length) := by
  have hlen := leNat_frameLength h
  rw [length_frame] at h
  have hdata : f.mappedData =
      pre ++ (Bytes.leBytes 4 e.toRecord.size ++ (e.toRecord.marshal ++ rest)) := by
    rw [hf, frame, List.append_assoc]
  have hdata' : f.mappedData =
      (pre ++ Bytes.leBytes 4 e.toRecord.size) ++ (e.toRecord.marshal ++ rest) := by
    rw [hdata, List.append_assoc]
  have h1 : sliceOf f.mappedData pre.length (pre.length + recordLengthSize) =
      .ok (Bytes.leBytes 4 e.toRecord.size) := by
    rw [hdata]
    exact sliceOf_append_of_eq rfl (by rw [Bytes.length_leBytes, recordLengthSize])
  have h2 : sliceOf f.mappedData (pre.length + recordLengthSize)
      (pre.length + recordLengthSize + e.toRecord.size) = .ok e.toRecord.marshal := by
    rw [hdata']
    refine sliceOf_append_of_eq ?_ ?_
    · rw [List.length_append, Bytes.length_leBytes, recordLengthSize]
    · rw [Record.length_marshal]
  have h3 : parseRecord Record.zero Entry.zero e.toRecord.marshal = .ok (e.toRecord, e) := by
    rw [parseRecord_marshal _ _ _ (by omega)]
    cases e with
    | mk type term index data _ _ _ => cases data <;> rfl
  simp only [readRaftEntry, bind, Except.bind, h1, hlen, h2, h3, pure, Except.pure, length_frame]
  rw [recordLengthSize, Nat.add_assoc]

/-- Appending behind the bytes written so far. -/
theorem append_spec {f : MmapFile} {pre rest data : Bytes} (hf : f.mappedData = pre ++ rest)
    (hw : f.writePosition = pre.length) (hfit : data.length ≤ rest.length) :
    f.append data = .ok ({ f with
      mappedData := (pre ++ data) ++ rest.drop data.length
      writePosition := (pre ++ data).length }, pre.length) := by
  have hlen : f.mappedData.length = pre.length + rest.length := by
    rw [hf, List.length_append]
  rw [append, if_pos (by omega), hw, hf, Bytes.overwrite_prefix, List.length_append,
    List.append_assoc]

/-- Zeroing everything written behind `pre`. -/
theorem truncateSuffix_spec {f : MmapFile} {pre mid rest : Bytes}
    (hf : f.mappedData = pre ++ (mid ++ rest)) (hw : f.writePosition = pre.length + mid.length) :
    f.truncateSuffix pre.length = .ok { f with
      mappedData := pre ++ (Bytes.zeros mid.length ++ rest)
      writePosition := pre.length
      syncPosition := pre.length } := by
  have hlen : f.mappedData.length = pre.length + (mid.length + rest.length) := by
    rw [hf, List.length_append, List.length_append]
  have hz : f.writePosition - pre.length = mid.length := by omega
  rw [truncateSuffix, if_neg (by omega), hz]
  simp only
  rw [if_pos (by omega), hf, Bytes.overwrite_append (Bytes.length_zeros _)]

/-- A file whose write position was not restored refuses to be cut anywhere but
at its start. -/
theorem truncateSuffix_of_lt {f : MmapFile} {position : Nat} (h : f.writePosition < position) :
    f.truncateSuffix position = .error (.error .outOfBound) := if_pos h

end MmapFile

end Kingbus
