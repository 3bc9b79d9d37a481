import Kingbus.SegmentIndex

/-! # Segments

`storage/segment.go`: a log file with its index, the range of raft indexes it
holds, and a status.  The functions that change a segment return it; a segment
whose call ends in a `Failure` is unchanged.  Opening a segment from its files is
in `Kingbus.OpenSegments`. -/

namespace Kingbus

/-- `SegmentSize`, a package variable: 1 GiB unless a test sets it. -/
structure Config where
  segmentSize : Nat
  segmentSize_pos : 0 < segmentSize := by decide
  segmentSize_le : segmentSize ≤ 2 ^ 32 := by decide

namespace Config

/-- The value `SegmentSize` is initialised with. -/
def default : Config where
  segmentSize := 1024 * 1024 * 1024

end Config

/-- `Segment`. -/
structure Segment where
  firstIndex : Nat
  lastIndex : Nat
  logFile : MmapFile
  logIndex : Index
  status : SegmentStatus
  deriving DecidableEq, Repr

namespace Segment

/-- `newSegment`. -/
def create (c : Config) (name : FileName) : Segment where
  firstIndex := 0
  lastIndex := 0
  logFile := MmapFile.create name c.segmentSize
  logIndex := Index.create name
  status := .rdwr

/-- `Segment.appendRecord`. -/
def appendRecord (s : Segment) (record : Record) (raftIndex : Nat) : Except Failure Segment := do
  let (logFile, startPos) ← s.logFile.append (Bytes.leBytes recordLengthSize record.size)
  let (logFile, _) ← logFile.append record.marshal
  let logIndex ← s.logIndex.appendIndexEntry (IndexEntry.of raftIndex startPos)
  return { s with logFile := logFile, logIndex := logIndex }

/-- The loop of `Segment.appendRecords`. -/
def appendLoop (s : Segment) : List Record → Nat → Except Failure Segment
  | [], _ => .ok s
  | record :: records, raftIndex => do
      let s ← s.appendRecord record raftIndex
      s.appendLoop records (raftIndex + 1)

/-- The end of `Segment.appendRecords`: the new range of raft indexes. -/
def updateRange (s : Segment) (startIndex count : Nat) : Segment :=
  let lastIndex := (startIndex + count + (2 ^ 64 - 1)) % 2 ^ 64
  { s with
    firstIndex := if s.firstIndex = 0 then startIndex else s.firstIndex
    lastIndex := if s.lastIndex < lastIndex then lastIndex else s.lastIndex }

/-- `Segment.appendRecords`. -/
def appendRecords (s : Segment) (records : List Record) (startIndex : Nat) :
    Except Failure Segment :=
  if s.status ≠ .rdwr then .error (.error .notWritable)
  else if s.lastIndex ≠ 0 ∧ (s.lastIndex + 1) % 2 ^ 64 ≠ startIndex then
    .error (.error .notContinuous)
  else do
    let s ← s.appendLoop records startIndex
    let s := { s with logFile := s.logFile.sync }
    return s.updateRange startIndex records.length

/-- The loop of `Segment.readRaftEntries`: the entries from `position` on and the
size read.  Every round moves the position forward by at least a record length,
so `fuel` of the size of the file is never used up. -/
def readLoop (s : Segment) (last maxSize : Nat) :
    Nat → Nat → Nat → Except Failure (List Entry × Nat)
  | 0, _, _ => .error (.panic "slice bounds out of range")
  | fuel + 1, position, readSize => do
      let (entry, nextReadPosition) ← s.logFile.readRaftEntry position
      let readSize := (readSize + entry.size) % 2 ^ 64
      if readSize > maxSize ∨ entry.index = last ∨ entry.index = s.lastIndex then
        return ([entry], readSize)
      let (entries, readSize) ← s.readLoop last maxSize fuel nextReadPosition readSize
      return (entry :: entries, readSize)

/-- What is left of the size limit. -/
def remaining (maxSize readSize : Nat) : Nat :=
  if readSize > maxSize then 0 else maxSize - readSize

/-- `Segment.readRaftEntries`: the entries and what is left of `maxSize`.  The
capacity the slice is made with is left out, here and in `readSegments`: it could
only be negative for a window of `2^63` entries. -/
def readRaftEntries (s : Segment) (first last maxSize : Nat) :
    Except Failure (List Entry × Nat) :=
  if s.status = .closed then .error (.error .closed)
  else do
    let position ← s.logIndex.getRaftEntryPosition first s.firstIndex s.status
    let (entries, readSize) ←
      s.readLoop last maxSize (s.logFile.mappedData.length + 1) position 0
    return (entries, remaining maxSize readSize)

/-- `Segment.needRolling`. -/
def needRolling (s : Segment) (size : Nat) : Bool :=
  s.logFile.writePosition + size > s.logFile.maxBytes

/-- `Segment.truncateSuffix`. -/
def truncateSuffix (s : Segment) (i : Nat) : Except Failure Segment := do
  let segmentPos ← s.logIndex.getRaftEntryPosition i s.firstIndex s.status
  let logFile ← s.logFile.truncateSuffix segmentPos
  let s ←
    if s.status = .rdwr then do
      let logIndex ← s.logIndex.truncateSuffix i s.firstIndex .rdwr
      pure { s with logFile := logFile, logIndex := logIndex }
    else do
      let logFile := logFile.rename (.inprogress s.firstIndex)
      let logIndex ← s.logIndex.truncateSuffix i s.firstIndex .readOnly
      pure { s with logFile := logFile, logIndex := logIndex, status := .rdwr }
  return if i = s.firstIndex then { s with firstIndex := 0, lastIndex := 0 }
    else { s with lastIndex := (i + (2 ^ 64 - 1)) % 2 ^ 64 }

/-- `Segment.changeToReadonly`. -/
def changeToReadonly (s : Segment) : Except Failure Segment :=
  if s.status ≠ .rdwr then .error (.error .argsIllegal)
  else do
    let logFile := s.logFile.rename (.readonly s.firstIndex s.lastIndex)
    let logIndex ← s.logIndex.changeToReadonly
    return { s with logFile := logFile, logIndex := logIndex, status := .readOnly }

end Segment

end Kingbus
