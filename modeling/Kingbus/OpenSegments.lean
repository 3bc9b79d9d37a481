import Mathlib.Data.List.Sort
import Kingbus.DiskStorage

/-! # Opening a storage from its directory

`openSegments`, `openSegment` and `rebuildIndex` of `storage/segment.go`, and
`NewDiskStorage` and `Close` of `storage/disk_storage.go`.  A directory is its log
files and its index files with their contents; an index file has the name of its
log file and another suffix. -/

namespace Kingbus

/-- The order of file names.  The first index has twenty digits in both patterns,
and a digit sorts before the `i` of `inprogress`. -/
def FileName.le : FileName → FileName → Prop
  | .readonly a b, .readonly a' b' => a < a' ∨ (a = a' ∧ b ≤ b')
  | .readonly a _, .inprogress a' => a ≤ a'
  | .inprogress a, .readonly a' _ => a < a'
  | .inprogress a, .inprogress a' => a ≤ a'

instance : DecidableRel FileName.le
  | .readonly _ _, .readonly _ _ => inferInstanceAs (Decidable (_ ∨ _))
  | .readonly _ _, .inprogress _ => inferInstanceAs (Decidable (_ ≤ _))
  | .inprogress _, .readonly _ _ => inferInstanceAs (Decidable (_ < _))
  | .inprogress _, .inprogress _ => inferInstanceAs (Decidable (_ ≤ _))

theorem FileName.le_of_first_lt {a b : FileName} (h : a.first < b.first) : a.le b := by
  cases a with
  | readonly a₁ a₂ =>
      cases b with
      | readonly b₁ b₂ => exact Or.inl h
      | inprogress b₁ => exact Nat.le_of_lt h
  | inprogress a₁ =>
      cases b with
      | readonly b₁ b₂ => exact h
      | inprogress b₁ => exact Nat.le_of_lt h

/-- The log and index files of a directory. -/
structure Dir where
  logs : List (FileName × Bytes)
  indexes : List (FileName × Bytes)
  deriving DecidableEq, Repr

namespace Dir

/-- `ReadDir`, restricted to the log files: sorted by name. -/
def logFiles (d : Dir) : List (FileName × Bytes) :=
  d.logs.insertionSort fun a b => a.1.le b.1

/-- Opening an index file for reading or removal: it has to exist. -/
def indexFile (d : Dir) (name : FileName) : Except Failure Bytes :=
  match d.indexes.lookup name with
  | none => .error (.fatal "OpenFile error,err:%s,filePath:%s")
  | some contents => .ok contents

end Dir

namespace Segment

/-- The loop of `rebuildIndex`, from `position` on.  `record` and `raftEntry` are
decoded into again and again without being reset.  A record that cannot be parsed
ends the scan; an index out of range would panic. -/
def rebuildLoop (c : Config) (mappedData : Bytes) :
    Nat → Nat → Record → Entry → Index → Except Failure Index
  | 0, _, _, _, logIndex => .ok logIndex
  | fuel + 1, position, record, raftEntry, logIndex =>
      if c.segmentSize ≤ position + recordLengthSize then .ok logIndex
      else do
        let lenBuf ← MmapFile.sliceOf mappedData position (position + recordLengthSize)
        let recordLen := Bytes.leNat lenBuf
        let position := position + recordLengthSize
        if c.segmentSize ≤ position ∨ c.segmentSize < position + recordLen then return logIndex
        let recordBuf ← MmapFile.sliceOf mappedData position (position + recordLen)
        if recordBuf.length = 0 then return logIndex
        match MmapFile.parseRecord record raftEntry recordBuf with
        | .error (.panic text) => .error (.panic text)
        | .error _ => return logIndex
        | .ok (record, raftEntry) => do
            let logIndex ← logIndex.appendIndexEntry
              (IndexEntry.of raftEntry.index (position - recordLengthSize))
            rebuildLoop c mappedData fuel (position + recordLen) record raftEntry logIndex

/-- `Segment.rebuildIndex`: the old index file is removed, a new one is made and
filled from the log file.  Every round of the loop takes more than a record
length, so the size of the file is enough fuel. -/
def rebuildIndex (c : Config) (d : Dir) (logFile : MmapFile) : Except Failure Index := do
  let _ ← d.indexFile logFile.filePath
  rebuildLoop c logFile.mappedData (logFile.mappedData.length + 1) 0 Record.zero Entry.zero
    (Index.create logFile.filePath)

/-- The end of `openSegment` for a writable segment: the last index and the write
position come from the last entry of the index. -/
def resume (firstIndex : Nat) (logFile : MmapFile) (logIndex : Index) : Except Failure Segment := do
  let lastIndexEntry ← logIndex.getLastRaftEntry
  let lastRecordPosition := lastIndexEntry.filePosition
  let lenBuf ← MmapFile.sliceOf logFile.mappedData lastRecordPosition
    (lastRecordPosition + recordLengthSize)
  let lastRecordLen := Bytes.leNat lenBuf
  let nextWritePos := lastIndexEntry.filePosition + lastRecordLen + recordLengthSize
  return {
    firstIndex := firstIndex
    lastIndex := lastIndexEntry.raftIndex
    logFile := logFile.setPosition nextWritePos
    logIndex := logIndex
    status := .rdwr }

/-- `openSegment` with `SegmentReadOnly`. -/
def openReadOnly (d : Dir) (file : FileName × Bytes) : Except Failure Segment := do
  let logFile ← MmapFile.openFile file.1 file.2
  match file.1 with
  | .inprogress _ => .error (.fatal "Sscanf error,err:%s,name:%s")
  | .readonly first last => do
      let contents ← d.indexFile file.1
      let logIndex ← Index.openIndex file.1 contents .readOnly
      return {
        firstIndex := first
        lastIndex := last
        logFile := logFile
        logIndex := logIndex
        status := .readOnly }

/-- `openSegment` with `SegmentRDWR`. -/
def openWritable (c : Config) (d : Dir) (needRecover : Bool) (file : FileName × Bytes) :
    Except Failure Segment := do
  let logFile ← MmapFile.openFile file.1 file.2
  match file.1 with
  | .readonly _ _ => .error (.fatal "Sscanf error,err:%s,name:%s")
  | .inprogress first => do
      let logIndex ←
        if needRecover then rebuildIndex c d logFile
        else do
          let contents ← d.indexFile file.1
          Index.openIndex file.1 contents .rdwr
      resume first logFile logIndex

/-- The files of a segment that is closed: what is still buffered for the index is
flushed. -/
def indexContents (s : Segment) : FileName × Bytes :=
  match s.logIndex.readonly, s.logIndex.readWrite with
  | some f, _ => (f.filePath, f.mappedData)
  | none, some rw => (rw.filePath, rw.close.file)
  | none, none => (s.logFile.filePath, [])

end Segment

namespace DiskStorage

/-- The loop of `openSegments`: every file but the last is opened read-only. -/
def openLogs (c : Config) (d : Dir) (needRecover : Bool) :
    List (FileName × Bytes) → Except Failure (List Segment)
  | [] => .ok []
  | [file] => do
      let s ← Segment.openWritable c d needRecover file
      return [s]
  | file :: files => do
      let s ← Segment.openReadOnly d file
      let segments ← openLogs c d needRecover files
      return s :: segments

/-- `NewDiskStorage`, as far as it concerns the log (`initSegments` and
`openSegments`); `needRecover` is the stored flag. -/
def newDiskStorage (c : Config) (d : Dir) (needRecover : Bool) : Except Failure DiskStorage := do
  let segments ← openLogs c d needRecover d.logFiles
  return ⟨segments⟩

/-- The directory `Close` leaves. -/
def close (s : DiskStorage) : Dir where
  logs := s.segments.map fun seg => (seg.logFile.filePath, seg.logFile.mappedData)
  indexes := s.segments.map Segment.indexContents

end DiskStorage

end Kingbus
