import Kingbus.Lib.Chunks
import Kingbus.Segment

/-! # The disk storage

`storage/disk_storage.go` and `Node.appendRaftEntries` of `raft/raft.go`.  A
storage is its list of segments, the last of which is written to.  Functions that
change it return the new storage together with their result, because an error can
leave a change behind.  Removing files and the metadata update of
`purgeSegments` are taken to succeed; the order of file operations is the subject
of `Kingbus.CrashPoints`. -/

namespace Kingbus

/-- `DiskStorage`, with the segments in the order of `Segments`. -/
structure DiskStorage where
  segments : List Segment
  deriving DecidableEq, Repr

/-- `noLimit`. -/
def noLimit : Nat := 2 ^ 64 - 1

namespace Segment

/-- `l <= i && i <= h`, the range test of `TruncateSuffix` and
`getReadSegments`. -/
def contains (s : Segment) (i : Nat) : Bool := s.firstIndex ≤ i ∧ i ≤ s.lastIndex

end Segment

namespace DiskStorage

/-- A storage without log files. -/
def empty : DiskStorage := ⟨[]⟩

/-- `DiskStorage.LastIndex`. -/
def lastIndex (s : DiskStorage) : Nat :=
  match s.segments.getLast? with
  | none => 0
  | some seg => seg.lastIndex

/-- `DiskStorage.FirstIndex`. -/
def firstIndex (s : DiskStorage) : Nat :=
  match s.segments.head? with
  | none => 1
  | some seg => seg.firstIndex

/-- `DiskStorage.checkRaftIndex`. -/
def checkRaftIndex (s : DiskStorage) (raftIndex : Nat) : Except Failure Unit :=
  if raftIndex < s.firstIndex then .error (.error .compacted)
  else if raftIndex > s.lastIndex then .error (.error .outOfBound)
  else .ok ()

/-- The loop of `DiskStorage.getReadSegments`, from the last segment down; it
ends early once both ends are found. -/
def scanSegments (segments : List Segment) (first last : Nat) :
    Nat → Option Nat → Option Nat → Option Nat × Option Nat
  | 0, firstSegmentIndex, lastSegmentIndex => (firstSegmentIndex, lastSegmentIndex)
  | i + 1, firstSegmentIndex, lastSegmentIndex =>
      match segments[i]? with
      | none => (firstSegmentIndex, lastSegmentIndex)
      | some seg =>
          let firstSegmentIndex := if seg.contains first then some i else firstSegmentIndex
          let lastSegmentIndex := if seg.contains last then some i else lastSegmentIndex
          if firstSegmentIndex.isSome && lastSegmentIndex.isSome then
            (firstSegmentIndex, lastSegmentIndex)
          else scanSegments segments first last i firstSegmentIndex lastSegmentIndex

/-- `DiskStorage.getReadSegments`. -/
def getReadSegments (s : DiskStorage) (first last : Nat) : Except Failure (List Segment) :=
  match scanSegments s.segments first last s.segments.length none none with
  | (none, _) => .error (.error .compacted)
  | (some _, none) => .error (.error .outOfBound)
  | (some a, some b) =>
      if a > b then .error (.error .outOfBound)
      else .ok ((s.segments.drop a).take (b + 1 - a))

/-- The loop of `DiskStorage.readSegments`.  The budget that `readRaftEntries`
returns is bound to a new variable, so every segment is read with `maxSize`; it
only decides whether the loop goes on. -/
def readSegments (first last maxSize : Nat) : List Segment → Except Failure (List Entry)
  | [] => .ok []
  | seg :: segs => do
      let begin := if seg.firstIndex < first then first else seg.firstIndex
      let end' := if seg.lastIndex < last then seg.lastIndex else last
      let (segmentEntries, remainingSize) ← seg.readRaftEntries begin end' maxSize
      if remainingSize = 0 then return segmentEntries
      let entries ← readSegments first last maxSize segs
      return segmentEntries ++ entries

/-- `len(entry.Data)`. -/
def dataLen (e : Entry) : Nat := (e.data.getD []).length

/-- The loop of `cutRaftEntries` that finds `limit`, after `size` bytes of data:
the number of further entries to keep. -/
def cutLimit (maxSize : Nat) : Nat → List Entry → Nat
  | _, [] => 0
  | size, e :: es =>
      let size := (size + dataLen e) % 2 ^ 64
      if size > maxSize then 0 else 1 + cutLimit maxSize size es

/-- The continuity check of `cutRaftEntries`. -/
def continuous : List Entry → Bool
  | [] => true
  | [_] => true
  | e :: f :: es => (e.index + 1) % 2 ^ 64 = f.index && continuous (f :: es)

/-- `DiskStorage.cutRaftEntries`. -/
def cutRaftEntries (entries : List Entry) (maxSize : Nat) : Except Failure (List Entry) :=
  match entries with
  | [] => .ok []
  | e :: es =>
      let limit := 1 + cutLimit maxSize (dataLen e) es
      if continuous (e :: es) then .ok ((e :: es).take limit)
      else .error (.fatal "cutRaftEntries:read raft log from storage is not continuous,i:%d")

/-- `DiskStorage.Entries`. -/
def entries (s : DiskStorage) (lo hi maxSize : Nat) : Except Failure (List Entry) :=
  let last := (hi + (2 ^ 64 - 1)) % 2 ^ 64
  if last < lo then .error (.error .argsIllegal)
  else do
    s.checkRaftIndex lo
    s.checkRaftIndex last
    let segments ← s.getReadSegments lo last
    let entries ← readSegments lo last maxSize segments
    cutRaftEntries entries maxSize

/-- `DiskStorage.Term`. -/
def term (s : DiskStorage) (i : Nat) : Except Failure Nat :=
  if i = 0 then .ok 0
  else do
    s.checkRaftIndex i
    let entries ← s.entries i ((i + 1) % 2 ^ 64) noLimit
    match entries with
    | [] => .error (.error .unavailable)
    | e :: _ => return e.term

/-- `DiskStorage.TruncateSuffix`: the segments behind the one that holds the index
are removed before that one is cut. -/
def truncateSuffix (s : DiskStorage) (raftIndex : Nat) : DiskStorage × Except Failure Unit :=
  match splitLast (fun seg => seg.contains raftIndex) s.segments with
  | none => (s, .error (.error .outOfBound))
  | some (before, seg, _) =>
      match seg.truncateSuffix raftIndex with
      | .error e => (⟨before ++ [seg]⟩, .error e)
      | .ok seg => (⟨before ++ [seg]⟩, .ok ())

/-- The tick of `StartPurgeLog`: the oldest segments go until
`reserveSegmentCount` are left. -/
def purge (s : DiskStorage) (reserveSegmentCount : Nat) : DiskStorage :=
  if reserveSegmentCount < s.segments.length then
    ⟨s.segments.drop (s.segments.length - reserveSegmentCount)⟩
  else s

/-- `newSegment`, with the file created exclusively: the index file has the name of
the log file and another suffix. -/
def newSegment (c : Config) (s : DiskStorage) (name : FileName) : Except Failure Segment :=
  if s.segments.any (fun seg => seg.logFile.filePath = name) then
    .error (.fatal "OpenFile error,err:%s,filePath:%s")
  else .ok (Segment.create c name)

/-- `DiskStorage.rollingSegment` with a previous segment, which is the last one. -/
def rollingSegment (c : Config) (s : DiskStorage) (prevLastSegment : Segment) (firstIndex : Nat) :
    DiskStorage × Except Failure Segment :=
  match prevLastSegment.changeToReadonly with
  | .error e => (s, .error e)
  | .ok prev =>
      let s : DiskStorage := ⟨s.segments.dropLast ++ [prev]⟩
      (s, s.newSegment c (.inprogress firstIndex))

/-- `DiskStorage.getWriteSegment`: the segment and whether it is new. -/
def getWriteSegment (c : Config) (s : DiskStorage) (firstIndex recordsSize : Nat) :
    DiskStorage × Except Failure (Segment × Bool) :=
  match s.segments.getLast? with
  | none => (s, (s.newSegment c (.inprogress firstIndex)).map (·, true))
  | some writeSegment =>
      if writeSegment.needRolling recordsSize then
        let (s, r) := s.rollingSegment c writeSegment firstIndex
        (s, r.map (·, true))
      else (s, .ok (writeSegment, false))

/-- `DiskStorage.SaveRaftEntries`. -/
def saveRaftEntries (c : Config) (s : DiskStorage) (entries : List Entry) :
    DiskStorage × Except Failure Unit :=
  match entries with
  | [] => (s, .ok ())
  | e :: _ =>
      let startIndex := e.index
      let (records, recordsSize) := entriesToRecords entries
      if c.segmentSize < recordsSize then
        (s, .error (.fatal "recordsSize[%d] is large than SegmentSize[%d]"))
      else
        match s.getWriteSegment c startIndex recordsSize with
        | (s, .error e) => (s, .error e)
        | (s, .ok (writeSegment, isNew)) =>
            match writeSegment.appendRecords records startIndex with
            | .error e => (s, .error e)
            | .ok seg =>
                if isNew then (⟨s.segments ++ [seg]⟩, .ok ())
                else (⟨s.segments.dropLast ++ [seg]⟩, .ok ())

/-- `Node.appendRaftEntries`. -/
def appendRaftEntries (c : Config) (s : DiskStorage) (entries : List Entry) :
    DiskStorage × Except Failure Unit :=
  match entries with
  | [] => (s, .ok ())
  | e :: _ =>
      if s.lastIndex ≥ e.index then
        match s.truncateSuffix e.index with
        | (s, .error e) => (s, .error e)
        | (s, .ok ()) => s.saveRaftEntries c entries
      else s.saveRaftEntries c entries

end DiskStorage

end Kingbus
