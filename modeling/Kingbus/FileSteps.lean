import Kingbus.Recovery

/-! # The file operations behind the storage

Saving, truncating and purging, taken apart into the changes they make to the
directory, in the order in which the source makes them.  The storage model says
what an operation does when it completes; here every prefix of its steps is a
directory of its own, which is what a crash leaves behind. -/

namespace Kingbus

/-- One change of the directory. -/
inductive FsStep where
  | renameLog (old new : FileName)
  | renameIndex (old new : FileName)
  | createLog (name : FileName) (fileSize : Nat)
  | createIndex (name : FileName)
  | writeRecord (name : FileName) (position : Nat) (bytes : Bytes)
  | zeroRange (name : FileName) (position zeroDataLen : Nat)
  | writeIndex (name : FileName) (contents : Bytes)
  | removeLog (name : FileName)
  | removeIndex (name : FileName)
  deriving DecidableEq, Repr

namespace Dir

/-- The directory after a step. -/
def step (d : Dir) : FsStep → Dir
  | .renameLog old new => { d with logs := Table.rename old new d.logs }
  | .renameIndex old new => { d with indexes := Table.rename old new d.indexes }
  | .createLog name fileSize => { d with logs := d.logs ++ [(name, Bytes.zeros fileSize)] }
  | .createIndex name => { d with indexes := d.indexes ++ [(name, [])] }
  | .writeRecord name position bytes =>
      { d with logs := Table.modify name (fun b => b.overwrite position bytes) d.logs }
  | .zeroRange name position zeroDataLen =>
      { d with
        logs := Table.modify name (fun b => b.overwrite position (Bytes.zeros zeroDataLen))
          d.logs }
  | .writeIndex name contents =>
      { d with indexes := Table.modify name (fun _ => contents) d.indexes }
  | .removeLog name => { d with logs := Table.remove name d.logs }
  | .removeIndex name => { d with indexes := Table.remove name d.indexes }

/-- The directory after some steps. -/
def run (d : Dir) (steps : List FsStep) : Dir := steps.foldl step d

@[simp] theorem run_nil (d : Dir) : d.run [] = d := rfl

@[simp] theorem run_cons (d : Dir) (st : FsStep) (steps : List FsStep) :
    d.run (st :: steps) = (d.step st).run steps := rfl

theorem run_append (d : Dir) (a b : List FsStep) : d.run (a ++ b) = (d.run a).run b :=
  List.foldl_append ..

end Dir

namespace Segment

/-- The log file. -/
def logContents (s : Segment) : FileName × Bytes := (s.logFile.filePath, s.logFile.mappedData)

/-- The index file, without what is still buffered for it. -/
def indexFile (s : Segment) : FileName × Bytes :=
  match s.logIndex.readonly, s.logIndex.readWrite with
  | some f, _ => (f.filePath, f.mappedData)
  | none, some rw => (rw.filePath, rw.file)
  | none, none => (s.logFile.filePath, [])

/-- The steps of `appendRecords`: a record goes to the mapped log file, its index
entry to a buffer that is written out when it is full. -/
def recordSteps (s : Segment) : List Record → Nat → List FsStep
  | [], _ => []
  | record :: records, raftIndex =>
      match s.appendRecord record raftIndex with
      | .error _ => []
      | .ok s' =>
          .writeRecord s.logFile.filePath s.logFile.writePosition
            (Bytes.leBytes recordLengthSize record.size ++ record.marshal) ::
          .writeIndex s'.indexFile.1 s'.indexFile.2 :: s'.recordSteps records (raftIndex + 1)

/-- The steps of `newSegment`. -/
def createSteps (s : Segment) : List FsStep :=
  [.createLog s.logFile.filePath s.logFile.maxBytes, .createIndex s.indexFile.1]

/-- The steps of `changeToReadonly`: the index file is flushed after it is
renamed. -/
def sealSteps (s : Segment) : List FsStep :=
  match s.changeToReadonly with
  | .error _ => []
  | .ok s' =>
      [.renameLog s.logFile.filePath s'.logFile.filePath,
        .renameIndex s.indexFile.1 s'.indexFile.1, .writeIndex s'.indexFile.1 s'.indexFile.2]

/-- The steps of `truncateSuffix`.  A read-only segment is renamed in between. -/
def cutSteps (s : Segment) (i : Nat) : List FsStep :=
  match s.truncateSuffix i with
  | .error _ => []
  | .ok s' =>
      .zeroRange s.logFile.filePath s'.logFile.writePosition
          (s.logFile.writePosition - s'.logFile.writePosition) ::
        ((if s.status = .rdwr then []
          else [.renameLog s.logFile.filePath s'.logFile.filePath,
            .renameIndex s.indexFile.1 s'.indexFile.1]) ++
          [.writeIndex s'.indexFile.1 s'.indexFile.2])

/-- The steps of `remove`. -/
def removeSteps (s : Segment) : List FsStep :=
  [.removeLog s.logFile.filePath, .removeIndex s.indexFile.1]

end Segment

/-- An operation on the log files. -/
inductive Op where
  | save (entries : List Entry)
  | truncate (raftIndex : Nat)
  | purge (reserveSegmentCount : Nat)
  deriving DecidableEq, Repr

namespace DiskStorage

/-- The files of a storage whose process is running. -/
def files (s : DiskStorage) : Dir where
  logs := s.segments.map Segment.logContents
  indexes := s.segments.map Segment.indexFile

/-- The steps of `SaveRaftEntries`. -/
def saveSteps (c : Config) (s : DiskStorage) (entries : List Entry) : List FsStep :=
  match entries with
  | [] => []
  | e :: _ =>
      let startIndex := e.index
      let (records, recordsSize) := entriesToRecords entries
      let new := Segment.create c (.inprogress startIndex)
      match s.segments.getLast? with
      | none => new.createSteps ++ new.recordSteps records startIndex
      | some writeSegment =>
          if writeSegment.needRolling recordsSize then
            writeSegment.sealSteps ++ (new.createSteps ++ new.recordSteps records startIndex)
          else writeSegment.recordSteps records startIndex

/-- The steps of `TruncateSuffix`: the segments behind go first, oldest first. -/
def truncateSteps (s : DiskStorage) (raftIndex : Nat) : List FsStep :=
  match splitLast (fun seg => seg.contains raftIndex) s.segments with
  | none => []
  | some (_, seg, segments) => segments.flatMap Segment.removeSteps ++ seg.cutSteps raftIndex

/-- The steps of `purgeSegments` on a tick of `StartPurgeLog`. -/
def purgeSteps (s : DiskStorage) (reserveSegmentCount : Nat) : List FsStep :=
  (s.segments.take (s.segments.length - reserveSegmentCount)).flatMap Segment.removeSteps

end DiskStorage

namespace Op

/-- The steps of an operation. -/
def steps (c : Config) (s : DiskStorage) : Op → List FsStep
  | save entries => s.saveSteps c entries
  | truncate raftIndex => s.truncateSteps raftIndex
  | purge reserveSegmentCount => s.purgeSteps reserveSegmentCount

/-- The storage after the operation. -/
def run (c : Config) (s : DiskStorage) : Op → DiskStorage
  | save entries => (s.saveRaftEntries c entries).1
  | truncate raftIndex => (s.truncateSuffix raftIndex).1
  | purge reserveSegmentCount => s.purge reserveSegmentCount

end Op

/-! ## What the functions of a segment do to its files -/

/-- A `do` block that succeeds: its first call did. -/
theorem bind_eq_ok {ε α β : Type} {x : Except ε α} {f : α → Except ε β} {b : β}
    (h : (x >>= f) = .ok b) : ∃ a, x = .ok a ∧ f a = .ok b := by
  cases x with
  | error e => cases h
  | ok a => exact ⟨a, rfl, h⟩

theorem MmapFile.append_eq_ok {f : MmapFile} {data : Bytes} {r : MmapFile × Nat}
    (h : f.append data = .ok r) :
    f.writePosition + data.length ≤ f.mappedData.length ∧
      r.1 = { f with
        mappedData := f.mappedData.overwrite f.writePosition data
        writePosition := f.writePosition + data.length } := by
  unfold MmapFile.append at h
  split at h
  · next hfit =>
    cases h
    exact ⟨hfit, rfl⟩
  · cases h

theorem MmapFile.truncateSuffix_eq_ok {f f' : MmapFile} {position : Nat}
    (h : f.truncateSuffix position = .ok f') :
    f'.writePosition = position ∧ f'.mappedData =
      f.mappedData.overwrite position (Bytes.zeros (f.writePosition - position)) := by
  unfold MmapFile.truncateSuffix at h
  split at h
  · cases h
  · simp only at h
    split at h
    · cases h
      exact ⟨rfl, rfl⟩
    · cases h

namespace Segment
variable {c : Config} {z : Bool} {s s' : Segment} {v : SegView} {i : Nat}

/-- `appendRecord` writes one record to the log file. -/
theorem appendRecord_file {record : Record} (h : s.appendRecord record i = .ok s') :
    s'.logFile.filePath = s.logFile.filePath ∧
      s'.logFile.mappedData = s.logFile.mappedData.overwrite s.logFile.writePosition
        (Bytes.leBytes recordLengthSize record.size ++ record.marshal) := by
  obtain ⟨⟨f₁, p₁⟩, h₁, h⟩ := bind_eq_ok h
  obtain ⟨⟨f₂, p₂⟩, h₂, h⟩ := bind_eq_ok h
  obtain ⟨d, -, h⟩ := bind_eq_ok h
  cases h
  obtain ⟨hfit, hf₁⟩ := MmapFile.append_eq_ok h₁
  obtain ⟨-, hf₂⟩ := MmapFile.append_eq_ok h₂
  simp only at hf₁ hf₂
  subst hf₁
  subst hf₂
  exact ⟨rfl, Bytes.overwrite_overwrite hfit⟩

/-- The end of `appendRecords` changes no file. -/
theorem appendRecords_files {records : List Record} (h : s.appendRecords records i = .ok s') :
    ∃ t, s.appendLoop records i = .ok t ∧ t.logFile.mappedData = s'.logFile.mappedData ∧
      t.indexFile = s'.indexFile := by
  unfold appendRecords at h
  split at h
  · cases h
  · split at h
    · cases h
    · obtain ⟨t, ht, h⟩ := bind_eq_ok h
      cases h
      exact ⟨t, ht, rfl, rfl⟩

/-- `changeToReadonly` leaves the log file as it is. -/
theorem changeToReadonly_file (h : s.changeToReadonly = .ok s') :
    s'.logFile.mappedData = s.logFile.mappedData := by
  unfold changeToReadonly at h
  split at h
  · cases h
  · obtain ⟨d, -, h⟩ := bind_eq_ok h
    cases h
    rfl

/-- `truncateSuffix` zeroes what was written from its new write position on. -/
theorem truncateSuffix_file (h : s.truncateSuffix i = .ok s') :
    s'.logFile.mappedData = s.logFile.mappedData.overwrite s'.logFile.writePosition
      (Bytes.zeros (s.logFile.writePosition - s'.logFile.writePosition)) := by
  obtain ⟨position, -, h⟩ := bind_eq_ok h
  obtain ⟨f, hf, h⟩ := bind_eq_ok h
  obtain ⟨hw, hm⟩ := MmapFile.truncateSuffix_eq_ok hf
  have hfile : s'.logFile.mappedData = f.mappedData ∧
      s'.logFile.writePosition = f.writePosition := by
    simp only at h
    split at h
    all_goals
      obtain ⟨d, -, h⟩ := bind_eq_ok h
      cases h
      split
      · exact ⟨rfl, rfl⟩
      · exact ⟨rfl, rfl⟩
  rw [hfile.1, hfile.2, hw, hm]

/-- The index file of a read-only segment is complete. -/
theorem Sealed.indexFile (h : s.Sealed c z v) : s.indexFile = s.indexContents := by
  obtain ⟨f, hf, -, -⟩ := h.index.mapped
  rw [Segment.indexFile, Segment.indexContents, hf]

theorem indexFile_name {n : Nat} {ies : List IndexEntry} (h : s.logIndex.WritableAs n ies) :
    s.indexFile.1 = .inprogress n := by
  obtain ⟨rw, hrw, -, -, hname⟩ := h.inMemory
  simp only [Segment.indexFile, h.unmapped, hrw, hname]

end Segment

/-! ## The files beside those of one segment -/

/-- What else is in a directory, next to the log and index file of one name. -/
structure Others (name : FileName) where
  logs : List (FileName × Bytes)
  before : List (FileName × Bytes)
  behind : List (FileName × Bytes)
  logs_absent : Table.Absent name logs
  before_absent : Table.Absent name before
  behind_absent : Table.Absent name behind

namespace Others
variable {name : FileName} (o : Others name) {log index : Bytes}

/-- The directory with the two files of that name. -/
def dir (log index : Bytes) : Dir where
  logs := o.logs ++ [(name, log)]
  indexes := o.before ++ (name, index) :: o.behind

theorem step_writeRecord (position : Nat) (bytes : Bytes) :
    (o.dir log index).step (.writeRecord name position bytes) =
      o.dir (log.overwrite position bytes) index := by
  rw [Dir.step, dir, dir, Table.modify_at _ o.logs_absent (Table.absent_nil name)]

theorem step_zeroRange (position zeroDataLen : Nat) :
    (o.dir log index).step (.zeroRange name position zeroDataLen) =
      o.dir (log.overwrite position (Bytes.zeros zeroDataLen)) index := by
  rw [Dir.step, dir, dir, Table.modify_at _ o.logs_absent (Table.absent_nil name)]

theorem step_writeIndex (contents : Bytes) :
    (o.dir log index).step (.writeIndex name contents) = o.dir log contents := by
  rw [Dir.step, dir, dir, Table.modify_at _ o.before_absent o.behind_absent]

/-- One record takes two steps, the second of which only concerns the index. -/
theorem recordSteps_cons {c : Config} {z : Bool} {n : Nat} {s : Segment} {es : List Entry}
    {e : Entry} (h : s.Laid c z n es) (hname : s.logFile.filePath = .inprogress n)
    (hfit : (encode es).length + (frame e).length ≤ c.segmentSize) :
    ∃ s', s.appendRecord e.toRecord (n + es.length) = .ok s' ∧ s'.Laid c z n (es ++ [e]) ∧
      s'.logFile.filePath = .inprogress n ∧
      ∀ fs : List Entry, s.recordSteps ((e :: fs).map Entry.toRecord) (n + es.length) =
        .writeRecord (.inprogress n) s.logFile.writePosition
          (Bytes.leBytes recordLengthSize e.toRecord.size ++ e.toRecord.marshal) ::
        .writeIndex (.inprogress n) s'.indexFile.2 ::
          s'.recordSteps (fs.map Entry.toRecord) (n + (es ++ [e]).length) := by
  obtain ⟨f, d, happ, hlaid, hpath⟩ := Segment.appendRecord_spec h hfit
  refine ⟨_, happ, hlaid, hpath.trans hname, fun fs => ?_⟩
  rw [List.map_cons, Segment.recordSteps, happ]
  simp only [hname, Segment.indexFile_name hlaid.index, List.length_append, List.length_singleton,
    Nat.add_assoc]

variable {n : Nat} (p : Others (.inprogress n)) {c : Config} {z : Bool}

/-- **A batch that is written in part**: the log file holds the records whose step
was made. -/
theorem run_recordSteps : ∀ (fs : List Entry) (k : Nat) {s : Segment} {es : List Entry}
    (index : Bytes), s.Laid c z n es → s.logFile.filePath = .inprogress n →
    (encode es).length + (encode fs).length ≤ c.segmentSize →
    ∃ log index', (p.dir s.logFile.mappedData index).run
        ((s.recordSteps (fs.map Entry.toRecord) (n + es.length)).take k) = p.dir log index' ∧
      LogBytes c z log (es ++ fs.take ((k + 1) / 2))
  | fs, 0, s, es, index, h, _, _ => by
      refine ⟨_, index, rfl, ?_⟩
      rw [show (0 + 1) / 2 = 0 by decide, List.take_zero, List.append_nil]
      exact ⟨h.file.mapped, h.file.size⟩
  | [], k + 1, s, es, index, h, _, _ => by
      refine ⟨_, index, rfl, ?_⟩
      rw [List.take_nil, List.append_nil]
      exact ⟨h.file.mapped, h.file.size⟩
  | e :: fs, k + 1, s, es, index, h, hname, hfit => by
      rw [encode_cons, List.length_append] at hfit
      obtain ⟨s', happ, hlaid, hname', hsteps⟩ := recordSteps_cons (e := e) h hname (by omega)
      have hbytes := (Segment.appendRecord_file happ).2
      rw [hsteps fs, List.take_succ_cons, Dir.run_cons, p.step_writeRecord, ← hbytes]
      cases k with
      | zero => exact ⟨_, index, rfl, hlaid.file.mapped, hlaid.file.size⟩
      | succ k =>
          rw [List.take_succ_cons, Dir.run_cons, p.step_writeIndex]
          have hfit' : (encode (es ++ [e])).length + (encode fs).length ≤ c.segmentSize := by
            rw [encode_append, List.length_append, encode_cons, encode_nil, List.append_nil]
            omega
          obtain ⟨log, index', hrun, hlog⟩ :=
            run_recordSteps fs k s'.indexFile.2 hlaid hname' hfit'
          refine ⟨log, index', hrun, ?_⟩
          rw [show (k + 1 + 1 + 1) / 2 = (k + 1) / 2 + 1 by omega, List.take_succ_cons]
          rw [List.append_assoc, List.singleton_append] at hlog
          exact hlog

/-- A batch that is written completely: the files are those of the segment after
the loop of `appendRecords`. -/
theorem run_recordSteps_all : ∀ (fs : List Entry) {s : Segment} {es : List Entry},
    s.Laid c z n es → s.logFile.filePath = .inprogress n →
    (encode es).length + (encode fs).length ≤ c.segmentSize →
    ∃ s', s.appendLoop (fs.map Entry.toRecord) (n + es.length) = .ok s' ∧
      (p.dir s.logFile.mappedData s.indexFile.2).run
        (s.recordSteps (fs.map Entry.toRecord) (n + es.length)) =
        p.dir s'.logFile.mappedData s'.indexFile.2
  | [], s, es, _, _, _ => ⟨s, rfl, rfl⟩
  | e :: fs, s, es, h, hname, hfit => by
      rw [encode_cons, List.length_append] at hfit
      obtain ⟨s₁, happ, hlaid, hname', hsteps⟩ := recordSteps_cons (e := e) h hname (by omega)
      have hbytes := (Segment.appendRecord_file happ).2
      have hfit' : (encode (es ++ [e])).length + (encode fs).length ≤ c.segmentSize := by
        rw [encode_append, List.length_append, encode_cons, encode_nil, List.append_nil]
        omega
      obtain ⟨s', hloop, hrun⟩ := run_recordSteps_all fs hlaid hname' hfit'
      refine ⟨s', ?_, ?_⟩
      · rw [List.map_cons, Segment.appendLoop, happ]
        rw [List.length_append, List.length_singleton, ← Nat.add_assoc] at hloop
        exact hloop
      · rw [hsteps fs, Dir.run_cons, p.step_writeRecord, ← hbytes, Dir.run_cons, p.step_writeIndex]
        exact hrun

end Others

/-! ## Sealing, creating and cutting a segment -/

namespace Segment
variable {c : Config} {z : Bool} {s : Segment} {w : SegView} {i : Nat}

/-- Sealing the writable segment: its two files get their final name, and the
index file its last entries. -/
theorem Writable.run_sealSteps (h : s.Writable c z w) (hne : w.es ≠ [])
    (o : Others (.inprogress w.first)) (index : Bytes)
    (hlogs : Table.Absent (.readonly w.first (w.next - 1)) o.logs)
    (hbefore : Table.Absent (.readonly w.first (w.next - 1)) o.before) :
    ∃ s', s.changeToReadonly = .ok s' ∧ s'.Sealed c z w ∧ s.sealSteps.length = 3 ∧
      (o.dir s.logFile.mappedData index).run s.sealSteps =
        ⟨o.logs ++ [s'.logContents], o.before ++ s'.indexFile ::
          Table.remove (.readonly w.first (w.next - 1)) o.behind⟩ := by
  obtain ⟨s', hs', hsealed⟩ := h.changeToReadonly hne
  have hname : s'.indexFile.1 = .readonly w.first (w.next - 1) := by
    rw [hsealed.indexFile, hsealed.indexContents]
  have hindex : s'.indexFile = (.readonly w.first (w.next - 1), s'.indexFile.2) :=
    Prod.ext hname rfl
  have hlog : s'.logContents = (.readonly w.first (w.next - 1), s.logFile.mappedData) := by
    rw [logContents, hsealed.name, changeToReadonly_file hs']
  have hne' : FileName.inprogress w.first ≠ .readonly w.first (w.next - 1) := nofun
  refine ⟨s', hs', hsealed, by rw [sealSteps, hs']; rfl, ?_⟩
  rw [sealSteps, hs']
  simp only [Dir.run_cons, Dir.run_nil, Dir.step, Others.dir, h.name, hsealed.name,
    indexFile_name h.index, hname]
  rw [Table.rename_at hne' o.logs_absent hlogs (Table.absent_nil _),
    Table.rename_at hne' o.before_absent hbefore o.behind_absent,
    Table.modify_at _ hbefore (Table.absent_remove _ _), hlog]
  conv_rhs => rw [hindex]
  rfl

/-- Creating the two files of a segment. -/
theorem run_createSteps (c : Config) {n : Nat} (d : Dir)
    (hlogs : Table.Absent (.inprogress n) d.logs)
    (hindexes : Table.Absent (.inprogress n) d.indexes) :
    d.run (create c (.inprogress n)).createSteps =
      Others.dir ⟨d.logs, d.indexes, [], hlogs, hindexes, Table.absent_nil _⟩
        (create c (.inprogress n)).logFile.mappedData [] := rfl

theorem create_laid (c : Config) (z : Bool) (n : Nat) :
    (create c (.inprogress n)).Laid c z n [] :=
  ⟨MmapFile.Holds.create c z _, rfl, Index.create_writableAs n⟩

end Segment

/-! ## Removing segments -/

/-- The files of the segments have different names, the same for log and index. -/
structure Named (segs : List Segment) : Prop where
  distinct : segs.Pairwise fun a b => a.logFile.filePath ≠ b.logFile.filePath
  index : ∀ seg ∈ segs, seg.indexFile.1 = seg.logFile.filePath

namespace Named
variable {a b : List Segment} {seg : Segment}

theorem absent_logs (h : Named (a ++ seg :: b)) :
    Table.Absent seg.logFile.filePath (a.map Segment.logContents) ∧
      Table.Absent seg.logFile.filePath (b.map Segment.logContents) := by
  obtain ⟨-, hb, hab⟩ := List.pairwise_append.mp h.distinct
  constructor
  · intro f hf
    obtain ⟨x, hx, rfl⟩ := List.mem_map.mp hf
    exact hab x hx seg List.mem_cons_self
  · intro f hf
    obtain ⟨x, hx, rfl⟩ := List.mem_map.mp hf
    exact ((List.pairwise_cons.mp hb).1 x hx).symm

theorem absent_indexes (h : Named (a ++ seg :: b)) :
    Table.Absent seg.logFile.filePath (a.map Segment.indexFile) ∧
      Table.Absent seg.logFile.filePath (b.map Segment.indexFile) := by
  obtain ⟨ha, hb⟩ := h.absent_logs
  constructor
  · intro f hf
    obtain ⟨x, hx, rfl⟩ := List.mem_map.mp hf
    rw [h.index x (List.mem_append_left _ hx)]
    exact ha _ (List.mem_map_of_mem hx)
  · intro f hf
    obtain ⟨x, hx, rfl⟩ := List.mem_map.mp hf
    rw [h.index x (List.mem_append_right _ (List.mem_cons_of_mem _ hx))]
    exact hb _ (List.mem_map_of_mem hx)

theorem tail (h : Named (a ++ seg :: b)) : Named (a ++ b) := by
  have hsub : (a ++ b).Sublist (a ++ seg :: b) :=
    List.Sublist.append (List.Sublist.refl a) (List.sublist_cons_self seg b)
  exact ⟨h.distinct.sublist hsub, fun x hx => h.index x (hsub.subset hx)⟩

end Named

/-- The files of some segments, and index files without a log file. -/
def filesOf (segs : List Segment) (orphans : List (FileName × Bytes)) : Dir where
  logs := segs.map Segment.logContents
  indexes := segs.map Segment.indexFile ++ orphans

/-- Removing the log file of a segment in the middle. -/
theorem step_removeLog {a b : List Segment} {seg : Segment} (h : Named (a ++ seg :: b))
    (indexes : List (FileName × Bytes)) :
    Dir.step ⟨(a ++ seg :: b).map Segment.logContents, indexes⟩
        (.removeLog seg.logFile.filePath) = ⟨(a ++ b).map Segment.logContents, indexes⟩ := by
  obtain ⟨ha, hb⟩ := h.absent_logs
  rw [Dir.step, List.map_append, List.map_cons, Segment.logContents]
  simp only [Table.remove_append, Table.remove_cons_self]
  rw [ha.remove_eq, hb.remove_eq, List.map_append]

/-- Removing its index file. -/
theorem step_removeIndex {a b : List Segment} {seg : Segment} (h : Named (a ++ seg :: b))
    (logs orphans : List (FileName × Bytes)) :
    Dir.step ⟨logs, (a ++ seg :: b).map Segment.indexFile ++ orphans⟩
        (.removeIndex seg.indexFile.1) =
      ⟨logs, (a ++ b).map Segment.indexFile ++
        Table.remove seg.logFile.filePath orphans⟩ := by
  obtain ⟨ha, hb⟩ := h.absent_indexes
  have hname : seg.indexFile.1 = seg.logFile.filePath :=
    h.index seg (List.mem_append_right _ List.mem_cons_self)
  have hself : Table.remove seg.logFile.filePath ((a ++ seg :: b).map Segment.indexFile) =
      (a ++ b).map Segment.indexFile := by
    rw [List.map_append, List.map_cons, Table.remove_append, ha.remove_eq,
      ← Prod.mk.eta (p := seg.indexFile), hname, Table.remove_cons_self, hb.remove_eq,
      List.map_append]
  rw [Dir.step, hname]
  simp only [Table.remove_append, hself]

/-- **Segments that are removed in part**: some are gone, and one more may have lost
its log file only. -/
theorem run_removeSteps {a b : List Segment} : ∀ (mid : List Segment) (k : Nat)
    (orphans : List (FileName × Bytes)), Named (a ++ (mid ++ b)) →
    ∃ j j' rest, j ≤ j' ∧ (2 * mid.length ≤ k → j = mid.length) ∧ (∀ f ∈ rest, f ∈ orphans) ∧
      (filesOf (a ++ (mid ++ b)) orphans).run ((mid.flatMap Segment.removeSteps).take k) =
        ⟨(a ++ (mid.drop j' ++ b)).map Segment.logContents,
          (a ++ (mid.drop j ++ b)).map Segment.indexFile ++ rest⟩
  | mid, 0, orphans, _ => by
      refine ⟨0, 0, orphans, Nat.le_refl 0, fun h => ?_, fun _ hf => hf, rfl⟩
      omega
  | [], k + 1, orphans, _ => ⟨0, 0, orphans, Nat.le_refl 0, fun _ => rfl, fun _ hf => hf, rfl⟩
  | seg :: mid, k + 1, orphans, h => by
      rw [List.cons_append] at h
      have hlog := step_removeLog h ((a ++ seg :: (mid ++ b)).map Segment.indexFile ++ orphans)
      have hsteps : (seg :: mid).flatMap Segment.removeSteps =
          .removeLog seg.logFile.filePath :: .removeIndex seg.indexFile.1 ::
            mid.flatMap Segment.removeSteps := rfl
      rw [hsteps, List.take_succ_cons, Dir.run_cons, filesOf, List.cons_append, hlog]
      cases k with
      | zero =>
          refine ⟨0, 1, orphans, by decide, fun hk => ?_, fun _ hf => hf, rfl⟩
          rw [List.length_cons] at hk
          omega
      | succ k =>
          have hindex := step_removeIndex h ((a ++ (mid ++ b)).map Segment.logContents) orphans
          obtain ⟨j, j', rest, hle, hall, hrest, hrun⟩ := run_removeSteps mid k
            (Table.remove seg.logFile.filePath orphans) h.tail
          refine ⟨j + 1, j' + 1, rest, Nat.succ_le_succ hle, fun hk => ?_,
            fun f hf => Table.mem_of_mem_remove (hrest f hf), ?_⟩
          · rw [List.length_cons] at hk ⊢
            rw [hall (by omega)]
          · rw [List.take_succ_cons, Dir.run_cons]
            exact (congrArg (fun d => Dir.run d _) hindex).trans hrun

theorem length_removeSteps (segs : List Segment) :
    (segs.flatMap Segment.removeSteps).length = 2 * segs.length := by
  induction segs with
  | nil => rfl
  | cons seg segs ih =>
      rw [List.flatMap_cons, List.length_append, ih, List.length_cons]
      change 2 + 2 * segs.length = _
      omega

/-- Segments that are removed completely, from the middle. -/
theorem run_removeSteps_all {a b mid : List Segment} (orphans : List (FileName × Bytes))
    (h : Named (a ++ (mid ++ b))) :
    ∃ rest, (∀ f ∈ rest, f ∈ orphans) ∧
      (filesOf (a ++ (mid ++ b)) orphans).run (mid.flatMap Segment.removeSteps) =
        filesOf (a ++ b) rest := by
  obtain ⟨j, j', rest, hle, hall, hrest, hrun⟩ := run_removeSteps mid (2 * mid.length) orphans h
  have hj := hall (Nat.le_refl _)
  rw [List.drop_of_length_le (by omega), List.drop_of_length_le (by omega), List.nil_append,
    List.take_of_length_le (by rw [length_removeSteps])] at hrun
  exact ⟨rest, hrest, hrun⟩

end Kingbus
