import Kingbus.Lib.Table
import Kingbus.OpenSegments
import Kingbus.StorageRefinement

/-! # Restarting

What opening a directory gives back, and what a clean restart changes.  The
reopened storage holds the same segments, but the read-only ones have forgotten
their write position (`SegView.cold`).  Nothing raft reads depends on it; only a
truncation strictly inside such a segment does, and fails. -/

namespace Kingbus

/-! ## Files that hold a segment -/

/-- The contents of a log file: the entries, then (zero, with `z`) bytes up to the
segment size. -/
def LogBytes (c : Config) (z : Bool) (contents : Bytes) (es : List Entry) : Prop :=
  (∃ tail, contents = encode es ++ tail ∧ (z = true → ∀ b ∈ tail, b = 0)) ∧
    contents.length = c.segmentSize

/-- The files of a read-only segment. -/
structure SealedFile (c : Config) (z : Bool) (d : Dir) (file : FileName × Bytes) (u : SegView) :
    Prop where
  nonempty : u.es ≠ []
  name : file.1 = .readonly u.first (u.next - 1)
  log : LogBytes c z file.2 u.es
  index : d.indexes.lookup file.1 = some (marshalEntries (positions u.first 0 u.es))

/-- The files of the writable segment, closed in good order. -/
structure WritableFile (c : Config) (z : Bool) (d : Dir) (file : FileName × Bytes) (w : SegView) :
    Prop where
  nonempty : w.es ≠ []
  name : file.1 = .inprogress w.first
  log : LogBytes c z file.2 w.es
  index : d.indexes.lookup file.1 = some (marshalEntries (positions w.first 0 w.es))

section Open
variable {c : Config} {z : Bool} {d : Dir} {file : FileName × Bytes} {u w : SegView}

/-- Mapping a log file. -/
theorem LogBytes.openFile {contents : Bytes} {es : List Entry} (name : FileName)
    (h : LogBytes c z contents es) :
    ∃ f, MmapFile.openFile name contents = .ok f ∧ f.filePath = name ∧ f.mappedData = contents ∧
      f.writePosition = 0 ∧ f.Holds c z es := by
  obtain ⟨htail, hlen⟩ := h
  have hne : contents ≠ [] := by
    rintro rfl
    rw [List.length_nil] at hlen
    exact absurd hlen (Nat.ne_of_lt c.segmentSize_pos)
  exact ⟨_, if_neg hne, rfl, rfl, rfl, ⟨htail, hlen, hlen⟩⟩

theorem marshalEntries_positions_ne (first : Nat) {es : List Entry} (h : es ≠ []) :
    marshalEntries (positions first 0 es) ≠ [] := by
  intro h0
  have hlen := congrArg List.length h0
  rw [length_marshalEntries, length_positions, List.length_nil] at hlen
  exact h (List.length_eq_zero_iff.mp (by omega))

/-- **A read-only segment is opened with everything but its write position.** -/
theorem SealedFile.openReadOnly (h : SealedFile c z d file u) :
    ∃ s, Segment.openReadOnly d file = .ok s ∧ s.Sealed c z u.cold := by
  obtain ⟨f, hf, hname, -, hw, hholds⟩ := h.log.openFile file.1
  have hidx : d.indexFile (.readonly u.first (u.next - 1)) =
      .ok (marshalEntries (positions u.first 0 u.es)) := by
    rw [Dir.indexFile, ← h.name, h.index]
  have hne := marshalEntries_positions_ne u.first h.nonempty
  rw [Segment.openReadOnly, hf, h.name]
  simp only [bind, Except.bind, hidx, Index.openIndex, if_true, MmapFile.openFile, if_neg hne, pure,
    Except.pure]
  exact ⟨_, rfl, h.nonempty, rfl, hname.trans h.name, hholds, hw, ⟨rfl, _, rfl, rfl, rfl⟩, rfl, rfl⟩

/-- The last index entry of a log leads to the end of it. -/
theorem resume_spec {f : MmapFile} {idx : Index} {first : Nat} {es : List Entry} (hne : es ≠ [])
    (hnum : Numbered Entry.index first es) (hf : f.Holds c z es)
    (hidx : idx.WritableAs first (positions first 0 es)) :
    ∃ s, Segment.resume first f idx = .ok s ∧ s.status = .rdwr ∧ s.firstIndex = first ∧
      s.lastIndex = first + es.length - 1 ∧ s.logIndex = idx ∧
      s.logFile = f.setPosition (encode es).length := by
  have hlen := List.length_pos_of_ne_nil hne
  obtain ⟨e, he⟩ : ∃ e, es.getLast? = some e := ⟨_, List.getLast?_eq_some_getLast hne⟩
  have hlast := hnum.getLast? he
  have hlt := e.index_lt
  obtain ⟨ie, hie, hraft, hpos⟩ := hf.positions_get first (es.length - 1) (by omega) (by omega)
  have hlastIndex : ie.raftIndex = first + es.length - 1 := by omega
  have hget : (positions first 0 es).getLast? = some ie := by
    rw [List.getLast?_eq_getElem?, length_positions, hie]
  -- the bytes at the last position are the frame of the last entry
  obtain ⟨pre, rfl⟩ := List.getLast?_eq_some_iff.mp he
  have htake : (pre ++ [e]).take ((pre ++ [e]).length - 1) = pre := by
    rw [List.length_append, List.length_singleton, Nat.add_sub_cancel, List.take_left]
  rw [htake] at hpos
  obtain ⟨tail, hmap, -⟩ := hf.mapped
  have hbytes : f.mappedData = encode pre ++
      (Bytes.leBytes 4 e.toRecord.size ++ (e.toRecord.marshal ++ tail)) := by
    rw [hmap, encode_append, encode_cons, encode_nil, List.append_nil, frame, List.append_assoc,
      List.append_assoc]
  have hslice : MmapFile.sliceOf f.mappedData ie.filePosition
      (ie.filePosition + recordLengthSize) = .ok (Bytes.leBytes 4 e.toRecord.size) := by
    rw [hpos, hbytes]
    exact MmapFile.sliceOf_append_of_eq rfl (by rw [Bytes.length_leBytes, recordLengthSize])
  have hframe : (frame e).length ≤ 2 ^ 32 := by
    have h1 := hf.le
    have h2 := c.segmentSize_le
    rw [encode_append, encode_cons, encode_nil, List.append_nil, List.length_append] at h1
    omega
  have hsize := MmapFile.leNat_frameLength hframe
  have hend : ie.filePosition + e.toRecord.size + recordLengthSize =
      (encode (pre ++ [e])).length := by
    rw [hpos, encode_append, encode_cons, encode_nil, List.append_nil, List.length_append,
      length_frame, recordLengthSize]
    omega
  simp only [Segment.resume, hidx.getLastRaftEntry hget, bind, Except.bind, hslice, hsize, hend,
    pure, Except.pure]
  exact ⟨_, rfl, rfl, rfl, hlastIndex, rfl, rfl⟩

/-- A resumed segment is writable again. -/
theorem resume_writable {f : MmapFile} {idx : Index} (hne : w.es ≠ [])
    (hname : f.filePath = .inprogress w.first) (hf : f.Holds c z w.es)
    (hidx : idx.WritableAs w.first (positions w.first 0 w.es)) (hhot : w.hot = true) :
    ∃ s, Segment.resume w.first f idx = .ok s ∧ s.Writable c z w ∧
      s.logFile.mappedData = f.mappedData := by
  obtain ⟨s, hs, hstatus, hfirst, hlast, hsidx, hsf⟩ := resume_spec hne w.numbered hf hidx
  refine ⟨s, hs, ⟨hstatus, ?_, ?_, ?_, ?_, ?_, ?_, hhot⟩, by rw [hsf]; rfl⟩
  · rw [hsf]
    exact hname
  · rw [hsf]
    exact ⟨hf.mapped, hf.size, hf.maxBytes⟩
  · rw [hsf]
    rfl
  · rw [hsidx]
    exact hidx
  · rw [hfirst, SegView.firstIndex_of_ne hne]
  · rw [hlast, SegView.lastIndex_of_ne hne]
    rfl

/-- **The writable segment is opened as it was closed**, unless it is empty. -/
theorem WritableFile.openWritable (h : WritableFile c z d file w) (hhot : w.hot = true) :
    ∃ s, Segment.openWritable c d false file = .ok s ∧ s.Writable c z w := by
  obtain ⟨f, hf, hname, -, -, hholds⟩ := h.log.openFile file.1
  have hidx : d.indexFile (.inprogress w.first) =
      .ok (marshalEntries (positions w.first 0 w.es)) := by
    rw [Dir.indexFile, ← h.name, h.index]
  have hw : Index.WritableAs ⟨none, some ⟨positions w.first 0 w.es, [],
      marshalEntries (positions w.first 0 w.es), .inprogress w.first⟩⟩ w.first
      (positions w.first 0 w.es) := ⟨rfl, _, rfl, rfl, List.append_nil _, rfl⟩
  obtain ⟨s, hs, hw, -⟩ := resume_writable h.nonempty (hname.trans h.name) hholds hw hhot
  refine ⟨s, ?_, hw⟩
  rw [Segment.openWritable, hf, h.name]
  simp only [bind, Except.bind, Bool.false_eq_true, if_false, hidx, Index.openIndex, reduceCtorEq,
    RWFile.openFile_marshalEntries, pure, Except.pure]
  exact hs

end Open

namespace DiskStorage

/-- Opening read-only files and a last one that can be opened for writing. -/
theorem openLogs_spec {c : Config} {z needRecover : Bool} {d : Dir} {file : FileName × Bytes}
    {s : Segment} (hlast : Segment.openWritable c d needRecover file = .ok s)
    {files : List (FileName × Bytes)} {us : List SegView}
    (h : List.Forall₂ (SealedFile c z d) files us) :
    ∃ segs, openLogs c d needRecover (files ++ [file]) = .ok (segs ++ [s]) ∧
      List.Forall₂ (Segment.Sealed c z) segs (us.map SegView.cold) := by
  induction h with
  | nil => exact ⟨[], by rw [List.nil_append, openLogs, hlast]; rfl, .nil⟩
  | @cons f u files us hf _ ih =>
      obtain ⟨segs, hopen, hsegs⟩ := ih
      obtain ⟨seg, hseg, hsealed⟩ := hf.openReadOnly
      refine ⟨seg :: segs, ?_, .cons hsealed hsegs⟩
      cases hfs : files ++ [file] with
      | nil => exact absurd hfs (by simp)
      | cons g gs =>
          rw [hfs] at hopen
          rw [List.cons_append, hfs, openLogs, hseg]
          · simp only [bind, Except.bind, hopen, pure, Except.pure, List.cons_append]
          · nofun

/-- **Opening a directory** of read-only files, in the order of their first
indexes, behind which stands one that can be opened for writing. -/
theorem newDiskStorage_spec {c : Config} {z needRecover : Bool} {d : Dir}
    {file : FileName × Bytes} {s : Segment} {w : SegView}
    (hlast : Segment.openWritable c d needRecover file = .ok s)
    (hname : file.1 = .inprogress w.first) {files : List (FileName × Bytes)} {us : List SegView}
    (h : List.Forall₂ (SealedFile c z d) files us) (hlogs : d.logs = files ++ [file])
    (hsorted : (us ++ [w]).Pairwise fun a b => a.first < b.first) :
    ∃ segs, newDiskStorage c d needRecover = .ok ⟨segs ++ [s]⟩ ∧
      List.Forall₂ (Segment.Sealed c z) segs (us.map SegView.cold) := by
  have hfirsts : (files ++ [file]).map (fun f => f.1.first) = (us ++ [w]).map SegView.first := by
    rw [List.map_append, List.map_append, List.map_singleton, List.map_singleton, hname]
    congr 1
    clear hlogs hsorted
    induction h with
    | nil => rfl
    | cons hf _ ih => rw [List.map_cons, List.map_cons, ih, hf.name]; rfl
  have hpair : (files ++ [file]).Pairwise fun a b => a.1.le b.1 := by
    have hmap := List.pairwise_map.mpr hsorted
    rw [← hfirsts] at hmap
    exact (List.pairwise_map.mp hmap).imp fun hlt => FileName.le_of_first_lt hlt
  obtain ⟨segs, hopen, hsegs⟩ := openLogs_spec hlast h
  refine ⟨segs, ?_, hsegs⟩
  rw [newDiskStorage, Dir.logFiles, hlogs, hpair.insertionSort_eq, hopen]
  rfl

end DiskStorage

/-! ## Closing -/

namespace SegLog

/-- The log as it is after a restart: the same segments, but the read-only ones do
not know their write position. -/
def reopened : SegLog → SegLog
  | empty => empty
  | segs d w => segs (d.map SegView.cold) w

end SegLog

section Close
variable {c : Config} {z : Bool} {s : DiskStorage} {v : SegLog}

theorem Segment.Sealed.indexContents {seg : Segment} {u : SegView} (h : seg.Sealed c z u) :
    seg.indexContents =
      (.readonly u.first (u.next - 1), marshalEntries (positions u.first 0 u.es)) := by
  obtain ⟨f, hf, hdata, hname⟩ := h.index.mapped
  simp only [Segment.indexContents, hf, hdata, hname]

theorem Segment.Writable.indexContents {seg : Segment} {w : SegView} (h : seg.Writable c z w) :
    seg.indexContents = (.inprogress w.first, marshalEntries (positions w.first 0 w.es)) := by
  obtain ⟨rw, hrw, hent, hcons, hname⟩ := h.index.inMemory
  have hfile : rw.close.file = marshalEntries (positions w.first 0 w.es) := by
    rw [← hent]
    exact hcons
  simp only [Segment.indexContents, hrw, h.index.unmapped, hname, hfile]

/-- The files that read-only segments leave. -/
theorem sealedFiles {d : Dir} {segs : List Segment} {us : List SegView}
    (h : List.Forall₂ (Segment.Sealed c z) segs us)
    (hidx : ∀ u ∈ us, d.indexes.lookup (.readonly u.first (u.next - 1)) =
      some (marshalEntries (positions u.first 0 u.es))) :
    List.Forall₂ (SealedFile c z d)
      (segs.map fun seg => (seg.logFile.filePath, seg.logFile.mappedData)) us := by
  induction h with
  | nil => exact .nil
  | @cons seg u segs us hseg _ ih =>
      refine .cons ⟨hseg.nonempty, hseg.name, ⟨hseg.file.mapped, hseg.file.size⟩, ?_⟩
        (ih fun x hx => hidx x (List.mem_cons_of_mem u hx))
      simp only [hseg.name]
      exact hidx u List.mem_cons_self

/-- The index files of read-only segments can be found under their names. -/
theorem lookup_sealed {segs : List Segment} {us : List SegView} {u : SegView}
    (h : List.Forall₂ (Segment.Sealed c z) segs us)
    (hsorted : us.Pairwise fun a b => a.first < b.first) (hu : u ∈ us) :
    (segs.map Segment.indexContents).lookup (.readonly u.first (u.next - 1)) =
      some (marshalEntries (positions u.first 0 u.es)) := by
  have hmap : segs.map Segment.indexContents = us.map fun u =>
      (FileName.readonly u.first (u.next - 1), marshalEntries (positions u.first 0 u.es)) := by
    clear hsorted hu
    induction h with
    | nil => rfl
    | cons hseg _ ih => rw [List.map_cons, List.map_cons, ih, hseg.indexContents]
  rw [hmap]
  refine Table.lookup_of_mem (List.pairwise_map.mpr (hsorted.imp fun hlt heq => ?_))
    (List.mem_map.mpr ⟨u, hu, rfl⟩)
  exact Nat.ne_of_lt hlt (FileName.readonly.inj heq).1

/-- **A clean restart** gives the same log back, with the read-only segments
cold.  Index files without a log file do no harm. -/
theorem DiskStorage.Rep.reopen_with (h : s.Rep c z v) (hwf : v.WF) (hfull : v.Full)
    (rest : List (FileName × Bytes)) :
    ∃ s', DiskStorage.newDiskStorage c ⟨s.close.logs, s.close.indexes ++ rest⟩ false = .ok s' ∧
      s'.Rep c z v.reopened := by
  cases v with
  | empty =>
      have hs : s.segments = [] := h
      refine ⟨⟨[]⟩, ?_, rfl⟩
      rw [DiskStorage.newDiskStorage, Dir.logFiles, DiskStorage.close, hs]
      rfl
  | segs d w =>
      obtain ⟨init, last, hs, hinit, hlast⟩ := h
      have hw : w.es ≠ [] := hfull w (List.mem_append_right _ (List.mem_singleton_self w))
      have hsorted := hwf.pairwise_first
      have hidx : s.close.indexes =
          init.map Segment.indexContents ++ [last.indexContents] := by
        change s.segments.map Segment.indexContents = _
        rw [hs, List.map_append, List.map_singleton]
      have habsent : Table.Absent (.inprogress w.first) (init.map Segment.indexContents) := by
        intro f hf
        obtain ⟨seg, hseg, rfl⟩ := List.mem_map.mp hf
        obtain ⟨u, -, hu⟩ := forall₂_exists hinit seg hseg
        rw [hu.indexContents]
        nofun
      have hro : ∀ u ∈ d, s.close.indexes.lookup (.readonly u.first (u.next - 1)) =
          some (marshalEntries (positions u.first 0 u.es)) := by
        intro u hu
        rw [hidx]
        exact Table.lookup_append_left
          (lookup_sealed hinit (List.pairwise_append.mp hsorted).1 hu)
      have hrw : s.close.indexes.lookup (.inprogress w.first) =
          some (marshalEntries (positions w.first 0 w.es)) := by
        rw [hidx, habsent.lookup_eq, hlast.indexContents]
        exact List.lookup_cons_self
      have hlogs : s.close.logs =
          (init.map fun seg => (seg.logFile.filePath, seg.logFile.mappedData)) ++
            [(last.logFile.filePath, last.logFile.mappedData)] := by
        rw [DiskStorage.close, hs, List.map_append, List.map_singleton]
      have hfile : WritableFile c z ⟨s.close.logs, s.close.indexes ++ rest⟩
          (last.logFile.filePath, last.logFile.mappedData) w :=
        ⟨hw, hlast.name, ⟨hlast.file.mapped, hlast.file.size⟩, by
          rw [hlast.name]; exact Table.lookup_append_left hrw⟩
      obtain ⟨seg, hseg, hsegw⟩ := hfile.openWritable hlast.hot
      obtain ⟨segs, hopen, hsegs⟩ := DiskStorage.newDiskStorage_spec hseg hlast.name
        (sealedFiles hinit fun u hu => Table.lookup_append_left (hro u hu)) hlogs hsorted
      exact ⟨_, hopen, segs, seg, rfl, hsegs, hsegw⟩

end Close

end Kingbus
