import Kingbus.Restart

/-! # Recovery

What `NewDiskStorage` makes of a directory with the recover flag set: the index of
the last log file is not read but rebuilt by a scan of the log file.  The scan
finds the records that stand end to end at the start of the file and ends where
no record follows (`Segment.NoRecord`), as with zero bytes. -/

namespace Kingbus

namespace Segment
variable {c : Config} {mapped : Bytes}

/-- The scan finds no record at `position`. -/
def ScanEnds (c : Config) (mapped : Bytes) (position : Nat) : Prop :=
  ∀ fuel record raftEntry logIndex,
    rebuildLoop c mapped fuel position record raftEntry logIndex = .ok logIndex

/-- No record stands at `position`: there is no room for one, its length is zero or leads out of
the file, or its bytes do not parse, whatever was decoded before. -/
def NoRecord (c : Config) (mapped : Bytes) (position : Nat) : Prop :=
  let recordLen := Bytes.leNat ((mapped.drop position).take recordLengthSize)
  c.segmentSize ≤ position + recordLengthSize ∨ recordLen = 0 ∨
    c.segmentSize < position + recordLengthSize + recordLen ∨
    ∀ record raftEntry, ∃ text, MmapFile.parseRecord record raftEntry
      ((mapped.drop (position + recordLengthSize)).take recordLen) = .error (.fatal text)

theorem NoRecord.scanEnds {position : Nat} (h : NoRecord c mapped position)
    (hsize : mapped.length = c.segmentSize) : ScanEnds c mapped position := by
  intro fuel record raftEntry logIndex
  cases fuel with
  | zero => rfl
  | succ fuel =>
      rw [rebuildLoop]
      split
      · rfl
      · next hroom =>
        have hrest := h.resolve_left hroom
        rw [recordLengthSize] at hroom
        have hlen : MmapFile.sliceOf mapped position (position + recordLengthSize) =
            .ok ((mapped.drop position).take recordLengthSize) := by
          rw [MmapFile.sliceOf, Bytes.slice, if_pos (by rw [recordLengthSize]; omega),
            Nat.add_sub_cancel_left]
        simp only [bind, Except.bind, hlen]
        generalize Bytes.leNat ((mapped.drop position).take recordLengthSize) = recordLen at hrest ⊢
        split
        · rfl
        · next hfits =>
          obtain ⟨hlt, hle⟩ := not_or.mp hfits
          have hbuf : MmapFile.sliceOf mapped (position + recordLengthSize)
              (position + recordLengthSize + recordLen) =
                .ok ((mapped.drop (position + recordLengthSize)).take recordLen) := by
            rw [MmapFile.sliceOf, Bytes.slice, if_pos (by omega), Nat.add_sub_cancel_left]
          simp only [hbuf]
          rcases hrest with hzero | hout | hparse
          · rw [hzero, List.take_zero, List.length_nil, if_pos rfl]
            rfl
          · exact absurd hout hle
          · split
            · rfl
            · obtain ⟨text, htext⟩ := hparse record raftEntry
              rw [htext]
              rfl

/-- Zero bytes are no record: its length is zero, or there is no room for one. -/
theorem noRecord_zeros {pre tail : Bytes} (hmapped : mapped = pre ++ tail)
    (htail : ∀ b ∈ tail, b = 0) : NoRecord c mapped pre.length := by
  have hzeros : (tail.take recordLengthSize) = Bytes.zeros (tail.take recordLengthSize).length :=
    List.eq_replicate_iff.mpr ⟨rfl, fun b hb => htail b (List.mem_of_mem_take hb)⟩
  refine .inr (.inl ?_)
  rw [hmapped, List.drop_left, hzeros, Bytes.leNat_zeros]

/-- **One round** of the scan, at the frame of an entry.  An entry without data keeps the data
of the one decoded before it. -/
theorem rebuildLoop_frame {pre tail : Bytes} {e : Entry} {idx idx' : Index}
    (hsize : mapped.length = c.segmentSize) (hmapped : mapped = pre ++ (frame e ++ tail))
    (happ : idx.appendIndexEntry (IndexEntry.of e.index pre.length) = .ok idx')
    (fuel : Nat) (record : Record) (raftEntry : Entry) :
    rebuildLoop c mapped (fuel + 1) pre.length record raftEntry idx =
      rebuildLoop c mapped fuel (pre ++ frame e).length e.toRecord
        { e with data := e.data <|> raftEntry.data } idx' := by
  have hpos := size_lt_toRecord_size e
  have hle := c.segmentSize_le
  have hbytes : mapped = pre ++ (Bytes.leBytes 4 e.toRecord.size ++ (e.toRecord.marshal ++ tail)) := by
    rw [hmapped, frame, List.append_assoc]
  have hlen : pre.length + (4 + (e.toRecord.size + tail.length)) = c.segmentSize := by
    rw [← hsize, hbytes]
    simp only [List.length_append, Bytes.length_leBytes, Record.length_marshal]
  have h1 : MmapFile.sliceOf mapped pre.length (pre.length + recordLengthSize) =
      .ok (Bytes.leBytes 4 e.toRecord.size) := by
    rw [hbytes]
    exact MmapFile.sliceOf_append_of_eq rfl (by rw [Bytes.length_leBytes, recordLengthSize])
  have h2 : MmapFile.sliceOf mapped (pre.length + recordLengthSize)
      (pre.length + recordLengthSize + e.toRecord.size) = .ok e.toRecord.marshal := by
    rw [hbytes, ← List.append_assoc]
    refine MmapFile.sliceOf_append_of_eq ?_ (by rw [Record.length_marshal])
    rw [List.length_append, Bytes.length_leBytes, recordLengthSize]
  have hroom : ¬ c.segmentSize ≤ pre.length + recordLengthSize := by
    rw [recordLengthSize]
    omega
  have hfits : ¬ (c.segmentSize ≤ pre.length + recordLengthSize ∨
      c.segmentSize < pre.length + recordLengthSize + e.toRecord.size) := by
    rw [recordLengthSize]
    omega
  have hsome : ¬ e.toRecord.marshal.length = 0 := by
    rw [Record.length_marshal]
    omega
  have hleN : Bytes.leNat (Bytes.leBytes 4 e.toRecord.size) = e.toRecord.size :=
    MmapFile.leNat_frameLength (by rw [length_frame]; omega)
  have hnext : (pre ++ frame e).length = pre.length + recordLengthSize + e.toRecord.size := by
    rw [List.length_append, length_frame, recordLengthSize, Nat.add_assoc]
  rw [rebuildLoop, if_neg hroom, h1]
  simp only [bind, Except.bind]
  rw [hleN, if_neg hfits, h2]
  simp only
  rw [if_neg hsome, MmapFile.parseRecord_marshal record raftEntry e (by omega)]
  simp only [Nat.add_sub_cancel]
  rw [happ, hnext]

/-- **The scan finds every record** up to where it ends, whatever the variables it
decodes into held before and however much fuel is left over. -/
theorem rebuildLoop_encode {n : Nat} (hsize : mapped.length = c.segmentSize) :
    ∀ (es : List Entry) (pre : Bytes) {tail : Bytes} {first : Nat} {idx : Index}
      {ies : List IndexEntry},
    mapped = pre ++ (encode es ++ tail) → ScanEnds c mapped (pre.length + (encode es).length) →
    Numbered Entry.index first es → idx.WritableAs n ies →
    ∃ idx', (∀ fuel record raftEntry, es.length ≤ fuel →
        rebuildLoop c mapped fuel pre.length record raftEntry idx = .ok idx') ∧
      idx'.WritableAs n (ies ++ positions first pre.length es)
  | [], pre, _, _, idx, _, _, hend, _, hidx => by
      refine ⟨idx, fun fuel record raftEntry _ => hend fuel record raftEntry idx, ?_⟩
      rw [positions, List.append_nil]
      exact hidx
  | e :: es, pre, tail, first, idx, ies, hmapped, hend, hnum, hidx => by
      rw [encode_cons, List.append_assoc] at hmapped
      obtain ⟨idx₁, happ, hidx₁⟩ := hidx.appendIndexEntry (IndexEntry.of e.index pre.length)
      rw [hnum.1] at hidx₁
      -- the rest of the scan starts behind the frame of `e`
      have hend' : ScanEnds c mapped ((pre ++ frame e).length + (encode es).length) := by
        rw [List.length_append, Nat.add_assoc, ← List.length_append, ← encode_cons]
        exact hend
      obtain ⟨idx₂, hloop, hidx₂⟩ := rebuildLoop_encode hsize es (pre ++ frame e)
        (hmapped.trans (List.append_assoc ..).symm) hend' hnum.2 hidx₁
      refine ⟨idx₂, fun fuel record raftEntry hfuel => ?_, ?_⟩
      · obtain ⟨fuel, rfl⟩ : ∃ k, fuel = k + 1 :=
          ⟨fuel - 1, by rw [List.length_cons] at hfuel; omega⟩
        rw [rebuildLoop_frame hsize hmapped happ]
        exact hloop fuel _ _ (by rw [List.length_cons] at hfuel; omega)
      · rw [List.length_append, List.append_assoc, List.singleton_append] at hidx₂
        exact hidx₂

/-- **The scan of a file** that ends behind its entries rebuilds their index. -/
theorem rebuild_of_scanEnds {z : Bool} {f : MmapFile} {es : List Entry} {n : Nat}
    (h : f.Holds c z es) (hends : ScanEnds c f.mappedData (encode es).length)
    (hnum : Numbered Entry.index n es) :
    ∃ idx, (∀ fuel, es.length ≤ fuel → rebuildLoop c f.mappedData fuel 0 Record.zero Entry.zero
        (Index.create (.inprogress n)) = .ok idx) ∧
      idx.WritableAs n (positions n 0 es) := by
  obtain ⟨tail, htail, -⟩ := h.mapped
  obtain ⟨idx, hloop, hidx⟩ := rebuildLoop_encode h.size es [] htail
    (by rwa [List.length_nil, Nat.zero_add]) hnum (Index.create_writableAs n)
  exact ⟨idx, fun fuel hfuel => hloop fuel _ _ hfuel, hidx⟩

/-- It does so with zero bytes behind them. -/
theorem scanEnds_of_holds {f : MmapFile} {es : List Entry} (h : f.Holds c true es) :
    ScanEnds c f.mappedData (encode es).length := by
  obtain ⟨tail, htail, hzero⟩ := h.mapped
  exact (noRecord_zeros htail (hzero rfl)).scanEnds h.size

theorem rebuild_holds {f : MmapFile} {es : List Entry} {n : Nat} (h : f.Holds c true es)
    (hnum : Numbered Entry.index n es) :
    ∃ idx, (∀ fuel, es.length ≤ fuel → rebuildLoop c f.mappedData fuel 0 Record.zero Entry.zero
        (Index.create (.inprogress n)) = .ok idx) ∧
      idx.WritableAs n (positions n 0 es) :=
  rebuild_of_scanEnds h (scanEnds_of_holds h) hnum

theorem rebuildIndex_holds {z : Bool} {f : MmapFile} {es : List Entry} {n : Nat} {d : Dir}
    {idx : Index} {contents : Bytes} (h : f.Holds c z es) (hname : f.filePath = .inprogress n)
    (hfile : d.indexFile (.inprogress n) = .ok contents)
    (hloop : ∀ fuel, es.length ≤ fuel → rebuildLoop c f.mappedData fuel 0 Record.zero Entry.zero
      (Index.create (.inprogress n)) = .ok idx) :
    rebuildIndex c d f = .ok idx := by
  have hle := length_le_encode es
  obtain ⟨tail, htail, -⟩ := h.mapped
  rw [rebuildIndex, hname, hfile]
  exact hloop _ (by rw [htail, List.length_append]; omega)

end Segment

/-- The files of the writable segment as a crash can leave them: the log file holds
its entries and zero bytes, and there is an index file, whatever is in it. -/
structure CrashedFile (c : Config) (d : Dir) (file : FileName × Bytes) (w : SegView) : Prop where
  nonempty : w.es ≠ []
  name : file.1 = .inprogress w.first
  log : LogBytes c true file.2 w.es
  index : ∃ contents, d.indexes.lookup file.1 = some contents

/-- A directory that recovery can open, and the log it finds there. -/
def Dir.Recoverable (c : Config) (d : Dir) : SegLog → Prop
  | .empty => d.logs = []
  | .segs done w => w.hot = true ∧ ∃ files file, d.logs = files ++ [file] ∧
      List.Forall₂ (SealedFile c true d) files done ∧ CrashedFile c d file w

section Recover
variable {c : Config} {d : Dir} {file : FileName × Bytes} {w : SegView} {v : SegLog}

/-- **The writable segment is recovered from its log file alone**, up to where the scan ends. -/
theorem openWritable_of_scanEnds {z : Bool} {contents : Bytes} (hlog : LogBytes c z contents w.es)
    (hends : Segment.ScanEnds c contents (encode w.es).length) (hne : w.es ≠ [])
    (hidx : ∃ x, d.indexes.lookup (.inprogress w.first) = some x) (hhot : w.hot = true) :
    ∃ s, Segment.openWritable c d true (.inprogress w.first, contents) = .ok s ∧
      s.Writable c z w ∧ s.logFile.mappedData = contents := by
  obtain ⟨f, hf, hname, hmapped, -, hholds⟩ := hlog.openFile (.inprogress w.first)
  obtain ⟨x, hlookup⟩ := hidx
  obtain ⟨idx, hloop, hidx⟩ := Segment.rebuild_of_scanEnds hholds (hmapped ▸ hends) w.numbered
  have hfile : d.indexFile (.inprogress w.first) = .ok x := by
    rw [Dir.indexFile, hlookup]
  have hrebuild := Segment.rebuildIndex_holds hholds hname hfile hloop
  obtain ⟨s, hs, hw, hsame⟩ := resume_writable hne hname hholds hidx hhot
  refine ⟨s, ?_, hw, hsame.trans hmapped⟩
  rw [Segment.openWritable, hf]
  simp only [bind, Except.bind, if_true, hrebuild]
  exact hs

theorem CrashedFile.openWritable (h : CrashedFile c d file w) (hhot : w.hot = true) :
    ∃ s, Segment.openWritable c d true file = .ok s ∧ s.Writable c true w := by
  obtain ⟨name, contents⟩ := file
  obtain ⟨hne, rfl, hlog, hidx⟩ := h
  obtain ⟨⟨tail, htail, hzero⟩, hsize⟩ := hlog
  have hends := (Segment.noRecord_zeros htail (hzero rfl)).scanEnds hsize
  obtain ⟨s, hs, hw, -⟩ := openWritable_of_scanEnds ⟨⟨tail, htail, hzero⟩, hsize⟩ hends hne hidx hhot
  exact ⟨s, hs, hw⟩

/-- **Recovery** gives back the log that stands in the directory. -/
theorem Dir.Recoverable.recover (h : d.Recoverable c v) (hwf : v.WF) :
    ∃ s, DiskStorage.newDiskStorage c d true = .ok s ∧ s.Rep c true v.reopened := by
  cases v with
  | empty =>
      have hlogs : d.logs = [] := h
      refine ⟨⟨[]⟩, ?_, rfl⟩
      rw [DiskStorage.newDiskStorage, Dir.logFiles, hlogs]
      rfl
  | segs done w =>
      obtain ⟨hhot, files, file, hlogs, hfiles, hfile⟩ := h
      obtain ⟨seg, hseg, hsegw⟩ := hfile.openWritable hhot
      obtain ⟨segs, hopen, hsegs⟩ := DiskStorage.newDiskStorage_spec hseg hfile.name hfiles hlogs
        hwf.pairwise_first
      exact ⟨_, hopen, segs, seg, rfl, hsegs, hsegw⟩

end Recover

end Kingbus
