import Kingbus.RecordFrames

/-! # Appends stay inside the mapped file

`SaveRaftEntries` computes the size of a batch, `needRolling` compares it with what is left of
the file, and `appendRecords` writes a length and a record for every entry.  The three agree:
whatever batches, truncations and purges a process gets, and however often it is restarted or
crashes, no append leaves the mapping.

The processes here (`DiskStorage.Running`) are not restricted to what raft asks for.  A crash
leaves log files of the size they were created with, whatever their bytes, and of each index file
a beginning; the names are free.  `Kingbus.CrashCoverage` shows that this includes every crash
between two file steps of an operation. -/

namespace Kingbus

/-! ## The storage -/

namespace DiskStorage

/-- Only the last segment may be writable. -/
structure Bounded (c : Config) (s : DiskStorage) : Prop where
  before : ∀ seg ∈ s.segments.dropLast, seg.AtRest c
  each : ∀ seg ∈ s.segments, seg.Bounded c

variable {c : Config} {s : DiskStorage} {segs : List Segment} {seg : Segment}

theorem bounded_concat (h : ∀ x ∈ segs, x.AtRest c) (hlast : seg.Bounded c) :
    Bounded c ⟨segs ++ [seg]⟩ where
  before := by
    rw [List.dropLast_concat]
    exact h
  each := by
    intro x hx
    rcases List.mem_append.mp hx with hx | hx
    · exact .inl (h x hx)
    · rw [List.mem_singleton.mp hx]
      exact hlast

theorem bounded_of_atRest (h : ∀ x ∈ segs, x.AtRest c) : Bounded c ⟨segs⟩ :=
  ⟨fun x hx => h x (List.dropLast_subset segs hx), fun x hx => .inl (h x hx)⟩

theorem atRest_concat (h : ∀ x ∈ segs, x.AtRest c) (hseg : seg.AtRest c) :
    ∀ x ∈ segs ++ [seg], x.AtRest c := by
  intro x hx
  rcases List.mem_append.mp hx with hx | hx
  · exact h x hx
  · rw [List.mem_singleton.mp hx]
    exact hseg

/-- A name in progress is free when all segments are read-only. -/
theorem newSegment_of_atRest (h : ∀ x ∈ s.segments, x.AtRest c) (n : Nat) :
    s.newSegment c (.inprogress n) = .ok (Segment.create c (.inprogress n)) := by
  refine newSegment_ok fun x hx heq => ?_
  have hname := (h x hx).name
  rw [heq] at hname
  exact hname

/-- How the segment of a batch comes about: the first one is made, the last one is sealed and a new
one is made, or it is the last one. -/
inductive WriteSegment (c : Config) (s : DiskStorage) (first size : Nat) :
    DiskStorage → Segment → Bool → Prop
  | created (h : s.segments = []) :
      WriteSegment c s first size s (.create c (.inprogress first)) true
  | rolled {last prev : Segment} {n : Nat} {ies : List IndexEntry}
      (hlast : s.segments.getLast? = some last) (hroll : last.needRolling size = true)
      (hfill : last.Filling c n ies) (hprev : last.changeToReadonly = .ok prev)
      (hrest : prev.AtRest c) (hindex : prev.indexContents.2 = marshalEntries ies) :
      WriteSegment c s first size ⟨s.segments.dropLast ++ [prev]⟩
        (.create c (.inprogress first)) true
  | last {last : Segment} (hlast : s.segments.getLast? = some last)
      (hroll : last.needRolling size = false) : WriteSegment c s first size s last false

theorem Bounded.getWriteSegment (h : s.Bounded c) {size : Nat} (hsize : size ≤ c.segmentSize)
    (first : Nat) :
    (∃ e, s.getWriteSegment c first size = (s, .error (.error e))) ∨
      ∃ s' seg isNew, s.getWriteSegment c first size = (s', .ok (seg, isNew)) ∧
        WriteSegment c s first size s' seg isNew := by
  rw [DiskStorage.getWriteSegment]
  cases hlast : s.segments.getLast? with
  | none =>
      have hnil : s.segments = [] := List.getLast?_eq_none_iff.mp hlast
      have hrest : ∀ x ∈ s.segments, x.AtRest c := by
        rw [hnil]
        exact List.forall_mem_nil _
      exact .inr ⟨s, _, true, by rw [newSegment_of_atRest hrest]; rfl, .created hnil⟩
  | some last =>
      simp only
      split
      · next hroll =>
        rcases h.each last (List.mem_of_getLast? hlast) with hrest | ⟨n, ies, hfill⟩
        · refine .inl ⟨.argsIllegal, ?_⟩
          rw [DiskStorage.rollingSegment, hrest.changeToReadonly]
          rfl
        · -- the file is not empty: the batch alone would have fitted
          have hne : ies ≠ [] := by
            rintro rfl
            have hzero : 0 = last.logFile.writePosition := hfill.framed
            have hroll' := of_decide_eq_true hroll
            rw [hfill.maxBytes_eq] at hroll'
            omega
          obtain ⟨prev, hprev, hprevrest, hindex⟩ := hfill.changeToReadonly hne
          have hall : ∀ x ∈ s.segments.dropLast ++ [prev], x.AtRest c :=
            atRest_concat h.before hprevrest
          refine .inr ⟨⟨s.segments.dropLast ++ [prev]⟩, _, true, ?_,
            .rolled hlast hroll hfill hprev hprevrest hindex⟩
          rw [DiskStorage.rollingSegment, hprev]
          simp only
          rw [newSegment_of_atRest hall]
          rfl
      · next hroll =>
        exact .inr ⟨s, last, false, rfl, .last hlast (Bool.eq_false_iff.mpr hroll)⟩

namespace WriteSegment
variable {first size : Nat} {s' : DiskStorage} {isNew : Bool}

/-- The segments that stay as they are. -/
theorem before (hw : WriteSegment c s first size s' seg isNew) (h : s.Bounded c) :
    ∀ x ∈ if isNew then s'.segments else s'.segments.dropLast, x.AtRest c := by
  cases hw with
  | created hnil =>
      rw [if_pos rfl, hnil]
      exact List.forall_mem_nil _
  | rolled _ _ _ _ hrest _ => exact atRest_concat h.before hrest
  | last _ _ => exact h.before

theorem bounded (hw : WriteSegment c s first size s' seg isNew) (h : s.Bounded c) :
    s'.Bounded c := by
  cases hw with
  | created _ => exact h
  | rolled _ _ _ _ hrest _ => exact bounded_of_atRest (atRest_concat h.before hrest)
  | last _ _ => exact h

/-- **The segment a batch goes to** is not writable, or it has room. -/
theorem room (hw : WriteSegment c s first size s' seg isNew) (h : s.Bounded c)
    (hsize : size ≤ c.segmentSize) :
    seg.AtRest c ∨ ∃ n ies, seg.Filling c n ies ∧
      seg.logFile.writePosition + size ≤ c.segmentSize := by
  have hcreate : (Segment.create c (.inprogress first)).logFile.writePosition + size ≤
      c.segmentSize := by
    change 0 + size ≤ _
    omega
  cases hw with
  | created _ => exact .inr ⟨first, [], Segment.create_filling c first, hcreate⟩
  | rolled _ _ _ _ _ _ => exact .inr ⟨first, [], Segment.create_filling c first, hcreate⟩
  | last hlast hroll =>
      refine (h.each seg (List.mem_of_getLast? hlast)).imp_right ?_
      rintro ⟨n, ies, hfill⟩
      have hroll' := of_decide_eq_false hroll
      rw [hfill.maxBytes_eq] at hroll'
      exact ⟨n, ies, hfill, Nat.le_of_not_lt hroll'⟩

end WriteSegment

/-- The size that is computed for a batch is the number of bytes handed to `MmapFile.append`. -/
theorem entriesToRecords_size (es : List Entry) :
    (entriesToRecords es).2 = (Segment.appendBuffers (entriesToRecords es).1).flatten.length := by
  induction es with
  | nil => rfl
  | cons e es ih =>
      rw [entriesToRecords]
      simp only
      rw [Segment.length_appendBuffers_cons, ← ih, Nat.add_comm e.toRecord.size]

/-- What `SaveRaftEntries` does with a batch that fits into a segment. -/
inductive SaveResult (c : Config) (s : DiskStorage) (e : Entry) (es : List Entry) :
    DiskStorage × Except Failure Unit → Prop
  | refused {s' : DiskStorage} (err : StorageError) (h : s'.Bounded c) :
      SaveResult c s e es (s', .error (.error err))
  | saved {s' : DiskStorage} {seg seg' : Segment} {isNew : Bool} {n : Nat}
      {ies ies' : List IndexEntry}
      (hw : WriteSegment c s e.index (entriesToRecords (e :: es)).2 s' seg isNew)
      (hfill : seg.Filling c n ies)
      (hroom : seg.logFile.writePosition +
        (Segment.appendBuffers (entriesToRecords (e :: es)).1).flatten.length ≤ c.segmentSize)
      (happ : seg.appendRecords (entriesToRecords (e :: es)).1 e.index = .ok seg')
      (hfill' : seg'.Filling c n ies') :
      SaveResult c s e es
        (⟨(if isNew then s'.segments else s'.segments.dropLast) ++ [seg']⟩, .ok ())

theorem Bounded.saveResult (h : s.Bounded c) {e : Entry} {es : List Entry}
    (hfits : (entriesToRecords (e :: es)).2 ≤ c.segmentSize) :
    SaveResult c s e es (s.saveRaftEntries c (e :: es)) := by
  rw [DiskStorage.saveRaftEntries]
  simp only
  rw [if_neg (Nat.not_lt.mpr hfits)]
  rcases h.getWriteSegment hfits e.index with ⟨err, hget⟩ | ⟨s', seg, isNew, hget, hw⟩
  · rw [hget]
    exact .refused err h
  · rw [hget]
    simp only
    rcases hw.room h hfits with hrest | ⟨n, ies, hfill, hroom⟩
    · rw [hrest.appendRecords]
      exact .refused _ (hw.bounded h)
    · rw [entriesToRecords_size] at hroom
      rcases hfill.appendRecords hroom e.index with ⟨err, happ⟩ | ⟨seg', ies', happ, hfill', -⟩
      · rw [happ]
        exact .refused err (hw.bounded h)
      · rw [happ]
        have hsaved := SaveResult.saved hw hfill hroom happ hfill'
        cases isNew with
        | true => exact hsaved
        | false => exact hsaved

/-- **`SaveRaftEntries`** keeps the files bounded, and does not fail but by an error it returns
when the batch fits into a segment. -/
theorem Bounded.saveRaftEntries (h : s.Bounded c) (es : List Entry) :
    (s.saveRaftEntries c es).1.Bounded c ∧
      ((entriesToRecords es).2 ≤ c.segmentSize →
        ∀ failure, (s.saveRaftEntries c es).2 = .error failure → ∃ e, failure = .error e) := by
  cases es with
  | nil => exact ⟨h, fun _ _ hfail => by cases hfail⟩
  | cons e es =>
      by_cases hfits : (entriesToRecords (e :: es)).2 ≤ c.segmentSize
      · cases hr : s.saveRaftEntries c (e :: es) with
        | mk s' r =>
            have hresult := h.saveResult hfits
            rw [hr] at hresult
            cases hresult with
            | refused err h' =>
                exact ⟨h', fun _ failure hfail => ⟨err, (Except.error.inj hfail).symm⟩⟩
            | saved hw _ _ _ hfill' =>
                exact ⟨bounded_concat (hw.before h) (.inr ⟨_, _, hfill'⟩),
                  fun _ _ hfail => by cases hfail⟩
      · rw [DiskStorage.saveRaftEntries]
        simp only
        rw [if_pos (Nat.lt_of_not_le hfits)]
        exact ⟨h, fun hle => absurd hle hfits⟩

theorem Bounded.truncateSuffix (h : s.Bounded c) (i : Nat) :
    (s.truncateSuffix i).1.Bounded c := by
  rw [DiskStorage.truncateSuffix]
  cases hsplit : splitLast (fun seg => seg.contains i) s.segments with
  | none => exact h
  | some found =>
      obtain ⟨before, seg, behind⟩ := found
      obtain ⟨hsegs, -⟩ := splitLast_eq_some hsplit
      have hseg : seg.Bounded c := h.each seg (by rw [hsegs]; simp)
      have hbefore : ∀ x ∈ before, x.AtRest c := by
        intro x hx
        refine h.before x ?_
        rw [hsegs, List.dropLast_append_of_ne_nil (List.cons_ne_nil seg behind)]
        exact List.mem_append_left _ hx
      simp only
      cases hcut : seg.truncateSuffix i with
      | error e => exact bounded_concat hbefore hseg
      | ok seg' => exact bounded_concat hbefore (.inr (hseg.truncateSuffix hcut).1)

theorem Bounded.purge (h : s.Bounded c) (reserveSegmentCount : Nat) :
    (s.purge reserveSegmentCount).Bounded c := by
  rw [DiskStorage.purge]
  split
  · refine ⟨fun x hx => h.before x ?_, fun x hx => h.each x (List.mem_of_mem_drop hx)⟩
    have hne : s.segments.drop (s.segments.length - reserveSegmentCount) ≠ [] := by
      intro hnil
      rw [hnil] at hx
      cases hx
    rw [← List.take_append_drop (s.segments.length - reserveSegmentCount) s.segments,
      List.dropLast_append_of_ne_nil hne]
    exact List.mem_append_right _ hx
  · exact h

end DiskStorage

/-! ## Opening -/

theorem Dir.mem_of_indexFile {d : Dir} {name : FileName} {contents : Bytes}
    (h : d.indexFile name = .ok contents) : (name, contents) ∈ d.indexes := by
  rw [Dir.indexFile] at h
  split at h
  · cases h
  · next found hfound =>
    cases h
    obtain ⟨before, behind, hsplit, -⟩ := List.lookup_eq_some_iff.mp hfound
    rw [hsplit]
    exact List.mem_append_right _ List.mem_cons_self

theorem MmapFile.openFile_ok {name : FileName} {contents : Bytes} {f : MmapFile}
    (h : MmapFile.openFile name contents = .ok f) :
    f = { filePath := name, mappedData := contents, writePosition := 0, syncPosition := 0,
          maxBytes := contents.length } := by
  rw [MmapFile.openFile] at h
  split at h
  · cases h
  · exact (Except.ok.inj h).symm

namespace Segment
variable {c : Config} {d : Dir} {file : FileName × Bytes} {s : Segment} {n : Nat}

theorem openReadOnly_atRest (hlen : file.2.length = c.segmentSize)
    (hindexes : ∀ f ∈ d.indexes, OnlyFirstAtZero f.2) (h : openReadOnly d file = .ok s) :
    s.AtRest c := by
  obtain ⟨f, hf, h⟩ := bind_eq_ok h
  rw [MmapFile.openFile_ok hf] at h
  split at h
  · cases h
  · next first last hname =>
    obtain ⟨contents, hcontents, h⟩ := bind_eq_ok h
    obtain ⟨logIndex, hindex, h⟩ := bind_eq_ok h
    rw [Index.openIndex, if_pos rfl] at hindex
    obtain ⟨g, hg, hindex⟩ := bind_eq_ok hindex
    rw [MmapFile.openFile_ok hg] at hindex
    cases hindex
    cases h
    refine ⟨rfl, hlen, hlen, ?_, ⟨_, rfl, ?_, ?_, .inl rfl⟩, Nat.zero_le _⟩
    · rw [hname]
      trivial
    · rw [hname]
      trivial
    · exact hindexes _ (Dir.mem_of_indexFile hcontents)

/-- The end of `openSegment` finds the end of the records. -/
theorem resume_filling {f : MmapFile} {logIndex : Index} {ies : List IndexEntry} {q first : Nat}
    (hlen : f.mappedData.length = c.segmentSize) (hmax : f.maxBytes = c.segmentSize)
    (hname : f.filePath = .inprogress n) (hindex : logIndex.WritableAs n ies)
    (hframed : Framed f.mappedData 0 ies q) (hq : q ≤ c.segmentSize)
    (h : resume first f logIndex = .ok s) : s.Filling c n ies := by
  obtain ⟨e, he, h⟩ := bind_eq_ok h
  obtain ⟨lenBuf, hbuf, h⟩ := bind_eq_ok h
  cases h
  rcases List.eq_nil_or_concat' ies with rfl | ⟨init, last, rfl⟩
  · rw [hindex.getLastRaftEntry_nil] at he
    cases he
  · rw [hindex.getLastRaftEntry (List.getLast?_concat ..)] at he
    cases he
    obtain ⟨-, rfl⟩ := slice_eq_some_iff.mp (sliceOf_eq_ok_iff.mp hbuf)
    have hend : e.filePosition + Bytes.leNat ((f.mappedData.drop e.filePosition).take
        (e.filePosition + recordLengthSize - e.filePosition)) + recordLengthSize = q := by
      rw [hframed.of_concat, recordEnd, Nat.add_sub_cancel_left, Nat.add_right_comm]
    refine ⟨rfl, hlen, hmax, hname, hindex, ?_, ?_⟩
    · change Framed f.mappedData 0 (init ++ [e]) (_ + _ + _)
      rw [hend]
      exact hframed
    · change _ + _ + _ ≤ _
      rw [hend]
      exact hq

/-- **The scan of a log file**, whatever the file holds: the entries it makes stand at records
that lie one behind the other. -/
theorem rebuildLoop_framed {mapped : Bytes} : ∀ (fuel : Nat) {p : Nat} {record : Record}
    {raftEntry : Entry} {d d' : Index} {ies : List IndexEntry}, d.WritableAs n ies →
    Framed mapped 0 ies p → p ≤ c.segmentSize →
    rebuildLoop c mapped fuel p record raftEntry d = .ok d' →
    ∃ ies' q, d'.WritableAs n ies' ∧ Framed mapped 0 ies' q ∧ q ≤ c.segmentSize
  | 0, p, _, _, d, d', ies, hd, hframed, hp, h => by
      cases h
      exact ⟨ies, p, hd, hframed, hp⟩
  | fuel + 1, p, record, raftEntry, d, d', ies, hd, hframed, hp, h => by
      have hstop : d' = d → ∃ ies' q, d'.WritableAs n ies' ∧ Framed mapped 0 ies' q ∧
          q ≤ c.segmentSize := by
        rintro rfl
        exact ⟨ies, p, hd, hframed, hp⟩
      rw [rebuildLoop] at h
      split at h
      · exact hstop (Except.ok.inj h).symm
      · next hmore =>
        obtain ⟨lenBuf, hbuf, h⟩ := bind_eq_ok h
        obtain ⟨-, rfl⟩ := slice_eq_some_iff.mp (sliceOf_eq_ok_iff.mp hbuf)
        rw [Nat.add_sub_cancel_left] at h
        simp only at h
        split at h
        · exact hstop (Except.ok.inj h).symm
        · next hin =>
          obtain ⟨recordBuf, -, h⟩ := bind_eq_ok h
          split at h
          · exact hstop (Except.ok.inj h).symm
          · split at h
            · cases h
            · exact hstop (Except.ok.inj h).symm
            · next record' raftEntry' _ =>
              obtain ⟨d₁, hd₁, h⟩ := bind_eq_ok h
              obtain ⟨d₂, hd₂, hwritable⟩ := hd.appendIndexEntry
                (IndexEntry.of raftEntry'.index (p + recordLengthSize - recordLengthSize))
              rw [hd₁] at hd₂
              cases hd₂
              have hpos : (IndexEntry.of raftEntry'.index
                  (p + recordLengthSize - recordLengthSize)).filePosition = p := by
                rw [Nat.add_sub_cancel]
                exact filePosition_of (c := c) (by omega)
              exact rebuildLoop_framed fuel hwritable (hframed.concat hpos)
                (by unfold recordEnd; omega) h

/-- A recovery makes the index from the log file, whatever that holds. -/
theorem openWritable_recover (hlen : file.2.length = c.segmentSize)
    (h : openWritable c d true file = .ok s) : ∃ n ies, s.Filling c n ies := by
  obtain ⟨f, hf, h⟩ := bind_eq_ok h
  rw [MmapFile.openFile_ok hf] at h
  split at h
  · cases h
  · next first hname =>
    obtain ⟨logIndex, hindex, h⟩ := bind_eq_ok h
    obtain ⟨-, -, hindex⟩ := bind_eq_ok hindex
    simp only [hname] at hindex
    obtain ⟨ies, q, hwritable, hframed, hq⟩ := rebuildLoop_framed _ (Index.create_writableAs first)
      rfl (Nat.zero_le _) hindex
    exact ⟨first, ies, resume_filling hlen hlen hname hwritable hframed hq h⟩

/-- A clean start reads the index that was written. -/
theorem openWritable_clean {ies : List IndexEntry} {q : Nat} (hlen : file.2.length = c.segmentSize)
    (hname : file.1 = .inprogress n) (hindexFile : d.indexFile file.1 = .ok (marshalEntries ies))
    (hframed : Framed file.2 0 ies q) (hq : q ≤ c.segmentSize)
    (h : openWritable c d false file = .ok s) : s.Filling c n ies := by
  obtain ⟨f, hf, h⟩ := bind_eq_ok h
  rw [MmapFile.openFile_ok hf] at h
  split at h
  · next hreadonly =>
    rw [hname] at hreadonly
    cases hreadonly
  · obtain ⟨contents, hcontents, h⟩ := bind_eq_ok h
    rw [hindexFile] at hcontents
    cases hcontents
    obtain ⟨logIndex, hindex, h⟩ := bind_eq_ok h
    rw [Index.openIndex, if_neg (by simp), RWFile.openFile_marshalEntries] at hindex
    cases hindex
    refine resume_filling hlen hlen hname ⟨rfl, _, rfl, rfl, ?_, hname⟩ hframed hq h
    rw [RWFile.Consistent, RWFile.bytes, List.append_nil]

end Segment

theorem DiskStorage.openLogs_bounded {c : Config} {d : Dir} {z : Bool} :
    ∀ {l : List (FileName × Bytes)} {segs : List Segment},
    (∀ file ∈ l, ∀ s, Segment.openReadOnly d file = .ok s → s.AtRest c) →
    (∀ file ∈ l, ∀ s, Segment.openWritable c d z file = .ok s → ∃ n ies, s.Filling c n ies) →
    DiskStorage.openLogs c d z l = .ok segs → DiskStorage.Bounded c ⟨segs⟩
  | [], segs, _, _, h => by
      cases h
      exact bounded_of_atRest (List.forall_mem_nil _)
  | [file], segs, _, hrw, h => by
      obtain ⟨s, hs, h⟩ := bind_eq_ok h
      cases h
      exact bounded_concat (List.forall_mem_nil _)
        (.inr (hrw file List.mem_cons_self s hs))
  | file :: file' :: files, segs, hro, hrw, h => by
      obtain ⟨s, hs, h⟩ := bind_eq_ok h
      obtain ⟨rest, hrest, h⟩ := bind_eq_ok h
      cases h
      have hbounded := openLogs_bounded (fun f hf => hro f (List.mem_cons_of_mem file hf))
        (fun f hf => hrw f (List.mem_cons_of_mem file hf)) hrest
      have hfirst := hro file List.mem_cons_self s hs
      refine ⟨fun x hx => ?_, fun x hx => ?_⟩
      · cases rest with
        | nil => cases hx
        | cons y rest =>
            rcases List.mem_cons.mp hx with rfl | hx
            · exact hfirst
            · exact hbounded.before x hx
      · rcases List.mem_cons.mp hx with rfl | hx
        · exact .inl hfirst
        · exact hbounded.each x hx

/-! ## Every process -/

/-- The storages of all processes, with the index files that may lie in the directory besides
those of the segments.  They come about by any batches, truncations and purges, by clean restarts
and by crashes.  A call goes on unless it stops the process.  A crash leaves log files of the size
they were created with and of every index file a beginning of what was written to it; what is
left is recovered. -/
inductive DiskStorage.Running (c : Config) : List (FileName × Bytes) → DiskStorage → Prop
  | init : Running c [] .empty
  | save {stray : List (FileName × Bytes)} {s : DiskStorage} (es : List Entry) :
      Running c stray s → (Reply.done (s.saveRaftEntries c es).2).stopped = false →
      Running c stray (s.saveRaftEntries c es).1
  | truncate {stray : List (FileName × Bytes)} {s : DiskStorage} (raftIndex : Nat) :
      Running c stray s → (Reply.done (s.truncateSuffix raftIndex).2).stopped = false →
      Running c stray (s.truncateSuffix raftIndex).1
  | purge {stray : List (FileName × Bytes)} {s : DiskStorage} (reserveSegmentCount : Nat) :
      Running c stray s → Running c stray (s.purge reserveSegmentCount)
  | restart {stray left : List (FileName × Bytes)} {s s' : DiskStorage} : Running c stray s →
      (∀ f ∈ left, f ∈ stray) →
      newDiskStorage c ⟨s.close.logs, s.close.indexes ++ left⟩ false = .ok s' →
      Running c left s'
  | crash {stray : List (FileName × Bytes)} {s s' : DiskStorage} (d : Dir) : Running c stray s →
      (∀ f ∈ d.logs, f.2.length = c.segmentSize) →
      (∀ f ∈ d.indexes, ∃ g ∈ s.close.indexes ++ stray, f.2 <+: g.2) →
      newDiskStorage c d true = .ok s' → Running c d.indexes s'

theorem Dir.mem_logFiles {d : Dir} {f : FileName × Bytes} : f ∈ d.logFiles ↔ f ∈ d.logs :=
  List.mem_insertionSort _

namespace DiskStorage

/-- What every process keeps. -/
structure Kept (c : Config) (stray : List (FileName × Bytes)) (s : DiskStorage) : Prop where
  bounded : s.Bounded c
  stray : ∀ f ∈ stray, OnlyFirstAtZero f.2

namespace Kept
variable {c : Config} {stray : List (FileName × Bytes)} {s s' : DiskStorage}

theorem of_subset (h : s.Kept c stray) {left : List (FileName × Bytes)}
    (hleft : ∀ f ∈ left, f ∈ stray) : s.Kept c left :=
  ⟨h.bounded, fun f hf => h.stray f (hleft f hf)⟩

theorem indexes (h : s.Kept c stray) : ∀ f ∈ s.close.indexes ++ stray, OnlyFirstAtZero f.2 := by
  intro f hf
  rcases List.mem_append.mp hf with hf | hf
  · obtain ⟨seg, hseg, rfl⟩ := List.mem_map.mp hf
    exact (h.bounded.each seg hseg).onlyFirstAtZero
  · exact h.stray f hf

/-- A log file with a name in progress is that of the writable segment, and its index file is
found by its name. -/
theorem writable_file (h : s.Kept c stray) {file : FileName × Bytes} {n : Nat}
    (hfile : file ∈ s.close.logs) (hname : file.1 = .inprogress n) :
    ∃ ies q, Framed file.2 0 ies q ∧ q ≤ c.segmentSize ∧
      Dir.indexFile ⟨s.close.logs, s.close.indexes ++ stray⟩ file.1 =
        .ok (marshalEntries ies) := by
  obtain ⟨seg, hseg, rfl⟩ := List.mem_map.mp hfile
  simp only at hname ⊢
  rcases h.bounded.each seg hseg with hrest | ⟨m, ies, hfill⟩
  · have hreadonly := hrest.name
    rw [hname] at hreadonly
    exact absurd hreadonly id
  · refine ⟨ies, seg.logFile.writePosition, hfill.framed, hfill.le, ?_⟩
    -- the segments before the last have other names
    have hne : s.segments ≠ [] := List.ne_nil_of_mem hseg
    have hsplit := List.dropLast_append_getLast hne
    have hlast : s.segments.getLast hne = seg := by
      rw [← hsplit] at hseg
      rcases List.mem_append.mp hseg with hbefore | heq
      · have hreadonly := (h.bounded.before seg hbefore).name
        rw [hname] at hreadonly
        exact absurd hreadonly id
      · exact (List.mem_singleton.mp heq).symm
    have habsent : Table.Absent seg.logFile.filePath
        (s.segments.dropLast.map Segment.indexContents) := by
      intro f hf heq
      obtain ⟨x, hx, rfl⟩ := List.mem_map.mp hf
      have hreadonly := (h.bounded.before x hx).indexContents.1
      rw [heq, hname] at hreadonly
      exact hreadonly
    have hindexes : s.close.indexes ++ stray =
        s.segments.dropLast.map Segment.indexContents ++
          ((.inprogress m, marshalEntries ies) :: stray) := by
      change s.segments.map Segment.indexContents ++ stray = _
      conv_lhs => rw [← hsplit, hlast, List.map_append, List.map_singleton, hfill.indexContents]
      rw [List.append_assoc]
      rfl
    rw [Dir.indexFile, hindexes, habsent.lookup_eq, hfill.name, List.lookup_cons_self]

theorem restart (h : s.Kept c stray)
    (hnew : newDiskStorage c ⟨s.close.logs, s.close.indexes ++ stray⟩ false = .ok s') :
    s'.Kept c stray := by
  obtain ⟨segs, hsegs, hnew⟩ := bind_eq_ok hnew
  cases hnew
  have hlen : ∀ file ∈ s.close.logs, file.2.length = c.segmentSize := by
    intro file hfile
    obtain ⟨seg, hseg, rfl⟩ := List.mem_map.mp hfile
    exact (h.bounded.each seg hseg).length_eq
  refine ⟨openLogs_bounded (fun file hfile t ht => ?_) (fun file hfile t ht => ?_) hsegs, h.stray⟩
  · exact Segment.openReadOnly_atRest (hlen file (Dir.mem_logFiles.mp hfile)) h.indexes ht
  · have hmem := Dir.mem_logFiles.mp hfile
    cases hname : file.1 with
    | readonly first last =>
        obtain ⟨f, hf, ht⟩ := bind_eq_ok ht
        rw [hname] at ht
        cases ht
    | inprogress n =>
        obtain ⟨ies, q, hframed, hq, hindex⟩ := h.writable_file hmem hname
        exact ⟨n, ies, Segment.openWritable_clean (hlen file hmem) hname hindex hframed hq ht⟩

theorem crash (h : s.Kept c stray) {d : Dir} (hlogs : ∀ f ∈ d.logs, f.2.length = c.segmentSize)
    (hindexes : ∀ f ∈ d.indexes, ∃ g ∈ s.close.indexes ++ stray, f.2 <+: g.2)
    (hnew : newDiskStorage c d true = .ok s') : s'.Kept c d.indexes := by
  obtain ⟨segs, hsegs, hnew⟩ := bind_eq_ok hnew
  cases hnew
  have hzero : ∀ f ∈ d.indexes, OnlyFirstAtZero f.2 := by
    intro f hf
    obtain ⟨g, hg, hprefix⟩ := hindexes f hf
    exact (h.indexes g hg).of_isPrefix hprefix
  refine ⟨openLogs_bounded (fun file hfile t ht => ?_) (fun file hfile t ht => ?_) hsegs, hzero⟩
  · exact Segment.openReadOnly_atRest (hlogs file (Dir.mem_logFiles.mp hfile)) hzero ht
  · exact Segment.openWritable_recover (hlogs file (Dir.mem_logFiles.mp hfile)) ht

end Kept

/-- **Every process keeps its files bounded.** -/
theorem Running.kept {c : Config} {stray : List (FileName × Bytes)} {s : DiskStorage}
    (h : Running c stray s) : s.Kept c stray := by
  induction h with
  | init => exact ⟨bounded_of_atRest (List.forall_mem_nil _), List.forall_mem_nil _⟩
  | save es _ _ ih => exact ⟨(ih.bounded.saveRaftEntries es).1, ih.stray⟩
  | truncate i _ _ ih => exact ⟨ih.bounded.truncateSuffix i, ih.stray⟩
  | purge n _ ih => exact ⟨ih.bounded.purge n, ih.stray⟩
  | restart _ hleft hnew ih => exact (ih.of_subset hleft).restart hnew
  | crash d _ hlogs hindexes hnew ih => exact ih.crash hlogs hindexes hnew

/-- What a batch is to find and to do in a storage. -/
structure AppendsInside (c : Config) (s : DiskStorage) (es : List Entry) : Prop where
  /-- No write position is beyond its file, and the whole file is mapped. -/
  positions : ∀ seg ∈ s.segments, seg.logFile.writePosition ≤ seg.logFile.maxBytes ∧
    seg.logFile.maxBytes = seg.logFile.mappedData.length
  /-- The positions in memory are the `int` positions of the records. -/
  framed : ∀ seg ∈ s.segments, ∀ ies, seg.logIndex.inMemory = some ies →
    Framed seg.logFile.mappedData 0 ies seg.logFile.writePosition
  /-- The size that is computed is the number of bytes that are handed to `append`. -/
  size_eq : (entriesToRecords es).2 =
    (Segment.appendBuffers (entriesToRecords es).1).flatten.length
  /-- A batch that does not fit into a segment stops the process. -/
  stops : c.segmentSize < (entriesToRecords es).2 → s.saveRaftEntries c es =
    (s, .error (.fatal "recordsSize[%d] is large than SegmentSize[%d]"))
  /-- Every other batch is saved or refused; nothing panics. -/
  goes_on : (entriesToRecords es).2 ≤ c.segmentSize →
    ∀ failure, (s.saveRaftEntries c es).2 = .error failure → ∃ e, failure = .error e
  /-- The appends to the segment it goes to. -/
  appends : ∀ e rest, es = e :: rest → (entriesToRecords es).2 ≤ c.segmentSize →
    ∀ s' seg isNew seg', s.getWriteSegment c e.index (entriesToRecords es).2 =
        (s', .ok (seg, isNew)) →
      seg.appendRecords (entriesToRecords es).1 e.index = .ok seg' →
      seg.AppendsTo seg' (entriesToRecords es).1 (entriesToRecords es).2

/-- Batches saved one after the other, up to one that stops the process. -/
def Along (c : Config) (P : DiskStorage → List Entry → Prop) : DiskStorage → List (List Entry) → Prop
  | _, [] => True
  | s, es :: batches => P s es ∧ ((Reply.done (s.saveRaftEntries c es).2).stopped = false →
      Along c P (s.saveRaftEntries c es).1 batches)

theorem Bounded.appendsInside {c : Config} {s : DiskStorage} (h : s.Bounded c) (es : List Entry) :
    s.AppendsInside c es where
  positions := fun seg hseg => (h.each seg hseg).le_maxBytes
  framed := by
    intro seg hseg ies hies
    rcases h.each seg hseg with hrest | ⟨n, ies', hfill⟩
    · obtain ⟨f, hindex, -⟩ := hrest.index
      rw [hindex] at hies
      cases hies
    · rw [hfill.index.inMemory_eq] at hies
      cases hies
      exact hfill.framed
  size_eq := entriesToRecords_size es
  stops := by
    intro hlarge
    cases es with
    | nil => exact absurd hlarge (Nat.not_lt_zero _)
    | cons e es =>
        rw [DiskStorage.saveRaftEntries]
        exact if_pos hlarge
  goes_on := (h.saveRaftEntries es).2
  appends := by
    rintro e rest rfl hfits s' seg isNew seg' hget happ
    rcases h.getWriteSegment hfits e.index with ⟨err, hget'⟩ | ⟨s₁, seg₁, isNew₁, hget', hw⟩
    · rw [hget] at hget'
      cases hget'
    · rw [hget] at hget'
      cases hget'
      rcases hw.room h hfits with hrest | ⟨n, ies, hfill, hroom⟩
      · rw [hrest.appendRecords] at happ
        cases happ
      · rw [entriesToRecords_size] at hroom ⊢
        rcases hfill.appendRecords hroom e.index with ⟨err, happ'⟩ | ⟨s₂, ies', happ', -, hto⟩
        · rw [happ] at happ'
          cases happ'
        · rw [happ] at happ'
          cases happ'
          exact hto

theorem Running.along {c : Config} {stray : List (FileName × Bytes)} {s : DiskStorage}
    (h : Running c stray s) (batches : List (List Entry)) :
    s.Along c (AppendsInside c) batches := by
  induction batches generalizing s with
  | nil => trivial
  | cons es batches ih =>
      refine ⟨h.kept.bounded.appendsInside es, fun hgoes => ?_⟩
      exact ih (h.save es hgoes)

end DiskStorage

/-- **Appends stay inside the mapped file**, for every process and every sequence of batches. -/
theorem appends_stay_inside {c : Config} {stray : List (FileName × Bytes)} {s : DiskStorage}
    (h : DiskStorage.Running c stray s) (batches : List (List Entry)) :
    s.Along c (DiskStorage.AppendsInside c) batches :=
  h.along batches

/-- A full segment, a batch that goes to the next one and one that does not fit into any. -/
theorem appends_stay_inside_smallFull :
    DiskStorage.Running .small [] smallFull.storage ∧
    smallFull.storage.Along .small (DiskStorage.AppendsInside .small)
      [[.small 1 3], [.small 1 4, .small 1 5, .small 1 6, .small 1 7]] := by
  have hsaved : smallFull.storage =
      (DiskStorage.empty.saveRaftEntries .small [small11, small12]).1 := by
    simp only [smallFull, World.of, Op.run]
  have h : DiskStorage.Running .small [] smallFull.storage := by
    rw [hsaved]
    exact .save _ .init (by decide +kernel)
  exact ⟨h, appends_stay_inside h _⟩

end Kingbus
