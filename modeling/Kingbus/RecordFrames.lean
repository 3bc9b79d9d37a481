import Kingbus.CrashPoints
import Kingbus.IndexRebuild

/-! # Records one behind the other in a log file

What the index of a segment says about its log file, without regard to the raft indexes: the
entries of a writable segment stand at records that lie one behind the other and end at the write
position (`Framed`).  For a read-only segment it is enough that only the first entry of its index
stands at position 0: a file whose write position was not restored can be cut there and nowhere
else.  Appending, sealing and cutting keep this, and no append leaves the mapping. -/

namespace Kingbus

/-! ## Frames -/

/-- Where the record at a position ends: behind its length and as many bytes as that says. -/
def recordEnd (mapped : Bytes) (position : Nat) : Nat :=
  position + recordLengthSize + Bytes.leNat ((mapped.drop position).take recordLengthSize)

/-- The entries stand at the records from `p` to `q`. -/
def Framed (mapped : Bytes) : Nat → List IndexEntry → Nat → Prop
  | p, [], q => p = q
  | p, e :: ies, q => e.filePosition = p ∧ Framed mapped (recordEnd mapped p) ies q

theorem lt_recordEnd (mapped : Bytes) (p : Nat) : p + 4 ≤ recordEnd mapped p :=
  Nat.le_add_right ..

/-- A record that was just written ends behind its last byte. -/
theorem recordEnd_overwrite {mapped marshaled : Bytes} {p size : Nat} (hp : p ≤ mapped.length)
    (hsize : size < 256 ^ 4) :
    recordEnd (mapped.overwrite p (Bytes.leBytes recordLengthSize size ++ marshaled)) p =
      p + (recordLengthSize + size) := by
  rw [recordEnd, Bytes.drop_overwrite hp, List.append_assoc,
    List.take_left' (Bytes.length_leBytes _ _), recordLengthSize,
    Bytes.leNat_leBytes_of_lt hsize, Nat.add_assoc]

namespace Framed
variable {mapped mapped' : Bytes} {p q k : Nat} {e : IndexEntry} {ies jes : List IndexEntry}

theorem le (h : Framed mapped p ies q) : p ≤ q := by
  induction ies generalizing p with
  | nil => exact Nat.le_of_eq h
  | cons e ies ih =>
      have := ih h.2
      have := lt_recordEnd mapped p
      omega

theorem append_iff : Framed mapped p (ies ++ jes) q ↔
    ∃ r, Framed mapped p ies r ∧ Framed mapped r jes q := by
  induction ies generalizing p with
  | nil => exact ⟨fun h => ⟨p, rfl, h⟩, fun ⟨r, hr, h⟩ => hr ▸ h⟩
  | cons e ies ih =>
      constructor
      · rintro ⟨he, hrest⟩
        obtain ⟨r, hr, hq⟩ := ih.mp hrest
        exact ⟨r, ⟨he, hr⟩, hq⟩
      · rintro ⟨r, ⟨he, hr⟩, hq⟩
        exact ⟨he, ih.mpr ⟨r, hr, hq⟩⟩

theorem concat (h : Framed mapped p ies q) (he : e.filePosition = q) :
    Framed mapped p (ies ++ [e]) (recordEnd mapped q) :=
  append_iff.mpr ⟨q, h, he, rfl⟩

theorem of_concat (h : Framed mapped p (ies ++ [e]) q) : q = recordEnd mapped e.filePosition := by
  obtain ⟨r, -, he, hq⟩ := append_iff.mp h
  rw [he]
  exact hq.symm

/-- What is in front of an entry ends where the entry stands. -/
theorem take (h : Framed mapped p ies q) (he : ies[k]? = some e) :
    Framed mapped p (ies.take k) e.filePosition ∧ e.filePosition < q := by
  obtain ⟨hk, hget⟩ := List.getElem?_eq_some_iff.mp he
  rw [← List.take_append_drop k ies, List.drop_eq_getElem_cons hk, hget] at h
  obtain ⟨r, hr, hpos, hrest⟩ := append_iff.mp h
  have := hrest.le
  have := lt_recordEnd mapped r
  rw [hpos]
  exact ⟨hr, by omega⟩

theorem lt_of_ne_nil (h : Framed mapped p ies q) (hne : ies ≠ []) : p < q := by
  cases ies with
  | nil => exact absurd rfl hne
  | cons e ies =>
      have := h.2.le
      have := lt_recordEnd mapped p
      omega

/-- Only the first entry stands where the records begin. -/
theorem eq_zero_of_filePosition (h : Framed mapped p ies q) (he : ies[k]? = some e)
    (hp : e.filePosition = p) : k = 0 := by
  by_contra hk
  obtain ⟨hlt, -⟩ := List.getElem?_eq_some_iff.mp he
  have hne : ies.take k ≠ [] := by
    intro hnil
    have hlen := congrArg List.length hnil
    rw [List.length_take, List.length_nil] at hlen
    omega
  have := (h.take he).1.lt_of_ne_nil hne
  omega

/-- Only the bytes in front of the end matter. -/
theorem congr (h : Framed mapped p ies q) (heq : mapped'.take q = mapped.take q) :
    Framed mapped' p ies q := by
  induction ies generalizing p with
  | nil => exact h
  | cons e ies ih =>
      have hle := h.2.le
      have hlt := lt_recordEnd mapped p
      have hlen : ∀ b : Bytes, ((b.take q).drop p).take recordLengthSize =
          (b.drop p).take recordLengthSize := by
        intro b
        rw [List.drop_take, List.take_take, Nat.min_eq_left (by rw [recordLengthSize]; omega)]
      have hend : recordEnd mapped' p = recordEnd mapped p := by
        rw [recordEnd, recordEnd, ← hlen mapped', heq, hlen]
      exact ⟨h.1, by rw [hend]; exact ih h.2⟩

end Framed

/-- Only the first entry of an index file stands at position 0. -/
def OnlyFirstAtZero (b : Bytes) : Prop :=
  ∀ k buf, Bytes.slice b (k * indexEntrySize) (k * indexEntrySize + indexEntrySize) = some buf →
    (IndexEntry.unmarshal buf).filePosition = 0 → k = 0

theorem slice_eq_some_iff {b buf : Bytes} {lo hi : Nat} :
    Bytes.slice b lo hi = some buf ↔ (lo ≤ hi ∧ hi ≤ b.length) ∧ (b.drop lo).take (hi - lo) = buf := by
  rw [Bytes.slice, Option.ite_none_right_eq_some, Option.some_inj]

/-- A beginning of an index file has its entries. -/
theorem OnlyFirstAtZero.of_isPrefix {b b' : Bytes} (h : OnlyFirstAtZero b') (hb : b <+: b') :
    OnlyFirstAtZero b := by
  obtain ⟨t, rfl⟩ := hb
  intro k buf hslice hzero
  refine h k buf ?_ hzero
  obtain ⟨⟨hle, hlen⟩, rfl⟩ := slice_eq_some_iff.mp hslice
  refine slice_eq_some_iff.mpr ⟨⟨hle, ?_⟩, ?_⟩
  · rw [List.length_append]
    omega
  · rw [List.drop_append_of_le_length (by omega), List.take_append_of_le_length]
    rw [List.length_drop]
    omega

theorem sliceOf_eq_ok_iff {b buf : Bytes} {lo hi : Nat} :
    MmapFile.sliceOf b lo hi = .ok buf ↔ Bytes.slice b lo hi = some buf := by
  rw [MmapFile.sliceOf]
  split
  · next hnone => rw [hnone]; simp
  · next s hsome => rw [hsome]; simp

/-- What is read from an index file is one of its entries. -/
theorem getElem?_of_slice {ies : List IndexEntry} {k : Nat} {buf : Bytes}
    (h : Bytes.slice (marshalEntries ies) (k * indexEntrySize)
      (k * indexEntrySize + indexEntrySize) = some buf) :
    ies[k]? = some (IndexEntry.unmarshal buf) := by
  obtain ⟨⟨-, hlen⟩, -⟩ := slice_eq_some_iff.mp h
  rw [length_marshalEntries, indexEntrySize] at hlen
  have hk : k < ies.length := by omega
  have hread := Index.readIndexEntry_marshalEntries (f := ⟨.inprogress 0, marshalEntries ies, 0, 0, 0⟩)
    rfl (List.getElem?_eq_getElem hk)
  rw [MmapFile.readIndexEntry, sliceOf_eq_ok_iff.mpr h] at hread
  rw [List.getElem?_eq_getElem hk, ← Except.ok.inj hread]

theorem marshalEntries_isPrefix {ies jes : List IndexEntry} (h : ies <+: jes) :
    marshalEntries ies <+: marshalEntries jes := by
  obtain ⟨t, rfl⟩ := h
  rw [marshalEntries_append]
  exact List.prefix_append ..

theorem Framed.onlyFirstAtZero {mapped : Bytes} {ies : List IndexEntry} {q : Nat}
    (h : Framed mapped 0 ies q) : OnlyFirstAtZero (marshalEntries ies) :=
  fun _ _ hslice hzero => h.eq_zero_of_filePosition (getElem?_of_slice hslice) hzero

/-! ## Segments -/

namespace Segment

/-- A writable segment: the index stands at the records, and they end at the write position. -/
structure Filling (c : Config) (s : Segment) (n : Nat) (ies : List IndexEntry) : Prop where
  status : s.status = .rdwr
  length_eq : s.logFile.mappedData.length = c.segmentSize
  maxBytes_eq : s.logFile.maxBytes = c.segmentSize
  name : s.logFile.filePath = .inprogress n
  index : s.logIndex.WritableAs n ies
  framed : Framed s.logFile.mappedData 0 ies s.logFile.writePosition
  le : s.logFile.writePosition ≤ c.segmentSize

/-- A read-only segment.  Its write position is where its records end, or it was not
restored. -/
structure AtRest (c : Config) (s : Segment) : Prop where
  status : s.status = .readOnly
  length_eq : s.logFile.mappedData.length = c.segmentSize
  maxBytes_eq : s.logFile.maxBytes = c.segmentSize
  name : s.logFile.filePath.IsReadonly
  index : ∃ f, s.logIndex = ⟨some f, none⟩ ∧ f.filePath.IsReadonly ∧
    OnlyFirstAtZero f.mappedData ∧ (s.logFile.writePosition = 0 ∨
      ∃ ies, f.mappedData = marshalEntries ies ∧
        Framed s.logFile.mappedData 0 ies s.logFile.writePosition)
  le : s.logFile.writePosition ≤ c.segmentSize

/-- One of the two. -/
def Bounded (c : Config) (s : Segment) : Prop := s.AtRest c ∨ ∃ n ies, s.Filling c n ies

variable {c : Config} {s s' : Segment} {n i : Nat} {ies : List IndexEntry}

theorem create_filling (c : Config) (n : Nat) :
    (Segment.create c (.inprogress n)).Filling c n [] where
  status := rfl
  length_eq := Bytes.length_zeros _
  maxBytes_eq := rfl
  name := rfl
  index := Index.create_writableAs n
  framed := rfl
  le := Nat.zero_le _

/-! ### Appending -/

/-- The entry that is stored has the position it was made from. -/
theorem filePosition_of {raftIndex position : Nat}
    (h : position + recordLengthSize ≤ c.segmentSize) :
    (IndexEntry.of raftIndex position).filePosition = position := by
  have := c.segmentSize_le
  rw [recordLengthSize] at h
  exact Nat.mod_eq_of_lt (by omega)

/-- The two appends of a record that fits write its length and its bytes. -/
theorem appendRecord_eq_ok {record : Record} {d : Index}
    (hfit : s.logFile.writePosition + (recordLengthSize + record.size) ≤
      s.logFile.mappedData.length)
    (hd : s.logIndex.appendIndexEntry (IndexEntry.of i s.logFile.writePosition) = .ok d) :
    s.appendRecord record i = .ok { s with
      logFile := { s.logFile with
        mappedData := s.logFile.mappedData.overwrite s.logFile.writePosition
          (Bytes.leBytes recordLengthSize record.size ++ record.marshal)
        writePosition := s.logFile.writePosition + (recordLengthSize + record.size) }
      logIndex := d } := by
  have hin : s.logFile.writePosition + (Bytes.leBytes recordLengthSize record.size).length ≤
      s.logFile.mappedData.length := by
    rw [Bytes.length_leBytes]
    omega
  have hmerge := Bytes.overwrite_overwrite (e := record.marshal) hin
  have hlen := Bytes.length_overwrite hin
  rw [Bytes.length_leBytes] at hmerge hin
  rw [Segment.appendRecord]
  simp only [bind, Except.bind, MmapFile.append, Bytes.length_leBytes, Record.length_marshal,
    if_pos hin, hlen]
  rw [if_pos (by omega)]
  simp only [hd, hmerge, pure, Except.pure, Nat.add_assoc]

theorem Filling.appendRecord (h : s.Filling c n ies) {record : Record}
    (hfit : s.logFile.writePosition + (recordLengthSize + record.size) ≤ c.segmentSize) (i : Nat) :
    ∃ s', s.appendRecord record i = .ok s' ∧
      s'.Filling c n (ies ++ [IndexEntry.of i s.logFile.writePosition]) ∧
      s'.logFile.writePosition = s.logFile.writePosition + (recordLengthSize + record.size) := by
  have hlen := h.length_eq
  have hsize : record.size < 256 ^ 4 := by
    have := c.segmentSize_le
    rw [recordLengthSize] at hfit
    omega
  have hdata : (Bytes.leBytes recordLengthSize record.size ++ record.marshal).length =
      recordLengthSize + record.size := by
    rw [List.length_append, Bytes.length_leBytes, Record.length_marshal]
  obtain ⟨d, hd, hindex⟩ :=
    h.index.appendIndexEntry (IndexEntry.of i s.logFile.writePosition)
  refine ⟨_, appendRecord_eq_ok (by omega) hd, ⟨h.status, ?_, h.maxBytes_eq, h.name, hindex, ?_,
    hfit⟩, rfl⟩
  · exact (Bytes.length_overwrite (by rw [hdata]; omega)).trans hlen
  · -- the old records are untouched, and the new length is that of the new record
    have hold := h.framed.congr (Bytes.take_overwrite
      (d := Bytes.leBytes recordLengthSize record.size ++ record.marshal) (by omega))
    have hnew := hold.concat (e := IndexEntry.of i s.logFile.writePosition)
      (filePosition_of (c := c) (by omega))
    rw [recordEnd_overwrite (by omega) hsize] at hnew
    exact hnew

/-- The buffers that `appendRecords` hands to `MmapFile.append`, one after the other. -/
def appendBuffers (records : List Record) : List Bytes :=
  records.flatMap fun record =>
    [Bytes.leBytes recordLengthSize record.size, record.marshal]

/-- The `int` positions at which the records of a batch start. -/
def recordStarts : Nat → List Record → List Nat
  | _, [] => []
  | p, record :: records => p :: recordStarts (p + (recordLengthSize + record.size)) records

theorem length_appendBuffers_cons (record : Record) (records : List Record) :
    (appendBuffers (record :: records)).flatten.length =
      recordLengthSize + record.size + (appendBuffers records).flatten.length := by
  rw [appendBuffers, List.flatMap_cons, List.flatten_append, List.length_append]
  simp only [List.flatten_cons, List.flatten_nil, List.append_nil, List.length_append,
    Bytes.length_leBytes, Record.length_marshal]
  rfl

/-- **The loop of `appendRecords`**, when the batch fits. -/
theorem Filling.appendLoop {records : List Record} : ∀ {s : Segment} {ies : List IndexEntry}
    (_ : s.Filling c n ies) (i : Nat),
    s.logFile.writePosition + (appendBuffers records).flatten.length ≤ c.segmentSize →
    ∃ s' new, s.appendLoop records i = .ok s' ∧ s'.Filling c n (ies ++ new) ∧
      s'.logFile.writePosition =
        s.logFile.writePosition + (appendBuffers records).flatten.length ∧
      new.map IndexEntry.filePosition = recordStarts s.logFile.writePosition records := by
  induction records with
  | nil => exact fun {s ies} h i _ => ⟨s, [], rfl, by rw [List.append_nil]; exact h, rfl, rfl⟩
  | cons record records ih =>
      intro s ies h i hfit
      rw [length_appendBuffers_cons] at hfit
      have hfirst : s.logFile.writePosition + (recordLengthSize + record.size) ≤
          c.segmentSize := by omega
      obtain ⟨s₁, hs₁, h₁, hpos₁⟩ := h.appendRecord hfirst i
      obtain ⟨s', new, hs', h', hpos', hnew⟩ := ih h₁ (i + 1) (by omega)
      have hstored : (IndexEntry.of i s.logFile.writePosition).filePosition =
          s.logFile.writePosition := filePosition_of (c := c) (by omega)
      refine ⟨s', IndexEntry.of i s.logFile.writePosition :: new, ?_, ?_, ?_, ?_⟩
      · rw [Segment.appendLoop, hs₁]
        exact hs'
      · rw [← List.append_cons] at h'
        exact h'
      · rw [length_appendBuffers_cons, hpos', hpos₁, Nat.add_assoc]
      · rw [List.map_cons, hstored, recordStarts, hnew, hpos₁]

end Segment

/-- `MmapFile.append` of one buffer after the other. -/
def MmapFile.appendAll (f : MmapFile) : List Bytes → Except Failure MmapFile
  | [] => .ok f
  | data :: rest => (f.append data).bind fun r => r.1.appendAll rest

namespace MmapFile
variable {f : MmapFile}

/-- Buffers that fit are all written inside the mapping. -/
theorem appendAll_ok {buffers : List Bytes} : ∀ {f : MmapFile},
    f.mappedData.length = f.maxBytes → f.writePosition + buffers.flatten.length ≤ f.maxBytes →
    ∃ f', f.appendAll buffers = .ok f' ∧ f'.mappedData.length = f'.maxBytes ∧
      f'.maxBytes = f.maxBytes ∧
      f'.writePosition = f.writePosition + buffers.flatten.length := by
  induction buffers with
  | nil => exact fun {f} h _ => ⟨f, rfl, h, rfl, rfl⟩
  | cons data buffers ih =>
      intro f hlen hfit
      rw [List.flatten_cons, List.length_append] at hfit
      have hin : f.writePosition + data.length ≤ f.mappedData.length := by omega
      obtain ⟨f', hf', hlen', hmax, hpos⟩ := ih (f := { f with
        mappedData := f.mappedData.overwrite f.writePosition data
        writePosition := f.writePosition + data.length })
        ((Bytes.length_overwrite hin).trans hlen) (by rw [Nat.add_assoc]; exact hfit)
      refine ⟨f', ?_, hlen', hmax, ?_⟩
      · rw [appendAll, append, if_pos hin]
        exact hf'
      · rw [hpos, List.flatten_cons, List.length_append, Nat.add_assoc]

end MmapFile

namespace Segment
variable {c : Config} {s s' : Segment} {n i : Nat} {ies : List IndexEntry}

/-- The loop makes these appends to the log file, and no others. -/
theorem appendAll_of_appendLoop {records : List Record} : ∀ {s s' : Segment} {i : Nat},
    s.appendLoop records i = .ok s' →
    s.logFile.appendAll (appendBuffers records) = .ok s'.logFile := by
  induction records with
  | nil =>
      intro s s' i h
      cases h
      rfl
  | cons record records ih =>
      intro s s' i h
      obtain ⟨s₁, hs₁, h⟩ := bind_eq_ok h
      obtain ⟨⟨f₁, p₁⟩, h₁, hs₁⟩ := bind_eq_ok hs₁
      obtain ⟨⟨f₂, p₂⟩, h₂, hs₁⟩ := bind_eq_ok hs₁
      obtain ⟨d, -, hs₁⟩ := bind_eq_ok hs₁
      cases hs₁
      rw [appendBuffers, List.flatMap_cons, List.cons_append, MmapFile.appendAll, h₁]
      change MmapFile.appendAll f₁ (record.marshal :: appendBuffers records) = _
      rw [MmapFile.appendAll, h₂]
      exact ih h

/-- What the appends of a batch are to do: each of them writes inside the mapping, together they
write the size that was computed, and the stored positions are the `int` positions. -/
structure AppendsTo (s s' : Segment) (records : List Record) (size : Nat) : Prop where
  each : ∀ k, ∃ f, s.logFile.appendAll ((appendBuffers records).take k) = .ok f ∧
    f.writePosition ≤ f.maxBytes ∧ f.maxBytes = f.mappedData.length ∧
    f.maxBytes = s.logFile.maxBytes
  all : ∃ f, s.logFile.appendAll (appendBuffers records) = .ok f ∧ s'.logFile = f.sync
  size_eq : s'.logFile.writePosition = s.logFile.writePosition + size
  stored : ∃ ies new, s.logIndex.inMemory = some ies ∧ s'.logIndex.inMemory = some (ies ++ new) ∧
    new.map IndexEntry.filePosition = recordStarts s.logFile.writePosition records

theorem length_flatten_take_le (buffers : List Bytes) (k : Nat) :
    (buffers.take k).flatten.length ≤ buffers.flatten.length := by
  conv_rhs => rw [← List.take_append_drop k buffers, List.flatten_append, List.length_append]
  exact Nat.le_add_right ..

/-- **`appendRecords`** returns an error, or has written the batch. -/
theorem Filling.appendRecords (h : s.Filling c n ies) {records : List Record}
    (hfit : s.logFile.writePosition + (appendBuffers records).flatten.length ≤ c.segmentSize)
    (i : Nat) :
    (∃ e, s.appendRecords records i = .error (.error e)) ∨
      ∃ s' ies', s.appendRecords records i = .ok s' ∧ s'.Filling c n ies' ∧
        s.AppendsTo s' records (appendBuffers records).flatten.length := by
  rw [Segment.appendRecords, if_neg (by rw [h.status]; simp)]
  split
  · exact .inl ⟨_, rfl⟩
  · obtain ⟨t, new, ht, hfill, hpos, hnew⟩ := h.appendLoop i hfit
    refine .inr ⟨({ t with logFile := t.logFile.sync }).updateRange i records.length, ies ++ new,
      by rw [ht]; rfl, ?_, ?_⟩
    · exact ⟨hfill.status, hfill.length_eq, hfill.maxBytes_eq, hfill.name, hfill.index,
        hfill.framed, hfill.le⟩
    · refine ⟨fun k => ?_, ⟨t.logFile, appendAll_of_appendLoop ht, rfl⟩, hpos, ies, new,
        h.index.inMemory_eq, hfill.index.inMemory_eq, hnew⟩
      have hmax : s.logFile.mappedData.length = s.logFile.maxBytes :=
        h.length_eq.trans h.maxBytes_eq.symm
      have hle := length_flatten_take_le (appendBuffers records) k
      have hroom := h.maxBytes_eq
      have hpart : s.logFile.writePosition + ((appendBuffers records).take k).flatten.length ≤
          s.logFile.maxBytes := by omega
      obtain ⟨f, hf, hlen, heq, hfpos⟩ := MmapFile.appendAll_ok hmax hpart
      exact ⟨f, hf, by omega, hlen.symm, heq⟩

theorem AtRest.appendRecords (h : s.AtRest c) (records : List Record) (i : Nat) :
    s.appendRecords records i = .error (.error .notWritable) :=
  if_pos (by rw [h.status]; simp)

/-! ### Sealing and cutting -/

theorem Filling.changeToReadonly (h : s.Filling c n ies) (hne : ies ≠ []) :
    ∃ s', s.changeToReadonly = .ok s' ∧ s'.AtRest c ∧
      s'.indexContents.2 = marshalEntries ies := by
  obtain ⟨d, hd, hsealed⟩ := h.index.changeToReadonly (List.head?_eq_some_head hne)
    (List.getLast?_eq_some_getLast hne)
  obtain ⟨f, hf, hdata, hname⟩ := hsealed.mapped
  refine ⟨{ s with
    logFile := s.logFile.rename (.readonly s.firstIndex s.lastIndex)
    logIndex := d
    status := .readOnly }, ?_, ⟨rfl, h.length_eq, h.maxBytes_eq, trivial, ⟨f, ?_, ?_, ?_, ?_⟩,
      h.le⟩, ?_⟩
  · rw [Segment.changeToReadonly, if_neg (by rw [h.status]; simp)]
    simp only [hd, bind, Except.bind, pure, Except.pure]
  · have hnone := hsealed.unbuffered
    cases d with
    | mk readonly readWrite =>
        simp only at hf hnone
        rw [hf, hnone]
  · rw [hname]
    trivial
  · rw [hdata]
    exact h.framed.onlyFirstAtZero
  · exact .inr ⟨ies, hdata, h.framed⟩
  · rw [Segment.indexContents, hf]
    exact hdata

theorem AtRest.changeToReadonly (h : s.AtRest c) :
    s.changeToReadonly = .error (.error .argsIllegal) :=
  if_pos (by rw [h.status]; simp)

/-- What `truncateSuffix` calls, when it succeeds. -/
theorem truncateSuffix_eq_ok (h : s.truncateSuffix i = .ok s') :
    ∃ position f d, s.logIndex.getRaftEntryPosition i s.firstIndex s.status = .ok position ∧
      s.logFile.truncateSuffix position = .ok f ∧ s'.status = .rdwr ∧ s'.logIndex = d ∧
      if s.status = .rdwr then
        s.logIndex.truncateSuffix i s.firstIndex .rdwr = .ok d ∧ s'.logFile = f
      else s.logIndex.truncateSuffix i s.firstIndex .readOnly = .ok d ∧
        s'.logFile = f.rename (.inprogress s.firstIndex) := by
  obtain ⟨position, hposition, h⟩ := bind_eq_ok h
  obtain ⟨f, hf, h⟩ := bind_eq_ok h
  simp only at h
  by_cases hst : s.status = .rdwr
  · rw [if_pos hst] at h
    obtain ⟨d, hd, h⟩ := bind_eq_ok h
    refine ⟨position, f, d, hposition, hf, ?_⟩
    rw [if_pos hst]
    cases h
    split
    all_goals exact ⟨hst, rfl, hd, rfl⟩
  · rw [if_neg hst] at h
    obtain ⟨d, hd, h⟩ := bind_eq_ok h
    refine ⟨position, f, d, hposition, hf, ?_⟩
    rw [if_neg hst]
    cases h
    split
    all_goals exact ⟨rfl, rfl, hd, rfl⟩

end Segment

theorem MmapFile.truncateSuffix_ok {f f' : MmapFile} {position : Nat}
    (h : f.truncateSuffix position = .ok f') :
    position ≤ f.writePosition ∧ f.writePosition ≤ f.mappedData.length ∧
      f' = { f with
        mappedData := f.mappedData.overwrite position (Bytes.zeros (f.writePosition - position))
        writePosition := position
        syncPosition := position } := by
  rw [MmapFile.truncateSuffix] at h
  split at h
  · cases h
  · next hle =>
    simp only at h
    split at h
    · next hin =>
      cases h
      exact ⟨Nat.le_of_not_lt hle, by omega, rfl⟩
    · cases h

namespace Index
variable {d d' : Index} {n i first position : Nat} {ies : List IndexEntry}

theorem WritableAs.of_getRaftEntryPosition (h : d.WritableAs n ies)
    (hpos : d.getRaftEntryPosition i first .rdwr = .ok position) :
    first ≤ i ∧ ∃ e, ies[i - first]? = some e ∧ e.filePosition = position := by
  obtain ⟨-, rw, hrw, rfl, -, -⟩ := h
  rw [Index.getRaftEntryPosition] at hpos
  split at hpos
  · cases hpos
  · next hle =>
    simp only [reduceCtorEq, if_false, hrw] at hpos
    split at hpos
    · cases hpos
    · next e he =>
      split at hpos
      · cases hpos
      · exact ⟨Nat.le_of_not_lt hle, e, he, Except.ok.inj hpos⟩

theorem of_getRaftEntryPosition_readOnly {f : MmapFile}
    (hpos : Index.getRaftEntryPosition ⟨some f, none⟩ i first .readOnly = .ok position) :
    first ≤ i ∧ ∃ buf, Bytes.slice f.mappedData ((i - first) * indexEntrySize)
      ((i - first) * indexEntrySize + indexEntrySize) = some buf ∧
      (IndexEntry.unmarshal buf).filePosition = position := by
  rw [Index.getRaftEntryPosition] at hpos
  split at hpos
  · cases hpos
  · next hle =>
    simp only [if_true] at hpos
    obtain ⟨e, he, hpos⟩ := bind_eq_ok hpos
    obtain ⟨buf, hbuf, he⟩ := bind_eq_ok he
    cases he
    split at hpos
    · cases hpos
    · exact ⟨Nat.le_of_not_lt hle, buf, sliceOf_eq_ok_iff.mp hbuf, Except.ok.inj hpos⟩

theorem WritableAs.of_truncateSuffix (h : d.WritableAs n ies) (hk : i - first ≤ ies.length)
    (hcut : d.truncateSuffix i first .rdwr = .ok d') : d'.WritableAs n (ies.take (i - first)) := by
  obtain ⟨-, rw, hrw, hent, hcons, hname⟩ := h
  rw [Index.truncateSuffix] at hcut
  split at hcut
  · cases hcut
  · simp only [reduceCtorEq, if_false, hrw] at hcut
    have hfile : rw.flush.file = marshalEntries ies := by
      rw [← hent]
      exact hcons
    obtain ⟨d₁, hd₁, hw⟩ : ∃ d₁, cut rw.flush (i - first) = .ok d₁ ∧
        WritableAs d₁ n (ies.take (i - first)) := cut_spec hent hfile rfl hname hk
    rw [hcut] at hd₁
    cases hd₁
    exact hw

end Index

/-- An index that is cut to nothing, whatever its file held. -/
theorem Index.cut_zero {rw : RWFile} {d : Index} {n : Nat} (hwriter : rw.writer = [])
    (hname : rw.filePath = .inprogress n) (h : Index.cut rw 0 = .ok d) : d.WritableAs n [] := by
  rw [Index.cut, if_pos (Nat.zero_le _)] at h
  cases h
  refine ⟨rfl, _, rfl, rfl, ?_, hname⟩
  rw [RWFile.Consistent, RWFile.bytes, hwriter]
  simp [RWFile.truncateFile]

namespace Segment
variable {c : Config} {s s' : Segment} {n i : Nat} {ies : List IndexEntry}

/-- A segment that was cut at a record is writable, under the name of its first index. -/
theorem filling_of_cut {f : MmapFile} {position : Nat}
    (hlen : s.logFile.mappedData.length = c.segmentSize) (hmax : s.logFile.maxBytes = c.segmentSize)
    (hcut : s.logFile.truncateSuffix position = .ok f)
    (hframed : Framed s.logFile.mappedData 0 ies position) (hstatus : s'.status = .rdwr)
    (hindex : s'.logIndex.WritableAs n ies) (hfile : s'.logFile = f.rename (.inprogress n)) :
    s'.Filling c n ies := by
  obtain ⟨hle, hin, rfl⟩ := MmapFile.truncateSuffix_ok hcut
  have hzeros : position + (Bytes.zeros (s.logFile.writePosition - position)).length ≤
      s.logFile.mappedData.length := by
    rw [Bytes.length_zeros]
    omega
  refine ⟨hstatus, ?_, ?_, ?_, hindex, ?_, ?_⟩
  all_goals rw [hfile]
  · exact (Bytes.length_overwrite hzeros).trans hlen
  · exact hmax
  · rfl
  · exact hframed.congr (Bytes.take_overwrite (by omega))
  · exact Nat.le_trans hle (hlen ▸ hin)

theorem Filling.truncateSuffix (h : s.Filling c n ies) (hcut : s.truncateSuffix i = .ok s') :
    ∃ k, s'.Filling c n (ies.take k) := by
  obtain ⟨position, f, d, hpos, hf, hst, rfl, hindex⟩ := truncateSuffix_eq_ok hcut
  rw [if_pos h.status] at hindex
  rw [h.status] at hpos
  obtain ⟨-, e, he, rfl⟩ := h.index.of_getRaftEntryPosition hpos
  obtain ⟨hk, -⟩ := List.getElem?_eq_some_iff.mp he
  have hwritable := h.index.of_truncateSuffix (Nat.le_of_lt hk) hindex.1
  have hname : f.filePath = .inprogress n := by
    rw [(MmapFile.truncateSuffix_ok hf).2.2]
    exact h.name
  have hfile : s'.logFile = f.rename (.inprogress n) := by
    rw [hindex.2, MmapFile.rename, ← hname]
  exact ⟨i - s.firstIndex, filling_of_cut h.length_eq h.maxBytes_eq hf (h.framed.take he).1 hst
    hwritable hfile⟩

/-- A read-only index that is cut: at an entry it is known to hold, or at its beginning. -/
theorem AtRest.index_cut (h : s.AtRest c) {position : Nat} {d : Index}
    (hpos : s.logIndex.getRaftEntryPosition i s.firstIndex .readOnly = .ok position)
    (hle : position ≤ s.logFile.writePosition)
    (hcut : s.logIndex.truncateSuffix i s.firstIndex .readOnly = .ok d) :
    ∃ ies, d.WritableAs s.firstIndex ies ∧ Framed s.logFile.mappedData 0 ies position ∧
      marshalEntries ies <+: s.indexContents.2 := by
  obtain ⟨f, hindex, -, hzero, hwritten⟩ := h.index
  have hcontents : s.indexContents.2 = f.mappedData := by rw [Segment.indexContents, hindex]
  rw [hcontents]
  rw [hindex] at hpos hcut
  obtain ⟨hfirst, buf, hbuf, rfl⟩ := Index.of_getRaftEntryPosition_readOnly hpos
  rcases hwritten with hcold | ⟨ies, hdata, hframed⟩
  · -- the write position was not restored, so the entry is the first one
    have hposition : (IndexEntry.unmarshal buf).filePosition = 0 := by omega
    have hk := hzero _ buf hbuf hposition
    rw [Index.truncateSuffix, if_neg (Nat.not_lt.mpr hfirst)] at hcut
    simp only [if_true] at hcut
    obtain ⟨rw, hrw, hcut⟩ := bind_eq_ok hcut
    obtain ⟨entries, -, hrw⟩ := bind_eq_ok hrw
    cases hrw
    rw [hk] at hcut
    exact ⟨[], Index.cut_zero rfl rfl hcut, hposition.symm, List.nil_prefix⟩
  · rw [hdata] at hbuf
    have he := getElem?_of_slice hbuf
    obtain ⟨hk, -⟩ := List.getElem?_eq_some_iff.mp he
    have hsealed : Index.SealedAs ⟨some f, none⟩ f.filePath ies := ⟨rfl, f, rfl, hdata, rfl⟩
    obtain ⟨d', hd', hwritable⟩ := hsealed.truncateSuffix hfirst (Nat.le_of_lt hk)
    rw [hcut] at hd'
    cases hd'
    refine ⟨ies.take (i - s.firstIndex), hwritable, (hframed.take he).1, ?_⟩
    rw [hdata]
    exact marshalEntries_isPrefix (List.take_prefix _ ies)

theorem AtRest.truncateSuffix (h : s.AtRest c) (hcut : s.truncateSuffix i = .ok s') :
    ∃ ies', s'.Filling c s.firstIndex ies' ∧ marshalEntries ies' <+: s.indexContents.2 := by
  obtain ⟨position, f, d, hpos, hf, hst, rfl, hindex⟩ := truncateSuffix_eq_ok hcut
  rw [if_neg (by rw [h.status]; simp)] at hindex
  rw [h.status] at hpos
  obtain ⟨ies, hwritable, hframed, hkept⟩ :=
    h.index_cut hpos (MmapFile.truncateSuffix_ok hf).1 hindex.1
  exact ⟨ies, filling_of_cut h.length_eq h.maxBytes_eq hf hframed hst hwritable hindex.2, hkept⟩

/-- The index file of a closed segment. -/
theorem Filling.indexContents (h : s.Filling c n ies) :
    s.indexContents = (.inprogress n, marshalEntries ies) := by
  obtain ⟨rw, hrw, rfl, hcons, hname⟩ := h.index.inMemory
  simp only [Segment.indexContents, h.index.unmapped, hrw, hname]
  exact congrArg _ hcons

theorem AtRest.indexContents (h : s.AtRest c) :
    s.indexContents.1.IsReadonly ∧ OnlyFirstAtZero s.indexContents.2 := by
  obtain ⟨f, hindex, hname, hzero, -⟩ := h.index
  rw [Segment.indexContents, hindex]
  exact ⟨hname, hzero⟩

theorem Bounded.onlyFirstAtZero (h : s.Bounded c) : OnlyFirstAtZero s.indexContents.2 := by
  rcases h with hrest | ⟨n, ies, hfill⟩
  · exact hrest.indexContents.2
  · rw [hfill.indexContents]
    exact hfill.framed.onlyFirstAtZero

/-- **Cutting a segment** leaves a beginning of its index. -/
theorem Bounded.truncateSuffix (h : s.Bounded c) (hcut : s.truncateSuffix i = .ok s') :
    (∃ n ies, s'.Filling c n ies) ∧ s'.indexContents.2 <+: s.indexContents.2 := by
  rcases h with hrest | ⟨n, ies, hfill⟩
  · obtain ⟨ies', h', hkept⟩ := hrest.truncateSuffix hcut
    rw [h'.indexContents]
    exact ⟨⟨_, ies', h'⟩, hkept⟩
  · obtain ⟨k, h'⟩ := hfill.truncateSuffix hcut
    rw [h'.indexContents, hfill.indexContents]
    exact ⟨⟨n, _, h'⟩, marshalEntries_isPrefix (List.take_prefix k ies)⟩

theorem Bounded.length_eq (h : s.Bounded c) : s.logFile.mappedData.length = c.segmentSize := by
  rcases h with h | ⟨n, ies, h⟩
  · exact h.length_eq
  · exact h.length_eq

theorem Bounded.le_maxBytes (h : s.Bounded c) : s.logFile.writePosition ≤ s.logFile.maxBytes ∧
    s.logFile.maxBytes = s.logFile.mappedData.length := by
  rcases h with h | ⟨n, ies, h⟩
  · exact ⟨h.maxBytes_eq ▸ h.le, h.maxBytes_eq.trans h.length_eq.symm⟩
  · exact ⟨h.maxBytes_eq ▸ h.le, h.maxBytes_eq.trans h.length_eq.symm⟩

end Segment

end Kingbus
