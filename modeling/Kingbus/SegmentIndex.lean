import Kingbus.MmapFile

/-! # The index of a segment

`storage/index.go`.  While a segment is writable its index is an in-memory list
of entries plus a file that is written through a buffer; once the segment is
read-only the index is the mapped file and the list is gone.  Both forms stand
for the same list of entries: `RWFile.Consistent` says so for the first, and the
mapped bytes are `marshalEntries` of it for the second. -/

namespace Kingbus

/-- `SegmentStatus`. -/
inductive SegmentStatus where
  | readOnly
  | rdwr
  | closed
  deriving DecidableEq, Repr

/-- `RWFile`: the entries, the bytes still in the `bufio.Writer`, and the bytes in
the file.  Writes go to the end of the file: every `Seek` puts the offset
there. -/
structure RWFile where
  entries : List IndexEntry
  writer : Bytes
  file : Bytes
  filePath : FileName
  deriving DecidableEq, Repr

/-- `Index`. -/
structure Index where
  readonly : Option MmapFile
  readWrite : Option RWFile
  deriving DecidableEq, Repr

/-- The bytes of a list of index entries. -/
def marshalEntries (ies : List IndexEntry) : Bytes := ies.flatMap IndexEntry.marshal

@[simp] theorem marshalEntries_nil : marshalEntries [] = [] := rfl

@[simp] theorem marshalEntries_cons (i : IndexEntry) (ies : List IndexEntry) :
    marshalEntries (i :: ies) = i.marshal ++ marshalEntries ies := rfl

@[simp] theorem marshalEntries_append (ies jes : List IndexEntry) :
    marshalEntries (ies ++ jes) = marshalEntries ies ++ marshalEntries jes :=
  List.flatMap_append

@[simp] theorem length_marshalEntries : ∀ ies : List IndexEntry,
    (marshalEntries ies).length = 12 * ies.length
  | [] => rfl
  | i :: ies => by
      rw [marshalEntries_cons, List.length_append, IndexEntry.length_marshal,
        length_marshalEntries ies, List.length_cons]
      omega

namespace RWFile

/-- The size of the buffer of the index writer. -/
def bufferSize : Nat := indexEntrySize * 1024 * 1024

/-- `newRWFile`. -/
def create (name : FileName) : RWFile where
  entries := []
  writer := []
  file := []
  filePath := name

/-- The read loop of `openRWFile`: whole entries up to the end of the file. -/
def readEntries : Nat → Bytes → Except Failure (List IndexEntry)
  | _, [] => .ok []
  | 0, _ :: _ => .error (.fatal "index file[%s] torn write,pos:%d,buf:%v,n:%d")
  | fuel + 1, b@(_ :: _) =>
      if b.length < indexEntrySize then
        .error (.fatal "index file[%s] torn write,pos:%d,buf:%v,n:%d")
      else do
        let ies ← readEntries fuel (b.drop indexEntrySize)
        return IndexEntry.unmarshal (b.take indexEntrySize) :: ies

/-- `openRWFile` of a file with the given contents. -/
def openFile (name : FileName) (contents : Bytes) : Except Failure RWFile := do
  let entries ← readEntries contents.length contents
  return { entries := entries, writer := [], file := contents, filePath := name }

/-- `bufio.Writer.Write` of at most a buffer's worth of bytes: when they do not
fit, the buffer is filled up and flushed, and the rest starts the next one. -/
def write (rw : RWFile) (p : Bytes) : RWFile :=
  let available := bufferSize - rw.writer.length
  if available < p.length then
    { rw with file := rw.file ++ (rw.writer ++ p.take available), writer := p.drop available }
  else { rw with writer := rw.writer ++ p }

/-- `bufio.Writer.Flush`. -/
def flush (rw : RWFile) : RWFile := { rw with file := rw.file ++ rw.writer, writer := [] }

/-- `RWFile.close`: the entries are dropped and the buffer is flushed. -/
def close (rw : RWFile) : RWFile := { rw.flush with entries := [] }

/-- `RWFile.rename`. -/
def rename (rw : RWFile) (name : FileName) : RWFile := { rw with filePath := name }

/-- `os.File.Truncate`. -/
def truncateFile (b : Bytes) (size : Nat) : Bytes := b.take size ++ Bytes.zeros (size - b.length)

/-- Everything written to the index so far, flushed or not. -/
def bytes (rw : RWFile) : Bytes := rw.file ++ rw.writer

/-- What was written is the entries kept in memory. -/
def Consistent (rw : RWFile) : Prop := rw.bytes = marshalEntries rw.entries

theorem create_consistent (name : FileName) : (create name).Consistent := rfl

@[simp] theorem bytes_write (rw : RWFile) (p : Bytes) : (rw.write p).bytes = rw.bytes ++ p := by
  unfold write bytes
  simp only
  split
  · simp only [List.append_assoc, List.take_append_drop]
  · simp only [List.append_assoc]

@[simp] theorem entries_write (rw : RWFile) (p : Bytes) : (rw.write p).entries = rw.entries := by
  unfold write
  simp only
  split <;> rfl

@[simp] theorem filePath_write (rw : RWFile) (p : Bytes) : (rw.write p).filePath = rw.filePath := by
  unfold write
  simp only
  split <;> rfl

/-- The read loop gives back the entries that were written. -/
theorem readEntries_marshalEntries : ∀ (ies : List IndexEntry) (fuel : Nat), ies.length ≤ fuel →
    readEntries fuel (marshalEntries ies) = .ok ies
  | [], fuel, _ => by
      unfold readEntries
      rfl
  | i :: ies, 0, h => by simp at h
  | i :: ies, fuel + 1, h => by
      have hlen : (i.marshal ++ marshalEntries ies).length = 12 + 12 * ies.length := by
        rw [List.length_append, IndexEntry.length_marshal, length_marshalEntries]
      have htake : (i.marshal ++ marshalEntries ies).take indexEntrySize = i.marshal :=
        List.take_left' (IndexEntry.length_marshal i)
      have hdrop : (i.marshal ++ marshalEntries ies).drop indexEntrySize = marshalEntries ies :=
        List.drop_left' (IndexEntry.length_marshal i)
      have ih := readEntries_marshalEntries ies fuel (Nat.le_of_succ_le_succ h)
      rw [marshalEntries_cons]
      cases hb : i.marshal ++ marshalEntries ies with
      | nil =>
        rw [hb, List.length_nil] at hlen
        omega
      | cons x t =>
        rw [hb] at hlen htake hdrop
        rw [readEntries, if_neg (by rw [hlen, indexEntrySize]; omega), htake, hdrop, ih]
        simp only [bind, Except.bind, pure, Except.pure, IndexEntry.unmarshal_marshal]

/-- **Opening an index file gives back its entries.** -/
theorem openFile_marshalEntries (name : FileName) (ies : List IndexEntry) :
    openFile name (marshalEntries ies) =
      .ok { entries := ies, writer := [], file := marshalEntries ies, filePath := name } := by
  have h := readEntries_marshalEntries ies (marshalEntries ies).length
    (by rw [length_marshalEntries]; omega)
  simp only [openFile, h, bind, Except.bind, pure, Except.pure]

/-- Cutting an index file at an entry boundary. -/
theorem truncateFile_marshalEntries (ies : List IndexEntry) {k : Nat} (h : k ≤ ies.length) :
    truncateFile (marshalEntries ies) (k * indexEntrySize) = marshalEntries (ies.take k) := by
  have hlen : (marshalEntries (ies.take k)).length = k * indexEntrySize := by
    rw [length_marshalEntries, List.length_take, Nat.min_eq_left h, indexEntrySize, Nat.mul_comm]
  have hsub : k * indexEntrySize - (marshalEntries ies).length = 0 := by
    rw [length_marshalEntries, indexEntrySize]
    omega
  rw [truncateFile, hsub, Bytes.zeros_zero, List.append_nil]
  conv_lhs => rw [← List.take_append_drop k ies, marshalEntries_append]
  exact List.take_left' hlen

end RWFile

namespace Index

/-- `newIndex`. -/
def create (name : FileName) : Index where
  readonly := none
  readWrite := some (RWFile.create name)

/-- `openIndex` of an index file with the given contents. -/
def openIndex (name : FileName) (contents : Bytes) (status : SegmentStatus) :
    Except Failure Index :=
  if status = .readOnly then do
    let f ← MmapFile.openFile name contents
    return { readonly := some f, readWrite := none }
  else do
    let rw ← RWFile.openFile name contents
    return { readonly := none, readWrite := some rw }

/-- `Index.getRaftEntryPosition`. -/
def getRaftEntryPosition (d : Index) (i firstIndex : Nat) (status : SegmentStatus) :
    Except Failure Nat :=
  if i < firstIndex then .error (.error .outOfBound)
  else
    let position := (i - firstIndex) * indexEntrySize
    if status = .readOnly then
      match d.readonly with
      | none => .error (.panic "nil pointer dereference")
      | some f => do
          let indexEntry ← f.readIndexEntry position
          if indexEntry.raftIndex ≠ i then
            .error (.fatal "readIndexEntry raftIndex is %d,not %d,position:%d,file:%s")
          else return indexEntry.filePosition
    else
      match d.readWrite with
      | none => .error (.panic "nil pointer dereference")
      | some rw =>
          match rw.entries[i - firstIndex]? with
          | none => .error (.panic "index out of range")
          | some indexEntry =>
              if indexEntry.raftIndex ≠ i then
                .error (.fatal
                  "readIndexEntry in lastSegmentIndex, raftIndex is %d,not %d,position:%d")
              else .ok indexEntry.filePosition

/-- `Index.appendIndexEntry`. -/
def appendIndexEntry (d : Index) (entry : IndexEntry) : Except Failure Index :=
  match d.readWrite with
  | none => .error (.panic "nil pointer dereference")
  | some rw =>
      let rw := rw.write entry.marshal
      .ok { d with readWrite := some { rw with entries := rw.entries ++ [entry] } }

/-- `Index.getLastRaftEntry`, called with `SegmentRDWR`. -/
def getLastRaftEntry (d : Index) : Except Failure IndexEntry :=
  match d.readWrite with
  | none => .error (.panic "nil pointer dereference")
  | some rw =>
      match rw.entries.getLast? with
      | none => .error (.panic "index out of range")
      | some e => .ok e

/-- The end of `Index.truncateSuffix`, on a flushed index file. -/
def cut (rw : RWFile) (n : Nat) : Except Failure Index :=
  if n ≤ rw.entries.length then
    .ok {
      readonly := none
      readWrite := some { rw with
        file := RWFile.truncateFile rw.file (n * indexEntrySize)
        entries := rw.entries.take n } }
  else .error (.panic "slice bounds out of range")

/-- `Index.truncateSuffix`.  A read-only index is renamed, unmapped and read back
into memory first. -/
def truncateSuffix (d : Index) (i firstIndex : Nat) (status : SegmentStatus) :
    Except Failure Index :=
  if i < firstIndex then .error (.error .outOfBound)
  else if status = .readOnly then
    match d.readonly with
    | none => .error (.panic "nil pointer dereference")
    | some f => do
        let rw ← RWFile.openFile (.inprogress firstIndex) f.mappedData
        cut rw (i - firstIndex)
  else
    match d.readWrite with
    | none => .error (.panic "nil pointer dereference")
    | some rw => cut rw.flush (i - firstIndex)

/-- `Index.changeToReadonly`: rename, flush and map the index file. -/
def changeToReadonly (d : Index) : Except Failure Index :=
  match d.readWrite with
  | none => .error (.panic "nil pointer dereference")
  | some rw =>
      match rw.entries.head?, rw.entries.getLast? with
      | some first, some last => do
          let name := FileName.readonly first.raftIndex last.raftIndex
          let closed := (rw.rename name).close
          let f ← MmapFile.openFile name closed.file
          return { readonly := some f, readWrite := none }
      | _, _ => .error (.panic "index out of range")

/-! ## Specifications -/

/-- The index of a writable segment holds `ies` under the name of `first`. -/
structure WritableAs (d : Index) (first : Nat) (ies : List IndexEntry) : Prop where
  unmapped : d.readonly = none
  inMemory : ∃ rw, d.readWrite = some rw ∧ rw.entries = ies ∧ rw.Consistent ∧
    rw.filePath = .inprogress first

/-- The index of a read-only segment holds `ies` under the given name. -/
structure SealedAs (d : Index) (name : FileName) (ies : List IndexEntry) : Prop where
  unbuffered : d.readWrite = none
  mapped : ∃ f, d.readonly = some f ∧ f.mappedData = marshalEntries ies ∧ f.filePath = name

section Spec
variable {d : Index} {first i k : Nat} {name : FileName} {ies : List IndexEntry} {e : IndexEntry}

theorem create_writableAs (first : Nat) : WritableAs (create (.inprogress first)) first [] :=
  ⟨rfl, RWFile.create _, rfl, rfl, RWFile.create_consistent _, rfl⟩

theorem WritableAs.appendIndexEntry (h : WritableAs d first ies) (e : IndexEntry) :
    ∃ d', d.appendIndexEntry e = .ok d' ∧ WritableAs d' first (ies ++ [e]) := by
  obtain ⟨hro, rw, hrw, hent, hcons, hname⟩ := h
  simp only [Index.appendIndexEntry, hrw]
  refine ⟨_, rfl, hro, _, rfl, ?_, ?_, ?_⟩
  · simp only [RWFile.entries_write, hent]
  · have hb := RWFile.bytes_write rw e.marshal
    unfold RWFile.Consistent RWFile.bytes at hcons hb ⊢
    simp only at hb ⊢
    rw [hb, hcons, RWFile.entries_write, marshalEntries_append, marshalEntries_cons,
      marshalEntries_nil, List.append_nil]
  · rw [← hname]
    exact RWFile.filePath_write rw _

/-- The entry of an index stands at its distance from the first one. -/
theorem WritableAs.getRaftEntryPosition (h : WritableAs d first ies) (hi : first ≤ i)
    (he : ies[i - first]? = some e) (hr : e.raftIndex = i) :
    d.getRaftEntryPosition i first .rdwr = .ok e.filePosition := by
  obtain ⟨-, rw, hrw, hent, -, -⟩ := h
  rw [Index.getRaftEntryPosition, if_neg (by omega)]
  simp only [reduceCtorEq, if_false, hrw, hent, he, hr, ne_eq, not_true_eq_false]

/-- A mapped index file holds the `k`-th entry at `k` times its size. -/
theorem readIndexEntry_marshalEntries {f : MmapFile} (hf : f.mappedData = marshalEntries ies)
    (he : ies[k]? = some e) : f.readIndexEntry (k * indexEntrySize) = .ok e := by
  obtain ⟨hk, hget⟩ := List.getElem?_eq_some_iff.mp he
  have hsplit : marshalEntries ies =
      marshalEntries (ies.take k) ++ (e.marshal ++ marshalEntries (ies.drop (k + 1))) := by
    conv_lhs => rw [← List.take_append_drop k ies, List.drop_eq_getElem_cons hk, hget,
      marshalEntries_append, marshalEntries_cons]
  have hslice : MmapFile.sliceOf f.mappedData (k * indexEntrySize)
      (k * indexEntrySize + indexEntrySize) = .ok e.marshal := by
    rw [hf, hsplit]
    refine MmapFile.sliceOf_append_of_eq ?_ (by rw [IndexEntry.length_marshal, indexEntrySize])
    rw [length_marshalEntries, List.length_take, Nat.min_eq_left (by omega), indexEntrySize,
      Nat.mul_comm]
  simp only [MmapFile.readIndexEntry, hslice, bind, Except.bind, pure, Except.pure,
    IndexEntry.unmarshal_marshal]

theorem SealedAs.getRaftEntryPosition (h : SealedAs d name ies) (hi : first ≤ i)
    (he : ies[i - first]? = some e) (hr : e.raftIndex = i) :
    d.getRaftEntryPosition i first .readOnly = .ok e.filePosition := by
  obtain ⟨-, f, hf, hdata, -⟩ := h
  rw [Index.getRaftEntryPosition, if_neg (by omega)]
  simp only [if_true, hf, readIndexEntry_marshalEntries hdata he, bind, Except.bind, hr, ne_eq,
    not_true_eq_false, if_false, pure, Except.pure]

/-- Cutting a flushed index file that holds `ies`. -/
theorem cut_spec {rw : RWFile} (hent : rw.entries = ies) (hfile : rw.file = marshalEntries ies)
    (hwr : rw.writer = []) (hname : rw.filePath = .inprogress first) (hk : k ≤ ies.length) :
    ∃ d', cut rw k = .ok d' ∧ WritableAs d' first (ies.take k) := by
  rw [cut, if_pos (by rw [hent]; exact hk)]
  refine ⟨_, rfl, rfl, _, rfl, by simp only [hent], ?_, hname⟩
  unfold RWFile.Consistent RWFile.bytes
  simp only
  rw [hwr, List.append_nil, hfile, hent, RWFile.truncateFile_marshalEntries ies hk]

theorem WritableAs.truncateSuffix (h : WritableAs d first ies) (hi : first ≤ i)
    (hk : i - first ≤ ies.length) :
    ∃ d', d.truncateSuffix i first .rdwr = .ok d' ∧ WritableAs d' first (ies.take (i - first)) := by
  obtain ⟨-, rw, hrw, hent, hcons, hname⟩ := h
  rw [Index.truncateSuffix, if_neg (by omega)]
  simp only [reduceCtorEq, if_false, hrw]
  refine cut_spec hent ?_ rfl hname hk
  rw [← hent]
  exact hcons

theorem SealedAs.truncateSuffix (h : SealedAs d name ies) (hi : first ≤ i)
    (hk : i - first ≤ ies.length) :
    ∃ d', d.truncateSuffix i first .readOnly = .ok d' ∧
      WritableAs d' first (ies.take (i - first)) := by
  obtain ⟨-, f, hf, hdata, -⟩ := h
  rw [Index.truncateSuffix, if_neg (by omega)]
  simp only [if_true, hf, hdata, RWFile.openFile_marshalEntries, bind, Except.bind]
  exact cut_spec rfl rfl rfl rfl hk

/-- Sealing a non-empty index maps the bytes that were written to it, under the
name its first and last entries give. -/
theorem WritableAs.changeToReadonly {a b : IndexEntry} (h : WritableAs d first ies)
    (ha : ies.head? = some a) (hb : ies.getLast? = some b) :
    ∃ d', d.changeToReadonly = .ok d' ∧
      SealedAs d' (.readonly a.raftIndex b.raftIndex) ies := by
  obtain ⟨-, rw, hrw, hent, hcons, -⟩ := h
  have hne : ies ≠ [] := by
    intro h0
    rw [h0] at ha
    cases ha
  have hfile : ((rw.rename (.readonly a.raftIndex b.raftIndex)).close).file =
      marshalEntries ies := by
    rw [← hent]
    exact hcons
  have hpos : marshalEntries ies ≠ [] := by
    intro h0
    have hl := length_marshalEntries ies
    rw [h0, List.length_nil] at hl
    exact hne (List.length_eq_zero_iff.mp (by omega))
  simp only [Index.changeToReadonly, hrw, hent, ha, hb, hfile, MmapFile.openFile, if_neg hpos, bind,
    Except.bind, pure, Except.pure]
  exact ⟨_, rfl, rfl, _, rfl, rfl, rfl⟩

theorem WritableAs.getLastRaftEntry (h : WritableAs d first ies) (he : ies.getLast? = some e) :
    d.getLastRaftEntry = .ok e := by
  obtain ⟨-, rw, hrw, hent, -, -⟩ := h
  simp only [Index.getLastRaftEntry, hrw, hent, he]

/-- An index left without entries makes `getLastRaftEntry` panic. -/
theorem WritableAs.getLastRaftEntry_nil (h : WritableAs d first []) :
    d.getLastRaftEntry = .error (.panic "index out of range") := by
  obtain ⟨-, rw, hrw, hent, -, -⟩ := h
  simp only [Index.getLastRaftEntry, hrw, hent, List.getLast?_nil]

end Spec

end Index

end Kingbus
