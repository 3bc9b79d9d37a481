import Kingbus.Lib.Numbered
import Kingbus.Segment

/-! # What a segment holds

A `SegView` is what a segment is for: consecutively numbered entries.  `Writable`
and `Sealed` say how a segment in either of its two modes holds a view — bytes,
index, range, write position and file names together — and each function of
`Kingbus.Segment` gets one specification in these terms.

`hot` marks a view whose segment knows its write position.  A read-only segment
that was opened from its file does not (`openMmapFile` leaves the position at
zero), and this decides whether it can be truncated later.  The parameter `z`
asks, when `true`, that the bytes behind the entries are all zero. -/

namespace Kingbus

/-- The entries of a segment, numbered from `first` on. -/
structure SegView where
  first : Nat
  es : List Entry
  hot : Bool
  numbered : Numbered Entry.index first es
  first_pos : 1 ≤ first

namespace SegView

/-- The index after the last entry. -/
def next (v : SegView) : Nat := v.first + v.es.length

/-- The range a segment records for its entries: `0, 0` when it has none. -/
def firstIndex (v : SegView) : Nat := if v.es = [] then 0 else v.first

@[inherit_doc firstIndex]
def lastIndex (v : SegView) : Nat := if v.es = [] then 0 else v.next - 1

/-- A view of one batch. -/
def single (first : Nat) (es : List Entry) (h : Numbered Entry.index first es)
    (hpos : 1 ≤ first) : SegView := ⟨first, es, true, h, hpos⟩

/-- A batch appended. -/
def append (v : SegView) (es : List Entry) (h : Numbered Entry.index v.next es) : SegView where
  first := v.first
  es := v.es ++ es
  hot := true
  numbered := v.numbered.append h
  first_pos := v.first_pos

/-- Everything from `i` on cut off. -/
def cut (v : SegView) (i : Nat) : SegView where
  first := v.first
  es := v.es.take (i - v.first)
  hot := true
  numbered := v.numbered.take _
  first_pos := v.first_pos

/-- The view of a segment that was closed and opened read-only. -/
def cold (v : SegView) : SegView := { v with hot := false }

theorem firstIndex_of_ne {v : SegView} (h : v.es ≠ []) : v.firstIndex = v.first := if_neg h

theorem lastIndex_of_ne {v : SegView} (h : v.es ≠ []) : v.lastIndex = v.next - 1 := if_neg h

/-- Entries carry 64-bit indexes, so the range of a view does too. -/
theorem next_le (v : SegView) (h : v.es ≠ []) : v.next ≤ 2 ^ 64 := by
  obtain ⟨e, he⟩ : ∃ e, v.es.getLast? = some e := ⟨_, List.getLast?_eq_some_getLast h⟩
  have hidx := v.numbered.getLast? he
  have hlt := e.index_lt
  unfold next
  omega

theorem first_lt_next (v : SegView) (h : v.es ≠ []) : v.first < v.next := by
  have := List.length_pos_of_ne_nil h
  unfold next
  omega

end SegView

/-! ## The index of a list of entries -/

/-- The index entries of entries laid end to end from `pos` on. -/
def positions : Nat → Nat → List Entry → List IndexEntry
  | _, _, [] => []
  | i, pos, e :: es => IndexEntry.of i pos :: positions (i + 1) (pos + (frame e).length) es

@[simp] theorem length_positions : ∀ (i pos : Nat) (es : List Entry),
    (positions i pos es).length = es.length
  | _, _, [] => rfl
  | i, pos, e :: es => by rw [positions, List.length_cons, length_positions, List.length_cons]

theorem positions_append : ∀ (i pos : Nat) (es fs : List Entry),
    positions i pos (es ++ fs) =
      positions i pos es ++ positions (i + es.length) (pos + (encode es).length) fs
  | _, _, [], _ => rfl
  | i, pos, e :: es, fs => by
      have ih := positions_append (i + 1) (pos + (frame e).length) es fs
      rw [List.cons_append, positions, ih, positions, List.cons_append, List.length_cons,
        encode_cons, List.length_append]
      rw [show i + 1 + es.length = i + (es.length + 1) by omega, Nat.add_assoc pos]

theorem positions_take (i pos : Nat) (es : List Entry) {k : Nat} (hk : k ≤ es.length) :
    (positions i pos es).take k = positions i pos (es.take k) := by
  conv_lhs => rw [← List.take_append_drop k es, positions_append]
  refine List.take_left' ?_
  rw [length_positions, List.length_take, Nat.min_eq_left hk]

theorem positions_getElem? (i pos : Nat) (es : List Entry) {k : Nat} (hk : k < es.length) :
    (positions i pos es)[k]? =
      some (IndexEntry.of (i + k) (pos + (encode (es.take k)).length)) := by
  have hlen : (es.take k).length = k := by
    rw [List.length_take]
    omega
  conv_lhs => rw [← List.take_append_drop k es, List.drop_eq_getElem_cons hk, positions_append]
  rw [List.getElem?_append_right (by rw [length_positions, hlen]), length_positions, hlen,
    Nat.sub_self]
  rfl

/-- Before an entry there is less than the whole encoding. -/
theorem length_encode_take_lt (es : List Entry) {k : Nat} (hk : k < es.length) :
    (encode (es.take k)).length < (encode es).length := by
  conv_rhs => rw [← List.take_append_drop k es, List.drop_eq_getElem_cons hk, encode_append,
    encode_cons, List.length_append, List.length_append]
  have := frame_pos es[k]
  omega

theorem length_encode_pos {es : List Entry} (h : es ≠ []) : 0 < (encode es).length := by
  have := length_encode_take_lt es (List.length_pos_of_ne_nil h)
  omega

/-- The two appends of `appendRecord` write the frame of an entry. -/
theorem MmapFile.append_frame {f : MmapFile} {pre rest : Bytes} {e : Entry}
    (hf : f.mappedData = pre ++ rest) (hw : f.writePosition = pre.length)
    (hfit : (frame e).length ≤ rest.length) :
    ∃ f' p, f.append (Bytes.leBytes recordLengthSize e.toRecord.size) = .ok (f', pre.length) ∧
      f'.append e.toRecord.marshal = .ok ({ f with
        mappedData := (pre ++ frame e) ++ rest.drop (frame e).length
        writePosition := (pre ++ frame e).length }, p) := by
  rw [length_frame] at hfit
  have hlen : (Bytes.leBytes recordLengthSize e.toRecord.size).length ≤ rest.length := by
    rw [Bytes.length_leBytes, recordLengthSize]
    omega
  refine ⟨_, (pre ++ Bytes.leBytes recordLengthSize e.toRecord.size).length,
    append_spec hf hw hlen, ?_⟩
  rw [append_spec rfl rfl (by
    rw [List.length_drop, Record.length_marshal, Bytes.length_leBytes, recordLengthSize]; omega)]
  simp only [frame, recordLengthSize, List.append_assoc, List.drop_drop, List.length_append]

/-! ## The two modes of a segment -/

/-- The log file of `c.segmentSize` bytes starts with the encoding of `es`; with
`z`, zero bytes follow. -/
structure MmapFile.Holds (c : Config) (z : Bool) (f : MmapFile) (es : List Entry) : Prop where
  mapped : ∃ tail, f.mappedData = encode es ++ tail ∧ (z = true → ∀ b ∈ tail, b = 0)
  size : f.mappedData.length = c.segmentSize
  maxBytes : f.maxBytes = c.segmentSize

namespace MmapFile.Holds
variable {c : Config} {z : Bool} {f : MmapFile} {es : List Entry}

theorem le (h : f.Holds c z es) : (encode es).length ≤ c.segmentSize := by
  obtain ⟨tail, hm, -⟩ := h.mapped
  rw [← h.size, hm, List.length_append]
  omega

/-- The position of an entry fits the 32 bits an index entry has for it. -/
theorem positions_get (h : f.Holds c z es) (first k : Nat) (hk : k < es.length)
    (hidx : first + k < 2 ^ 64) : ∃ e, (positions first 0 es)[k]? = some e ∧
      e.raftIndex = first + k ∧ e.filePosition = (encode (es.take k)).length := by
  refine ⟨_, positions_getElem? first 0 es hk, Nat.mod_eq_of_lt hidx, ?_⟩
  rw [Nat.zero_add]
  refine Nat.mod_eq_of_lt ?_
  have h1 := length_encode_take_lt es hk
  have h2 := h.le
  have h3 := c.segmentSize_le
  omega

theorem create (c : Config) (z : Bool) (name : FileName) :
    (MmapFile.create name c.segmentSize).Holds c z [] where
  mapped := ⟨Bytes.zeros c.segmentSize, rfl, fun _ _ hb => (List.mem_replicate.mp hb).2⟩
  size := Bytes.length_zeros _
  maxBytes := rfl

/-- The log file cut in front of the entries `es.drop k`. -/
theorem truncateSuffix (h : f.Holds c z es) (k : Nat)
    (hw : f.writePosition = (encode es).length) :
    ∃ f', f.truncateSuffix (encode (es.take k)).length = .ok f' ∧ f'.Holds c z (es.take k) ∧
      f'.writePosition = (encode (es.take k)).length ∧ f'.filePath = f.filePath := by
  obtain ⟨⟨tail, hmap, hz⟩, hsize, hmax⟩ := h
  have hsplit : encode es = encode (es.take k) ++ encode (es.drop k) := by
    rw [← encode_append, List.take_append_drop]
  have hmap' : f.mappedData = encode (es.take k) ++ (encode (es.drop k) ++ tail) := by
    rw [hmap, hsplit, List.append_assoc]
  have hspec := MmapFile.truncateSuffix_spec hmap'
    (by rw [hw, hsplit, List.length_append])
  refine ⟨_, hspec, ⟨⟨_, rfl, fun hz' b hb => ?_⟩, ?_, hmax⟩, rfl, rfl⟩
  · rcases List.mem_append.mp hb with hb | hb
    · exact (List.mem_replicate.mp hb).2
    · exact hz hz' b hb
  · rw [hmap'] at hsize
    simp only [List.length_append, Bytes.length_zeros] at hsize ⊢
    exact hsize

end MmapFile.Holds

namespace Segment

/-- The index of the next entry.  A segment that was emptied keeps it in the name of
its file. -/
def nextIndex (s : Segment) : Nat :=
  if s.lastIndex = 0 then s.logFile.filePath.first else s.lastIndex + 1

/-- A segment open for writing that holds `v`.  It may have been emptied by a
truncation; its files are then still named after `v.first`. -/
structure Writable (c : Config) (z : Bool) (s : Segment) (v : SegView) : Prop where
  status : s.status = .rdwr
  name : s.logFile.filePath = .inprogress v.first
  file : s.logFile.Holds c z v.es
  writePosition : s.logFile.writePosition = (encode v.es).length
  index : s.logIndex.WritableAs v.first (positions v.first 0 v.es)
  firstIndex : s.firstIndex = v.firstIndex
  lastIndex : s.lastIndex = v.lastIndex
  hot : v.hot = true

/-- A read-only segment that holds `v`. -/
structure Sealed (c : Config) (z : Bool) (s : Segment) (v : SegView) : Prop where
  nonempty : v.es ≠ []
  status : s.status = .readOnly
  name : s.logFile.filePath = .readonly v.first (v.next - 1)
  file : s.logFile.Holds c z v.es
  writePosition : s.logFile.writePosition = if v.hot then (encode v.es).length else 0
  index : s.logIndex.SealedAs (.readonly v.first (v.next - 1)) (positions v.first 0 v.es)
  firstIndex : s.firstIndex = v.first
  lastIndex : s.lastIndex = v.next - 1

section Spec
variable {c : Config} {z : Bool} {s : Segment} {v : SegView} {es : List Entry} {i : Nat}

/-- A new segment is empty and named after the entry it is made for. -/
theorem create_writable (c : Config) (z : Bool) {first : Nat} (h : 1 ≤ first) :
    (create c (.inprogress first)).Writable c z (SegView.single first [] (Numbered.nil _) h) where
  status := rfl
  name := rfl
  file := MmapFile.Holds.create c z _
  writePosition := rfl
  index := Index.create_writableAs first
  firstIndex := rfl
  lastIndex := rfl
  hot := rfl

theorem Writable.nextIndex (h : s.Writable c z v) : s.nextIndex = v.next := by
  rw [Segment.nextIndex, h.lastIndex, h.name]
  by_cases hv : v.es = []
  · rw [SegView.lastIndex, if_pos hv, if_pos rfl, SegView.next, hv]
    rfl
  · have hlt := v.first_lt_next hv
    have hpos := v.first_pos
    rw [SegView.lastIndex_of_ne hv, if_neg (by omega)]
    omega

theorem Writable.needRolling (h : s.Writable c z v) (size : Nat) :
    s.needRolling size = decide (c.segmentSize < (encode v.es).length + size) := by
  rw [Segment.needRolling, h.writePosition, h.file.maxBytes]

/-! ### Appending -/

/-- What the loop of `appendRecords` keeps: everything but the range. -/
structure Laid (c : Config) (z : Bool) (s : Segment) (first : Nat) (es : List Entry) : Prop where
  file : s.logFile.Holds c z es
  writePosition : s.logFile.writePosition = (encode es).length
  index : s.logIndex.WritableAs first (positions first 0 es)

/-- One record written. -/
theorem appendRecord_spec {first : Nat} {e : Entry} (h : s.Laid c z first es)
    (hfit : (encode es).length + (frame e).length ≤ c.segmentSize) :
    ∃ f d, s.appendRecord e.toRecord (first + es.length) =
        .ok { s with logFile := f, logIndex := d } ∧
      Laid c z { s with logFile := f, logIndex := d } first (es ++ [e]) ∧
      f.filePath = s.logFile.filePath := by
  obtain ⟨⟨tail, hmap, hz⟩, hsize, hmax⟩ := h.file
  have htail : (frame e).length ≤ tail.length := by
    rw [hmap, List.length_append] at hsize
    omega
  obtain ⟨f, p, h1, h2⟩ := MmapFile.append_frame hmap h.writePosition htail
  obtain ⟨d, hd, hidx⟩ :=
    h.index.appendIndexEntry (IndexEntry.of (first + es.length) (encode es).length)
  simp only [appendRecord, bind, Except.bind, h1, h2, hd, pure, Except.pure]
  refine ⟨_, d, rfl, ?_, rfl⟩
  refine ⟨⟨⟨tail.drop (frame e).length, ?_, ?_⟩, ?_, hmax⟩, ?_, ?_⟩
  · simp only [encode_append, encode_cons, encode_nil, List.append_nil]
  · exact fun hz' b hb => hz hz' b (List.mem_of_mem_drop hb)
  · rw [hmap, List.length_append] at hsize
    simp only [List.length_append, List.length_drop]
    omega
  · simp only [encode_append, encode_cons, encode_nil, List.append_nil]
  · rw [positions_append, Nat.zero_add]
    exact hidx

/-- The whole loop. -/
theorem appendLoop_spec {first : Nat} : ∀ (fs : List Entry) {s : Segment} {es : List Entry},
    s.Laid c z first es → (encode es).length + (encode fs).length ≤ c.segmentSize →
    ∃ f d, s.appendLoop (fs.map Entry.toRecord) (first + es.length) =
        .ok { s with logFile := f, logIndex := d } ∧
      Laid c z { s with logFile := f, logIndex := d } first (es ++ fs) ∧
      f.filePath = s.logFile.filePath
  | [], s, es, h, _ => ⟨s.logFile, s.logIndex, rfl, by rwa [List.append_nil], rfl⟩
  | e :: fs, s, es, h, hfit => by
      rw [encode_cons, List.length_append] at hfit
      obtain ⟨f, d, happ, hlaid, hname⟩ := appendRecord_spec (e := e) h (by omega)
      have hfit' : (encode (es ++ [e])).length + (encode fs).length ≤ c.segmentSize := by
        rw [encode_append, List.length_append, encode_cons, encode_nil, List.append_nil]
        omega
      obtain ⟨f', d', hloop, hlaid', hname'⟩ := appendLoop_spec fs hlaid hfit'
      rw [List.append_assoc, List.singleton_append] at hlaid'
      rw [List.length_append, List.length_singleton, ← Nat.add_assoc] at hloop
      refine ⟨f', d', ?_, hlaid', hname'.trans hname⟩
      simp only [List.map_cons, appendLoop, bind, Except.bind, happ, hloop]

/-- The range recorded for a non-empty batch behind the entries of `v`. -/
theorem updateRange_spec (hne : es ≠ []) (hes : Numbered Entry.index v.next es)
    (hfirst : s.firstIndex = v.firstIndex) (hlast : s.lastIndex = v.lastIndex) :
    (s.updateRange v.next es.length).firstIndex = (v.append es hes).firstIndex ∧
      (s.updateRange v.next es.length).lastIndex = (v.append es hes).lastIndex := by
  have hne' : (v.append es hes).es ≠ [] := fun h0 => hne (List.append_eq_nil_iff.mp h0).2
  have hnext : (v.append es hes).next = v.next + es.length := by
    simp only [SegView.append, SegView.next, List.length_append, Nat.add_assoc]
  have hle := (v.append es hes).next_le hne'
  have hlen := List.length_pos_of_ne_nil hne
  have hpos := v.first_pos
  rw [SegView.firstIndex_of_ne hne', SegView.lastIndex_of_ne hne', hnext]
  rw [hnext] at hle
  simp only [updateRange, hfirst, hlast]
  by_cases hv : v.es = []
  · have hvn : v.next = v.first := by rw [SegView.next, hv, List.length_nil, Nat.add_zero]
    simp only [SegView.firstIndex, SegView.lastIndex, if_pos hv, if_true]
    exact ⟨hvn, by rw [if_pos (by omega)]; omega⟩
  · have hvn := v.first_lt_next hv
    rw [SegView.firstIndex_of_ne hv, SegView.lastIndex_of_ne hv, if_neg (by omega),
      if_pos (by omega)]
    exact ⟨rfl, by omega⟩

/-- The check of `appendRecords` lets the index after the last entry pass. -/
theorem Writable.continuous (h : s.Writable c z v) (hlt : v.next < 2 ^ 64) :
    ¬ (s.lastIndex ≠ 0 ∧ (s.lastIndex + 1) % 2 ^ 64 ≠ v.next) := by
  rintro ⟨h0, h1⟩
  by_cases hv : v.es = []
  · exact h0 (by rw [h.lastIndex, SegView.lastIndex, if_pos hv])
  · have := v.first_lt_next hv
    rw [h.lastIndex, SegView.lastIndex_of_ne hv, Nat.sub_add_cancel (by omega),
      Nat.mod_eq_of_lt hlt] at h1
    exact h1 rfl

/-- **Appending a batch that fits** adds it to what the segment holds. -/
theorem Writable.appendRecords (h : s.Writable c z v) (hne : es ≠ [])
    (hes : Numbered Entry.index v.next es)
    (hfit : (encode v.es).length + (encode es).length ≤ c.segmentSize) :
    ∃ s', s.appendRecords (es.map Entry.toRecord) v.next = .ok s' ∧
      s'.Writable c z (v.append es hes) := by
  have hlaid : s.Laid c z v.first v.es := ⟨h.file, h.writePosition, h.index⟩
  obtain ⟨f, d, hloop, hlaid', hname⟩ := appendLoop_spec es hlaid hfit
  have hlt : v.next < 2 ^ 64 := by
    cases es with
    | nil => exact absurd rfl hne
    | cons e es => exact hes.1 ▸ e.index_lt
  obtain ⟨hfirst, hlast⟩ := updateRange_spec
    (s := { s with logFile := f.sync, logIndex := d }) hne hes h.firstIndex h.lastIndex
  simp only [Segment.appendRecords, h.status, ne_eq, not_true_eq_false, if_false,
    if_neg (h.continuous hlt)]
  rw [show v.next = v.first + v.es.length from rfl, hloop]
  refine ⟨_, rfl, h.status, hname.trans h.name,
    ⟨hlaid'.file.mapped, hlaid'.file.size, hlaid'.file.maxBytes⟩, hlaid'.writePosition,
    hlaid'.index, ?_, ?_, rfl⟩
  · rw [List.length_map]
    exact hfirst
  · rw [List.length_map]
    exact hlast

/-! ### Sealing -/

/-- **Sealing** a non-empty segment. -/
theorem Writable.changeToReadonly (h : s.Writable c z v) (hne : v.es ≠ []) :
    ∃ s', s.changeToReadonly = .ok s' ∧ s'.Sealed c z v := by
  have hlen := List.length_pos_of_ne_nil hne
  have hle := v.next_le hne
  have hlt := v.first_lt_next hne
  obtain ⟨a, ha, haidx, -⟩ := h.file.positions_get v.first 0 hlen (by omega)
  obtain ⟨b, hb, hbidx, -⟩ := h.file.positions_get v.first (v.es.length - 1) (by omega)
    (by unfold SegView.next at hle; omega)
  have hbnext : b.raftIndex = v.next - 1 := by
    rw [hbidx, SegView.next]
    omega
  have hlast : (positions v.first 0 v.es).getLast? = some b := by
    rw [List.getLast?_eq_getElem?, length_positions, hb]
  obtain ⟨d, hd, hsealed⟩ := h.index.changeToReadonly (by rw [List.head?_eq_getElem?, ha]) hlast
  rw [haidx, Nat.add_zero, hbnext] at hsealed
  simp only [Segment.changeToReadonly, h.status, ne_eq, not_true_eq_false, if_false, hd, bind,
    Except.bind, pure, Except.pure]
  have hfirst : s.firstIndex = v.first := by rw [h.firstIndex, SegView.firstIndex_of_ne hne]
  have hlast : s.lastIndex = v.next - 1 := by rw [h.lastIndex, SegView.lastIndex_of_ne hne]
  refine ⟨_, rfl, hne, rfl, ?_, ⟨h.file.mapped, h.file.size, h.file.maxBytes⟩, ?_, hsealed, hfirst,
    hlast⟩
  · simp only [MmapFile.rename, hfirst, hlast]
  · rw [h.hot, if_pos rfl]
    exact h.writePosition

/-! ### Finding an entry -/

/-- A segment whose entries can be read: what both modes have in common for a
reader. -/
structure Readable (c : Config) (s : Segment) (v : SegView) : Prop where
  status : s.status ≠ .closed
  file : s.logFile.Holds c false v.es
  firstIndex : s.firstIndex = v.firstIndex
  lastIndex : s.lastIndex = v.lastIndex
  position : ∀ i, v.first ≤ i → i < v.next →
    s.logIndex.getRaftEntryPosition i s.firstIndex s.status =
      .ok (encode (v.es.take (i - v.first))).length

theorem Writable.readable (h : s.Writable c z v) : s.Readable c v where
  status := by
    rw [h.status]
    nofun
  file := ⟨h.file.mapped.imp fun _ ht => ⟨ht.1, nofun⟩, h.file.size, h.file.maxBytes⟩
  firstIndex := h.firstIndex
  lastIndex := h.lastIndex
  position i hi hlt := by
    have hne : v.es ≠ [] := by
      rintro h0
      rw [SegView.next, h0, List.length_nil] at hlt
      omega
    have hle := v.next_le hne
    obtain ⟨e, he, hr, hp⟩ := h.file.positions_get v.first (i - v.first)
      (by unfold SegView.next at hlt; omega) (by omega)
    rw [h.status, h.firstIndex, SegView.firstIndex_of_ne hne,
      h.index.getRaftEntryPosition hi he (by omega), hp]

/-- Looking for an entry in a segment without entries is a panic. -/
theorem Writable.position_emptied (h : s.Writable c z v) (h0 : v.es = []) (i : Nat) :
    s.logIndex.getRaftEntryPosition i s.firstIndex s.status =
      .error (.panic "index out of range") := by
  obtain ⟨-, rw, hrw, hent, -, -⟩ := h.index
  rw [h0] at hent
  rw [h.status, h.firstIndex, SegView.firstIndex, if_pos h0, Index.getRaftEntryPosition,
    if_neg (Nat.not_lt_zero i)]
  simp only [reduceCtorEq, if_false, hrw, hent, positions, List.getElem?_nil]

theorem Sealed.readable (h : s.Sealed c z v) : s.Readable c v where
  status := by
    rw [h.status]
    nofun
  file := ⟨h.file.mapped.imp fun _ ht => ⟨ht.1, nofun⟩, h.file.size, h.file.maxBytes⟩
  firstIndex := by rw [h.firstIndex, SegView.firstIndex_of_ne h.nonempty]
  lastIndex := by rw [h.lastIndex, SegView.lastIndex_of_ne h.nonempty]
  position i hi hlt := by
    have hle := v.next_le h.nonempty
    obtain ⟨e, he, hr, hp⟩ := h.file.positions_get v.first (i - v.first)
      (by unfold SegView.next at hlt; omega) (by omega)
    rw [h.status, h.firstIndex, h.index.getRaftEntryPosition hi he (by omega), hp]

/-! ### Truncating -/

/-- The range after a cut, as `Segment.truncateSuffix` records it. -/
theorem cut_range (hi : v.first ≤ i) (hlt : i < v.next) (hle : v.next ≤ 2 ^ 64) :
    (v.cut i).firstIndex = (if i = v.first then 0 else v.first) ∧
      (v.cut i).lastIndex = if i = v.first then 0 else (i + (2 ^ 64 - 1)) % 2 ^ 64 := by
  have hlen : (v.cut i).es.length = i - v.first := by
    rw [SegView.cut, List.length_take]
    unfold SegView.next at hlt
    omega
  by_cases hif : i = v.first
  · have hnil : (v.cut i).es = [] := List.length_eq_zero_iff.mp (by omega)
    rw [if_pos hif, if_pos hif, SegView.firstIndex, SegView.lastIndex, if_pos hnil, if_pos hnil]
    exact ⟨rfl, rfl⟩
  · have hne : (v.cut i).es ≠ [] := by
      intro h0
      rw [h0, List.length_nil] at hlen
      omega
    have hnext : (v.cut i).next = i := by
      rw [SegView.next, hlen]
      exact Nat.add_sub_cancel' hi
    rw [if_neg hif, if_neg hif, SegView.firstIndex_of_ne hne, SegView.lastIndex_of_ne hne, hnext]
    have := v.first_pos
    exact ⟨rfl, by omega⟩

/-- **Truncating the writable segment** keeps the entries below `i`. -/
theorem Writable.truncateSuffix (h : s.Writable c z v) (hi : v.first ≤ i) (hlt : i < v.next) :
    ∃ s', s.truncateSuffix i = .ok s' ∧ s'.Writable c z (v.cut i) := by
  have hk : i - v.first ≤ v.es.length := by
    unfold SegView.next at hlt
    omega
  have hne : v.es ≠ [] := by
    intro h0
    rw [SegView.next, h0, List.length_nil] at hlt
    omega
  have hfirst : s.firstIndex = v.first := by rw [h.firstIndex, SegView.firstIndex_of_ne hne]
  obtain ⟨f, hf, hholds, hwp, hname⟩ := h.file.truncateSuffix (i - v.first) h.writePosition
  obtain ⟨d, hd, hidx⟩ := h.index.truncateSuffix hi (by rw [length_positions]; exact hk)
  rw [positions_take _ _ _ hk] at hidx
  obtain ⟨hcf, hcl⟩ := cut_range hi hlt (v.next_le hne)
  have hpos := h.readable.position i hi hlt
  rw [h.status, hfirst] at hpos
  simp only [Segment.truncateSuffix, h.status, hfirst, hpos, bind, Except.bind, hf, hd, if_true,
    pure, Except.pure]
  by_cases hif : i = v.first
  · rw [if_pos hif] at hcf hcl ⊢
    exact ⟨_, rfl, rfl, hname.trans h.name, hholds, hwp, hidx, hcf.symm, hcl.symm, rfl⟩
  · rw [if_neg hif] at hcf hcl ⊢
    exact ⟨_, rfl, rfl, hname.trans h.name, hholds, hwp, hidx, hcf.symm, hcl.symm, rfl⟩

/-- Truncating a read-only segment makes it writable again, once its log file
could be cut. -/
theorem Sealed.truncateSuffix_of_file {f : MmapFile} (h : s.Sealed c z v) (hi : v.first ≤ i)
    (hlt : i < v.next)
    (hf : s.logFile.truncateSuffix (encode (v.es.take (i - v.first))).length = .ok f)
    (hholds : f.Holds c z (v.es.take (i - v.first)))
    (hwp : f.writePosition = (encode (v.es.take (i - v.first))).length) :
    ∃ s', s.truncateSuffix i = .ok s' ∧ s'.Writable c z (v.cut i) := by
  have hk : i - v.first ≤ v.es.length := by
    unfold SegView.next at hlt
    omega
  obtain ⟨d, hd, hidx⟩ := h.index.truncateSuffix hi (by rw [length_positions]; exact hk)
  rw [positions_take _ _ _ hk] at hidx
  obtain ⟨hcf, hcl⟩ := cut_range hi hlt (v.next_le h.nonempty)
  have hpos := h.readable.position i hi hlt
  rw [h.status, h.firstIndex] at hpos
  simp only [Segment.truncateSuffix, h.status, h.firstIndex, hpos, bind, Except.bind, hf, hd,
    reduceCtorEq, if_false, pure, Except.pure]
  have hholds' : (f.rename (.inprogress v.first)).Holds c z (v.cut i).es :=
    ⟨hholds.mapped, hholds.size, hholds.maxBytes⟩
  by_cases hif : i = v.first
  · rw [if_pos hif] at hcf hcl ⊢
    exact ⟨_, rfl, rfl, rfl, hholds', hwp, hidx, hcf.symm, hcl.symm, rfl⟩
  · rw [if_neg hif] at hcf hcl ⊢
    exact ⟨_, rfl, rfl, rfl, hholds', hwp, hidx, hcf.symm, hcl.symm, rfl⟩

/-- **Truncating a read-only segment that knows its write position.** -/
theorem Sealed.truncateSuffix (h : s.Sealed c z v) (hhot : v.hot = true) (hi : v.first ≤ i)
    (hlt : i < v.next) : ∃ s', s.truncateSuffix i = .ok s' ∧ s'.Writable c z (v.cut i) := by
  have hw := h.writePosition
  rw [if_pos hhot] at hw
  obtain ⟨f, hf, hholds, hwp, -⟩ := h.file.truncateSuffix (i - v.first) hw
  exact h.truncateSuffix_of_file hi hlt hf hholds hwp

/-- A reopened read-only segment can be truncated at its first entry; the old
bytes stay in the file. -/
theorem Sealed.truncateSuffix_first (h : s.Sealed c z v) (hcold : v.hot = false) :
    ∃ s', s.truncateSuffix v.first = .ok s' ∧ s'.Writable c false (v.cut v.first) := by
  have hlt := v.first_lt_next h.nonempty
  have hw : s.logFile.writePosition = 0 := by
    rw [h.writePosition, hcold]
    rfl
  have hnil : v.es.take (v.first - v.first) = [] := by rw [Nat.sub_self, List.take_zero]
  have hmap : s.logFile.mappedData = [] ++ ([] ++ s.logFile.mappedData) := rfl
  have hspec : s.logFile.truncateSuffix 0 =
      .ok { s.logFile with writePosition := 0, syncPosition := 0 } :=
    MmapFile.truncateSuffix_spec hmap hw
  have hsealed : s.Sealed c false v := ⟨h.nonempty, h.status, h.name, h.readable.file,
    h.writePosition, h.index, h.firstIndex, h.lastIndex⟩
  refine hsealed.truncateSuffix_of_file (Nat.le_refl _) hlt (by rw [hnil]; exact hspec) ?_ ?_
  · rw [hnil]
    exact ⟨⟨_, rfl, nofun⟩, h.file.size, h.file.maxBytes⟩
  · rw [hnil]
    rfl

/-- **A reopened read-only segment cannot be truncated anywhere else.** -/
theorem Sealed.truncateSuffix_cold (h : s.Sealed c z v) (hcold : v.hot = false)
    (hi : v.first < i) (hlt : i < v.next) :
    s.truncateSuffix i = .error (.error .outOfBound) := by
  have hpos : 0 < (encode (v.es.take (i - v.first))).length := by
    refine length_encode_pos fun h0 => ?_
    have hlen := congrArg List.length h0
    rw [List.length_take, List.length_nil] at hlen
    unfold SegView.next at hlt
    omega
  have hw : s.logFile.writePosition < (encode (v.es.take (i - v.first))).length := by
    rw [h.writePosition, hcold]
    exact hpos
  simp only [Segment.truncateSuffix, h.readable.position i (Nat.le_of_lt hi) hlt, bind, Except.bind,
    MmapFile.truncateSuffix_of_lt hw]

/-! ### Reading -/

/-- What the read loop makes of the entries from its position on: it stops after
the entry that takes the size read past `maxSize`. -/
def readLimited (maxSize : Nat) : Nat → List Entry → List Entry × Nat
  | readSize, [] => ([], readSize)
  | readSize, e :: es =>
      let readSize := (readSize + e.size) % 2 ^ 64
      if readSize > maxSize then ([e], readSize)
      else (e :: (readLimited maxSize readSize es).1, (readLimited maxSize readSize es).2)

/-- The read loop over the entries `xs`, numbered up to `last`. -/
theorem readLoop_spec {rest : Bytes} {last maxSize : Nat} (hrange : last ≤ s.lastIndex) :
    ∀ (xs : List Entry) {pre : Bytes} {n fuel readSize : Nat}, xs ≠ [] →
      s.logFile.mappedData = pre ++ (encode xs ++ rest) → (encode xs).length ≤ 2 ^ 32 →
      Numbered Entry.index n xs → n + xs.length = last + 1 → xs.length ≤ fuel →
      s.readLoop last maxSize fuel pre.length readSize = .ok (readLimited maxSize readSize xs)
  | [], _, _, _, _, hne, _, _, _, _, _ => absurd rfl hne
  | x :: xs, pre, n, 0, readSize, _, _, _, _, _, hfuel => by simp at hfuel
  | x :: xs, pre, n, fuel + 1, readSize, _, hmap, hlen, hnum, hlast, hfuel => by
      rw [encode_cons, List.append_assoc] at hmap
      rw [encode_cons, List.length_append] at hlen
      rw [List.length_cons] at hlast hfuel
      obtain ⟨hx, hxs⟩ := hnum
      have hread := MmapFile.readRaftEntry_frame hmap (by omega)
      have hmap' : s.logFile.mappedData = (pre ++ frame x) ++ (encode xs ++ rest) := by
        rw [hmap, List.append_assoc]
      simp only [readLoop, bind, Except.bind, hread, pure, Except.pure]
      by_cases hbig : (readSize + x.size) % 2 ^ 64 > maxSize
      · rw [if_pos (Or.inl hbig), readLimited, if_pos hbig]
      by_cases hnil : xs = []
      · subst hnil
        rw [if_pos (Or.inr (Or.inl (by rw [hx]; simpa using hlast))), readLimited, if_neg hbig]
        rfl
      · have hpos := List.length_pos_of_ne_nil hnil
        rw [if_neg (by rintro (h | h | h) <;> omega), ← List.length_append,
          readLoop_spec hrange xs hnil hmap' (by omega) hxs (by omega) (by omega)]
        simp only
        rw [readLimited, if_neg hbig]

/-- The entries numbered `first` to `last` of a readable segment, as a piece of
its bytes. -/
theorem window_split (v : SegView) {lo hi : Nat} (hlo : v.first ≤ lo) (hle : lo ≤ hi) :
    v.es = v.es.take (lo - v.first) ++ (Numbered.window Entry.index lo hi v.es ++
      v.es.drop (hi + 1 - v.first)) := by
  rw [v.numbered.window_eq hlo (by omega)]
  have hdrop : v.es.drop (hi + 1 - v.first) = (v.es.drop (lo - v.first)).drop (hi + 1 - lo) := by
    rw [List.drop_drop]
    congr 1
    omega
  rw [hdrop, List.take_append_drop, List.take_append_drop]

theorem window_length (v : SegView) {lo hi : Nat} (hlo : v.first ≤ lo) (hle : lo ≤ hi)
    (hhi : hi < v.next) :
    (Numbered.window Entry.index lo hi v.es).length = hi + 1 - lo := by
  unfold SegView.next at hhi
  rw [v.numbered.window_eq hlo (by omega), List.length_take, List.length_drop]
  omega

theorem length_le_encode : ∀ es : List Entry, es.length ≤ (encode es).length
  | [] => Nat.le_refl 0
  | e :: es => by
      have := frame_pos e
      have := length_le_encode es
      rw [List.length_cons, encode_cons, List.length_append]
      omega

/-- **Reading a segment** gives its entries in the window, up to the size limit,
and never fails. -/
theorem Readable.readRaftEntries (h : s.Readable c v) {lo hi : Nat} (maxSize : Nat)
    (hlo : v.first ≤ lo) (hle : lo ≤ hi) (hhi : hi < v.next) :
    s.readRaftEntries lo hi maxSize =
      let r := readLimited maxSize 0 (Numbered.window Entry.index lo hi v.es)
      .ok (r.1, remaining maxSize r.2) := by
  have hne : v.es ≠ [] := by
    intro h0
    rw [SegView.next, h0, List.length_nil] at hhi
    omega
  have hsplit := window_split v hlo hle
  have hwlen := window_length v hlo hle hhi
  have hnum := v.numbered.numbered_window hlo (by omega : lo ≤ hi + 1)
    (by unfold SegView.next at hhi; omega)
  generalize Numbered.window Entry.index lo hi v.es = xs at hsplit hwlen hnum ⊢
  obtain ⟨tail, hmap, -⟩ := h.file.mapped
  have hbytes : (encode xs).length ≤ (encode v.es).length := by
    rw [hsplit, encode_append, encode_append, List.length_append, List.length_append]
    omega
  rw [hsplit, encode_append, encode_append, List.append_assoc, List.append_assoc] at hmap
  have hfile := h.file.le
  have hmax := c.segmentSize_le
  have hcount := length_le_encode xs
  have hxs : xs ≠ [] := by
    intro h0
    rw [h0, List.length_nil] at hwlen
    omega
  have hlast : hi ≤ s.lastIndex := by
    rw [h.lastIndex, SegView.lastIndex_of_ne hne]
    omega
  have hloop : s.readLoop hi maxSize (s.logFile.mappedData.length + 1)
      (encode (v.es.take (lo - v.first))).length 0 = .ok (readLimited maxSize 0 xs) :=
    readLoop_spec hlast xs hxs hmap (by omega) hnum (by omega) (by rw [h.file.size]; omega)
  have hpos := h.position lo hlo (by omega)
  rw [Segment.readRaftEntries, if_neg h.status]
  simp only [bind, Except.bind, hpos]
  rw [hloop]
  rfl

end Spec

end Segment

end Kingbus
