import Kingbus.Lib.Varint
import Kingbus.Lib.Crc32

/-! # Raft entries and the records they are stored in

`raftpb.Entry` and `storagepb.Record` with their generated `Marshal`, `Size` and
`Unmarshal`.  A nil byte slice is `none`, an empty one `some []`: `Marshal` tells
them apart.  `Unmarshal` writes into an existing value without resetting it, as
the generated code does, so it takes that value as an argument.  Neither type
ever carries unrecognized fields here: the storage only writes records it built
itself. -/

namespace Kingbus
open Wire

/-! ## Machine numbers -/

theorem zero_lt_uint32 : 0 < 2 ^ 32 := by decide

theorem mod_uint32_lt (n : Nat) : n % 2 ^ 32 < 2 ^ 32 := Nat.mod_lt n zero_lt_uint32

theorem mod_uint64_lt (n : Nat) : n % 2 ^ 64 < 2 ^ 64 := Nat.mod_lt n (by decide)

/-- `raftpb.Entry`.  `type` is the bit pattern of an `int32`. -/
structure Entry where
  type : Nat
  term : Nat
  index : Nat
  data : Option Bytes
  type_lt : type < 2 ^ 32 := by decide
  term_lt : term < 2 ^ 64 := by decide
  index_lt : index < 2 ^ 64 := by decide
  deriving DecidableEq, Repr

/-- `storagepb.Record`. -/
structure Record where
  crc : Nat
  data : Option Bytes
  crc_lt : crc < 2 ^ 32 := by decide
  deriving DecidableEq, Repr

/-! ## The entry codec -/

namespace Entry

/-- `raftpb.Entry{}`. -/
def zero : Entry where
  type := 0
  term := 0
  index := 0
  data := none

/-- `uint64(m.Type)`: the `int32` is sign extended. -/
def typeBits (t : Nat) : Nat := if t < 2 ^ 31 then t else t + (2 ^ 64 - 2 ^ 32)

/-- The bytes of the `Data` field, absent when it is nil. -/
def dataField : Option Bytes → Bytes
  | none => []
  | some d => bytesField 4 d

/-- `Entry.Marshal`. -/
def marshal (e : Entry) : Bytes :=
  varintField 1 (typeBits e.type) ++ (varintField 2 e.term ++
    (varintField 3 e.index ++ dataField e.data))

/-- `Entry.Size`. -/
def size (e : Entry) : Nat :=
  1 + sov (typeBits e.type) + (1 + sov e.term) + (1 + sov e.index) +
    match e.data with
    | none => 0
    | some d => 1 + d.length + sov d.length

/-- The fields `Entry.Unmarshal` knows. -/
def kind : Nat → Option Kind
  | 1 | 2 | 3 => some .varint
  | 4 => some .bytes
  | _ => none

/-- One decoded field, stored. -/
def setField (m : Entry) : Nat × Value → Entry
  | (1, .varint v) => { m with type := v % 2 ^ 32, type_lt := mod_uint32_lt v }
  | (2, .varint v) => { m with term := v % 2 ^ 64, term_lt := mod_uint64_lt v }
  | (3, .varint v) => { m with index := v % 2 ^ 64, index_lt := mod_uint64_lt v }
  | (4, .bytes b) => { m with data := some b }
  | _ => m

/-- `Entry.Unmarshal` into `m`. -/
def unmarshal (m : Entry) (b : Bytes) : Except WireError Entry :=
  match decodeMessage kind b with
  | .error e => .error e
  | .ok fs => .ok (fs.foldl setField m)

theorem typeBits_lt {t : Nat} (h : t < 2 ^ 32) : typeBits t < 2 ^ 64 := by
  unfold typeBits
  split <;> omega

theorem typeBits_mod {t : Nat} (h : t < 2 ^ 32) : typeBits t % 2 ^ 32 = t := by
  unfold typeBits
  split <;> omega

theorem length_dataField (d : Option Bytes) :
    (dataField d).length = match d with
      | none => 0
      | some d => 1 + d.length + sov d.length := by
  cases d with
  | none => rfl
  | some d => exact length_bytesField 4 d

/-- **`Size` is the number of bytes `Marshal` produces.** -/
@[simp] theorem length_marshal (e : Entry) : e.marshal.length = e.size := by
  unfold marshal size
  simp only [List.length_append, length_varintField, length_dataField]
  omega

theorem six_le_size (e : Entry) : 6 ≤ e.size := by
  have h1 := one_le_sov (typeBits e.type)
  have h2 := one_le_sov e.term
  have h3 := one_le_sov e.index
  unfold size
  omega

/-- What the field loop makes of the `Data` field. -/
def dataFields : Option Bytes → List (Nat × Value)
  | none => []
  | some d => [(4, .bytes d)]

/-- The field loop on the `Data` field, the last one of an entry. -/
theorem decodeFields_dataField (d : Option Bytes) {fuel pos : Nat} (hf : 0 < fuel)
    (hpos : pos + (dataField d).length < 2 ^ 63) :
    decodeFields kind fuel pos (dataField d) = .ok (dataFields d) := by
  obtain ⟨f, rfl⟩ : ∃ f, fuel = f + 1 := ⟨fuel - 1, by omega⟩
  cases d with
  | none => exact decodeFields_nil kind _ _
  | some d =>
      have h : decodeFields kind (f + 1) pos (bytesField 4 d ++ []) = .ok [(4, .bytes d)] :=
        decodeFields_bytesField rfl (by omega) (by omega) hpos (decodeFields_nil kind _ _)
      rwa [List.append_nil] at h

/-- The fields of a marshalled entry, in the order `Marshal` writes them. -/
theorem decodeMessage_marshal (e : Entry) (h : e.size < 2 ^ 63) :
    decodeMessage kind e.marshal = .ok ((1, .varint (typeBits e.type)) :: (2, .varint e.term) ::
      (3, .varint e.index) :: dataFields e.data) := by
  have hlen := length_marshal e
  obtain ⟨f, hf⟩ : ∃ f, e.marshal.length = f + 1 + 1 + 1 + 1 :=
    ⟨e.size - 4, by have := six_le_size e; omega⟩
  rw [decodeMessage, hf]
  unfold marshal at hlen ⊢
  simp only [List.length_append] at hlen
  refine decodeFields_varintField rfl (by omega) (by omega) (typeBits_lt e.type_lt) ?_
  refine decodeFields_varintField rfl (by omega) (by omega) e.term_lt ?_
  refine decodeFields_varintField rfl (by omega) (by omega) e.index_lt ?_
  refine decodeFields_dataField e.data (Nat.succ_pos f) ?_
  omega

/-- **Reading an entry back.**  Only the `Data` of the value decoded into can
show through, and only when the entry has none. -/
theorem unmarshal_marshal (m e : Entry) (h : e.size < 2 ^ 63) :
    unmarshal m e.marshal = .ok { e with data := e.data <|> m.data } := by
  have ht := typeBits_mod e.type_lt
  have h1 : e.term % 2 ^ 64 = e.term := Nat.mod_eq_of_lt e.term_lt
  have h2 : e.index % 2 ^ 64 = e.index := Nat.mod_eq_of_lt e.index_lt
  rw [unmarshal, decodeMessage_marshal e h]
  cases hd : e.data with
  | none =>
      simp only [dataFields, List.foldl_cons, List.foldl_nil, setField, ht, h1, h2]
      rfl
  | some d =>
      simp only [dataFields, List.foldl_cons, List.foldl_nil, setField, ht, h1, h2]
      rfl

end Entry

/-! ## The record codec -/

namespace Record

/-- `storagepb.Record{}`. -/
def zero : Record where
  crc := 0
  data := none

/-- The bytes of the `Data` field, absent when it is nil. -/
def dataField : Option Bytes → Bytes
  | none => []
  | some d => bytesField 2 d

/-- `Record.Marshal`. -/
def marshal (r : Record) : Bytes := varintField 1 r.crc ++ dataField r.data

/-- `Record.Size`. -/
def size (r : Record) : Nat :=
  1 + sov r.crc +
    match r.data with
    | none => 0
    | some d => 1 + d.length + sov d.length

/-- The fields `Record.Unmarshal` knows. -/
def kind : Nat → Option Kind
  | 1 => some .varint
  | 2 => some .bytes
  | _ => none

/-- One decoded field, stored. -/
def setField (m : Record) : Nat × Value → Record
  | (1, .varint v) => { m with crc := v % 2 ^ 32, crc_lt := mod_uint32_lt v }
  | (2, .bytes b) => { m with data := some b }
  | _ => m

/-- `Record.Unmarshal` into `m`. -/
def unmarshal (m : Record) (b : Bytes) : Except WireError Record :=
  match decodeMessage kind b with
  | .error e => .error e
  | .ok fs => .ok (fs.foldl setField m)

/-- The bytes a possibly nil slice holds. -/
def bytes (r : Record) : Bytes := r.data.getD []

@[simp] theorem length_marshal (r : Record) : r.marshal.length = r.size := by
  unfold marshal size
  cases r.data with
  | none => simp only [dataField, List.length_append, length_varintField, List.length_nil]
  | some d => simp only [dataField, List.length_append, length_varintField, length_bytesField]

/-- **Reading a record with data back**, into any value. -/
theorem unmarshal_marshal (m r : Record) {d : Bytes} (hd : r.data = some d)
    (h : r.size < 2 ^ 63) : unmarshal m r.marshal = .ok r := by
  have hlen := length_marshal r
  have hsize : r.size = 1 + sov r.crc + (1 + d.length + sov d.length) := by rw [size, hd]
  have hc := one_le_sov r.crc
  obtain ⟨f, hf⟩ : ∃ f, r.marshal.length = f + 1 + 1 := ⟨r.size - 2, by omega⟩
  have hfields : decodeMessage kind r.marshal = .ok [(1, .varint r.crc), (2, .bytes d)] := by
    rw [decodeMessage, hf, marshal, hd]
    refine decodeFields_varintField rfl (by omega) (by omega)
      (Nat.lt_trans r.crc_lt (by decide)) ?_
    have h2 : decodeFields kind (f + 1) (0 + (varintField 1 r.crc).length) (bytesField 2 d ++ []) =
        .ok [(2, .bytes d)] :=
      decodeFields_bytesField rfl (by omega) (by omega)
        (by rw [length_varintField, length_bytesField]; omega) (decodeFields_nil kind _ _)
    rwa [List.append_nil] at h2
  have hmod : r.crc % 2 ^ 32 = r.crc := Nat.mod_eq_of_lt r.crc_lt
  rw [unmarshal, hfields]
  cases r with
  | mk crc data _ =>
    simp only at hd hmod
    subst hd
    simp only [List.foldl_cons, List.foldl_nil, setField, hmod]

end Record

/-! ## From an entry to its record -/

/-- The record an entry is stored in: its encoding and the CRC of it
(`entriesToRecords`). -/
def Entry.toRecord (e : Entry) : Record where
  crc := Crc32.checksumIEEE e.marshal
  data := some e.marshal
  crc_lt := Crc32.checksumIEEE_lt _

/-- `RecordLengthSize`. -/
def recordLengthSize : Nat := 4

/-- `entriesToRecords`: the records of a batch and the bytes they take in a log
file. -/
def entriesToRecords : List Entry → List Record × Nat
  | [] => ([], 0)
  | e :: es =>
      let (records, size) := entriesToRecords es
      (e.toRecord :: records, e.toRecord.size + recordLengthSize + size)

/-- The bytes one record takes in a log file. -/
def frame (e : Entry) : Bytes := Bytes.leBytes 4 e.toRecord.size ++ e.toRecord.marshal

/-- The bytes a list of entries takes in a log file. -/
def encode (es : List Entry) : Bytes := es.flatMap frame

@[simp] theorem encode_nil : encode [] = [] := rfl

@[simp] theorem encode_cons (e : Entry) (es : List Entry) :
    encode (e :: es) = frame e ++ encode es := rfl

@[simp] theorem encode_append (es fs : List Entry) : encode (es ++ fs) = encode es ++ encode fs :=
  List.flatMap_append

@[simp] theorem length_frame (e : Entry) : (frame e).length = 4 + e.toRecord.size := by
  rw [frame, List.length_append, Bytes.length_leBytes, Record.length_marshal]

theorem toRecord_size (e : Entry) :
    e.toRecord.size = 1 + sov (Crc32.checksumIEEE e.marshal) + (1 + e.size + sov e.size) := by
  simp only [Entry.toRecord, Record.size, Entry.length_marshal]

theorem size_lt_toRecord_size (e : Entry) : e.size < e.toRecord.size := by
  rw [toRecord_size]
  omega

theorem frame_pos (e : Entry) : 0 < (frame e).length := by
  rw [length_frame]
  omega

/-- The records of a batch are those of its entries, and the size computed for
it is the number of bytes written. -/
theorem entriesToRecords_eq : ∀ es : List Entry,
    entriesToRecords es = (es.map Entry.toRecord, (encode es).length)
  | [] => rfl
  | e :: es => by
      rw [entriesToRecords, entriesToRecords_eq es]
      simp only [List.map_cons, encode_cons, List.length_append, length_frame, recordLengthSize,
        Prod.mk.injEq, true_and]
      omega

end Kingbus
