import Kingbus.Handshake
import Kingbus.PurgedText

/-! # Answers to a query

A slave asks the server for variables of its master before it registers.  The server answers with
a result set of one row (`BuildSimpleResultset` of `go-mysql`, `writeResultset` of
`mysql/resp.go`): the number of columns, a packet for each column, an EOF packet, a packet for each
row, and an EOF packet again.  The client (`client/resp.go`) reads packets until it sees the EOF
packets and takes columns and rows apart (`FieldData.Parse`, `RowData.ParseText`).

* `readResult_writeResultset`: the client reads any columns and rows as they were written, and
  stops right behind them.
* `query_answered`: the value of a variable arrives as it is, with the one exception of the empty
  string, which arrives as `NULL`.

The client checks the length of what is left before it cuts a string off, so bytes behind a packet
in its buffer are never read, and packets are plain byte strings here. -/

namespace Kingbus

/-! ## The server -/

/-- A value that `BuildSimpleResultset` takes, as far as the server has such values. -/
inductive SqlValue where
  | null
  | int (i : Int64)
  | uint (n : UInt64)
  | text (b : Bytes)
  deriving DecidableEq

/-- `Field`, without a default value. -/
structure Field where
  schema : Bytes := []
  table : Bytes := []
  orgTable : Bytes := []
  name : Bytes
  orgName : Bytes := []
  charset : UInt16 := 0
  columnLength : UInt32 := 0
  type : UInt8
  flag : UInt16 := 0
  decimal : UInt8 := 0
  deriving DecidableEq

/-- `PutLengthEncodedString`. -/
def putLengthEncodedString (b : Bytes) : Bytes := putLengthEncodedInt (UInt64.ofNat b.length) ++ b

/-- `Field.Dump`. -/
def Field.dump (f : Field) : Bytes :=
  putLengthEncodedString (ascii "def") ++ (putLengthEncodedString f.schema ++
    (putLengthEncodedString f.table ++ (putLengthEncodedString f.orgTable ++
      (putLengthEncodedString f.name ++ (putLengthEncodedString f.orgName ++
        (0x0c :: (Bytes.leBytes 2 f.charset.toNat ++ (Bytes.leBytes 4 f.columnLength.toNat ++
          (f.type :: (Bytes.leBytes 2 f.flag.toNat ++ (f.decimal :: [0, 0])))))))))))

/-- `fieldType`. -/
def fieldType : SqlValue → UInt8
  | .null => 6
  | .int _ => 8
  | .uint _ => 8
  | .text _ => 253

/-- `formatField`. -/
def Field.format (f : Field) : SqlValue → Field
  | .int _ => { f with charset := 63, flag := 0x80 ||| 0x01 }
  | .uint _ => { f with charset := 63, flag := 0x80 ||| 0x01 ||| 0x20 }
  | .text _ => { f with charset := 33 }
  | .null => { f with charset := 33 }

/-- `formatTextValue`, `none` for a `nil` slice.  An empty string has no array, and `hack.Slice`
makes a `nil` slice of it. -/
def formatTextValue : SqlValue → Option Bytes
  | .null => none
  | .int i => some (formatInt i.toInt)
  | .uint n => some (Decimal.put 19 n.toNat)
  | .text b => if b = [] then none else some b

/-- One value of a row. -/
def encodeValue : Option Bytes → Bytes
  | none => [0xfb]
  | some b => putLengthEncodedString b

/-- A row. -/
def encodeRow (vs : List (Option Bytes)) : Bytes := vs.flatMap encodeValue

/-- `Resultset` as the server fills it. -/
structure Resultset where
  fields : List Field
  rowDatas : List Bytes

/-- `BuildSimpleTextResultset` of one row. -/
def buildSimpleTextResultset (names : List Bytes) (values : List SqlValue) :
    Except EventFailure Resultset :=
  if values.length ≠ names.length then .error (.error "row %d has %d column not equal %d")
  else
    .ok ⟨List.zipWith (fun name v => Field.format { name := name, type := fieldType v } v)
      names values, [encodeRow (values.map formatTextValue)]⟩

namespace ServerConn

/-- The payload of `writeEOF`. -/
def eofPayload (c : ServerConn) : Bytes :=
  0xfe :: if 0 < c.capability &&& clientProtocol41 then 0 :: 0 :: Bytes.leBytes 2 c.status.toNat
    else []

/-- The payloads of `writeResultset`. -/
def resultsetPayloads (c : ServerConn) (r : Resultset) : List Bytes :=
  putLengthEncodedInt (UInt64.ofNat r.fields.length) :: (r.fields.map Field.dump ++
    c.eofPayload :: (r.rowDatas ++ [c.eofPayload]))

end ServerConn

/-- `WritePacket` for one payload after the other. -/
def BaseConn.writePackets (c : BaseConn) : List Bytes → Except EventFailure BaseConn
  | [] => .ok c
  | p :: ps => (c.writePacket (Bytes.zeros 4 ++ p)).bind fun c => writePackets c ps

/-! ## The client -/

/-- `LengthEnodedString`: the string, whether it is `NULL`, and the number of bytes it takes. -/
def lengthEnodedString (b : Bytes) : Except EventFailure (Bytes × Bool × Nat) :=
  (ofPanic (lengthEncodedInt ⟨b, []⟩)).bind fun r =>
    if r.1 < 1 then .ok ([], b.head? = some 0xfb, r.2)
    else
      let n := Wire.wrap64 (r.2 + Wire.toInt64 r.1)
      if n ≤ b.length then
        if 0 ≤ n then
          (ofPanic (GoSlice.range ⟨b, []⟩ r.2 n.toNat)).map fun s => (s, false, n.toNat)
        else .error (.panic "slice bounds out of range")
      else .error (.error "EOF")

/-- `SkipLengthEnodedString`. -/
def skipLengthEnodedString (b : Bytes) : Except EventFailure Int :=
  (ofPanic (lengthEncodedInt ⟨b, []⟩)).bind fun r =>
    if r.1 < 1 then .ok r.2
    else
      let n := Wire.wrap64 (r.2 + Wire.toInt64 r.1)
      if n ≤ b.length then .ok n else .error (.error "EOF")

/-- `p[pos:]`. -/
def tailFrom (p : Bytes) (pos : Int) : Except EventFailure Bytes :=
  if 0 ≤ pos ∧ pos ≤ p.length then .ok (p.drop pos.toNat)
  else .error (.panic "slice bounds out of range")

/-- `LengthEnodedString(p[pos:])`, with the position behind the string. -/
def stringAt (p : Bytes) (pos : Nat) : Except EventFailure (Bytes × Bool × Nat) :=
  (tailFrom p pos).bind fun b => (lengthEnodedString b).map fun r => (r.1, r.2.1, pos + r.2.2)

/-- `FieldData.Parse` behind the fixed part: there is a default value if there is more. -/
def checkDefault (p : Bytes) (pos : Nat) : Except EventFailure Unit :=
  if pos < p.length then
    (ofPanic (lengthEncodedInt ⟨p.drop pos, []⟩)).bind fun r =>
      let stop := Wire.wrap64 ((pos + r.2 : Nat) + Wire.toInt64 r.1)
      if (p.length : Int) < stop then .error (.error "malform packet error")
      else if stop < (pos + r.2 : Nat) then .error (.panic "slice bounds out of range")
      else .ok ()
  else .ok ()

/-- `FieldData.Parse`. -/
def Field.parse (p : Bytes) : Except EventFailure Field := do
  let pos ← skipLengthEnodedString p
  let _ ← tailFrom p pos
  let (schema, _, pos) ← stringAt p pos.toNat
  let (table, _, pos) ← stringAt p pos
  let (orgTable, _, pos) ← stringAt p pos
  let (name, _, pos) ← stringAt p pos
  let (orgName, _, pos) ← stringAt p pos
  let pos := pos + 1
  let charset ← ofPanic (GoSlice.le ⟨p, []⟩ pos 2)
  let columnLength ← ofPanic (GoSlice.le ⟨p, []⟩ (pos + 2) 4)
  let type ← ofPanic (GoSlice.index ⟨p, []⟩ (pos + 2 + 4))
  let flag ← ofPanic (GoSlice.le ⟨p, []⟩ (pos + 2 + 4 + 1) 2)
  let decimal ← ofPanic (GoSlice.index ⟨p, []⟩ (pos + 2 + 4 + 1 + 2))
  checkDefault p (pos + 2 + 4 + 1 + 2 + 1 + 2)
  return ⟨schema, table, orgTable, name, orgName, UInt16.ofNat charset, UInt32.ofNat columnLength,
    type, UInt16.ofNat flag, decimal⟩

/-- A value of the client.  `ParseFloat` is not evaluated. -/
inductive ClientValue where
  | nil
  | int (i : Int)
  | uint (n : Nat)
  | float (text : Bytes)
  | bytes (b : Bytes)
  deriving DecidableEq

/-- `strconv.ParseUint(s, 10, 64)`. -/
def parseUint (s : Bytes) : Except EventFailure Nat :=
  match Decimal.value s with
  | none => .error (.error "strconv.ParseUint")
  | some n => if n < 2 ^ 64 then .ok n else .error (.error "strconv.ParseUint")

/-- What `ParseText` makes of a string in a column. -/
def Field.value (f : Field) (v : Bytes) : Except EventFailure ClientValue :=
  if f.type = 1 ∨ f.type = 2 ∨ f.type = 9 ∨ f.type = 8 ∨ f.type = 13 then
    if f.flag &&& 0x20 ≠ 0 then (parseUint v).map .uint
    else if (parseInt v).2 then .error (.error "strconv.ParseInt")
    else .ok (.int (parseInt v).1)
  else if f.type = 4 ∨ f.type = 5 then .ok (.float v)
  else .ok (.bytes v)

/-- The loop of `RowData.ParseText`. -/
def parseText (p : Bytes) : Nat → List Field → Except EventFailure (List ClientValue)
  | _, [] => .ok []
  | pos, f :: fs => do
      let (v, isNull, pos) ← stringAt p pos
      let value ← if isNull then .ok .nil else f.value v
      let values ← parseText p pos fs
      return value :: values

/-- What a result set is for the client. -/
structure ClientRows where
  fields : List Field
  values : List (List ClientValue)

/-- `isEOFPacket`. -/
def isEOFPacket (data : Bytes) : Except EventFailure Bool :=
  (ofPanic (GoSlice.index ⟨data, []⟩ 0)).map fun first => first = 0xfe ∧ data.length ≤ 5

namespace ClientConn

/-- The status of an EOF packet. -/
def handleEOF (c : ClientConn) (data : Bytes) : Except EventFailure ClientConn :=
  if 0 < c.capability &&& clientProtocol41 then
    (ofPanic (GoSlice.le ⟨data, []⟩ 3 2)).map fun status => { c with status := UInt16.ofNat status }
  else .ok c

/-- `readResultColumns`, with the columns that are read already.  Every packet takes bytes off the
input, so as much fuel as the input has bytes is enough. -/
def readResultColumns (count : Nat) : Nat → ClientConn → ReadConn → List Field →
    ReadConn × Except EventFailure (ClientConn × List Field)
  | 0, _, r, _ => (r, .error (.panic "out of fuel"))
  | fuel + 1, c, r, fields =>
      match r.clientReadPacket with
      | (r, .error e) => (r, .error e)
      | (r, .ok data) =>
          match isEOFPacket data with
          | .error e => (r, .error e)
          | .ok true =>
              (r, (c.handleEOF data).bind fun c =>
                if fields.length ≠ count then .error (.error "malform packet error")
                else .ok (c, fields))
          | .ok false =>
              if fields.length < count then
                match Field.parse data with
                | .error e => (r, .error e)
                | .ok f => readResultColumns count fuel c r (fields ++ [f])
              else (r, .error (.panic "index out of range"))

/-- The first loop of `readResultRows`. -/
def readRowDatas : Nat → ClientConn → ReadConn → List Bytes →
    ReadConn × Except EventFailure (ClientConn × List Bytes)
  | 0, _, r, _ => (r, .error (.panic "out of fuel"))
  | fuel + 1, c, r, rows =>
      match r.clientReadPacket with
      | (r, .error e) => (r, .error e)
      | (r, .ok data) =>
          match isEOFPacket data with
          | .error e => (r, .error e)
          | .ok true => (r, (c.handleEOF data).map (·, rows))
          | .ok false => readRowDatas fuel c r (rows ++ [data])

/-- The second loop of `readResultRows`. -/
def parseRows (fields : List Field) : List Bytes → Except EventFailure (List (List ClientValue))
  | [] => .ok []
  | row :: rows => do
      let values ← parseText row 0 fields
      let more ← parseRows fields rows
      return values :: more

/-- `readResultset`. -/
def readResultset (c : ClientConn) (r : ReadConn) (data : Bytes) :
    ReadConn × Except EventFailure (ClientConn × ClientRows) :=
  match lengthEncodedInt ⟨data, []⟩ with
  | none => (r, .error (.panic "index out of range"))
  | some (count, n) =>
      if n ≠ data.length then (r, .error (.error "malform packet error"))
      else
        match readResultColumns count (r.input.length + 1) c r [] with
        | (r, .error e) => (r, .error e)
        | (r, .ok (c, fields)) =>
            match readRowDatas (r.input.length + 1) c r [] with
            | (r, .error e) => (r, .error e)
            | (r, .ok (c, rows)) => (r, (parseRows fields rows).map fun values => (c, ⟨fields, values⟩))

/-- `readResult`: the rows are missing if the server says OK.  The spare bytes are those behind
the first packet. -/
def readResult (c : ClientConn) (spare : Bytes) (r : ReadConn) :
    ReadConn × Except EventFailure (Except MyError (ClientConn × Option ClientRows)) :=
  match r.clientReadPacket with
  | (r, .error e) => (r, .error e)
  | (r, .ok data) =>
      match GoSlice.index ⟨data, spare⟩ 0 with
      | none => (r, .error (.panic "index out of range"))
      | some first =>
          if first = 0x00 then
            (r, (ofPanic (c.handleOKPacket ⟨data, spare⟩)).map fun c => .ok (c, none))
          else if first = 0xff then
            (r, (ofPanic (c.handleErrorPacket ⟨data, spare⟩)).map .error)
          else if first = 0xfb then (r, .error (.error "malform packet error"))
          else
            let (r, result) := c.readResultset r data
            (r, result.map fun x => .ok (x.1, some x.2))

end ClientConn

/-! ## Strings and columns -/

section Strings
variable {p v rest : Bytes} {pos : Nat}

theorem length_putLengthEncodedInt (n : UInt64) :
    0 < (putLengthEncodedInt n).length ∧ (putLengthEncodedInt n).length ≤ 9 := by
  unfold putLengthEncodedInt
  repeat' split
  all_goals simp [Bytes.length_leBytes]

theorem length_putLengthEncodedString (b : Bytes) :
    b.length < (putLengthEncodedString b).length := by
  rw [putLengthEncodedString, List.length_append]
  have h := (length_putLengthEncodedInt (UInt64.ofNat b.length)).1
  omega

theorem lengthEncodedInt_length (hv : v.length < 2 ^ 62) (spare : Bytes) :
    lengthEncodedInt ⟨putLengthEncodedInt (UInt64.ofNat v.length) ++ rest, spare⟩ =
      some (v.length, (putLengthEncodedInt (UInt64.ofNat v.length)).length) := by
  rw [lengthEncodedInt_put, UInt64.toNat_ofNat_of_lt' (Nat.lt_trans hv (by decide))]

/-- The end of a string, in the arithmetic of `int`. -/
theorem wrap64_length (hv : v.length < 2 ^ 62) (n : UInt64) :
    Wire.wrap64 ((putLengthEncodedInt n).length + Wire.toInt64 v.length) =
      ((putLengthEncodedInt n).length + v.length : Nat) := by
  have hle := (length_putLengthEncodedInt n).2
  rw [Wire.toInt64_of_lt (by omega), wrap64_of_lt (by omega) (by omega)]
  exact (Int.natCast_add ..).symm

theorem skipLengthEnodedString_put (hv : v.length < 2 ^ 62) (rest : Bytes) :
    skipLengthEnodedString (putLengthEncodedString v ++ rest) =
      .ok ((putLengthEncodedString v).length : Nat) := by
  rw [skipLengthEnodedString, putLengthEncodedString, List.append_assoc,
    lengthEncodedInt_length hv]
  by_cases h0 : v.length < 1
  · have hnil : v = [] := List.length_eq_zero_iff.mp (by omega)
    subst hnil
    rfl
  · simp only [ofPanic, Except.bind, if_neg h0, wrap64_length hv]
    rw [if_pos (by simp only [List.length_append]; omega), List.length_append]

theorem lengthEnodedString_put (hv : v.length < 2 ^ 62) (rest : Bytes) :
    lengthEnodedString (putLengthEncodedString v ++ rest) =
      .ok (v, false, (putLengthEncodedString v).length) := by
  rw [lengthEnodedString, putLengthEncodedString, List.append_assoc, lengthEncodedInt_length hv]
  by_cases h0 : v.length < 1
  · have hnil : v = [] := List.length_eq_zero_iff.mp (by omega)
    subst hnil
    rfl
  · simp only [ofPanic, Except.bind, if_neg h0, wrap64_length hv]
    rw [if_pos (by simp only [List.length_append]; omega), if_pos (Int.natCast_nonneg _),
      Int.toNat_natCast, GoSlice.range_append rfl rfl, List.length_append]
    rfl

/-- What stands there is read, and the rest stands behind it. -/
theorem stringAt_complete (hv : v.length < 2 ^ 62)
    (h : p.drop pos = putLengthEncodedString v ++ rest) :
    stringAt p pos = .ok (v, false, pos + (putLengthEncodedString v).length) ∧
      p.drop (pos + (putLengthEncodedString v).length) = rest := by
  have hlen : (p.drop pos).length = (putLengthEncodedString v).length + rest.length := by
    rw [h, List.length_append]
  have hpos := length_putLengthEncodedString v
  rw [List.length_drop] at hlen
  constructor
  · rw [stringAt, tailFrom, if_pos (by omega), Int.toNat_natCast, h]
    simp only [Except.bind, lengthEnodedString_put hv, Except.map]
  · rw [← List.drop_drop, h, List.drop_left]

theorem tailFrom_of_stringAt {r : Bytes × Bool × Nat} (h : stringAt p pos = .ok r) :
    ∃ b, tailFrom p pos = .ok b := by
  cases htail : tailFrom p pos with
  | ok b => exact ⟨b, rfl⟩
  | error e =>
      rw [stringAt, htail] at h
      cases h

theorem stringAt_null (h : p.drop pos = [0xfb] ++ rest) :
    stringAt p pos = .ok ([], true, pos + 1) ∧ p.drop (pos + 1) = rest := by
  have hlen : (p.drop pos).length = 1 + rest.length := by
    rw [h, List.length_append]
    rfl
  rw [List.length_drop] at hlen
  constructor
  · rw [stringAt, tailFrom, if_pos (by omega), Int.toNat_natCast, h]
    rfl
  · rw [← List.drop_drop, h]
    rfl

end Strings

/-- The strings of a column fit into memory. -/
structure Field.Fits (f : Field) : Prop where
  schema : f.schema.length < 2 ^ 62
  table : f.table.length < 2 ^ 62
  orgTable : f.orgTable.length < 2 ^ 62
  name : f.name.length < 2 ^ 62
  orgName : f.orgName.length < 2 ^ 62

theorem Field.fits_of_length {f : Field} (h : f.dump.length < 2 ^ 62) : f.Fits := by
  have hstring := length_putLengthEncodedString
  simp only [Field.dump, List.length_append, List.length_cons] at h
  have h1 := hstring f.schema
  have h2 := hstring f.table
  have h3 := hstring f.orgTable
  have h4 := hstring f.name
  have h5 := hstring f.orgName
  exact ⟨by omega, by omega, by omega, by omega, by omega⟩

/-- **A column is read as it was written.** -/
theorem Field.parse_dump {f : Field} (hf : f.Fits) : Field.parse f.dump = .ok f := by
  obtain ⟨schema, table, orgTable, name, orgName, charset, columnLength, type, flag, decimal⟩ := f
  obtain ⟨hschema, htable, horgTable, hname, horgName⟩ := hf
  dsimp only at hschema htable horgTable hname horgName
  have hdef : (ascii "def").length < 2 ^ 62 := by decide
  generalize hp : Field.dump ⟨schema, table, orgTable, name, orgName, charset, columnLength, type,
    flag, decimal⟩ = p
  -- from the front: behind each part stands the next one
  obtain ⟨-, r1⟩ := @stringAt_complete p _ _ 0 hdef hp.symm
  obtain ⟨h2, r2⟩ := stringAt_complete hschema r1
  obtain ⟨h3, r3⟩ := stringAt_complete htable r2
  obtain ⟨h4, r4⟩ := stringAt_complete horgTable r3
  obtain ⟨h5, r5⟩ := stringAt_complete hname r4
  obtain ⟨h6, r6⟩ := stringAt_complete horgName r5
  obtain ⟨-, r7⟩ := GoSlice.index_complete (s := ⟨p, []⟩) r6
  obtain ⟨h8, r8⟩ := GoSlice.le_complete (by decide) charset.toNat_lt r7
  obtain ⟨h9, r9⟩ := GoSlice.le_complete (by decide) columnLength.toNat_lt r8
  obtain ⟨h10, r10⟩ := GoSlice.index_complete r9
  obtain ⟨h11, r11⟩ := GoSlice.le_complete (by decide) flag.toNat_lt r10
  obtain ⟨h12, r12⟩ := GoSlice.index_complete r11
  have hskip : skipLengthEnodedString p = .ok ((putLengthEncodedString (ascii "def")).length : Nat) := by
    rw [← hp]
    exact skipLengthEnodedString_put hdef _
  rw [Nat.zero_add] at h2 h3 h4 h5 h6 h8 h9 h10 h11 h12 r12
  generalize (putLengthEncodedString (ascii "def")).length = q1 at *
  generalize q1 + (putLengthEncodedString schema).length = q2 at *
  generalize q2 + (putLengthEncodedString table).length = q3 at *
  generalize q3 + (putLengthEncodedString orgTable).length = q4 at *
  generalize q4 + (putLengthEncodedString name).length = q5 at *
  generalize q5 + (putLengthEncodedString orgName).length = q6 at *
  have hlen : p.length = q6 + 1 + 2 + 4 + 1 + 2 + 1 + 2 := by
    have h := congrArg List.length r12
    rw [List.length_drop] at h
    simp only [List.length_cons, List.length_nil] at h
    omega
  have hdefault : checkDefault p (q6 + 1 + 2 + 4 + 1 + 2 + 1 + 2) = .ok () := by
    rw [checkDefault, if_neg (by omega)]
  obtain ⟨b, htail⟩ := tailFrom_of_stringAt h2
  simp only [Field.parse, hskip, htail, bind, Except.bind, Int.toNat_natCast, h2, h3, h4, h5, h6, h8,
    h9, h10, h11, h12, ofPanic, hdefault, UInt16.ofNat_toNat, UInt32.ofNat_toNat]
  rfl

/-! ## Rows -/

/-- What the client makes of a value in a column. -/
def Field.read (f : Field) : Option Bytes → Except EventFailure ClientValue
  | none => .ok .nil
  | some v => f.value v

/-- What the client makes of a row. -/
def readRow : List Field → List (Option Bytes) → Except EventFailure (List ClientValue)
  | f :: fs, v :: vs => do
      let value ← f.read v
      let values ← readRow fs vs
      return value :: values
  | _, _ => .ok []

/-- **A row is read as it was written.** -/
theorem parseText_encodeRow {p rest : Bytes} {vs : List (Option Bytes)}
    (hfit : ∀ v ∈ vs, ∀ b ∈ v, b.length < 2 ^ 62) :
    ∀ {fs : List Field} {pos : Nat}, fs.length = vs.length →
      p.drop pos = encodeRow vs ++ rest → parseText p pos fs = readRow fs vs := by
  induction vs with
  | nil =>
      intro fs pos hlen _
      rw [List.length_eq_zero_iff.mp hlen]
      rfl
  | cons v vs ih =>
      intro fs pos hlen hp
      cases fs with
      | nil => cases hlen
      | cons f fs =>
          obtain ⟨hv, hvs⟩ := List.forall_mem_cons.mp hfit
          have hlen' : fs.length = vs.length := Nat.succ.inj hlen
          rw [encodeRow, List.flatMap_cons, List.append_assoc] at hp
          cases v with
          | none =>
              obtain ⟨hread, hrest⟩ := stringAt_null hp
              simp only [parseText, hread, bind, Except.bind, if_true, ih hvs hlen' hrest, readRow,
                Field.read]
          | some b =>
              obtain ⟨hread, hrest⟩ := stringAt_complete (hv b rfl) hp
              simp only [parseText, hread, bind, Except.bind, Bool.false_eq_true, if_false,
                ih hvs hlen' hrest, readRow, Field.read]

/-! ## Packets -/

section Packets
variable {seq : UInt8} {w rest : Bytes}

theorem writePackets_eq : ∀ {ps : List Bytes} {seq : UInt8} {w : Bytes},
    (∀ p ∈ ps, p.length < maxPayloadLen) →
    BaseConn.writePackets ⟨seq, w⟩ ps =
      .ok ⟨seq + UInt8.ofNat ps.length, w ++ Packets.stream seq ps⟩ := by
  intro ps
  induction ps with
  | nil =>
      intro seq w _
      have hseq : seq + UInt8.ofNat ([] : List Bytes).length = seq := UInt8.add_zero seq
      rw [BaseConn.writePackets, Packets.stream, List.append_nil, hseq]
  | cons p ps ih =>
      intro seq w hps
      obtain ⟨hp, hps⟩ := List.forall_mem_cons.mp hps
      rw [BaseConn.writePackets, writePacket_short_append hp]
      change BaseConn.writePackets _ ps = _
      rw [ih hps, Packets.stream, List.append_assoc, add_one_add_ofNat, List.length_cons]

theorem isEOFPacket_eofPayload (c : ServerConn) : isEOFPacket c.eofPayload = .ok true := by
  rw [ServerConn.eofPayload]
  split <;> rfl

theorem handleEOF_eofPayload {c : ClientConn} {s : ServerConn}
    (hc : 0 < c.capability &&& clientProtocol41) (hs : 0 < s.capability &&& clientProtocol41) :
    c.handleEOF s.eofPayload = .ok { c with status := s.status } := by
  have hread : GoSlice.le ⟨s.eofPayload, []⟩ 3 2 = some s.status.toNat := by
    rw [ServerConn.eofPayload, if_pos hs]
    exact GoSlice.le_append (a := [0xfe, 0, 0]) (c := []) rfl s.status.toNat_lt
  rw [ClientConn.handleEOF, if_pos hc, hread]
  simp only [ofPanic, Except.map, UInt16.ofNat_toNat]

/-- A payload that the client does not take for an EOF packet. -/
def NotEOF (p : Bytes) : Prop := p ≠ [] ∧ (p.head? = some 0xfe → 5 < p.length)

theorem isEOFPacket_of_notEOF {p : Bytes} (h : NotEOF p) : isEOFPacket p = .ok false := by
  obtain ⟨hne, hlong⟩ := h
  cases p with
  | nil => exact absurd rfl hne
  | cons x t =>
      have hfalse : ¬ (x = 0xfe ∧ (x :: t).length ≤ 5) := by
        rintro ⟨rfl, hle⟩
        have := hlong rfl
        omega
      simp only [isEOFPacket, GoSlice.index, List.getElem?_cons_zero, ofPanic, Except.map, hfalse,
        decide_false]

theorem Field.notEOF_dump (f : Field) : NotEOF f.dump := by
  constructor
  · exact List.cons_ne_nil _ _
  · intro h
    have hhead : f.dump.head? = some 3 := rfl
    rw [hhead] at h
    cases h

theorem stream_nil (seq : UInt8) : Packets.stream seq [] = [] := rfl

/-- The first packet of a stream is read. -/
theorem clientReadPacket_stream {p : Bytes} {ps : List Bytes} (hp : p.length < maxPayloadLen) :
    ReadConn.clientReadPacket ⟨seq, Packets.stream seq (p :: ps) ++ rest⟩ =
      (⟨seq + 1, Packets.stream (seq + 1) ps ++ rest⟩, .ok p) := by
  rw [Packets.stream, List.append_assoc]
  exact clientReadPacket_frame_append hp _

theorem length_eofPayload (s : ServerConn) : s.eofPayload.length < maxPayloadLen := by
  rw [ServerConn.eofPayload]
  split
  · rw [List.length_cons, List.length_cons, List.length_cons, Bytes.length_leBytes]
    decide
  · decide

section Loops
variable {c : ClientConn} {s : ServerConn} {more : List Bytes}
  (hc : 0 < c.capability &&& clientProtocol41) (hs : 0 < s.capability &&& clientProtocol41)
include hc hs

/-- The columns are read up to the EOF packet behind them. -/
theorem readResultColumns_stream {fields : List Field} :
    ∀ {seq : UInt8} {fuel : Nat} {read : List Field},
      (∀ f ∈ fields, f.dump.length < maxPayloadLen) → fields.length < fuel →
      c.readResultColumns (read.length + fields.length) fuel
          ⟨seq, Packets.stream seq (fields.map Field.dump ++ s.eofPayload :: more) ++ rest⟩ read =
        (⟨seq + UInt8.ofNat (fields.length + 1),
            Packets.stream (seq + UInt8.ofNat (fields.length + 1)) more ++ rest⟩,
          .ok ({ c with status := s.status }, read ++ fields)) := by
  induction fields with
  | nil =>
      intro seq fuel read _ hfuel
      cases fuel with
      | zero => exact absurd hfuel (Nat.not_lt_zero _)
      | succ fuel =>
          rw [List.map_nil, List.nil_append]
          simp only [ClientConn.readResultColumns, clientReadPacket_stream (length_eofPayload s),
            isEOFPacket_eofPayload, handleEOF_eofPayload hc hs, Except.bind, List.length_nil,
            Nat.add_zero, ne_eq, not_true_eq_false, if_false, List.append_nil]
          rfl
  | cons f fields ih =>
      intro seq fuel read hfit hfuel
      obtain ⟨hf, hfields⟩ := List.forall_mem_cons.mp hfit
      have hmax : maxPayloadLen < 2 ^ 62 := by decide
      have hparse := Field.parse_dump (Field.fits_of_length (Nat.lt_trans hf hmax))
      cases fuel with
      | zero => exact absurd hfuel (Nat.not_lt_zero _)
      | succ fuel =>
          have hroom : read.length < read.length + (f :: fields).length := by
            rw [List.length_cons]
            omega
          have hcount : read.length + (f :: fields).length = (read ++ [f]).length + fields.length := by
            rw [List.length_append, List.length_singleton, List.length_cons]
            omega
          have hrest := @ih (seq + 1) fuel (read ++ [f]) hfields (Nat.lt_of_succ_lt_succ hfuel)
          rw [List.map_cons, List.cons_append]
          simp only [ClientConn.readResultColumns, clientReadPacket_stream hf,
            isEOFPacket_of_notEOF f.notEOF_dump, if_pos hroom, hparse]
          rw [hcount, hrest, add_one_add_ofNat, List.append_assoc, List.singleton_append,
            List.length_cons]

/-- So are the rows. -/
theorem readRowDatas_stream {rows : List Bytes} :
    ∀ {seq : UInt8} {fuel : Nat} {read : List Bytes},
      (∀ row ∈ rows, row.length < maxPayloadLen ∧ NotEOF row) → rows.length < fuel →
      c.readRowDatas fuel
          ⟨seq, Packets.stream seq (rows ++ s.eofPayload :: more) ++ rest⟩ read =
        (⟨seq + UInt8.ofNat (rows.length + 1),
            Packets.stream (seq + UInt8.ofNat (rows.length + 1)) more ++ rest⟩,
          .ok ({ c with status := s.status }, read ++ rows)) := by
  induction rows with
  | nil =>
      intro seq fuel read _ hfuel
      cases fuel with
      | zero => exact absurd hfuel (Nat.not_lt_zero _)
      | succ fuel =>
          rw [List.nil_append]
          simp only [ClientConn.readRowDatas, clientReadPacket_stream (length_eofPayload s),
            isEOFPacket_eofPayload, handleEOF_eofPayload hc hs, Except.map, List.append_nil]
          rfl
  | cons row rows ih =>
      intro seq fuel read hfit hfuel
      obtain ⟨⟨hrow, hno⟩, hrows⟩ := List.forall_mem_cons.mp hfit
      cases fuel with
      | zero => exact absurd hfuel (Nat.not_lt_zero _)
      | succ fuel =>
          have hrest := @ih (seq + 1) fuel (read ++ [row]) hrows (Nat.lt_of_succ_lt_succ hfuel)
          rw [List.cons_append]
          simp only [ClientConn.readRowDatas, clientReadPacket_stream hrow,
            isEOFPacket_of_notEOF hno]
          rw [hrest, add_one_add_ofNat, List.append_assoc, List.singleton_append, List.length_cons]

end Loops

end Packets

/-! ## Result sets -/

/-- What the client makes of all rows. -/
def readRows (fields : List Field) :
    List (List (Option Bytes)) → Except EventFailure (List (List ClientValue))
  | [] => .ok []
  | row :: rows => do
      let values ← readRow fields row
      let more ← readRows fields rows
      return values :: more

theorem head_putLengthEncodedInt (n : UInt64) :
    ∃ first t, putLengthEncodedInt n = first :: t ∧ first ≠ 0xff ∧ first ≠ 0xfb ∧
      (first = 0 → n = 0) ∧ (first = 0xfe → 0xffffff < n.toNat) := by
  have hsmall : n ≤ 250 → n.toUInt8.toNat = n.toNat := by
    intro h
    have hle : n.toNat ≤ 250 := UInt64.le_iff_toNat_le.mp h
    rw [UInt64.toNat_toUInt8]
    omega
  rw [putLengthEncodedInt]
  split
  · next h =>
    have hle : n.toNat ≤ 250 := UInt64.le_iff_toNat_le.mp h
    have hne : ∀ x : UInt8, 250 < x.toNat → n.toUInt8 ≠ x := by
      intro x hx heq
      have := hsmall h
      rw [heq] at this
      omega
    refine ⟨_, _, rfl, hne _ (by decide), hne _ (by decide), fun h0 => ?_, fun hx => ?_⟩
    · have := hsmall h
      rw [h0] at this
      exact UInt64.toNat_inj.mp this.symm
    · exact absurd hx (hne _ (by decide))
  split
  · exact ⟨_, _, rfl, by decide, by decide, fun h => absurd h (by decide),
      fun h => absurd h (by decide)⟩
  split
  · exact ⟨_, _, rfl, by decide, by decide, fun h => absurd h (by decide),
      fun h => absurd h (by decide)⟩
  · next h =>
    refine ⟨_, _, rfl, by decide, by decide, fun h => absurd h (by decide), fun _ => ?_⟩
    exact Nat.lt_of_not_le fun hle => h (UInt64.le_iff_toNat_le.mpr hle)

theorem notEOF_encodeRow {vs : List (Option Bytes)} (hne : vs ≠ [])
    (hfit : ∀ v ∈ vs, ∀ b ∈ v, b.length < 2 ^ 62) : NotEOF (encodeRow vs) := by
  cases vs with
  | nil => exact absurd rfl hne
  | cons v vs =>
      rw [encodeRow, List.flatMap_cons]
      cases v with
      | none =>
          refine ⟨List.cons_ne_nil _ _, fun h => ?_⟩
          cases h
      | some b =>
          have hb : b.length < 2 ^ 62 := hfit (some b) List.mem_cons_self b rfl
          obtain ⟨first, t, hput, -, -, -, hlong⟩ := head_putLengthEncodedInt (UInt64.ofNat b.length)
          rw [encodeValue, putLengthEncodedString, hput]
          refine ⟨List.cons_ne_nil _ _, fun h => ?_⟩
          have hfirst : first = 0xfe := Option.some.inj h
          have hlen := hlong hfirst
          rw [UInt64.toNat_ofNat_of_lt' (Nat.lt_trans hb (by decide))] at hlen
          simp only [List.length_append, List.length_cons]
          omega

theorem fit_of_length_encodeRow {vs : List (Option Bytes)} (h : (encodeRow vs).length < maxPayloadLen) :
    ∀ v ∈ vs, ∀ b ∈ v, b.length < 2 ^ 62 := by
  have hmax : maxPayloadLen < 2 ^ 62 := by decide
  induction vs with
  | nil => exact List.forall_mem_nil _
  | cons v vs ih =>
      rw [encodeRow, List.flatMap_cons, List.length_append] at h
      refine List.forall_mem_cons.mpr ⟨fun b hb => ?_, ih (Nat.lt_of_le_of_lt (Nat.le_add_left ..) h)⟩
      cases hb
      have := length_putLengthEncodedString b
      rw [encodeValue] at h
      omega

theorem parseRows_encodeRow {fields : List Field} {rows : List (List (Option Bytes))}
    (hrows : ∀ row ∈ rows, row.length = fields.length ∧ (encodeRow row).length < maxPayloadLen) :
    ClientConn.parseRows fields (rows.map encodeRow) = readRows fields rows := by
  induction rows with
  | nil => rfl
  | cons row rows ih =>
      obtain ⟨⟨hlen, hfit⟩, hrows⟩ := List.forall_mem_cons.mp hrows
      have hrow : parseText (encodeRow row) 0 fields = readRow fields row :=
        @parseText_encodeRow _ [] _ (fit_of_length_encodeRow hfit) _ 0 hlen.symm
          (List.append_nil _).symm
      rw [List.map_cons, ClientConn.parseRows, hrow, ih hrows, readRows]

/-- **Columns and rows are read as they were written**, and nothing behind them. -/
theorem readResult_writeResultset {c : ClientConn} {s : ServerConn}
    (hc : 0 < c.capability &&& clientProtocol41) (hs : 0 < s.capability &&& clientProtocol41)
    {fields : List Field} {rows : List (List (Option Bytes))} (hne : fields ≠ [])
    (hcount : fields.length < 2 ^ 62) (hfields : ∀ f ∈ fields, f.dump.length < maxPayloadLen)
    (hrows : ∀ row ∈ rows, row.length = fields.length ∧ (encodeRow row).length < maxPayloadLen)
    (seq : UInt8) (rest spare : Bytes) :
    c.readResult spare
        ⟨seq, Packets.stream seq (s.resultsetPayloads ⟨fields, rows.map encodeRow⟩) ++ rest⟩ =
      (⟨seq + UInt8.ofNat (s.resultsetPayloads ⟨fields, rows.map encodeRow⟩).length, rest⟩,
        (readRows fields rows).map fun values =>
          .ok ({ c with status := s.status }, some ⟨fields, values⟩)) := by
  have hlen : (UInt64.ofNat fields.length).toNat = fields.length :=
    UInt64.toNat_ofNat_of_lt' (Nat.lt_trans hcount (by decide))
  obtain ⟨first, t, hput, hff, hfb, hzero, -⟩ :=
    head_putLengthEncodedInt (UInt64.ofNat fields.length)
  have hfirst : first ≠ 0 := by
    intro h0
    have h := congrArg UInt64.toNat (hzero h0)
    rw [hlen] at h
    exact hne (List.length_eq_zero_iff.mp h)
  have hshort : (first :: t).length < maxPayloadLen := by
    rw [← hput]
    exact Nat.lt_of_le_of_lt (length_putLengthEncodedInt _).2 (by decide)
  have hread : lengthEncodedInt ⟨first :: t, []⟩ = some (fields.length, (first :: t).length) := by
    have h := @lengthEncodedInt_put [] [] (UInt64.ofNat fields.length)
    rwa [List.append_nil, hput, hlen] at h
  have hrowDatas : ∀ row ∈ rows.map encodeRow, row.length < maxPayloadLen ∧ NotEOF row := by
    intro row hrow
    obtain ⟨vs, hvs, rfl⟩ := List.mem_map.mp hrow
    obtain ⟨hsame, hfit⟩ := hrows vs hvs
    refine ⟨hfit, notEOF_encodeRow (fun hnil => hne ?_) (fit_of_length_encodeRow hfit)⟩
    rw [hnil] at hsame
    exact List.length_eq_zero_iff.mp hsame.symm
  have hpayloads : s.resultsetPayloads ⟨fields, rows.map encodeRow⟩ = (first :: t) ::
      (fields.map Field.dump ++ s.eofPayload :: (rows.map encodeRow ++ [s.eofPayload])) := by
    rw [ServerConn.resultsetPayloads, hput]
  have hseq : seq + 1 + UInt8.ofNat (fields.length + 1) + UInt8.ofNat (rows.length + 1) =
      seq + UInt8.ofNat (s.resultsetPayloads ⟨fields, rows.map encodeRow⟩).length := by
    rw [add_one_add_ofNat, UInt8.add_assoc, ← UInt8.ofNat_add]
    simp only [hpayloads, List.length_cons, List.length_append, List.length_map, List.length_nil]
    congr 2
    omega
  rw [← hseq, hpayloads]
  -- the two loops, one behind the other
  have hcolumns : ∀ fuel, fields.length < fuel → _ := fun fuel =>
    @readResultColumns_stream rest c s (rows.map encodeRow ++ [s.eofPayload]) hc hs fields (seq + 1)
      fuel [] hfields
  have hrowsRead : ∀ fuel, (rows.map encodeRow).length < fuel → _ := fun fuel =>
    @readRowDatas_stream rest { c with status := s.status } s [] hc hs (rows.map encodeRow)
      (seq + 1 + UInt8.ofNat (fields.length + 1)) fuel [] hrowDatas
  simp only [List.length_nil, Nat.zero_add, List.nil_append] at hcolumns
  simp only [List.nil_append, List.length_map, stream_nil] at hrowsRead
  rw [ClientConn.readResult, clientReadPacket_stream hshort]
  simp only [GoSlice.index, List.getElem?_cons_zero, if_neg hfirst, if_neg hff, if_neg hfb,
    ClientConn.readResultset, hread, ne_eq, not_true_eq_false, if_false]
  rw [hcolumns _ ?_]
  · simp only
    rw [hrowsRead _ ?_]
    · simp only [parseRows_encodeRow hrows]
      cases readRows fields rows with
      | error e => rfl
      | ok values => rfl
    · have h := Packets.length_le_stream (rows.map encodeRow ++ [s.eofPayload])
        (seq + 1 + UInt8.ofNat (fields.length + 1))
      rw [List.length_append, List.length_map] at h
      rw [List.length_append]
      omega
  · have h := Packets.length_le_stream (fields.map Field.dump ++ s.eofPayload ::
      (rows.map encodeRow ++ [s.eofPayload])) (seq + 1)
    rw [List.length_append, List.length_map] at h
    rw [List.length_append]
    omega

/-- `sampleServer` behind the handshake. -/
def servedServer : ServerConn := { sampleServer with capability := clientProtocol41 }

/-- Its client. -/
def servedClient : ClientConn := { sampleClient with capability := clientProtocol41 }

/-- The value as the client has it. -/
def SqlValue.arrives : SqlValue → ClientValue
  | .null => .nil
  | .int i => .int i.toInt
  | .uint n => .uint n.toNat
  | .text b => if b = [] then .nil else .bytes b

/-- The column of a value. -/
def valueField (name : Bytes) (v : SqlValue) : Field :=
  Field.format { name := name, type := fieldType v } v

theorem parseInt_formatInt {i : Int} (hlo : -2 ^ 63 ≤ i) (hhi : i < 2 ^ 63) :
    parseInt (formatInt i) = (i, false) := by
  by_cases hneg : i < 0
  · obtain ⟨n, hn⟩ := Int.eq_ofNat_of_zero_le (a := -i) (by omega)
    have hput : (-i).toNat = n := by omega
    rw [formatInt_of_neg hneg, hput]
    simp only [parseInt, List.head?_cons, true_or, if_true, List.tail_cons,
      Decimal.value_put (show n < 10 ^ (19 + 1) by omega)]
    rw [if_pos (by omega), ← hn, Int.neg_neg]
  · obtain ⟨n, rfl⟩ := Int.eq_ofNat_of_zero_le (a := i) (by omega)
    rw [formatInt_of_nonneg (by omega), Int.toNat_natCast, parseInt_put (by omega),
      if_pos (by omega)]

theorem parseUint_put {n : Nat} (h : n < 2 ^ 64) : parseUint (Decimal.put 19 n) = .ok n := by
  rw [parseUint, Decimal.value_put (by omega)]
  exact if_pos h

/-- What is printed for a column is read in the column. -/
theorem read_formatTextValue (name : Bytes) (v : SqlValue) :
    (valueField name v).read (formatTextValue v) = .ok v.arrives := by
  cases v with
  | null => rfl
  | int i =>
      have hparse := parseInt_formatInt i.le_toInt i.toInt_lt
      have htype : (valueField name (.int i)).type = 8 := rfl
      have hflag : (valueField name (.int i)).flag = 0x80 ||| 0x01 := rfl
      rw [formatTextValue, Field.read, Field.value, if_pos (by simp [htype]),
        if_neg (by rw [hflag]; decide), hparse]
      rfl
  | uint n =>
      have htype : (valueField name (.uint n)).type = 8 := rfl
      have hflag : (valueField name (.uint n)).flag = 0x80 ||| 0x01 ||| 0x20 := rfl
      rw [formatTextValue, Field.read, Field.value, if_pos (by simp [htype]),
        if_pos (by rw [hflag]; decide), parseUint_put n.toNat_lt]
      rfl
  | text b =>
      rw [formatTextValue, SqlValue.arrives]
      by_cases hb : b = []
      · rw [if_pos hb, if_pos hb]
        rfl
      · rw [if_neg hb, if_neg hb]
        rfl

/-- The server answers with one value: column and row fit into a packet each. -/
structure SqlValue.Short (v : SqlValue) (name : Bytes) : Prop where
  name : (valueField name v).dump.length < maxPayloadLen
  value : (encodeRow [formatTextValue v]).length < maxPayloadLen

/-- **The value of a variable arrives.** -/
theorem query_answered {c : ClientConn} {s : ServerConn}
    (hc : 0 < c.capability &&& clientProtocol41) (hs : 0 < s.capability &&& clientProtocol41)
    {name : Bytes} {v : SqlValue} (hshort : v.Short name) (seq : UInt8) (rest spare : Bytes) :
    ∃ r, buildSimpleTextResultset [name] [v] = .ok r ∧
      (∀ p ∈ s.resultsetPayloads r, p.length < maxPayloadLen) ∧
      c.readResult spare ⟨seq, Packets.stream seq (s.resultsetPayloads r) ++ rest⟩ =
        (⟨seq + 5, rest⟩, .ok (.ok ({ c with status := s.status },
          some ⟨[valueField name v], [[v.arrives]]⟩))) := by
  have hread := @readResult_writeResultset c s hc hs [valueField name v] [[formatTextValue v]]
    (List.cons_ne_nil _ _) (by rw [List.length_singleton]; decide)
    (List.forall_mem_singleton.mpr hshort.name) (List.forall_mem_singleton.mpr ⟨rfl, hshort.value⟩)
    seq rest spare
  have hrows : readRows [valueField name v] [[formatTextValue v]] = .ok [[v.arrives]] := by
    simp only [readRows, readRow, read_formatTextValue, bind, Except.bind]
    rfl
  refine ⟨⟨[valueField name v], [encodeRow [formatTextValue v]]⟩, rfl, ?_, ?_⟩
  · intro p hp
    have heof := length_eofPayload s
    have hcount : (putLengthEncodedInt (UInt64.ofNat 1)).length < maxPayloadLen := by decide
    simp only [ServerConn.resultsetPayloads, List.length_singleton, List.map_cons, List.map_nil,
      List.singleton_append, List.mem_cons, List.not_mem_nil, or_false] at hp
    rcases hp with rfl | rfl | rfl | rfl | rfl
    · exact hcount
    · exact hshort.name
    · exact heof
    · exact hshort.value
    · exact heof
  · rw [List.map_cons, List.map_nil] at hread
    rw [hread, hrows]
    rfl

end Kingbus
