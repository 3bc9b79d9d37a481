import Kingbus.Lib.Bytes

/-! # The protobuf wire format

Base-128 varints, tagged fields, and the field loop that generated `Unmarshal`
methods run.  The loop is written once, over a table `kind` that says which field
numbers a message knows and how each is encoded; a message type folds the list
of decoded fields into its own structure.

Varints are read as natural numbers of up to 70 bits; the reader of a field
reduces them to the width of its Go type (the bits a wider shift would push out
are exactly the ones the reduction drops). -/

namespace Wire

/-- What an `Unmarshal` call can run into.  `outOfRange` is the run-time panic of
a slice expression whose upper bound overflowed `int`. -/
inductive WireError where
  | intOverflow
  | unexpectedEOF
  | invalidLength
  | wrongWireType (field wire : Nat)
  | illegalTag
  | endGroup
  | illegalWireType (wire : Nat)
  | outOfRange
  deriving DecidableEq, Repr

/-! ## Varints -/

/-- `encodeVarint` with a bound on the number of continuation bytes. -/
def putVarint : Nat → Nat → Bytes
  | 0, v => [UInt8.ofNat v]
  | k + 1, v => if v < 128 then [UInt8.ofNat v]
      else UInt8.ofNat (v % 128 + 128) :: putVarint k (v / 128)

/-- The varint of a 64-bit value: at most nine continuation bytes. -/
def encodeVarint (v : Nat) : Bytes := putVarint 9 v

/-- `sov` with a bound on the number of rounds. -/
def sovAux : Nat → Nat → Nat
  | 0, _ => 1
  | k + 1, v => if v / 128 = 0 then 1 else sovAux k (v / 128) + 1

/-- The size of the varint of `v`. -/
def sov (v : Nat) : Nat := sovAux 9 v

/-- Read one varint: at most `k` bytes, the value and what follows it. -/
def readVarint : Nat → Bytes → Except WireError (Nat × Bytes)
  | 0, _ => .error .intOverflow
  | _ + 1, [] => .error .unexpectedEOF
  | k + 1, b :: t =>
      if b.toNat < 128 then .ok (b.toNat, t)
      else match readVarint k t with
        | .error e => .error e
        | .ok (v, rest) => .ok (b.toNat % 128 + 128 * v, rest)

theorem length_putVarint : ∀ k v, (putVarint k v).length = sovAux k v
  | 0, _ => rfl
  | k + 1, v => by
      rw [putVarint, sovAux]
      by_cases h : v < 128
      · rw [if_pos h, if_pos (by omega)]
        rfl
      · rw [if_neg h, if_neg (by omega), List.length_cons, length_putVarint k]

@[simp] theorem length_encodeVarint (v : Nat) : (encodeVarint v).length = sov v :=
  length_putVarint 9 v

theorem one_le_sovAux : ∀ k v, 1 ≤ sovAux k v
  | 0, _ => Nat.le_refl 1
  | k + 1, v => by
      rw [sovAux]
      split
      · exact Nat.le_refl 1
      · exact Nat.le_add_left 1 _

theorem one_le_sov (v : Nat) : 1 ≤ sov v := one_le_sovAux 9 v

theorem sovAux_le : ∀ k v, sovAux k v ≤ k + 1
  | 0, _ => Nat.le_refl 1
  | k + 1, v => by
      have := sovAux_le k (v / 128)
      rw [sovAux]
      split <;> omega

theorem sov_le (v : Nat) : sov v ≤ 10 := sovAux_le 9 v

theorem toNat_ofNat_of_lt {v : Nat} (h : v < 256) : (UInt8.ofNat v).toNat = v := by
  rw [UInt8.toNat_ofNat']
  omega

/-- **The reader undoes the writer**, with any bytes behind the varint. -/
theorem readVarint_putVarint : ∀ (k v : Nat) (rest : Bytes), v < 128 ^ (k + 1) →
    readVarint (k + 1) (putVarint k v ++ rest) = .ok (v, rest)
  | 0, v, rest, h => by
      have hv : (UInt8.ofNat v).toNat = v := toNat_ofNat_of_lt (by omega)
      rw [putVarint, List.singleton_append, readVarint, hv, if_pos (by omega)]
  | k + 1, v, rest, h => by
      rw [putVarint]
      by_cases hv : v < 128
      · have hb : (UInt8.ofNat v).toNat = v := toNat_ofNat_of_lt (by omega)
        rw [if_pos hv, List.singleton_append, readVarint, hb, if_pos hv]
      · have hb : (UInt8.ofNat (v % 128 + 128)).toNat = v % 128 + 128 :=
          toNat_ofNat_of_lt (by omega)
        have hq : v / 128 < 128 ^ (k + 1) := by
          rw [Nat.div_lt_iff_lt_mul (by omega)]
          rwa [Nat.pow_succ] at h
        rw [if_neg hv, List.cons_append, readVarint, hb, if_neg (by omega),
          readVarint_putVarint k (v / 128) rest hq]
        simp only [Except.ok.injEq, Prod.mk.injEq, and_true]
        omega

theorem readVarint_encodeVarint {v : Nat} (rest : Bytes) (h : v < 2 ^ 64) :
    readVarint 10 (encodeVarint v ++ rest) = .ok (v, rest) :=
  readVarint_putVarint 9 v rest (by omega)

/-! ## Unknown fields -/

/-- The 64-bit two's complement reading of a varint. -/
def toInt64 (v : Nat) : Int :=
  let m : Nat := v % 2 ^ 64
  if m < 2 ^ 63 then (m : Int) else (m : Int) - 2 ^ 64

/-- Wrap-around of an `int` sum. -/
def wrap64 (i : Int) : Int := (i + 2 ^ 63) % 2 ^ 64 - 2 ^ 63

/-- The varint bytes of a skipped field: only their number matters. -/
def skipVarint : Nat → Bytes → Except WireError Nat
  | 0, _ => .error .intOverflow
  | _ + 1, [] => .error .unexpectedEOF
  | k + 1, b :: t =>
      if b.toNat < 128 then .ok 1
      else match skipVarint k t with
        | .error e => .error e
        | .ok n => .ok (n + 1)

mutual

/-- `skip`: the number of bytes of the field at the front of `b`, which may be
larger than what is left, or negative once `int` overflowed. -/
def skipField : Nat → Bytes → Except WireError Int
  | 0, _ => .error .unexpectedEOF
  | fuel + 1, b =>
      match readVarint 10 b with
      | .error e => .error e
      | .ok (wire, rest) =>
          let i := b.length - rest.length
          match wire % 8 with
          | 0 => match skipVarint 10 rest with
              | .error e => .error e
              | .ok n => .ok ((i + n : Nat) : Int)
          | 1 => .ok ((i + 8 : Nat) : Int)
          | 2 => match readVarint 10 rest with
              | .error e => .error e
              | .ok (len, rest') =>
                  let length := toInt64 len
                  if length < 0 then .error .invalidLength
                  else .ok (wrap64 (((b.length - rest'.length : Nat) : Int) + length))
          | 3 => skipGroup fuel b i
          | 4 => .ok (i : Int)
          | 5 => .ok ((i + 4 : Nat) : Int)
          | w => .error (.illegalWireType w)

/-- The fields of a group, up to its end tag; `i` is the position reached. -/
def skipGroup : Nat → Bytes → Nat → Except WireError Int
  | 0, _, _ => .error .unexpectedEOF
  | fuel + 1, b, start =>
      match readVarint 10 (b.drop start) with
      | .error e => .error e
      | .ok (wire, rest) =>
          if wire % 8 = 4 then .ok ((b.length - rest.length : Nat) : Int)
          else match skipField fuel (b.drop start) with
            | .error e => .error e
            | .ok next =>
                -- a negative position is indexed by the next round of the loop
                if wrap64 ((start : Int) + next) < 0 then .error .outOfRange
                else skipGroup fuel b (start + next.toNat)

end

/-! ## The field loop -/

/-- How a known field is encoded. -/
inductive Kind where
  | varint
  | bytes
  deriving DecidableEq, Repr

/-- A decoded field. -/
inductive Value where
  | varint (v : Nat)
  | bytes (b : Bytes)
  deriving DecidableEq, Repr

/-- The wire type of a kind of field. -/
def Kind.wireType : Kind → Nat
  | .varint => 0
  | .bytes => 2

/-- Read the payload of a known field; `pos` is the position of `b` in the
message. -/
def readValue (k : Kind) (pos : Nat) (b : Bytes) : Except WireError (Value × Bytes) :=
  match k with
  | .varint => match readVarint 10 b with
      | .error e => .error e
      | .ok (v, rest) => .ok (.varint v, rest)
  | .bytes => match readVarint 10 b with
      | .error e => .error e
      | .ok (len, rest) =>
          let byteLen := toInt64 len
          if byteLen < 0 then .error .invalidLength
          else if 2 ^ 63 ≤ ((pos + (b.length - rest.length) : Nat) : Int) + byteLen then
            .error .outOfRange
          else if rest.length < byteLen.toNat then .error .unexpectedEOF
          else .ok (.bytes (rest.take byteLen.toNat), rest.drop byteLen.toNat)

/-- The loop of a generated `Unmarshal`: the known fields of the message in the
order they stand in it.  `fuel` bounds the number of fields; every field takes at
least one byte. -/
def decodeFields (kind : Nat → Option Kind) :
    Nat → Nat → Bytes → Except WireError (List (Nat × Value))
  | _, _, [] => .ok []
  | 0, _, _ :: _ => .error .unexpectedEOF
  | fuel + 1, pos, b@(_ :: _) =>
      match readVarint 10 b with
      | .error e => .error e
      | .ok (wire, rest) =>
          -- the tag as a `uint64`, its field number as an `int32`
          let w := wire % 2 ^ 64
          let fieldNum := w / 8 % 2 ^ 32
          if w % 8 = 4 then .error .endGroup
          else if fieldNum = 0 ∨ 2 ^ 31 ≤ fieldNum then .error .illegalTag
          else match kind fieldNum with
            | some k =>
                if w % 8 ≠ k.wireType then .error (.wrongWireType fieldNum (w % 8))
                else match readValue k (pos + (b.length - rest.length)) rest with
                  | .error e => .error e
                  | .ok (v, rest') =>
                      match decodeFields kind fuel (pos + (b.length - rest'.length)) rest' with
                      | .error e => .error e
                      | .ok fs => .ok ((fieldNum, v) :: fs)
            | none =>
                match skipField (b.length + 1) b with
                | .error e => .error e
                | .ok n =>
                    if n < 0 then .error .invalidLength
                    else if b.length < n.toNat then .error .unexpectedEOF
                    else decodeFields kind fuel (pos + n.toNat) (b.drop n.toNat)

/-- Decode a whole message. -/
def decodeMessage (kind : Nat → Option Kind) (b : Bytes) :
    Except WireError (List (Nat × Value)) :=
  decodeFields kind b.length 0 b

/-- The bytes of a varint field, with a one-byte tag. -/
def varintField (n v : Nat) : Bytes := UInt8.ofNat (n * 8) :: encodeVarint v

/-- The bytes of a length-delimited field, with a one-byte tag. -/
def bytesField (n : Nat) (d : Bytes) : Bytes :=
  UInt8.ofNat (n * 8 + 2) :: (encodeVarint d.length ++ d)

@[simp] theorem length_varintField (n v : Nat) : (varintField n v).length = 1 + sov v := by
  rw [varintField, List.length_cons, length_encodeVarint, Nat.add_comm]

@[simp] theorem length_bytesField (n : Nat) (d : Bytes) :
    (bytesField n d).length = 1 + d.length + sov d.length := by
  rw [bytesField, List.length_cons, List.length_append, length_encodeVarint]
  omega

theorem toInt64_of_lt {v : Nat} (h : v < 2 ^ 63) : toInt64 v = (v : Int) := by
  have hm : v % 2 ^ 64 = v := Nat.mod_eq_of_lt (by omega)
  rw [toInt64, hm]
  exact if_pos h

@[simp] theorem decodeFields_nil (kind : Nat → Option Kind) (fuel pos : Nat) :
    decodeFields kind fuel pos [] = .ok [] := by
  unfold decodeFields
  rfl

/-- A one-byte tag is read back whole. -/
theorem readVarint_tag {t : Nat} (rest : Bytes) (h : t < 128) :
    readVarint 10 (UInt8.ofNat t :: rest) = .ok (t, rest) := by
  rw [readVarint, toNat_ofNat_of_lt (by omega), if_pos h]

section RoundTrip
variable {kind : Nat → Option Kind} {fuel pos n : Nat} {rest : Bytes} {fs : List (Nat × Value)}

/-- The field loop on a varint field. -/
theorem decodeFields_varintField {v : Nat} (hk : kind n = some .varint) (hn : 0 < n) (hn' : n < 16)
    (hv : v < 2 ^ 64)
    (hrest : decodeFields kind fuel (pos + (varintField n v).length) rest = .ok fs) :
    decodeFields kind (fuel + 1) pos (varintField n v ++ rest) = .ok ((n, .varint v) :: fs) := by
  have htag : n * 8 % 2 ^ 64 = n * 8 := Nat.mod_eq_of_lt (by omega)
  have hfield : n * 8 / 8 % 2 ^ 32 = n := by omega
  have hlen : (UInt8.ofNat (n * 8) :: (encodeVarint v ++ rest)).length - rest.length =
      (varintField n v).length := by
    simp only [List.length_cons, List.length_append, length_encodeVarint, length_varintField]
    omega
  rw [varintField, List.cons_append, decodeFields, readVarint_tag _ (by omega)]
  simp only [htag, hfield, hk, Kind.wireType, readValue, readVarint_encodeVarint rest hv]
  rw [if_neg (by omega), if_neg (by omega), if_neg (by omega), hlen, hrest]

/-- The field loop on a length-delimited field. -/
theorem decodeFields_bytesField {d : Bytes} (hk : kind n = some .bytes) (hn : 0 < n) (hn' : n < 15)
    (hpos : pos + (bytesField n d).length < 2 ^ 63)
    (hrest : decodeFields kind fuel (pos + (bytesField n d).length) rest = .ok fs) :
    decodeFields kind (fuel + 1) pos (bytesField n d ++ rest) = .ok ((n, .bytes d) :: fs) := by
  have hd : d.length < 2 ^ 63 := by
    rw [length_bytesField] at hpos
    omega
  have htag : (n * 8 + 2) % 2 ^ 64 = n * 8 + 2 := Nat.mod_eq_of_lt (by omega)
  have hfield : (n * 8 + 2) / 8 % 2 ^ 32 = n := by omega
  have hread : readVarint 10 (encodeVarint d.length ++ (d ++ rest)) = .ok (d.length, d ++ rest) :=
    readVarint_encodeVarint _ (by omega)
  have hlen : (UInt8.ofNat (n * 8 + 2) :: (encodeVarint d.length ++ (d ++ rest))).length
      - rest.length = (bytesField n d).length := by
    simp only [List.length_cons, List.length_append, length_encodeVarint, length_bytesField]
    omega
  rw [bytesField, List.cons_append, List.append_assoc, decodeFields, readVarint_tag _ (by omega)]
  simp only [htag, hfield, hk, Kind.wireType, readValue, hread, toInt64_of_lt hd,
    Int.toNat_natCast, List.take_left, List.drop_left]
  rw [if_neg (by omega), if_neg (by omega), if_neg (by omega), if_neg (by omega), if_neg ?_,
    if_neg ?_]
  · simp only [hlen, hrest]
  · rw [List.length_append]
    omega
  · simp only [List.length_cons, List.length_append, length_encodeVarint] at *
    rw [length_bytesField] at hpos
    omega

end RoundTrip

end Wire
