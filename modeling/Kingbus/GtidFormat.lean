import Kingbus.Lib.Text
import Kingbus.PreviousGtidKeys

/-! # GTID sets in bytes and in text

`MetaStore` keeps GTID sets as the bytes of `Encode`, the API and `gtid_purged` carry them as
the text of `String` (`vendor/github.com/siddontang/go-mysql/mysql/mysql_gtid.go`).  Both walk
over a Go map, whose order is different each time, so a set has as many encodings and as many
texts as its identifiers have orders.  Here both are read back byte by byte:
`decode_encodeSets` for the bytes, `parseMysqlGTIDSet_gtidSetString` for the text, where the
functions that read tokens (`parseSets`, `updateText`) are what is left of the parsers once
the text is cut into its fields. -/

namespace Kingbus

/-! ## Bytes -/

/-- `binary.Write(w, binary.LittleEndian, i)` of an `int64`. -/
def leInt64 (i : Int) : Bytes := Bytes.leBytes 8 (i % 2 ^ 64).toNat

/-- The bounds of an interval. -/
def encodeInterval (i : HalfOpenInterval Int) : Bytes := leInt64 i.start ++ leInt64 i.stop

/-- `UUIDSet.encode`. -/
def encodeUUIDSet (u : Sid × List (HalfOpenInterval Int)) : Bytes :=
  u.1.bytes ++ (leInt64 u.2.length ++ u.2.flatMap encodeInterval)

/-- `MysqlGTIDSet.Encode`, with the order in which the map is walked. -/
def encodeSets (order : List (Sid × List (HalfOpenInterval Int))) : Bytes :=
  Bytes.leBytes 8 order.length ++ order.flatMap encodeUUIDSet

/-- The bounds of a set are `int64` values. -/
def Int64Sets (order : List (Sid × List (HalfOpenInterval Int))) : Prop :=
  ∀ u ∈ order, ∀ i ∈ u.2, Int64Interval i

instance (order : List (Sid × List (HalfOpenInterval Int))) : Decidable (Int64Sets order) :=
  inferInstanceAs (Decidable (∀ u ∈ order, _))

@[simp] theorem length_leInt64 (i : Int) : (leInt64 i).length = 8 := Bytes.length_leBytes ..

@[simp] theorem length_encodeInterval (i : HalfOpenInterval Int) :
    (encodeInterval i).length = 16 := by
  rw [encodeInterval, List.length_append, length_leInt64, length_leInt64]

theorem length_flatMap_encodeInterval (l : List (HalfOpenInterval Int)) :
    (l.flatMap encodeInterval).length = 16 * l.length := by
  induction l with
  | nil => rfl
  | cons i l ih =>
      rw [List.flatMap_cons, List.length_append, ih, length_encodeInterval, List.length_cons]
      omega

theorem length_encodeUUIDSet (u : Sid × List (HalfOpenInterval Int)) :
    (encodeUUIDSet u).length = 24 + 16 * u.2.length := by
  rw [encodeUUIDSet, List.length_append, List.length_append, u.1.length_eq, length_leInt64,
    length_flatMap_encodeInterval]
  omega

/-- A field behind a part of known length. -/
theorem leAt_append {a c : Bytes} {p k v : Nat} (hp : a.length = p) :
    leAt (a ++ (Bytes.leBytes k v ++ c)) p k = v % 256 ^ k := by
  subst hp
  rw [leAt, List.drop_left, List.take_left' (Bytes.length_leBytes k v), Bytes.leNat_leBytes]

/-- A signed number is read from its residue. -/
theorem toInt64_residue {i : Int} (h0 : -2 ^ 63 ≤ i) (h : i < 2 ^ 63) :
    Wire.toInt64 ((i % 2 ^ 64).toNat % 256 ^ 8) = i := by
  obtain ⟨m, hm⟩ := Int.eq_ofNat_of_zero_le (Int.emod_nonneg i (by decide : (2 ^ 64 : Int) ≠ 0))
  have hlt : i % 2 ^ 64 < 2 ^ 64 := Int.emod_lt_of_pos i (by decide)
  rw [Wire.toInt64, hm, Int.toNat_natCast]
  rw [hm] at hlt
  have hmod : m % 256 ^ 8 % 2 ^ 64 = m := by omega
  simp only [hmod]
  split <;> omega

theorem toInt64_leAt_leInt64 {a c : Bytes} {p : Nat} {i : Int} (hp : a.length = p)
    (h0 : -2 ^ 63 ≤ i) (h : i < 2 ^ 63) : Wire.toInt64 (leAt (a ++ (leInt64 i ++ c)) p 8) = i := by
  rw [leInt64, leAt_append hp, toInt64_residue h0 h]

namespace MysqlGTIDSet

/-- The loop over the intervals, from any position on. -/
theorem readIntervals_encode {l : List (HalfOpenInterval Int)} (h : ∀ i ∈ l, Int64Interval i)
    (rest : Bytes) : ∀ {a : Bytes} {p : Nat}, a.length = p →
      readIntervals (a ++ (l.flatMap encodeInterval ++ rest)) l.length p = l := by
  induction l with
  | nil => exact fun _ => rfl
  | cons i l ih =>
      intro a p hp
      obtain ⟨hstart, hstart', hstop, hstop'⟩ := h i List.mem_cons_self
      have hdata : a ++ ((i :: l).flatMap encodeInterval ++ rest) =
          a ++ (leInt64 i.start ++ (leInt64 i.stop ++ (l.flatMap encodeInterval ++ rest))) := by
        rw [List.flatMap_cons, encodeInterval, List.append_assoc, List.append_assoc]
      have hsecond : a ++ (leInt64 i.start ++
          (leInt64 i.stop ++ (l.flatMap encodeInterval ++ rest))) =
          (a ++ leInt64 i.start) ++ (leInt64 i.stop ++ (l.flatMap encodeInterval ++ rest)) := by
        rw [List.append_assoc]
      have htail : (a ++ leInt64 i.start) ++
          (leInt64 i.stop ++ (l.flatMap encodeInterval ++ rest)) =
          (a ++ encodeInterval i) ++ (l.flatMap encodeInterval ++ rest) := by
        rw [encodeInterval, List.append_assoc, List.append_assoc, List.append_assoc]
      rw [List.length_cons, readIntervals, hdata, toInt64_leAt_leInt64 hp hstart hstart', hsecond,
        toInt64_leAt_leInt64 (by rw [List.length_append, length_leInt64, hp]) hstop hstop', htail,
        ih (fun j hj => h j (List.mem_cons_of_mem i hj))
          (by rw [List.length_append, length_encodeInterval, hp])]

/-- **One identifier with its intervals**, and how many bytes it takes. -/
theorem decodeUUIDSet_encode {u : Sid × List (HalfOpenInterval Int)}
    (h : ∀ i ∈ u.2, Int64Interval i) {rest : Bytes}
    (hlen : (encodeUUIDSet u ++ rest).length < 2 ^ 63) :
    decodeUUIDSet (encodeUUIDSet u ++ rest) = .ok (u, (encodeUUIDSet u).length) := by
  rw [List.length_append, length_encodeUUIDSet] at hlen
  have hdata : encodeUUIDSet u ++ rest =
      u.1.bytes ++ (leInt64 u.2.length ++ (u.2.flatMap encodeInterval ++ rest)) := by
    rw [encodeUUIDSet, List.append_assoc, List.append_assoc]
  have hn : Wire.toInt64 (leAt (encodeUUIDSet u ++ rest) 16 8) = u.2.length := by
    rw [hdata]
    exact toInt64_leAt_leInt64 u.1.length_eq (by omega) (by omega)
  have hwrap : Wire.wrap64 (Wire.wrap64 (16 * (u.2.length : Int)) + 24) =
      16 * (u.2.length : Int) + 24 := by
    rw [wrap64_of_lt (i := 16 * (u.2.length : Int)) (by omega) (by omega),
      wrap64_of_lt (by omega) (by omega)]
  have hlength : (encodeUUIDSet u ++ rest).length = 24 + 16 * u.2.length + rest.length := by
    rw [List.length_append, length_encodeUUIDSet]
  have hsid : (encodeUUIDSet u ++ rest).take 16 = u.1.bytes := by
    rw [hdata]
    exact List.take_left' u.1.length_eq
  have hintervals : readIntervals (encodeUUIDSet u ++ rest) u.2.length 24 = u.2 := by
    rw [hdata, ← List.append_assoc]
    exact readIntervals_encode h rest (by rw [List.length_append, u.1.length_eq, length_leInt64])
  rw [decodeUUIDSet, dif_neg (by omega)]
  simp only [hn]
  rw [hwrap, if_neg (by omega), if_neg (by omega)]
  simp only [Int.toNat_natCast, hsid, hintervals, length_encodeUUIDSet]

theorem addSet_of_not_mem {s : MysqlGTIDSet} {sid : Sid} (h : sid ∉ s.sets.map Prod.fst)
    (l : List (HalfOpenInterval Int)) : (s.addSet sid l).sets = s.sets ++ [(sid, l)] := by
  rw [addSet, dif_neg h]

/-- The loop over the identifiers appends them to those that are read already. -/
theorem decodeSets_encode {rest : Bytes} :
    ∀ {order : List (Sid × List (HalfOpenInterval Int))} {s : MysqlGTIDSet}, Int64Sets order →
      (order.flatMap encodeUUIDSet ++ rest).length < 2 ^ 63 →
      ((s.sets ++ order).map Prod.fst).Nodup →
      ∃ t, decodeSets order.length (order.flatMap encodeUUIDSet ++ rest) s = .ok t ∧
        t.sets = s.sets ++ order := by
  intro order
  induction order with
  | nil => exact fun {s} _ _ _ => ⟨s, rfl, (List.append_nil _).symm⟩
  | cons u order ih =>
      intro s hint hlen hnodup
      rw [List.flatMap_cons, List.append_assoc] at hlen
      have hnew : u.1 ∉ s.sets.map Prod.fst := by
        rw [List.map_append, List.nodup_append] at hnodup
        intro hmem
        exact hnodup.2.2 u.1 hmem u.1 (List.mem_map_of_mem List.mem_cons_self) rfl
      have happend : s.sets ++ u :: order = (s.addSet u.1 u.2).sets ++ order := by
        rw [addSet_of_not_mem hnew, List.append_assoc, List.singleton_append]
      have hread := decodeUUIDSet_encode (hint u List.mem_cons_self) hlen
      have hlen' : (order.flatMap encodeUUIDSet ++ rest).length < 2 ^ 63 := by
        rw [List.length_append] at hlen
        omega
      obtain ⟨t, ht, hsets⟩ := ih (s := s.addSet u.1 u.2)
        (fun v hv => hint v (List.mem_cons_of_mem u hv)) hlen' (happend ▸ hnodup)
      refine ⟨t, ?_, by rw [hsets, happend]⟩
      rw [List.flatMap_cons, List.append_assoc, List.length_cons, decodeSets, hread]
      change decodeSets order.length ((encodeUUIDSet u ++ _).drop (encodeUUIDSet u).length) _ = _
      rw [List.drop_left, ht]

/-- **A set that is encoded in any order is decoded in that order**; bytes behind it are not
looked at. -/
theorem decode_encodeSets {order : List (Sid × List (HalfOpenInterval Int))} (rest : Bytes)
    (hint : Int64Sets order) (hnodup : (order.map Prod.fst).Nodup)
    (hlen : (encodeSets order ++ rest).length < 2 ^ 63) :
    decode (encodeSets order ++ rest) = .ok ⟨order, hnodup⟩ := by
  have hsize : order.length ≤ (order.flatMap encodeUUIDSet).length := by
    clear hlen hnodup hint
    induction order with
    | nil => exact Nat.zero_le _
    | cons u order ih =>
        rw [List.flatMap_cons, List.length_append, List.length_cons, length_encodeUUIDSet]
        omega
  have hbody : (order.flatMap encodeUUIDSet ++ rest).length < 2 ^ 63 := by
    rw [encodeSets, List.append_assoc, List.length_append] at hlen
    omega
  have hcount : leAt (encodeSets order ++ rest) 0 8 = order.length := by
    rw [encodeSets, List.append_assoc]
    refine (leAt_append (a := []) (p := 0) rfl).trans (Nat.mod_eq_of_lt ?_)
    rw [List.length_append] at hbody
    omega
  obtain ⟨t, ht, hsets⟩ := decodeSets_encode (s := empty) hint hbody hnodup
  have hdrop : (encodeSets order ++ rest).drop 8 = order.flatMap encodeUUIDSet ++ rest := by
    rw [encodeSets, List.append_assoc]
    exact List.drop_left' (Bytes.length_leBytes ..)
  have hshort : ¬ (encodeSets order ++ rest).length < 8 := by
    rw [encodeSets, List.append_assoc, List.length_append, Bytes.length_leBytes]
    omega
  have hpositive : (Wire.toInt64 order.length).toNat = order.length := by
    rw [List.length_append] at hbody
    rw [Wire.toInt64_of_lt (by omega), Int.toNat_natCast]
  have hset : t = ⟨order, hnodup⟩ := by
    cases t
    cases hsets
    rfl
  rw [decode, if_neg hshort, hcount, hpositive, hdrop, ht, hset]

end MysqlGTIDSet

/-! ## Text -/

/-- `hex.Decode`. -/
def hexDecode (src : Bytes) : Except EventFailure Bytes :=
  match Text.unhex src with
  | none => .error (.error "encoding/hex: invalid byte: %#U")
  | some dst => .ok dst

namespace Sid

/-- The bytes of the five groups. -/
def groups (sid : Sid) : List Bytes :=
  [sid.bytes.take 4, (sid.bytes.drop 4).take 2, (sid.bytes.drop 6).take 2,
    (sid.bytes.drop 8).take 2, sid.bytes.drop 10]

/-- `UUID.String`. -/
def string (sid : Sid) : Bytes := Text.join 45 (sid.groups.map Text.hex)

/-- The loop of `decodeCanonical` over `byteGroups`. -/
def decodeGroups : List Nat → Bytes → Except EventFailure Bytes
  | [], _ => .ok []
  | byteGroup :: rest, src =>
      (hexDecode (src.take byteGroup)).bind fun dst =>
        (decodeGroups rest (src.drop (byteGroup + 1))).map (dst ++ ·)

/-- `decodeCanonical`. -/
def decodeCanonical (t : Bytes) : Except EventFailure Bytes :=
  if t[8]? ≠ some 45 ∨ t[13]? ≠ some 45 ∨ t[18]? ≠ some 45 ∨ t[23]? ≠ some 45 then
    .error (.error "uuid: incorrect UUID format %s")
  else decodeGroups [8, 4, 4, 4, 12] t

/-- `decodePlain`. -/
def decodePlain (t : Bytes) : Except EventFailure Bytes :=
  if t.length = 32 then hexDecode t
  else if t.length = 36 then decodeCanonical t
  else .error (.error "uuid: incorrrect UUID length: %s")

/-- `decodeBraced`. -/
def decodeBraced (t : Bytes) : Except EventFailure Bytes :=
  if t.head? ≠ some 123 ∨ t.getLast? ≠ some 125 then
    .error (.error "uuid: incorrect UUID format %s")
  else decodePlain t.tail.dropLast

/-- `decodeURN`; the prefix is `urn:uuid:`. -/
def decodeURN (t : Bytes) : Except EventFailure Bytes :=
  if t.take 9 ≠ [117, 114, 110, 58, 117, 117, 105, 100, 58] then
    .error (.error "uuid: incorrect UUID format: %s")
  else decodePlain (t.drop 9)

/-- `UnmarshalText`. -/
def unmarshalText (t : Bytes) : Except EventFailure Bytes :=
  if t.length = 32 then hexDecode t
  else if t.length = 36 then decodeCanonical t
  else if t.length = 38 then decodeBraced t
  else if t.length = 41 ∨ t.length = 45 then decodeURN t
  else .error (.error "uuid: incorrect UUID length: %s")

/-- `uuid.FromString`.  The texts that are decoded have sixteen bytes. -/
def fromString (t : Bytes) : Except EventFailure Sid :=
  (unmarshalText t).bind fun u =>
    if h : u.length = 16 then .ok ⟨u, h⟩ else .error (.error "uuid: incorrect UUID length: %s")

end Sid

/-- `UUIDSet.String`. -/
def uuidSetString (u : Sid × List (HalfOpenInterval Int)) : Bytes :=
  Text.join 58 (u.1.string :: u.2.map formatInterval)

/-- `MysqlGTIDSet.String`, with the order in which the map is walked. -/
def gtidSetString (order : List (Sid × List (HalfOpenInterval Int))) : Bytes :=
  Text.join 44 (order.map uuidSetString)

/-- `unicode.IsSpace`, in UTF-8. -/
def blanks : List Bytes :=
  [[9], [10], [11], [12], [13], [32], [194, 133], [194, 160], [225, 154, 128]] ++
    [128, 129, 130, 131, 132, 133, 134, 135, 136, 137, 138, 168, 169, 175].map (fun b => [226, 128, b])
    ++ [[226, 129, 159], [227, 128, 128]]

/-- The loop of `ParseUUIDSet` over the fields behind the identifier. -/
def parseFields : List Bytes → Except EventFailure (List (HalfOpenInterval Int))
  | [] => .ok []
  | f :: fs => (parseInterval f).bind fun i => (parseFields fs).map (i :: ·)

/-- `ParseUUIDSet`. -/
def parseUUIDSetString (str : Bytes) : Except EventFailure (Sid × List (HalfOpenInterval Int)) :=
  match Decimal.split 58 (Text.trim blanks str) with
  | sid :: f :: fs =>
      (Sid.fromString sid).bind fun sid =>
        (parseFields (f :: fs)).map fun l => (sid, HalfOpenInterval.normalize l)
  | _ => .error (.error "invalid GTID format, must UUID:interval[:interval]")

/-- The loop of `ParseMysqlGTIDSet`. -/
def parseSetStrings : List Bytes → MysqlGTIDSet → Except EventFailure MysqlGTIDSet
  | [], s => .ok s
  | str :: sp, s => (parseUUIDSetString str).bind fun v => parseSetStrings sp (s.addSet v.1 v.2)

/-- `ParseMysqlGTIDSet`. -/
def parseMysqlGTIDSet (str : Bytes) : Except EventFailure MysqlGTIDSet :=
  if str = [] then .ok .empty else parseSetStrings (Decimal.split 44 str) .empty

/-- `MysqlGTIDSet.Update`. -/
def MysqlGTIDSet.updateString (s : MysqlGTIDSet) (gtidStr : Bytes) :
    Except EventFailure MysqlGTIDSet :=
  (parseUUIDSetString gtidStr).map fun v => s.addSet v.1 v.2

/-! ### Identifiers -/

namespace Sid

theorem hexDecode_hex (b : Bytes) : hexDecode (Text.hex b) = .ok b := by
  rw [hexDecode, Text.unhex_hex]

/-- A group with a dash behind it. -/
theorem decodeGroups_cons {g : Bytes} {n : Nat} (h : (Text.hex g).length = n) (ns : List Nat)
    (t : Bytes) : decodeGroups (n :: ns) (Text.hex g ++ 45 :: t) =
      (decodeGroups ns t).map (g ++ ·) := by
  have hdrop : (Text.hex g ++ 45 :: t).drop (n + 1) = t := by
    rw [← List.drop_drop, List.drop_left' h, List.drop_one, List.tail_cons]
  rw [decodeGroups, List.take_left' h, hexDecode_hex, hdrop]
  rfl

theorem flatten_groups (sid : Sid) : sid.groups.flatten = sid.bytes := by
  rw [groups]
  simp only [List.flatten_cons, List.flatten_nil, List.append_nil]
  rw [← List.drop_drop (i := 2) (j := 8), List.take_append_drop, ← List.drop_drop (i := 2) (j := 6),
    List.take_append_drop, ← List.drop_drop (i := 2) (j := 4), List.take_append_drop,
    List.take_append_drop]

theorem string_eq (sid : Sid) : ∃ a b c d e : Bytes, a.length = 4 ∧ b.length = 2 ∧ c.length = 2 ∧
    d.length = 2 ∧ e.length = 6 ∧ sid.bytes = a ++ (b ++ (c ++ (d ++ e))) ∧
    sid.string = Text.hex a ++ 45 :: (Text.hex b ++ 45 :: (Text.hex c ++ 45 ::
      (Text.hex d ++ 45 :: Text.hex e))) := by
  have hlen := sid.length_eq
  refine ⟨_, _, _, _, _, ?_, ?_, ?_, ?_, ?_, ?_, rfl⟩
  · rw [List.length_take]
    omega
  · rw [List.length_take, List.length_drop]
    omega
  · rw [List.length_take, List.length_drop]
    omega
  · rw [List.length_take, List.length_drop]
    omega
  · rw [List.length_drop]
    omega
  · have hflat := sid.flatten_groups
    simp only [groups, List.flatten_cons, List.flatten_nil, List.append_nil] at hflat
    exact hflat.symm

/-- **The text of an identifier is read as the identifier.** -/
theorem fromString_string (sid : Sid) : fromString sid.string = .ok sid := by
  obtain ⟨a, b, c, d, e, ha, hb, hc, hd, he, hbytes, hstring⟩ := sid.string_eq
  have hla : (Text.hex a).length = 8 := by rw [Text.length_hex, ha]
  have hlb : (Text.hex b).length = 4 := by rw [Text.length_hex, hb]
  have hlc : (Text.hex c).length = 4 := by rw [Text.length_hex, hc]
  have hld : (Text.hex d).length = 4 := by rw [Text.length_hex, hd]
  have hle : (Text.hex e).length = 12 := by rw [Text.length_hex, he]
  have hlast : decodeGroups [12] (Text.hex e) = .ok e := by
    rw [decodeGroups, List.take_of_length_le (Nat.le_of_eq hle), hexDecode_hex]
    change Except.ok (e ++ []) = _
    rw [List.append_nil]
  have hgroups : decodeGroups [8, 4, 4, 4, 12] sid.string = .ok sid.bytes := by
    rw [hstring, decodeGroups_cons hla, decodeGroups_cons hlb, decodeGroups_cons hlc,
      decodeGroups_cons hld, hlast, hbytes]
    rfl
  have hlength : sid.string.length = 36 := by
    rw [hstring]
    simp only [List.length_append, List.length_cons, hla, hlb, hlc, hld, hle]
  -- the dashes stand where the groups end
  have h8 : sid.string[8]? = some 45 := by
    rw [hstring, List.getElem?_append_right (by omega), hla]
    rfl
  have h13 : sid.string[13]? = some 45 := by
    rw [hstring, List.getElem?_append_right (by omega), hla]
    change (Text.hex b ++ _)[4]? = _
    rw [List.getElem?_append_right (by omega), hlb]
    rfl
  have h18 : sid.string[18]? = some 45 := by
    rw [hstring, List.getElem?_append_right (by omega), hla]
    change (Text.hex b ++ _)[9]? = _
    rw [List.getElem?_append_right (by omega), hlb]
    change (Text.hex c ++ _)[4]? = _
    rw [List.getElem?_append_right (by omega), hlc]
    rfl
  have h23 : sid.string[23]? = some 45 := by
    rw [hstring, List.getElem?_append_right (by omega), hla]
    change (Text.hex b ++ _)[14]? = _
    rw [List.getElem?_append_right (by omega), hlb]
    change (Text.hex c ++ _)[9]? = _
    rw [List.getElem?_append_right (by omega), hlc]
    change (Text.hex d ++ _)[4]? = _
    rw [List.getElem?_append_right (by omega), hld]
    rfl
  rw [fromString, unmarshalText, hlength, if_neg (by decide), if_pos rfl, decodeCanonical, h8, h13,
    h18, h23, if_neg (by simp), hgroups]
  change dite (sid.bytes.length = 16) _ _ = _
  rw [dif_pos sid.length_eq]

end Sid

/-! ### Which bytes are in a text -/

/-- Digits, and the two signs that stand inside a field. -/
def FieldByte (b : UInt8) : Prop := Text.IsHex b ∨ b = 45

instance (b : UInt8) : Decidable (FieldByte b) := inferInstanceAs (Decidable (_ ∨ _))

theorem fieldByte_string {sid : Sid} {b : UInt8} (h : b ∈ sid.string) : FieldByte b := by
  rcases Text.mem_join h with rfl | ⟨a, ha, hb⟩
  · exact .inr rfl
  · obtain ⟨g, -, rfl⟩ := List.mem_map.mp ha
    exact .inl (Text.isHex_of_mem_hex hb)

theorem fieldByte_formatInt {n : Int} {b : UInt8} (h : b ∈ formatInt n) : FieldByte b := by
  have hput : ∀ {k m : Nat}, b ∈ Decimal.put k m → FieldByte b :=
    fun hb => .inl (.inl (Decimal.isDigit_of_mem_put hb))
  rw [formatInt] at h
  split at h
  · rcases List.mem_cons.mp h with rfl | h
    · exact .inr rfl
    · exact hput h
  · exact hput h

theorem fieldByte_formatInterval {i : HalfOpenInterval Int} {b : UInt8}
    (h : b ∈ formatInterval i) : FieldByte b := by
  rw [formatInterval] at h
  split at h
  · exact fieldByte_formatInt h
  · rcases List.mem_append.mp h with h | h
    · exact fieldByte_formatInt h
    · rcases List.mem_cons.mp h with rfl | h
      · exact .inr rfl
      · exact fieldByte_formatInt h

theorem fieldByte_of_mem_fields {u : Sid × List (HalfOpenInterval Int)} {f : Bytes} {b : UInt8}
    (hf : f ∈ u.1.string :: u.2.map formatInterval) (hb : b ∈ f) : FieldByte b := by
  rcases List.mem_cons.mp hf with rfl | hf
  · exact fieldByte_string hb
  · obtain ⟨i, -, rfl⟩ := List.mem_map.mp hf
    exact fieldByte_formatInterval hb

theorem mem_uuidSetString {u : Sid × List (HalfOpenInterval Int)} {b : UInt8}
    (h : b ∈ uuidSetString u) : FieldByte b ∨ b = 58 := by
  rcases Text.mem_join h with rfl | ⟨f, hf, hb⟩
  · exact .inr rfl
  · exact .inl (fieldByte_of_mem_fields hf hb)

/-! ### Parsing what is printed -/

theorem parseFields_map (l : List (HalfOpenInterval Int)) :
    parseFields (l.map formatInterval) = parseIntervals l := by
  induction l with
  | nil => rfl
  | cons i l ih =>
      rw [List.map_cons, parseFields, parseIntervals, ih]

theorem trim_uuidSetString (u : Sid × List (HalfOpenInterval Int)) :
    Text.trim blanks (uuidSetString u) = uuidSetString u := by
  refine Text.trim_eq_self fun s hs => ?_
  -- the first byte of a blank is not one of the bytes of the text
  have hfirst : ∀ s ∈ blanks, ∃ b ∈ s, ¬ (FieldByte b ∨ b = 58) := by decide
  obtain ⟨b, hb, hno⟩ := hfirst s hs
  exact ⟨b, hb, fun hmem => hno (mem_uuidSetString hmem)⟩

theorem split_uuidSetString (u : Sid × List (HalfOpenInterval Int)) :
    Decimal.split 58 (uuidSetString u) = u.1.string :: u.2.map formatInterval := by
  refine Text.split_join (List.cons_ne_nil _ _) fun f hf hmem => ?_
  exact absurd (fieldByte_of_mem_fields hf hmem) (by decide)

/-- **One identifier**: what is read from its text is what is read from its tokens. -/
theorem parseUUIDSetString_eq (u : Sid × List (HalfOpenInterval Int)) :
    parseUUIDSetString (uuidSetString u) = parseUUIDSet u := by
  rw [parseUUIDSetString, trim_uuidSetString, split_uuidSetString, parseUUIDSet]
  cases hu : u.2 with
  | nil => rfl
  | cons i l =>
      simp only [List.map_cons]
      rw [Sid.fromString_string, ← List.map_cons, parseFields_map,
        if_neg (List.cons_ne_nil i l)]
      rfl

theorem parseSetStrings_map (order : List (Sid × List (HalfOpenInterval Int))) :
    ∀ s, parseSetStrings (order.map uuidSetString) s = parseSets order s := by
  induction order with
  | nil => exact fun _ => rfl
  | cons u order ih =>
      intro s
      rw [List.map_cons, parseSetStrings, parseSets, parseUUIDSetString_eq]
      congr 1
      funext v
      exact ih _

theorem uuidSetString_ne_nil (u : Sid × List (HalfOpenInterval Int)) : uuidSetString u ≠ [] := by
  intro h
  have hsplit := split_uuidSetString u
  rw [h] at hsplit
  have hlength : u.1.string = [] := (List.cons.inj hsplit).1.symm
  have hread := u.1.fromString_string
  rw [hlength] at hread
  cases hread

theorem gtidSetString_ne_nil {order : List (Sid × List (HalfOpenInterval Int))} (h : order ≠ []) :
    gtidSetString order ≠ [] := by
  cases order with
  | nil => exact absurd rfl h
  | cons u order =>
      cases order with
      | nil => exact uuidSetString_ne_nil u
      | cons v order =>
          rw [gtidSetString, List.map_cons, List.map_cons, Text.join]
          exact List.append_ne_nil_of_right_ne_nil _ (List.cons_ne_nil _ _)

/-- **A whole set**: for every order in which it is printed, parsing the text is parsing the
tokens. -/
theorem parseMysqlGTIDSet_gtidSetString (order : List (Sid × List (HalfOpenInterval Int))) :
    parseMysqlGTIDSet (gtidSetString order) = parseSets order .empty := by
  by_cases hne : order = []
  · subst hne
    rfl
  · have hsplit : Decimal.split 44 (gtidSetString order) = order.map uuidSetString := by
      refine Text.split_join (by simpa using hne) fun t ht hmem => ?_
      obtain ⟨u, -, rfl⟩ := List.mem_map.mp ht
      exact absurd (mem_uuidSetString hmem) (by decide)
    rw [parseMysqlGTIDSet, if_neg (gtidSetString_ne_nil hne), hsplit, parseSetStrings_map]

/-! ### Sets that survive being printed -/

theorem parseUUIDSet_eq_ok_iff {u v : Sid × List (HalfOpenInterval Int)}
    (hint : ∀ i ∈ u.2, Int64Interval i) : parseUUIDSet u = .ok v ↔
      u.2 ≠ [] ∧ (∀ i ∈ u.2, Readable i) ∧
        v = (u.1, HalfOpenInterval.normalize (u.2.map readInterval)) := by
  rw [parseUUIDSet]
  split
  · next hnil => exact iff_of_false (by simp) fun h => h.1 hnil
  · next hne =>
    constructor
    · intro h
      cases hparse : parseIntervals u.2 with
      | error e =>
          rw [hparse] at h
          cases h
      | ok l =>
          rw [hparse] at h
          obtain ⟨hread, rfl⟩ := (parseIntervals_eq_ok_iff hint).mp hparse
          exact ⟨hne, hread, (Except.ok.inj h).symm⟩
    · rintro ⟨-, hread, rfl⟩
      rw [(parseIntervals_eq_ok_iff hint).mpr ⟨hread, rfl⟩]
      rfl

/-- Parsing the tokens of sets with different identifiers reads each of them on its own. -/
theorem parseSets_eq_ok_iff :
    ∀ {order : List (Sid × List (HalfOpenInterval Int))} {s t : MysqlGTIDSet}, Int64Sets order →
      ((s.sets ++ order).map Prod.fst).Nodup →
      (parseSets order s = .ok t ↔ (∀ u ∈ order, u.2 ≠ [] ∧ ∀ i ∈ u.2, Readable i) ∧
        t.sets = s.sets ++ order.map fun u =>
          (u.1, HalfOpenInterval.normalize (u.2.map readInterval))) := by
  intro order
  induction order with
  | nil =>
      intro s t _ _
      rw [parseSets, List.map_nil, List.append_nil]
      refine ⟨fun h => ⟨List.forall_mem_nil _, by cases h; rfl⟩, fun h => ?_⟩
      cases s
      cases t
      cases h.2
      rfl
  | cons u order ih =>
      intro s t hint hnodup
      have hintu := hint u List.mem_cons_self
      have hnew : u.1 ∉ s.sets.map Prod.fst := by
        rw [List.map_append, List.nodup_append] at hnodup
        intro hmem
        exact hnodup.2.2 u.1 hmem u.1 (List.mem_map_of_mem List.mem_cons_self) rfl
      have hkeys : ∀ l, (((s.addSet u.1 l).sets ++ order).map Prod.fst).Nodup := by
        intro l
        rw [MysqlGTIDSet.addSet_of_not_mem hnew, List.append_assoc]
        simpa using hnodup
      have hrest := fun l => ih (s := s.addSet u.1 l) (t := t)
        (fun v hv => hint v (List.mem_cons_of_mem u hv)) (hkeys l)
      rw [parseSets]
      constructor
      · intro h
        cases hparse : parseUUIDSet u with
        | error e =>
            rw [hparse] at h
            cases h
        | ok v =>
            rw [hparse] at h
            obtain ⟨hne, hread, rfl⟩ := (parseUUIDSet_eq_ok_iff hintu).mp hparse
            obtain ⟨hall, hsets⟩ := (hrest _).mp h
            refine ⟨List.forall_mem_cons.mpr ⟨⟨hne, hread⟩, hall⟩, ?_⟩
            rw [hsets, MysqlGTIDSet.addSet_of_not_mem hnew, List.append_assoc,
              List.singleton_append, List.map_cons]
      · rintro ⟨hall, hsets⟩
        obtain ⟨⟨hne, hread⟩, hall⟩ := List.forall_mem_cons.mp hall
        rw [(parseUUIDSet_eq_ok_iff hintu).mpr ⟨hne, hread, rfl⟩]
        refine (hrest _).mpr ⟨hall, ?_⟩
        rw [hsets, MysqlGTIDSet.addSet_of_not_mem hnew, List.append_assoc,
          List.singleton_append, List.map_cons]

/-- The intervals that are read as they were printed. -/
theorem normalize_readInterval_eq_self {l : List (HalfOpenInterval Int)}
    (hread : ∀ i ∈ l, Readable i) (h : HalfOpenInterval.normalize (l.map readInterval) = l) :
    HalfOpenInterval.Normal l ∧ ∀ i ∈ l, PrintableInterval i := by
  have hprint : ∀ i ∈ l, PrintableInterval i := by
    intro i hi
    -- no interval that was read starts below zero
    rw [← h] at hi
    obtain ⟨⟨k, hk, hstart⟩, -⟩ := HalfOpenInterval.bounds_of_mem_normalize hi
    obtain ⟨m, -, rfl⟩ := List.mem_map.mp hk
    rw [h] at hi
    refine (hread i hi).resolve_right fun hneg => ?_
    have := readInterval_start_nonneg m
    have := hneg.2.1
    omega
  refine ⟨?_, hprint⟩
  have hid : l.map readInterval = l :=
    (List.map_congr_left fun i hi => (hprint i hi).readInterval_eq).trans (List.map_id l)
  rw [← h, hid]
  exact HalfOpenInterval.normal_normalize fun i hi => (hprint i hi).2.1

/-- **A set comes back from its text exactly if** every identifier has intervals in normal form
with numbers from 0 on, whatever the order in which it is printed. -/
theorem printed_set_read_back_iff (s : MysqlGTIDSet) (hint : Int64Sets s.sets)
    {order : List (Sid × List (HalfOpenInterval Int))} (hperm : order.Perm s.sets) :
    (∃ t, parseMysqlGTIDSet (gtidSetString order) = .ok t ∧ t.sets.Perm s.sets) ↔
      s.Normal ∧ ∀ u ∈ s.sets, ∀ i ∈ u.2, PrintableInterval i := by
  have hmem : ∀ u, u ∈ order ↔ u ∈ s.sets := fun u => hperm.mem_iff
  have hnodup : ((MysqlGTIDSet.empty.sets ++ order).map Prod.fst).Nodup :=
    (hperm.map Prod.fst).nodup_iff.mpr s.keys_nodup
  have hparse := fun t => parseSets_eq_ok_iff (t := t) (fun u hu => hint u ((hmem u).mp hu)) hnodup
  rw [parseMysqlGTIDSet_gtidSetString]
  constructor
  · rintro ⟨t, ht, htperm⟩
    obtain ⟨hread, hsets⟩ := (hparse t).mp ht
    have hsame : ∀ u ∈ s.sets, HalfOpenInterval.normalize (u.2.map readInterval) = u.2 := by
      intro u hu
      have hv : (u.1, HalfOpenInterval.normalize (u.2.map readInterval)) ∈ s.sets := by
        rw [← htperm.mem_iff, hsets]
        exact List.mem_map_of_mem (f := fun u : Sid × List (HalfOpenInterval Int) =>
          (u.1, HalfOpenInterval.normalize (u.2.map readInterval))) ((hmem u).mpr hu)
      have hlookup := MysqlGTIDSet.lookup_of_mem hv
      rw [MysqlGTIDSet.lookup_of_mem hu] at hlookup
      exact (Option.some.inj hlookup).symm
    have hboth := fun u hu => normalize_readInterval_eq_self (hread u ((hmem u).mpr hu)).2 (hsame u hu)
    exact ⟨fun u hu => ⟨(hread u ((hmem u).mpr hu)).1, (hboth u hu).1⟩, fun u hu => (hboth u hu).2⟩
  · rintro ⟨hnormal, hprint⟩
    have hid : (order.map fun u => (u.1, HalfOpenInterval.normalize (u.2.map readInterval))) = order := by
      refine (List.map_congr_left fun u hu => ?_).trans (List.map_id order)
      have hu := (hmem u).mp hu
      have hread : u.2.map readInterval = u.2 :=
        (List.map_congr_left fun i hi => (hprint u hu i hi).readInterval_eq).trans (List.map_id u.2)
      rw [hread, (hnormal u hu).2.normalize_eq]
      rfl
    refine ⟨⟨order, hnodup⟩, (hparse _).mpr ⟨fun u hu => ?_, ?_⟩, hperm⟩
    · have hu := (hmem u).mp hu
      exact ⟨(hnormal u hu).1, fun i hi => .inl (hprint u hu i hi)⟩
    · rw [hid]
      rfl

/-- GTIDs of two servers. -/
def twoServers : MysqlGTIDSet where
  sets := [(MetaStore.serverOne, [⟨1, 8⟩, ⟨9, 10⟩]), (MetaStore.serverTwo, [⟨1, 4⟩])]
  keys_nodup := by decide

theorem twoServers_normal : twoServers.Normal := by
  intro u hu
  rcases List.mem_pair.mp hu with rfl | rfl
  · exact ⟨List.cons_ne_nil _ _, ⟨by decide, by decide⟩⟩
  · exact ⟨List.cons_ne_nil _ _, ⟨by decide, by decide⟩⟩

/-- They are printed in the other order and read back. -/
theorem printed_two_servers :
    ∃ t, parseMysqlGTIDSet (gtidSetString
        [(MetaStore.serverTwo, [⟨1, 4⟩]), (MetaStore.serverOne, [⟨1, 8⟩, ⟨9, 10⟩])]) =
      .ok t ∧ t.sets.Perm twoServers.sets :=
  (printed_set_read_back_iff twoServers (by decide) (List.Perm.swap ..)).mpr
    ⟨twoServers_normal, by decide⟩

/-! ### `Update` -/

end Kingbus
