import Kingbus.Lib.Intervals
import Kingbus.Lib.Decimal
import Kingbus.Lib.Table
import Kingbus.BinlogEvent

/-! # GTIDs and sets of them

`MysqlGTIDSet` of the vendored go-mysql: for each server identifier a list of
intervals of transaction numbers.  `Update` takes a GTID as text, so what it adds
depends on how the number is printed and parsed again.  `Mem` says which GTIDs a set
stands for, and each operation is described by what it does to `Mem`. -/

namespace Kingbus

/-- `uuid.UUID`.  Its text is read back as the same sixteen bytes, so the key of a
set stands for the bytes. -/
structure Sid where
  bytes : Bytes
  length_eq : bytes.length = 16 := by decide
  deriving DecidableEq

/-- A GTID as a `GTID_EVENT` carries it; the number is an `int64`. -/
structure Gtid where
  sid : Sid
  gno : Int
  gno_ge : -2 ^ 63 ≤ gno
  gno_lt : gno < 2 ^ 63
  deriving DecidableEq

/-! ## Numbers and intervals in text -/

/-- `%d` of an `int64`. -/
def formatInt (n : Int) : Bytes :=
  if n < 0 then 45 :: Decimal.put 19 (-n).toNat else Decimal.put 19 n.toNat

/-- `strconv.ParseInt(s, 10, 64)`: the value, and whether there is an error. -/
def parseInt (s : Bytes) : Int × Bool :=
  let neg := s.head? = some 45
  let digits := if neg ∨ s.head? = some 43 then s.tail else s
  match Decimal.value digits with
  | none => (0, true)
  | some n =>
      if neg then if n ≤ 2 ^ 63 then (-n, false) else (-2 ^ 63, true)
      else if n < 2 ^ 63 then (n, false) else (2 ^ 63 - 1, true)

/-- The end of `parseInterval`. -/
def checkInterval (start stop : Int) (err : Bool) : Except EventFailure (HalfOpenInterval Int) :=
  if err then .error (.error "strconv.ParseInt: parsing")
  else if stop ≤ start then
    .error (.error "invalid interval format, must n[-n] and the end must >= start")
  else .ok ⟨start, stop⟩

/-- `parseInterval`.  The error of the first of two numbers is overwritten by that of
the second. -/
def parseInterval (str : Bytes) : Except EventFailure (HalfOpenInterval Int) :=
  match Decimal.split 45 str with
  | [a] => checkInterval (parseInt a).1 (Wire.wrap64 ((parseInt a).1 + 1)) (parseInt a).2
  | [a, b] => checkInterval (parseInt a).1 (Wire.wrap64 ((parseInt b).1 + 1)) (parseInt b).2
  | _ => .error (.error "invalid interval format, must n[-n]")

theorem not_mem_put {k n : Nat} {b : UInt8} (h : ¬ Decimal.IsDigit b) : b ∉ Decimal.put k n :=
  fun hb => h (Decimal.isDigit_of_mem_put hb)

theorem head?_put_ne {k n : Nat} {b : UInt8} (h : ¬ Decimal.IsDigit b) :
    (Decimal.put k n).head? ≠ some b :=
  fun hb => not_mem_put h (List.mem_of_mem_head? hb)

theorem parseInt_put {n : Nat} (h : n < 10 ^ 20) :
    parseInt (Decimal.put 19 n) = if n < 2 ^ 63 then ((n : Int), false) else (2 ^ 63 - 1, true) := by
  have hminus : (Decimal.put 19 n).head? ≠ some 45 := head?_put_ne (by decide)
  have hplus : (Decimal.put 19 n).head? ≠ some 43 := head?_put_ne (by decide)
  simp only [parseInt, hminus, hplus, or_self, if_false, Decimal.value_put h]

theorem checkInterval_ok {start stop : Int} (h : start < stop) :
    checkInterval start stop false = .ok ⟨start, stop⟩ := by
  rw [checkInterval, if_neg Bool.false_ne_true, if_neg (not_le.mpr h)]

theorem parseInterval_put (n : Nat) : parseInterval (Decimal.put 19 n) =
    checkInterval (parseInt (Decimal.put 19 n)).1
      (Wire.wrap64 ((parseInt (Decimal.put 19 n)).1 + 1)) (parseInt (Decimal.put 19 n)).2 := by
  rw [parseInterval, Decimal.split_of_not_mem (not_mem_put (by decide))]

/-- A minus sign separates an empty first number from the second. -/
theorem parseInterval_minus_put (n : Nat) : parseInterval (45 :: Decimal.put 19 n) =
    checkInterval 0 (Wire.wrap64 ((parseInt (Decimal.put 19 n)).1 + 1))
      (parseInt (Decimal.put 19 n)).2 := by
  rw [parseInterval, Decimal.split, if_pos rfl,
    Decimal.split_of_not_mem (not_mem_put (by decide))]
  rfl

theorem wrap64_of_lt {i : Int} (h0 : 0 ≤ i) (h : i < 2 ^ 63) : Wire.wrap64 i = i := by
  unfold Wire.wrap64
  omega

/-- The interval `Update` adds for a transaction number: the number alone, but for a
negative number everything from 0 to its absolute value. -/
def gnoInterval (n : Int) : HalfOpenInterval Int := if n < 0 then ⟨0, -n + 1⟩ else ⟨n, n + 1⟩

/-- The numbers that `Update` takes. -/
def Storable (n : Int) : Prop := -(2 ^ 63 - 1) < n ∧ n < 2 ^ 63 - 1

instance (n : Int) : Decidable (Storable n) := inferInstanceAs (Decidable (_ ∧ _))

/-- **Printing and parsing a transaction number.** -/
theorem parseInterval_formatInt {n : Int} (h : Storable n) :
    parseInterval (formatInt n) = .ok (gnoInterval n) := by
  obtain ⟨hlo, hhi⟩ := h
  rw [formatInt, gnoInterval]
  split
  · obtain ⟨m, hm⟩ := Int.eq_ofNat_of_zero_le (a := -n) (by omega)
    rw [hm, Int.toNat_natCast, parseInterval_minus_put, parseInt_put (by omega),
      if_pos (by omega), wrap64_of_lt (by omega) (by simp only; omega)]
    exact checkInterval_ok (by omega)
  · obtain ⟨m, hm⟩ := Int.eq_ofNat_of_zero_le (a := n) (by omega)
    rw [hm, Int.toNat_natCast, parseInterval_put, parseInt_put (by omega), if_pos (by omega),
      wrap64_of_lt (by simp only; omega) (by simp only; omega)]
    exact checkInterval_ok (by simp only; omega)

/-- The largest number, and those whose absolute value or its successor is out of
range, are refused. -/
theorem parseInterval_not_storable {n : Int} (hlo : -2 ^ 63 ≤ n) (hhi : n < 2 ^ 63)
    (h : ¬ Storable n) : ∃ text, parseInterval (formatInt n) = .error (.error text) := by
  have hcases : n = 2 ^ 63 - 1 ∨ n = -(2 ^ 63 - 1) ∨ n = -2 ^ 63 := by
    unfold Storable at h
    omega
  rcases hcases with rfl | rfl | rfl
  · exact ⟨"invalid interval format, must n[-n] and the end must >= start", by decide +kernel⟩
  · exact ⟨"invalid interval format, must n[-n] and the end must >= start", by decide +kernel⟩
  · exact ⟨"strconv.ParseInt: parsing", by decide +kernel⟩

/-! ## Sets -/

/-- `MysqlGTIDSet`: the intervals of each server identifier, in the order in which the
identifiers were added. -/
structure MysqlGTIDSet where
  sets : List (Sid × List (HalfOpenInterval Int))
  keys_nodup : (sets.map Prod.fst).Nodup
  deriving DecidableEq

namespace MysqlGTIDSet

/-- A set with no identifiers. -/
def empty : MysqlGTIDSet := ⟨[], List.nodup_nil⟩

/-- The intervals of an identifier. -/
def intervals (s : MysqlGTIDSet) (sid : Sid) : List (HalfOpenInterval Int) := (s.sets.lookup sid).getD []

/-- The GTIDs of a set. -/
def Mem (s : MysqlGTIDSet) (sid : Sid) (n : Int) : Prop := HalfOpenInterval.MemList n (s.intervals sid)

instance (s : MysqlGTIDSet) (sid : Sid) (n : Int) : Decidable (s.Mem sid n) :=
  inferInstanceAs (Decidable (HalfOpenInterval.MemList _ _))

/-- Every GTID of the first set is in the second. -/
def Subset (s t : MysqlGTIDSet) : Prop := ∀ sid n, s.Mem sid n → t.Mem sid n

/-- `AddSet`. -/
def addSet (s : MysqlGTIDSet) (sid : Sid) (intervals : List (HalfOpenInterval Int)) : MysqlGTIDSet :=
  if h : sid ∈ s.sets.map Prod.fst then
    ⟨Table.modify sid (fun old => HalfOpenInterval.normalize (old ++ intervals)) s.sets, by
      rw [Table.keys_modify]
      exact s.keys_nodup⟩
  else
    ⟨s.sets ++ [(sid, intervals)], by
      rw [List.map_append, List.map_singleton, List.nodup_append]
      exact ⟨s.keys_nodup, List.nodup_singleton _, fun a ha b hb => by
        rintro rfl
        rw [List.mem_singleton.mp hb] at ha
        exact h ha⟩⟩

/-- `Update` with the text of a GTID. -/
def update (s : MysqlGTIDSet) (g : Gtid) : Except EventFailure MysqlGTIDSet :=
  (parseInterval (formatInt g.gno)).map fun i => s.addSet g.sid (HalfOpenInterval.normalize [i])

/-- `Contain`. -/
def contain (s o : MysqlGTIDSet) : Bool :=
  o.sets.all fun (sid, sub) =>
    match s.sets.lookup sid with
    | none => false
    | some intervals => HalfOpenInterval.contain intervals sub

/-- `Equal`: it looks only at the identifiers of the argument. -/
def equal (s o : MysqlGTIDSet) : Bool :=
  o.sets.all fun (sid, sub) =>
    match s.sets.lookup sid with
    | none => false
    | some intervals => decide (intervals = sub)

/-! ### Decoding -/

/-- The intervals of a set that is being decoded. -/
def readIntervals (data : Bytes) : Nat → Nat → List (HalfOpenInterval Int)
  | 0, _ => []
  | n + 1, pos =>
      ⟨Wire.toInt64 (leAt data pos 8), Wire.toInt64 (leAt data (pos + 8) 8)⟩ ::
        readIntervals data n (pos + 16)

/-- `UUIDSet.decode`: the set and the number of bytes it takes.  The product that is
compared with the length wraps around, the capacity that is then asked for does not. -/
def decodeUUIDSet (data : Bytes) :
    Except EventFailure ((Sid × List (HalfOpenInterval Int)) × Nat) :=
  if h : data.length < 24 then .error (.error "invalid uuid set buffer, less 24")
  else
    let n := Wire.toInt64 (leAt data 16 8)
    if (data.length : Int) < Wire.wrap64 (Wire.wrap64 (16 * n) + 24) then
      .error (.error "invalid uuid set buffer, must %d, but %d")
    else if n < 0 ∨ (data.length : Int) < 16 * n + 24 then
      .error (.panic "makeslice: cap out of range")
    else
      .ok ((⟨data.take 16, by rw [List.length_take]; omega⟩, readIntervals data n.toNat 24),
        24 + 16 * n.toNat)

/-- The loop of `DecodeMysqlGTIDSet`. -/
def decodeSets : Nat → Bytes → MysqlGTIDSet → Except EventFailure MysqlGTIDSet
  | 0, _, s => .ok s
  | n + 1, data, s =>
      (decodeUUIDSet data).bind fun ((sid, intervals), len) =>
        decodeSets n (data.drop len) (s.addSet sid intervals)

/-- `DecodeMysqlGTIDSet`. -/
def decode (data : Bytes) : Except EventFailure MysqlGTIDSet :=
  if data.length < 8 then .error (.error "invalid gtid set buffer, less 4")
  else decodeSets (Wire.toInt64 (leAt data 0 8)).toNat (data.drop 8) .empty

/-! ### What the operations do to the GTIDs -/

@[simp] theorem not_mem_empty (sid : Sid) (n : Int) : ¬ empty.Mem sid n := HalfOpenInterval.memList_nil n

theorem lookup_eq_none {s : MysqlGTIDSet} {sid : Sid} (h : sid ∉ s.sets.map Prod.fst) :
    s.sets.lookup sid = none := by
  rw [List.lookup_eq_none_iff]
  intro f hf
  exact bne_iff_ne.mpr fun heq => h (heq ▸ List.mem_map_of_mem hf)

theorem exists_lookup {s : MysqlGTIDSet} {sid : Sid} (h : sid ∈ s.sets.map Prod.fst) :
    ∃ l, s.sets.lookup sid = some l := by
  obtain ⟨⟨k, l⟩, hf, rfl⟩ := List.mem_map.mp h
  exact Table.exists_lookup_of_mem hf

/-- **`AddSet` is union.** -/
theorem mem_addSet {s : MysqlGTIDSet} {sid sid' : Sid} {l : List (HalfOpenInterval Int)} {n : Int} :
    (s.addSet sid l).Mem sid' n ↔ s.Mem sid' n ∨ (sid' = sid ∧ HalfOpenInterval.MemList n l) := by
  unfold Mem intervals addSet
  split
  · next h =>
    obtain ⟨old, hold⟩ := exists_lookup h
    simp only [Table.lookup_modify]
    by_cases hs : sid' = sid
    · subst hs
      rw [if_pos rfl, hold, Option.map_some, Option.getD_some, Option.getD_some,
        HalfOpenInterval.memList_normalize, HalfOpenInterval.memList_append, and_iff_right rfl]
    · rw [if_neg hs]
      exact ⟨.inl, fun h => h.resolve_right fun h => hs h.1⟩
  · next h =>
    simp only [List.lookup_append]
    by_cases hs : sid' = sid
    · subst hs
      rw [lookup_eq_none h, List.lookup_cons_self, Option.none_or, Option.getD_some,
        Option.getD_none, and_iff_right rfl]
      exact ⟨.inr, fun h => h.resolve_left (HalfOpenInterval.memList_nil n)⟩
    · rw [List.lookup_cons, beq_false_of_ne hs, List.lookup_nil, Option.or_none]
      exact ⟨.inl, fun h => h.resolve_right fun h => hs h.1⟩

/-- `Update` succeeds exactly on the numbers that survive being printed and parsed. -/
theorem update_eq_ok {s : MysqlGTIDSet} {g : Gtid} (h : Storable g.gno) :
    s.update g = .ok (s.addSet g.sid (HalfOpenInterval.normalize [gnoInterval g.gno])) := by
  rw [update, parseInterval_formatInt h]
  rfl

theorem update_not_storable {s : MysqlGTIDSet} {g : Gtid} (h : ¬ Storable g.gno) :
    ∃ text, s.update g = .error (.error text) := by
  obtain ⟨text, ht⟩ := parseInterval_not_storable g.gno_ge g.gno_lt h
  refine ⟨text, ?_⟩
  rw [update, ht]
  rfl

theorem memList_gnoInterval {n k : Int} (h : 0 ≤ n) :
    HalfOpenInterval.MemList k (HalfOpenInterval.normalize [gnoInterval n]) ↔ k = n := by
  rw [HalfOpenInterval.memList_normalize, HalfOpenInterval.memList_cons, gnoInterval, if_neg (not_lt.mpr h),
    HalfOpenInterval.Mem]
  simp only [HalfOpenInterval.memList_nil, or_false]
  omega

/-- **`Update` adds the GTID**, when its number is not negative. -/
theorem mem_update {s s' : MysqlGTIDSet} {g : Gtid} (h : s.update g = .ok s') (h0 : 0 ≤ g.gno)
    {sid : Sid} {n : Int} : s'.Mem sid n ↔ s.Mem sid n ∨ (sid = g.sid ∧ n = g.gno) := by
  by_cases hs : Storable g.gno
  · rw [update_eq_ok hs] at h
    cases h
    rw [mem_addSet, memList_gnoInterval h0]
  · obtain ⟨text, ht⟩ := update_not_storable (s := s) hs
    rw [ht] at h
    cases h

/-- An identifier with a GTID has intervals in the set. -/
theorem exists_of_mem {s : MysqlGTIDSet} {sid : Sid} {n : Int} (h : s.Mem sid n) :
    ∃ l, s.sets.lookup sid = some l ∧ HalfOpenInterval.MemList n l := by
  rw [Mem, intervals] at h
  cases hl : s.sets.lookup sid with
  | none =>
      rw [hl] at h
      exact absurd h (HalfOpenInterval.memList_nil n)
  | some l =>
      rw [hl] at h
      exact ⟨l, rfl, h⟩

theorem mem_iff_of_lookup {s : MysqlGTIDSet} {sid : Sid} {l : List (HalfOpenInterval Int)}
    (h : s.sets.lookup sid = some l) {n : Int} :
    s.Mem sid n ↔ HalfOpenInterval.MemList n l := by
  rw [Mem, intervals, h, Option.getD_some]

theorem mem_of_lookup {s : MysqlGTIDSet} {sid : Sid} {l : List (HalfOpenInterval Int)}
    (h : s.sets.lookup sid = some l) : (sid, l) ∈ s.sets := by
  obtain ⟨l₁, l₂, heq, -⟩ := List.lookup_eq_some_iff.mp h
  rw [heq]
  simp

/-- **What is contained is a subset.** -/
theorem subset_of_contain {s o : MysqlGTIDSet} (h : s.contain o = true) : o.Subset s := by
  intro sid n hn
  obtain ⟨sub, hsub, hn⟩ := exists_of_mem hn
  have hc := List.all_eq_true.mp h _ (mem_of_lookup hsub)
  simp only at hc
  cases hs : s.sets.lookup sid with
  | none =>
      rw [hs] at hc
      cases hc
  | some l =>
      rw [hs] at hc
      exact (mem_iff_of_lookup hs).mpr (HalfOpenInterval.memList_of_contain hc hn)

theorem equal_iff {s o : MysqlGTIDSet} :
    s.equal o = true ↔ ∀ u ∈ o.sets, s.sets.lookup u.1 = some u.2 := by
  rw [equal, List.all_eq_true]
  refine forall₂_congr fun u _ => ?_
  obtain ⟨sid, sub⟩ := u
  simp only
  cases s.sets.lookup sid with
  | none => exact ⟨nofun, nofun⟩
  | some l => exact decide_eq_true_iff.trans Option.some_inj.symm

theorem lookup_of_mem {s : MysqlGTIDSet} {u : Sid × List (HalfOpenInterval Int)} (h : u ∈ s.sets) :
    s.sets.lookup u.1 = some u.2 := Table.lookup_of_mem (List.pairwise_map.mp s.keys_nodup) h

theorem equal_refl (s : MysqlGTIDSet) : s.equal s = true := equal_iff.mpr fun _ h => lookup_of_mem h

theorem equal_trans {s t u : MysqlGTIDSet} (h : s.equal t = true) (h' : t.equal u = true) :
    s.equal u = true := by
  rw [equal_iff] at h h' ⊢
  intro v hv
  exact h v (mem_of_lookup (h' v hv))

end MysqlGTIDSet

/-! ## Sets in text -/

/-- `HalfOpenInterval.String`. -/
def formatInterval (i : HalfOpenInterval Int) : Bytes :=
  if i.stop = Wire.wrap64 (i.start + 1) then formatInt i.start
  else formatInt i.start ++ 45 :: formatInt (Wire.wrap64 (i.stop - 1))

/-- The intervals of a text, one after the other. -/
def parseIntervals : List (HalfOpenInterval Int) → Except EventFailure (List (HalfOpenInterval Int))
  | [] => .ok []
  | i :: l => (parseInterval (formatInterval i)).bind fun j => (parseIntervals l).map (j :: ·)

/-- `ParseUUIDSet` on the text of one identifier with its intervals. -/
def parseUUIDSet (u : Sid × List (HalfOpenInterval Int)) :
    Except EventFailure (Sid × List (HalfOpenInterval Int)) :=
  if u.2 = [] then .error (.error "invalid GTID format, must UUID:interval[:interval]")
  else (parseIntervals u.2).map fun l => (u.1, HalfOpenInterval.normalize l)

/-- `Update` with the text of a set, given by what is printed for each identifier.  The
text is parsed as one `UUIDSet`, so a second identifier is read as part of an interval. -/
def MysqlGTIDSet.updateText (s : MysqlGTIDSet) :
    List (Sid × List (HalfOpenInterval Int)) → Except EventFailure MysqlGTIDSet
  | [] => .error (.error "invalid GTID format, must UUID:interval[:interval]")
  | [u] => (parseUUIDSet u).map fun v => s.addSet v.1 v.2
  | _ :: _ :: _ => .error (.error "invalid interval format, must n[-n]")

/-- `ParseMysqlGTIDSet`, from the set that is read so far. -/
def parseSets : List (Sid × List (HalfOpenInterval Int)) → MysqlGTIDSet →
    Except EventFailure MysqlGTIDSet
  | [], s => .ok s
  | u :: us, s => (parseUUIDSet u).bind fun v => parseSets us (s.addSet v.1 v.2)

/-- Intervals that are read as they are printed. -/
def PrintableInterval (i : HalfOpenInterval Int) : Prop :=
  0 ≤ i.start ∧ i.start < i.stop ∧ i.stop < 2 ^ 63

instance (i : HalfOpenInterval Int) : Decidable (PrintableInterval i) :=
  inferInstanceAs (Decidable (_ ∧ _ ∧ _))

theorem parseInt_put_of_lt {n : Nat} (h : n < 2 ^ 63) :
    parseInt (Decimal.put 19 n) = ((n : Int), false) := by
  rw [parseInt_put (by omega), if_pos h]

theorem parseInterval_put_put (a b : Nat) :
    parseInterval (Decimal.put 19 a ++ 45 :: Decimal.put 19 b) =
      checkInterval (parseInt (Decimal.put 19 a)).1
        (Wire.wrap64 ((parseInt (Decimal.put 19 b)).1 + 1)) (parseInt (Decimal.put 19 b)).2 := by
  rw [parseInterval, Decimal.split_append_cons (not_mem_put (by decide)),
    Decimal.split_of_not_mem (not_mem_put (by decide))]

/-- **Printing and parsing an interval.** -/
theorem parseInterval_formatInterval {i : HalfOpenInterval Int} (h : PrintableInterval i) :
    parseInterval (formatInterval i) = .ok i := by
  obtain ⟨h0, hlt, hmax⟩ := h
  obtain ⟨start, stop⟩ := i
  simp only at h0 hlt hmax
  rw [formatInterval]
  simp only
  rw [wrap64_of_lt (by omega) (by omega), wrap64_of_lt (by omega) (by omega)]
  split
  · next heq =>
    rw [parseInterval_formatInt ⟨by omega, by omega⟩, gnoInterval, if_neg (by omega), heq]
  · obtain ⟨a, ha⟩ := Int.eq_ofNat_of_zero_le h0
    obtain ⟨b, hb⟩ := Int.eq_ofNat_of_zero_le (a := stop - 1) (by omega)
    have hfa : formatInt start = Decimal.put 19 a := by
      rw [formatInt, if_neg (by omega), ha, Int.toNat_natCast]
    have hfb : formatInt (stop - 1) = Decimal.put 19 b := by
      rw [formatInt, if_neg (by omega), hb, Int.toNat_natCast]
    rw [hfa, hfb, parseInterval_put_put, parseInt_put_of_lt (by omega),
      parseInt_put_of_lt (by omega), wrap64_of_lt (by simp only; omega) (by simp only; omega)]
    simp only
    rw [← ha, ← hb, Int.sub_add_cancel]
    exact checkInterval_ok hlt

theorem parseIntervals_eq {l : List (HalfOpenInterval Int)} (h : ∀ i ∈ l, PrintableInterval i) :
    parseIntervals l = .ok l := by
  induction l with
  | nil => rfl
  | cons i l ih =>
      rw [parseIntervals, parseInterval_formatInterval (h i (List.mem_cons_self ..)),
        ih fun j hj => h j (List.mem_cons_of_mem _ hj)]
      rfl

theorem parseUUIDSet_eq {u : Sid × List (HalfOpenInterval Int)} (hne : u.2 ≠ [])
    (h : ∀ i ∈ u.2, PrintableInterval i) :
    parseUUIDSet u = .ok (u.1, HalfOpenInterval.normalize u.2) := by
  rw [parseUUIDSet, if_neg hne, parseIntervals_eq h]
  rfl

/-- The text of a `gtid_purged` as a master reports it: each identifier once, with
intervals that can be read back. -/
structure GtidText where
  sets : List (Sid × List (HalfOpenInterval Int))
  keys_nodup : (sets.map Prod.fst).Nodup := by decide
  printable : ∀ u ∈ sets, u.2 ≠ [] ∧ ∀ i ∈ u.2, PrintableInterval i := by decide
  deriving DecidableEq

/-- The GTIDs a text names. -/
def GtidText.Mem (t : GtidText) (sid : Sid) (n : Int) : Prop :=
  ∃ u ∈ t.sets, u.1 = sid ∧ HalfOpenInterval.MemList n u.2

instance (t : GtidText) (sid : Sid) (n : Int) : Decidable (t.Mem sid n) :=
  inferInstanceAs (Decidable (∃ u ∈ t.sets, _))

/-- A text with one identifier updates a set by what it names. -/
theorem MysqlGTIDSet.updateText_singleton (s : MysqlGTIDSet) {u : Sid × List (HalfOpenInterval Int)}
    (hne : u.2 ≠ []) (h : ∀ i ∈ u.2, PrintableInterval i) :
    s.updateText [u] = .ok (s.addSet u.1 (HalfOpenInterval.normalize u.2)) := by
  rw [updateText, parseUUIDSet_eq hne h]
  rfl

end Kingbus
