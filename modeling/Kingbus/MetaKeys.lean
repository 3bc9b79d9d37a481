import Kingbus.Lib.Cursor
import Kingbus.BinlogProgress

/-! # Keys with a raft index, and the lookups over them

`applyBinlogEvent` stores `FORMAT_DESCRIPTION` events and the file names of `ROTATE` events in
the bucket of `MetaStore`, under keys that end in the raft index with twenty digits.  `GetFde`
and `GetNextBinlogFile` (`storage/meta_storage.go`) go over these keys with a cursor, from the
first one of the prefix on.

Twenty digits hold every index of 64 bits, so the bytes of the keys have the order of the
indexes and a loop meets the events in the order of the log.  `lookupsRight_iff` says for which
buckets both lookups answer as they should. -/

namespace Kingbus

/-! ## Keys -/

/-- The prefixes of the keys that the lookups go over. -/
inductive KeyPrefix where
  | fde
  | nextBinlog
  deriving DecidableEq

/-- `FdePrefix` and `NextBinlogPrefix`: `fde` and `next_binlog`. -/
def KeyPrefix.bytes : KeyPrefix → Bytes
  | .fde => [102, 100, 101]
  | .nextBinlog => [110, 101, 120, 116, 95, 98, 105, 110, 108, 111, 103]

/-- `path.Join(prefix, fmt.Sprintf("%020d", raftIndex))`. -/
def KeyPrefix.key (p : KeyPrefix) (raftIndex : Nat) : Bytes :=
  p.bytes ++ 47 :: Decimal.pad 20 (Decimal.put 19 raftIndex)

/-- `strconv.ParseUint(s, 10, 64)`. -/
def parseUint64 (s : Bytes) : Option Nat := (Decimal.value s).filter fun n => n < 2 ^ 64

/-- The raft index of a key: what stands behind its only slash. -/
def keyIndex (k : Bytes) : Option Nat :=
  match Decimal.split 47 k with
  | [_, s] => parseUint64 s
  | _ => none

theorem parseUint64_eq_some_iff {s : Bytes} {n : Nat} :
    parseUint64 s = some n ↔ Decimal.value s = some n ∧ n < 2 ^ 64 := by
  rw [parseUint64, Option.filter_eq_some_iff, decide_eq_true_eq]

/-- Neither a slash nor a dot is in a number. -/
theorem not_mem_of_value {s : Bytes} {n : Nat} {b : UInt8} (h : Decimal.value s = some n)
    (hb : ¬ Decimal.IsDigit b) : b ∉ s :=
  fun hmem => hb (Decimal.isDigit_of_value h b hmem)

namespace KeyPrefix
variable {p q : KeyPrefix} {m n : Nat}

theorem lt_pow_digits {n : Nat} (h : n < 2 ^ 64) : n < 10 ^ (19 + 1) :=
  Nat.lt_trans h (by decide)

theorem value_digits (h : n < 2 ^ 64) :
    Decimal.value (Decimal.pad 20 (Decimal.put 19 n)) = some n := by
  rw [Decimal.value_pad 20 (Decimal.put_ne_nil 19 n), Decimal.value_put (lt_pow_digits h)]

theorem length_digits (n : Nat) : (Decimal.pad 20 (Decimal.put 19 n)).length = 20 := by
  rw [Decimal.length_pad]
  exact Nat.max_eq_left (Decimal.length_put_le 19 n)

theorem keyIndex_key (p : KeyPrefix) (h : n < 2 ^ 64) : keyIndex (p.key n) = some n := by
  have hslash : (47 : UInt8) ∉ p.bytes := by cases p <;> decide
  have hdigits := not_mem_of_value (b := 47) (value_digits h) (by decide)
  rw [keyIndex, key, Decimal.split_eq_pair_iff.mpr ⟨rfl, hslash, hdigits⟩]
  exact parseUint64_eq_some_iff.mpr ⟨value_digits h, h⟩

theorem key_lt_key (p : KeyPrefix) (hm : m < 2 ^ 64) (hn : n < 2 ^ 64) (h : m < n) :
    p.key m < p.key n := by
  rw [key, key, Cursor.append_lt_append_left, List.cons_lt_cons_iff]
  refine .inr ⟨rfl, Decimal.lt_of_value ?_ (value_digits hm) (value_digits hn) h⟩
  rw [length_digits, length_digits]

/-- **Keys have the order of their indexes.** -/
theorem key_lt_key_iff (p : KeyPrefix) (hm : m < 2 ^ 64) (hn : n < 2 ^ 64) :
    p.key m < p.key n ↔ m < n := by
  refine ⟨fun h => ?_, p.key_lt_key hm hn⟩
  rcases Nat.lt_trichotomy m n with hlt | heq | hgt
  · exact hlt
  · rw [heq] at h
    exact absurd h (List.lt_irrefl _)
  · exact absurd (List.lt_trans h (p.key_lt_key hn hm hgt)) (List.lt_irrefl _)

theorem bytes_prefix_key (p : KeyPrefix) (n : Nat) : p.bytes <+: p.key n := ⟨_, rfl⟩

/-- The first bytes of the prefixes differ. -/
theorem eq_of_prefix_key (h : q.bytes <+: p.key n) : q = p := by
  obtain ⟨t, ht⟩ := h
  have hhead := congrArg List.head? ht
  cases p <;> cases q <;> first | rfl | exact absurd hhead (by simp [bytes, key])

end KeyPrefix

/-! ## The bucket -/

/-- The bucket of `MetaStore`: the cursor meets its keys in the order of their bytes.  Keys that
have one of the prefixes were made by `applyBinlogEvent`. -/
structure MetaBucket where
  pairs : List (Bytes × Bytes)
  sorted : Cursor.Sorted pairs
  keyed : ∀ (p : KeyPrefix), ∀ f ∈ pairs, p.bytes <+: f.1 → ∃ n, n < 2 ^ 64 ∧ f.1 = p.key n

namespace MetaBucket

def empty : MetaBucket where
  pairs := []
  sorted := List.Pairwise.nil
  keyed := fun _ => List.forall_mem_nil _

/-- `Set` with the key of an index. -/
def set (b : MetaBucket) (p : KeyPrefix) (raftIndex : UInt64) (value : Bytes) : MetaBucket where
  pairs := Cursor.put (p.key raftIndex.toNat) value b.pairs
  sorted := b.sorted.put
  keyed := by
    intro q f hf hq
    rcases Cursor.mem_put.mp hf with rfl | ⟨hf, -⟩
    · rw [KeyPrefix.eq_of_prefix_key hq]
      exact ⟨raftIndex.toNat, raftIndex.toNat_lt, rfl⟩
    · exact b.keyed q f hf hq

/-- The loop of `GetFde` from a key on, with the event found last. -/
def fdeLoop (preGtidEventIndex : Nat) : List (Bytes × Bytes) → Bytes → Except EventFailure Bytes
  | [], fde => .ok fde
  | (k, v) :: l, fde =>
      match keyIndex k with
      | none => .error (.error "storage:key is not found")
      | some raftIndex =>
          if raftIndex < preGtidEventIndex then fdeLoop preGtidEventIndex l v else .ok fde

/-- `GetFde`. -/
def getFde (b : MetaBucket) (preGtidEventIndex : Nat) : Except EventFailure Bytes :=
  (fdeLoop preGtidEventIndex (Cursor.scan KeyPrefix.fde.bytes b.pairs) []).bind fun fde =>
    if fde.length = 0 then .error (.error "storage:gtids not be contained") else .ok fde

/-- `generatePreviousLogName`: the number is an `uint64`, so the one before 0 is the greatest. -/
def generatePreviousLogName (binlogFileName : Bytes) : Except EventFailure Bytes :=
  match Decimal.split 46 binlogFileName with
  | [base, digits] =>
      match parseUint64 digits with
      | none => .error (.fatal "binlog file name illegal,binlogFileName:%s")
      | some num =>
          .ok (base ++ 46 :: Decimal.pad 6 (Decimal.put 19 ((num + (2 ^ 64 - 1)) % 2 ^ 64)))
  | _ => .error (.fatal "binlog file name illegal,binlogFileName:%s")

/-- The loop of `GetNextBinlogFile` from a key on, with the name found last. -/
def nextLoop (startRaftIndex : Nat) : List (Bytes × Bytes) → Bytes → Except EventFailure Bytes
  | [], fileName => .ok fileName
  | (k, v) :: l, fileName =>
      match keyIndex k with
      | none => .error (.error "storage:key is not found")
      | some raftIndex =>
          if raftIndex < startRaftIndex then nextLoop startRaftIndex l v
          else if fileName.length = 0 then generatePreviousLogName v
          else .ok fileName

/-- `GetNextBinlogFile`. -/
def getNextBinlogFile (b : MetaBucket) (startRaftIndex : Nat) : Except EventFailure Bytes :=
  (nextLoop startRaftIndex (Cursor.scan KeyPrefix.nextBinlog.bytes b.pairs) []).bind fun fileName =>
    if fileName.length = 0 then .error (.error "storage:key is not found") else .ok fileName

/-! ## What the lookups are for -/

/-- A key of an index with its value. -/
def Key (b : MetaBucket) (p : KeyPrefix) (n : Nat) (v : Bytes) : Prop :=
  n < 2 ^ 64 ∧ (p.key n, v) ∈ b.pairs

/-- The value at the greatest index below `i`. -/
def NearestBelow (b : MetaBucket) (p : KeyPrefix) (i : Nat) (v : Bytes) : Prop :=
  ∃ n, b.Key p n v ∧ n < i ∧ ∀ m w, b.Key p m w → m < i → m ≤ n

/-- There is no index below `i`. -/
def NoneBelow (b : MetaBucket) (p : KeyPrefix) (i : Nat) : Prop :=
  ∀ m w, b.Key p m w → i ≤ m

/-- The smallest index at or above `i`, with its value. -/
def FirstFrom (b : MetaBucket) (p : KeyPrefix) (i n : Nat) (v : Bytes) : Prop :=
  b.Key p n v ∧ i ≤ n ∧ ∀ m w, b.Key p m w → i ≤ m → n ≤ m

/-- The name `base.N`; the base may have dots too. -/
def Named (v base : Bytes) (N : Nat) : Prop :=
  ∃ digits, v = base ++ 46 :: digits ∧ Decimal.value digits = some N

/-- The smallest index at or above `i` that holds a name `base.N` with `N ≥ 1` holds this one. -/
def FirstNamed (b : MetaBucket) (i : Nat) (base : Bytes) (N : Nat) : Prop :=
  ∃ n v, b.Key .nextBinlog n v ∧ i ≤ n ∧ Named v base N ∧ 1 ≤ N ∧
    ∀ m w base' N', b.Key .nextBinlog m w → i ≤ m → Named w base' N' → 1 ≤ N' → n ≤ m

/-- The digits of `n`: six, or as many more as it takes. -/
def SixDigits (digits : Bytes) (n : Nat) : Prop :=
  Decimal.value digits = some n ∧ 6 ≤ digits.length ∧
    (6 < digits.length → digits.head? ≠ some 48)

/-- **Both lookups find the nearest event, and the node stays up.** -/
structure LookupsRight (b : MetaBucket) (i : Nat) : Prop where
  fde : ∀ v, b.NearestBelow .fde i v → b.getFde i = .ok v
  fde_none : b.getFde i = .error (.error "storage:gtids not be contained") ↔ b.NoneBelow .fde i
  next : ∀ v, b.NearestBelow .nextBinlog i v → b.getNextBinlogFile i = .ok v
  next_generated : b.NoneBelow .nextBinlog i → ∀ base N, b.FirstNamed i base N →
    ∃ digits, SixDigits digits (N - 1) ∧ b.getNextBinlogFile i = .ok (base ++ 46 :: digits)
  next_none : b.NoneBelow .nextBinlog i →
    (∀ n v base N, b.Key .nextBinlog n v → i ≤ n → Named v base N → ¬ 1 ≤ N) →
    b.getNextBinlogFile i = .error (.error "storage:key is not found")
  no_fatal : ∀ text, b.getFde i ≠ .error (.fatal text) ∧
    b.getNextBinlogFile i ≠ .error (.fatal text)

/-! ## The loops over the indexes -/

variable {b : MetaBucket} {p : KeyPrefix} {i n : Nat} {v w base : Bytes} {N : Nat}

/-- The keys of a prefix as the cursor meets them, with their indexes. -/
def indexed (b : MetaBucket) (p : KeyPrefix) : List (Nat × Bytes) :=
  (Cursor.scan p.bytes b.pairs).map fun f => ((keyIndex f.1).getD 0, f.2)

theorem exists_key_of_mem_scan {f : Bytes × Bytes} (hf : f ∈ Cursor.scan p.bytes b.pairs) :
    ∃ n, n < 2 ^ 64 ∧ f.1 = p.key n := by
  obtain ⟨hmem, hprefix⟩ := b.sorted.mem_scan.mp hf
  exact b.keyed p f hmem hprefix

theorem scan_eq (b : MetaBucket) (p : KeyPrefix) :
    Cursor.scan p.bytes b.pairs = (b.indexed p).map fun f => (p.key f.1, f.2) := by
  rw [indexed, List.map_map]
  conv_lhs => rw [← List.map_id (Cursor.scan p.bytes b.pairs)]
  refine List.map_congr_left fun f hf => ?_
  obtain ⟨n, hn, hkey⟩ := exists_key_of_mem_scan hf
  rw [Function.comp_apply, hkey, p.keyIndex_key hn, Option.getD_some, ← hkey, id]

theorem mem_indexed {f : Nat × Bytes} : f ∈ b.indexed p ↔ b.Key p f.1 f.2 := by
  constructor
  · intro hf
    obtain ⟨g, hg, rfl⟩ := List.mem_map.mp hf
    obtain ⟨n, hn, hkey⟩ := exists_key_of_mem_scan hg
    have hmem := (b.sorted.mem_scan.mp hg).1
    rw [Key, hkey, p.keyIndex_key hn, Option.getD_some, ← hkey]
    exact ⟨hn, hmem⟩
  · rintro ⟨hn, hmem⟩
    refine List.mem_map.mpr ⟨(p.key f.1, f.2), ?_, ?_⟩
    · exact b.sorted.mem_scan.mpr ⟨hmem, p.bytes_prefix_key f.1⟩
    · rw [p.keyIndex_key hn, Option.getD_some]

theorem lt_of_mem_indexed {f : Nat × Bytes} (hf : f ∈ b.indexed p) : f.1 < 2 ^ 64 :=
  (mem_indexed.mp hf).1

theorem sorted_indexed (b : MetaBucket) (p : KeyPrefix) : Table.Sorted (b.indexed p) := by
  have hscan : Cursor.Sorted (Cursor.scan p.bytes b.pairs) := b.sorted.scan
  rw [b.scan_eq p] at hscan
  refine (List.pairwise_map.mp hscan).imp_of_mem fun hf hg hlt => ?_
  exact (p.key_lt_key_iff (lt_of_mem_indexed hf) (lt_of_mem_indexed hg)).mp hlt

theorem fdeLoop_eq {l : List (Nat × Bytes)} (hl : Table.Sorted l) (hlt : ∀ f ∈ l, f.1 < 2 ^ 64) :
    ∀ fde, fdeLoop i (l.map fun f => (p.key f.1, f.2)) fde =
      .ok (((Table.lastBelow i l).map Prod.snd).getD fde) := by
  induction l with
  | nil => exact fun _ => rfl
  | cons f l ih =>
      intro fde
      rw [List.map_cons, fdeLoop, p.keyIndex_key (hlt f List.mem_cons_self)]
      by_cases hf : f.1 < i
      · simp only [if_pos hf]
        rw [ih (List.pairwise_cons.mp hl).2 fun g hg => hlt g (List.mem_cons_of_mem f hg),
          Table.lastBelow_cons_of_lt hf]
        cases Table.lastBelow i l <;> rfl
      · simp only [if_neg hf]
        rw [hl.lastBelow_cons_of_le (Nat.not_lt.mp hf)]
        rfl

theorem nextLoop_eq {l : List (Nat × Bytes)} (hl : Table.Sorted l)
    (hlt : ∀ f ∈ l, f.1 < 2 ^ 64) :
    ∀ fileName, nextLoop i (l.map fun f => (p.key f.1, f.2)) fileName =
      if (((Table.lastBelow i l).map Prod.snd).getD fileName).length = 0 then
        (l.find? fun f => i ≤ f.1).elim (.ok []) fun f => generatePreviousLogName f.2
      else .ok (((Table.lastBelow i l).map Prod.snd).getD fileName) := by
  induction l with
  | nil =>
      intro fileName
      rw [List.map_nil, nextLoop]
      change _ = if fileName.length = 0 then Except.ok [] else Except.ok fileName
      split
      · next h => rw [List.length_eq_zero_iff.mp h]
      · rfl
  | cons f l ih =>
      intro fileName
      rw [List.map_cons, nextLoop, p.keyIndex_key (hlt f List.mem_cons_self)]
      by_cases hf : f.1 < i
      · simp only [if_pos hf]
        rw [ih (List.pairwise_cons.mp hl).2 fun g hg => hlt g (List.mem_cons_of_mem f hg),
          Table.lastBelow_cons_of_lt hf,
          List.find?_cons_of_neg (by simpa using hf)]
        cases Table.lastBelow i l <;> rfl
      · simp only [if_neg hf]
        rw [hl.lastBelow_cons_of_le (Nat.not_lt.mp hf),
          List.find?_cons_of_pos (by simpa using hf)]
        rfl

/-! ## Nearest keys -/

theorem nearestBelow_iff :
    b.NearestBelow p i v ↔ (Table.lastBelow i (b.indexed p)).map Prod.snd = some v := by
  rw [Option.map_eq_some_iff]
  constructor
  · rintro ⟨n, hkey, hlt, hgreatest⟩
    refine ⟨(n, v), (b.sorted_indexed p).lastBelow_iff.mpr ⟨mem_indexed.mpr hkey, hlt, ?_⟩, rfl⟩
    exact fun g hg hgi => hgreatest g.1 g.2 (mem_indexed.mp hg) hgi
  · rintro ⟨f, hf, rfl⟩
    obtain ⟨hmem, hlt, hgreatest⟩ := (b.sorted_indexed p).lastBelow_iff.mp hf
    refine ⟨f.1, mem_indexed.mp hmem, hlt, fun m w hkey hm => ?_⟩
    exact hgreatest (m, w) (mem_indexed.mpr hkey) hm

theorem noneBelow_iff : b.NoneBelow p i ↔ Table.lastBelow i (b.indexed p) = none := by
  rw [Table.lastBelow_eq_none_iff]
  constructor
  · exact fun h f hf => h f.1 f.2 (mem_indexed.mp hf)
  · exact fun h m w hkey => h (m, w) (mem_indexed.mpr hkey)

theorem firstFrom_iff :
    b.FirstFrom p i n v ↔ ((b.indexed p).find? fun f => i ≤ f.1) = some (n, v) := by
  rw [(b.sorted_indexed p).find?_iff]
  simp only [FirstFrom, mem_indexed, decide_eq_true_eq, Prod.forall]

theorem exists_nearestBelow_or (b : MetaBucket) (p : KeyPrefix) (i : Nat) :
    (∃ v, b.NearestBelow p i v) ∨ b.NoneBelow p i := by
  rw [noneBelow_iff]
  cases h : Table.lastBelow i (b.indexed p) with
  | none => exact .inr rfl
  | some f => exact .inl ⟨f.2, nearestBelow_iff.mpr (by rw [h]; rfl)⟩

theorem exists_firstFrom (hkey : b.Key p n v) (hle : i ≤ n) : ∃ m w, b.FirstFrom p i m w := by
  cases h : (b.indexed p).find? fun f => i ≤ f.1 with
  | none =>
      have hno := List.find?_eq_none.mp h (n, v) (mem_indexed.mpr hkey)
      exact absurd (decide_eq_true hle) hno
  | some f => exact ⟨f.1, f.2, firstFrom_iff.mpr h⟩

/-- A key has one value. -/
theorem Key.eq (hv : b.Key p n v) (hw : b.Key p n w) : v = w := by
  have hv' : (n, v) ∈ b.indexed p := mem_indexed.mpr hv
  have hw' : (n, w) ∈ b.indexed p := mem_indexed.mpr hw
  exact congrArg Prod.snd ((b.sorted_indexed p).eq_of_key_eq hv' hw' rfl)

/-! ## What the lookups return -/

theorem getFde_eq (b : MetaBucket) (i : Nat) : b.getFde i =
    if (((Table.lastBelow i (b.indexed .fde)).map Prod.snd).getD []).length = 0 then
      .error (.error "storage:gtids not be contained")
    else .ok (((Table.lastBelow i (b.indexed .fde)).map Prod.snd).getD []) := by
  rw [getFde, b.scan_eq, fdeLoop_eq (b.sorted_indexed .fde) fun f hf => lt_of_mem_indexed hf]
  rfl

theorem getFde_of_noneBelow (h : b.NoneBelow .fde i) :
    b.getFde i = .error (.error "storage:gtids not be contained") := by
  rw [getFde_eq, noneBelow_iff.mp h]
  rfl

theorem getFde_of_nearestBelow (h : b.NearestBelow .fde i v) : b.getFde i =
    if v.length = 0 then .error (.error "storage:gtids not be contained") else .ok v := by
  rw [getFde_eq, nearestBelow_iff.mp h, Option.getD_some]

theorem getFde_ne_fatal (text : String) : b.getFde i ≠ .error (.fatal text) := by
  rw [getFde_eq]
  split <;> simp

theorem getNextBinlogFile_eq (b : MetaBucket) (i : Nat) : b.getNextBinlogFile i =
    (if (((Table.lastBelow i (b.indexed .nextBinlog)).map Prod.snd).getD []).length = 0 then
        ((b.indexed .nextBinlog).find? fun f => i ≤ f.1).elim (.ok [])
          fun f => generatePreviousLogName f.2
      else .ok (((Table.lastBelow i (b.indexed .nextBinlog)).map Prod.snd).getD [])).bind
      fun fileName => if fileName.length = 0 then .error (.error "storage:key is not found")
        else .ok fileName := by
  rw [getNextBinlogFile, b.scan_eq,
    nextLoop_eq (b.sorted_indexed .nextBinlog) fun f hf => lt_of_mem_indexed hf]

theorem getNextBinlogFile_of_nearestBelow (h : b.NearestBelow .nextBinlog i v)
    (hne : v.length ≠ 0) : b.getNextBinlogFile i = .ok v := by
  rw [getNextBinlogFile_eq, nearestBelow_iff.mp h, Option.getD_some, if_neg hne]
  exact if_neg hne

/-- An empty name is never returned. -/
theorem getNextBinlogFile_ne_nil (b : MetaBucket) (i : Nat) : b.getNextBinlogFile i ≠ .ok [] := by
  rw [getNextBinlogFile]
  cases nextLoop i (Cursor.scan KeyPrefix.nextBinlog.bytes b.pairs) [] with
  | error e =>
      change Except.error e ≠ _
      simp
  | ok fileName =>
      change (if fileName.length = 0 then _ else _) ≠ _
      split
      · simp
      · next hne =>
        intro h
        rw [Except.ok.inj h] at hne
        exact hne rfl

theorem getNextBinlogFile_of_firstFrom (hnone : b.NoneBelow .nextBinlog i)
    (h : b.FirstFrom .nextBinlog i n v) : b.getNextBinlogFile i =
      (generatePreviousLogName v).bind fun fileName =>
        if fileName.length = 0 then .error (.error "storage:key is not found")
        else .ok fileName := by
  rw [getNextBinlogFile_eq, noneBelow_iff.mp hnone, firstFrom_iff.mp h]
  rfl

theorem getNextBinlogFile_of_noKey (h : ∀ n v, ¬ b.Key .nextBinlog n v) :
    b.getNextBinlogFile i = .error (.error "storage:key is not found") := by
  have hnil : b.indexed .nextBinlog = [] :=
    List.eq_nil_iff_forall_not_mem.mpr fun f hf => h f.1 f.2 (mem_indexed.mp hf)
  rw [getNextBinlogFile_eq, hnil]
  rfl

/-! ## Names -/

theorem sixDigits_put {n : Nat} (h : n < 2 ^ 64) :
    SixDigits (Decimal.pad 6 (Decimal.put 19 n)) n := by
  refine ⟨?_, ?_, fun hlong => ?_⟩
  · rw [Decimal.value_pad 6 (Decimal.put_ne_nil 19 n),
      Decimal.value_put (KeyPrefix.lt_pow_digits h)]
  · rw [Decimal.length_pad]
    exact Nat.le_max_left ..
  · rw [Decimal.length_pad] at hlong
    rw [Decimal.pad_of_le (by omega)]
    refine Decimal.head?_put_ne (Nat.pos_of_ne_zero fun hzero => ?_) (KeyPrefix.lt_pow_digits h)
    -- a single digit is not longer than six
    rw [hzero] at hlong
    exact absurd hlong (by decide)

/-- A text is cut at its last dot in one way. -/
theorem eq_of_append_dot {base' digits digits' : Bytes} (hdot : 46 ∉ digits)
    (hdot' : 46 ∉ digits') (h : base ++ 46 :: digits = base' ++ 46 :: digits') :
    base = base' ∧ digits = digits' := by
  rcases List.append_eq_append_iff.mp h with ⟨t, hbase, ht⟩ | ⟨t, hbase, ht⟩
  · cases t with
    | nil => exact ⟨by rw [hbase, List.append_nil], (List.cons.inj ht).2⟩
    | cons x t =>
        -- the second dot would be among the first digits
        rw [(List.cons.inj ht).2] at hdot
        exact absurd (List.mem_append_right t List.mem_cons_self) hdot
  · cases t with
    | nil => exact ⟨by rw [hbase, List.append_nil], (List.cons.inj ht).2.symm⟩
    | cons x t =>
        rw [(List.cons.inj ht).2] at hdot'
        exact absurd (List.mem_append_right t List.mem_cons_self) hdot'

/-- A name has one base and one number. -/
theorem Named.unique {base' : Bytes} {N' : Nat} (h : Named v base N) (h' : Named v base' N') :
    base = base' ∧ N = N' := by
  obtain ⟨digits, rfl, hN⟩ := h
  obtain ⟨digits', hv, hN'⟩ := h'
  obtain ⟨hbase, rfl⟩ := eq_of_append_dot (not_mem_of_value (b := 46) hN (by decide))
    (not_mem_of_value (b := 46) hN' (by decide)) hv
  rw [hN] at hN'
  exact ⟨hbase, Option.some.inj hN'⟩

/-- A name with one dot and a number of 64 bits gets the number before it. -/
theorem generatePreviousLogName_of_named (h : Named v base N) (hdot : 46 ∉ base)
    (hN : N < 2 ^ 64) : generatePreviousLogName v =
      .ok (base ++ 46 :: Decimal.pad 6 (Decimal.put 19 ((N + (2 ^ 64 - 1)) % 2 ^ 64))) := by
  obtain ⟨digits, rfl, hvalue⟩ := h
  have hdigits := not_mem_of_value (b := 46) hvalue (by decide)
  rw [generatePreviousLogName, Decimal.split_eq_pair_iff.mpr ⟨rfl, hdot, hdigits⟩]
  simp only [parseUint64_eq_some_iff.mpr ⟨hvalue, hN⟩]

/-- For every other name the process is stopped. -/
theorem generatePreviousLogName_cases (v : Bytes) :
    (∃ base N, Named v base N ∧ 46 ∉ base ∧ N < 2 ^ 64) ∨
      generatePreviousLogName v = .error (.fatal "binlog file name illegal,binlogFileName:%s") := by
  rw [generatePreviousLogName]
  split
  · next base digits hsplit =>
    obtain ⟨hv, hbase, -⟩ := Decimal.split_eq_pair_iff.mp hsplit
    cases hparse : parseUint64 digits with
    | none => exact .inr rfl
    | some N =>
        obtain ⟨hvalue, hN⟩ := parseUint64_eq_some_iff.mp hparse
        exact .inl ⟨base, N, ⟨digits, hv, hvalue⟩, hbase, hN⟩
  · exact .inr rfl

theorem getNextBinlogFile_generated (hnone : b.NoneBelow .nextBinlog i)
    (hfirst : b.FirstFrom .nextBinlog i n v) (h : Named v base N) (hdot : 46 ∉ base)
    (hN : N < 2 ^ 64) : b.getNextBinlogFile i =
      .ok (base ++ 46 :: Decimal.pad 6 (Decimal.put 19 ((N + (2 ^ 64 - 1)) % 2 ^ 64))) := by
  rw [getNextBinlogFile_of_firstFrom hnone hfirst, generatePreviousLogName_of_named h hdot hN]
  refine if_neg ?_
  rw [List.length_append, List.length_cons]
  omega

theorem getNextBinlogFile_fatal (hnone : b.NoneBelow .nextBinlog i)
    (hfirst : b.FirstFrom .nextBinlog i n v)
    (h : generatePreviousLogName v =
      .error (.fatal "binlog file name illegal,binlogFileName:%s")) :
    b.getNextBinlogFile i = .error (.fatal "binlog file name illegal,binlogFileName:%s") := by
  rw [getNextBinlogFile_of_firstFrom hnone hfirst, h]
  rfl

theorem FirstNamed.unique {base' : Bytes} {N' : Nat} (h : b.FirstNamed i base N)
    (h' : b.FirstNamed i base' N') : base = base' ∧ N = N' := by
  obtain ⟨n, v, hkey, hle, hnamed, hN, hleast⟩ := h
  obtain ⟨n', v', hkey', hle', hnamed', hN', hleast'⟩ := h'
  have heq : n = n' := Nat.le_antisymm (hleast n' v' base' N' hkey' hle' hnamed' hN')
    (hleast' n v base N hkey hle hnamed hN)
  subst heq
  rw [hkey.eq hkey'] at hnamed
  exact hnamed.unique hnamed'

/-- Where some key holds such a name there is a first one. -/
theorem exists_firstNamed (hkey : b.Key .nextBinlog n v) (hle : i ≤ n) (hnamed : Named v base N)
    (hN : 1 ≤ N) : ∃ base N, b.FirstNamed i base N := by
  classical
  have hex : ∃ n, ∃ v base N, b.Key .nextBinlog n v ∧ i ≤ n ∧ Named v base N ∧ 1 ≤ N :=
    ⟨n, v, base, N, hkey, hle, hnamed, hN⟩
  obtain ⟨v₀, base₀, N₀, hkey₀, hle₀, hnamed₀, hN₀⟩ := Nat.find_spec hex
  refine ⟨base₀, N₀, Nat.find hex, v₀, hkey₀, hle₀, hnamed₀, hN₀, ?_⟩
  exact fun m w base' N' hm hi hw hpos => Nat.find_min' hex ⟨w, base', N', hm, hi, hw, hpos⟩

/-- A first key with such a name is the first one that holds any. -/
theorem FirstFrom.firstNamed (h : b.FirstFrom .nextBinlog i n v) (hnamed : Named v base N)
    (hN : 1 ≤ N) : b.FirstNamed i base N :=
  ⟨n, v, h.1, h.2.1, hnamed, hN, fun m w _ _ hkey hle _ _ => h.2.2 m w hkey hle⟩

theorem FirstNamed.one_le (h : b.FirstNamed i base N) : 1 ≤ N := by
  obtain ⟨n, v, -, -, -, hN, -⟩ := h
  exact hN

/-- The answers that need no name to be made. -/
theorem getFde_right (h : ∀ v, b.NearestBelow .fde i v → v ≠ []) :
    (∀ v, b.NearestBelow .fde i v → b.getFde i = .ok v) ∧
    (b.getFde i = .error (.error "storage:gtids not be contained") ↔ b.NoneBelow .fde i) := by
  have hnearest : ∀ v, b.NearestBelow .fde i v → b.getFde i = .ok v := by
    intro v hv
    rw [getFde_of_nearestBelow hv, if_neg (List.length_eq_zero_iff.not.mpr (h v hv))]
  refine ⟨hnearest, fun herror => ?_, getFde_of_noneBelow⟩
  rcases b.exists_nearestBelow_or .fde i with ⟨v, hv⟩ | hnone
  · rw [hnearest v hv] at herror
    cases herror
  · exact hnone

/-- What `GetNextBinlogFile` does where no index is below: it makes the name before the first
one, or there is no name at all. -/
theorem getNextBinlogFile_of_noneBelow (hnone : b.NoneBelow .nextBinlog i)
    (hmade : ∀ n v, b.FirstFrom .nextBinlog i n v →
      ∃ base N, Named v base N ∧ 46 ∉ base ∧ N < 2 ^ 64 ∧
        (1 ≤ N ∨ N = 0 ∧ b.FirstNamed i base (2 ^ 64))) :
    (∃ base N digits, b.FirstNamed i base N ∧ SixDigits digits (N - 1) ∧
        b.getNextBinlogFile i = .ok (base ++ 46 :: digits)) ∨
      (∀ n v, ¬ b.Key .nextBinlog n v) ∧
        b.getNextBinlogFile i = .error (.error "storage:key is not found") := by
  by_cases hkeys : ∃ n v, b.Key .nextBinlog n v
  · obtain ⟨n, v, hkey⟩ := hkeys
    obtain ⟨m, w, hfirst⟩ := exists_firstFrom hkey (hnone n v hkey)
    obtain ⟨base, N, hnamed, hdot, hN, hpos⟩ := hmade m w hfirst
    have hget := getNextBinlogFile_generated hnone hfirst hnamed hdot hN
    rcases hpos with hpos | ⟨rfl, hwrap⟩
    · refine .inl ⟨base, N, _, hfirst.firstNamed hnamed hpos, ?_, hget⟩
      rw [show (N + (2 ^ 64 - 1)) % 2 ^ 64 = N - 1 by omega]
      exact sixDigits_put (by omega)
    · exact .inl ⟨base, 2 ^ 64, _, hwrap, sixDigits_put (by decide), hget⟩
  · have hno : ∀ n v, ¬ b.Key .nextBinlog n v := fun n v hkey => hkeys ⟨n, v, hkey⟩
    exact .inr ⟨hno, getNextBinlogFile_of_noKey hno⟩

/-- A first number 0 wraps, and that is right only where the name that counts has the number
2^64 and the same base. -/
theorem LookupsRight.firstNamed_of_zero {b : MetaBucket} {i n : Nat} {v base : Bytes}
    (h : b.LookupsRight i) (hnone : b.NoneBelow .nextBinlog i)
    (hfirst : b.FirstFrom .nextBinlog i n v) (hnamed : Named v base 0) (hdot : 46 ∉ base) :
    b.FirstNamed i base (2 ^ 64) := by
  have hget := getNextBinlogFile_generated hnone hfirst hnamed hdot (by decide)
  by_cases hex : ∃ base' N, b.FirstNamed i base' N
  · obtain ⟨base', N, hnamed'⟩ := hex
    obtain ⟨digits, hdigits, hget'⟩ := h.next_generated hnone base' N hnamed'
    rw [hget] at hget'
    have hmade : Named (base' ++ 46 :: digits) base (2 ^ 64 - 1) :=
      ⟨_, (Except.ok.inj hget').symm, (sixDigits_put (by decide)).1⟩
    obtain ⟨rfl, hpred⟩ := hmade.unique ⟨digits, rfl, hdigits.1⟩
    have hN : N = 2 ^ 64 := by
      have := hnamed'.one_le
      omega
    exact hN ▸ hnamed'
  · -- an answer is given although there is none to give
    have herror := h.next_none hnone fun m w base' N hkey hle hw hpos =>
      hex (exists_firstNamed hkey hle hw hpos)
    rw [hget] at herror
    cases herror

/-- **The lookups are right exactly if** what lies nearest is not empty and, where a name has to
be made, the first name has one dot and a number from 1 up to 64 bits.  A number 0 becomes
`2 ^ 64 - 1`, and that is right only if the first name with another number has `2 ^ 64`. -/
theorem lookupsRight_iff (b : MetaBucket) (i : Nat) : b.LookupsRight i ↔
    (∀ v, b.NearestBelow .fde i v → v ≠ []) ∧
    (∀ v, b.NearestBelow .nextBinlog i v → v ≠ []) ∧
    (b.NoneBelow .nextBinlog i → ∀ n v, b.FirstFrom .nextBinlog i n v →
      ∃ base N, Named v base N ∧ 46 ∉ base ∧ N < 2 ^ 64 ∧
        (1 ≤ N ∨ N = 0 ∧ b.FirstNamed i base (2 ^ 64))) := by
  constructor
  · intro h
    refine ⟨fun v hv hnil => ?_, fun v hv hnil => ?_, fun hnone n v hfirst => ?_⟩
    · have hright := h.fde v hv
      rw [getFde_of_nearestBelow hv, hnil] at hright
      cases hright
    · exact getNextBinlogFile_ne_nil b i (hnil ▸ h.next v hv)
    · rcases generatePreviousLogName_cases v with ⟨base, N, hnamed, hdot, hN⟩ | hfatal
      · refine ⟨base, N, hnamed, hdot, hN, ?_⟩
        rcases Nat.eq_zero_or_pos N with rfl | hpos
        · exact .inr ⟨rfl, h.firstNamed_of_zero hnone hfirst hnamed hdot⟩
        · exact .inl hpos
      · exact absurd (getNextBinlogFile_fatal hnone hfirst hfatal) (h.no_fatal _).2
  · rintro ⟨hfde, hnext, hmade⟩
    obtain ⟨hfde, hfde_none⟩ := getFde_right hfde
    have hnext' : ∀ v, b.NearestBelow .nextBinlog i v → b.getNextBinlogFile i = .ok v :=
      fun v hv => getNextBinlogFile_of_nearestBelow hv
        (List.length_eq_zero_iff.not.mpr (hnext v hv))
    refine ⟨hfde, hfde_none, hnext', fun hnone base N hnamed => ?_, fun hnone hno => ?_,
      fun text => ⟨getFde_ne_fatal text, ?_⟩⟩
    · rcases getNextBinlogFile_of_noneBelow hnone (hmade hnone) with
        ⟨base', N', digits, hnamed', hdigits, hget⟩ | ⟨hno, -⟩
      · obtain ⟨rfl, rfl⟩ := hnamed.unique hnamed'
        exact ⟨digits, hdigits, hget⟩
      · obtain ⟨n, v, hkey, -⟩ := hnamed
        exact absurd hkey (hno n v)
    · rcases getNextBinlogFile_of_noneBelow hnone (hmade hnone) with
        ⟨base, N, digits, ⟨n, v, hkey, hle, hnamed, hN, -⟩, -⟩ | ⟨-, hget⟩
      · exact absurd hN (hno n v base N hkey hle hnamed)
      · exact hget
    · rcases b.exists_nearestBelow_or .nextBinlog i with ⟨v, hv⟩ | hnone
      · rw [hnext' v hv]
        simp
      · rcases getNextBinlogFile_of_noneBelow hnone (hmade hnone) with
          ⟨base, N, digits, -, -, hget⟩ | ⟨-, hget⟩
        · rw [hget]
          simp
        · rw [hget]
          simp

/-- The name `my.bin.000012`. -/
def dottedName : Bytes := [109, 121, 46, 98, 105, 110, 46, 48, 48, 48, 48, 49, 50]

/-- **A dot in the base stops the node**: the only name stands at index 10 and the query is 5. -/
theorem dotted_base_is_fatal :
    Named dottedName [109, 121, 46, 98, 105, 110] 12 ∧
    (empty.set .nextBinlog 10 dottedName).Key .nextBinlog 10 dottedName ∧
    (empty.set .nextBinlog 10 dottedName).getNextBinlogFile 5 =
      .error (.fatal "binlog file name illegal,binlogFileName:%s") ∧
    ¬ (empty.set .nextBinlog 10 dottedName).LookupsRight 5 := by
  have hfatal : (empty.set .nextBinlog 10 dottedName).getNextBinlogFile 5 =
      .error (.fatal "binlog file name illegal,binlogFileName:%s") := by decide +kernel
  refine ⟨⟨[48, 48, 48, 48, 49, 50], rfl, by decide⟩, ⟨by decide, by decide +kernel⟩, hfatal, ?_⟩
  exact fun h => (h.no_fatal _).2 hfatal

/-! ## The keys that are written -/

theorem key_set {q : KeyPrefix} {raftIndex : UInt64} :
    (b.set q raftIndex w).Key p n v ↔
      (p = q ∧ n = raftIndex.toNat ∧ v = w) ∨ b.Key p n v ∧ ¬ (p = q ∧ n = raftIndex.toNat) := by
  have hkey : n < 2 ^ 64 → (p.key n = q.key raftIndex.toNat ↔ p = q ∧ n = raftIndex.toNat) := by
    intro hn
    constructor
    · intro heq
      have hpq : p = q := KeyPrefix.eq_of_prefix_key (heq ▸ p.bytes_prefix_key n)
      have hindex := congrArg keyIndex heq
      rw [p.keyIndex_key hn, q.keyIndex_key raftIndex.toNat_lt] at hindex
      exact ⟨hpq, Option.some.inj hindex⟩
    · rintro ⟨rfl, rfl⟩
      rfl
  rw [Key, Key, set, Cursor.mem_put, Prod.mk.injEq]
  constructor
  · rintro ⟨hn, ⟨heq, rfl⟩ | ⟨hmem, hne⟩⟩
    · obtain ⟨hp, hindex⟩ := (hkey hn).mp heq
      exact .inl ⟨hp, hindex, rfl⟩
    · exact .inr ⟨⟨hn, hmem⟩, fun h => hne ((hkey hn).mpr h)⟩
  · rintro (⟨rfl, rfl, rfl⟩ | ⟨⟨hn, hmem⟩, hne⟩)
    · exact ⟨raftIndex.toNat_lt, .inl ⟨rfl, rfl⟩⟩
    · exact ⟨hn, .inr ⟨hmem, fun h => hne ((hkey hn).mp h)⟩⟩

/-- The new key stands among the others of its prefix as `Table.put` would have it. -/
theorem indexed_set (b : MetaBucket) (p : KeyPrefix) (raftIndex : UInt64) (v : Bytes) :
    (b.set p raftIndex v).indexed p = Table.put raftIndex.toNat v (b.indexed p) := by
  refine (sorted_indexed _ p).eq_of_mem_iff (b.sorted_indexed p).put fun f => ?_
  rw [mem_indexed, key_set, (b.sorted_indexed p).mem_put_iff, mem_indexed, Prod.ext_iff]
  simp only [true_and]

theorem indexed_set_of_ne {q : KeyPrefix} (b : MetaBucket) (h : p ≠ q) (raftIndex : UInt64)
    (v : Bytes) : (b.set q raftIndex v).indexed p = b.indexed p := by
  refine (sorted_indexed _ p).eq_of_mem_iff (b.sorted_indexed p) fun f => ?_
  rw [mem_indexed, key_set, mem_indexed]
  simp [h]

/-- The bucket holds the events and the names of a store. -/
structure Holds (b : MetaBucket) (m : MetaStore) : Prop where
  fde : b.indexed .fde = m.fde
  nextBinlog : b.indexed .nextBinlog = m.nextBinlog

/-- The `Set` of `applyBinlogEvent`. -/
def write (b : MetaBucket) (raftIndex : UInt64) (event : ParsedEvent) : MetaBucket :=
  match event.eventType with
  | .formatDescription => b.set .fde raftIndex event.rawData
  | .rotate =>
      match decodeRotate event.body with
      | .ok nextLogName => b.set .nextBinlog raftIndex nextLogName
      | .error _ => b
  | _ => b

/-- **Applying an event writes to the bucket what it writes to the store.** -/
theorem Holds.write {s s' : KingbusServer} {raftIndex : UInt64} {event : ParsedEvent}
    (h : b.Holds s.store) (hw : KingbusServer.Writes raftIndex.toNat event s s') :
    (b.write raftIndex event).Holds s'.store := by
  cases hw with
  | fde ht =>
      rw [MetaBucket.write, ht]
      refine ⟨?_, ?_⟩
      · rw [indexed_set, h.fde]
      · rw [indexed_set_of_ne b (by decide), h.nextBinlog]
  | gtid ht hg =>
      rw [MetaBucket.write, ht]
      exact ⟨h.fde, h.nextBinlog⟩
  | rotate ht hname =>
      rw [MetaBucket.write, ht]
      simp only [hname]
      refine ⟨?_, ?_⟩
      · rw [indexed_set_of_ne b (by decide), h.fde]
      · rw [indexed_set, h.nextBinlog]
  | previousGtids ht hset =>
      rw [MetaBucket.write, ht]
      refine ⟨h.fde.trans ?_, h.nextBinlog.trans ?_⟩
      all_goals
        dsimp only [MetaStore.setPreviousGtidSet]
        split <;> rfl
  | nothing hno =>
      have hb : b.write raftIndex event = b := by
        rw [MetaBucket.write]
        split
        · next ht => rw [ht] at hno; cases hno
        · next ht => rw [ht] at hno; cases hno
        · rfl
      rw [hb]
      exact h

theorem Holds.saveProgress {s : KingbusServer} (h : b.Holds s.store) (elapsed : Bool)
    (p : TrxProgress) (recorded : Bool) (logPos : Nat) :
    b.Holds (s.saveProgress i elapsed p recorded logPos).store := by
  rw [KingbusServer.saveProgress]
  split
  · exact ⟨h.fde, h.nextBinlog⟩
  · exact h

/-- **A whole event that is applied** adds its key to the bucket, and nothing else. -/
theorem Holds.applyStored {s s' : KingbusServer} {raftIndex : UInt64} {elapsed : Bool}
    {event : ParsedEvent} {e : BinlogEvent} (h : b.Holds s.store) (hwhole : event.Whole e)
    (happly : s.applyStored elapsed raftIndex.toNat e = .ok s') :
    (b.write raftIndex event).Holds s'.store := by
  by_cases hdue : ∀ g, s.binlogProgress.Due event.boundary g → Storable g.gno
  · obtain ⟨r, hr, -⟩ := TrxProgress.observe_ok hdue
    obtain ⟨s₁, hs₁, hw⟩ : ∃ s₁, s.applyStored elapsed raftIndex.toNat e = .ok s₁ ∧ _ :=
      hwhole.applyStored_ok hr
    rw [happly] at hs₁
    cases hs₁
    exact (h.saveProgress ..).write hw
  · -- `updateProcess` refuses the number, and the process stops
    push Not at hdue
    obtain ⟨g, hg, hno⟩ := hdue
    obtain ⟨text, ht⟩ := TrxProgress.observe_error hg hno
    rw [hwhole.applyStored_error ht] at happly
    cases happly

end MetaBucket

end Kingbus
