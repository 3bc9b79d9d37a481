import Kingbus.GtidFormat
import Kingbus.MetaKeys

/-! # The bucket behind the metadata

`MetaStore` describes what applying and purging keep, `MetaBucket` the keys of the two kinds of
events that are looked up by index.  Here is the whole bucket of `storage/meta_storage.go`:
every key of `storage/storage.go`, the sets as bytes of `Encode`, the applied index in eight
bytes, and the cursor loops over `PREVIOUS_GTIDS` keys as the code runs them, with all their
error returns.  A Go map is walked in a different order each time, so every call that encodes or
prints a set has the order of its walk as an argument.

`MetaDb.run_matches` says that any sequence of calls does to the bucket what it does to the
store, and `metaDb_answers` that every lookup then answers as the store does. -/

namespace Kingbus

/-! ## Sets that differ in the order of their identifiers -/

namespace MysqlGTIDSet

/-- The same map. -/
def Same (s t : MysqlGTIDSet) : Prop := s.sets.Perm t.sets

variable {s s' t t' : MysqlGTIDSet}

theorem Same.refl (s : MysqlGTIDSet) : s.Same s := List.Perm.refl _

theorem Same.lookup_eq (h : s.Same t) (sid : Sid) : s.sets.lookup sid = t.sets.lookup sid := by
  cases hs : s.sets.lookup sid with
  | none =>
      have hno : sid ∉ t.sets.map Prod.fst := by
        intro hmem
        obtain ⟨l, hl⟩ := exists_lookup ((h.map Prod.fst).mem_iff.mpr hmem)
        rw [hs] at hl
        cases hl
      exact (lookup_eq_none hno).symm
  | some l => exact (lookup_of_mem (h.mem_iff.mp (mem_of_lookup hs))).symm

theorem Same.addSet (h : s.Same t) (sid : Sid) (l : List (HalfOpenInterval Int)) :
    (s.addSet sid l).Same (t.addSet sid l) := by
  have hkeys : sid ∈ s.sets.map Prod.fst ↔ sid ∈ t.sets.map Prod.fst := (h.map Prod.fst).mem_iff
  rw [Same, MysqlGTIDSet.addSet, MysqlGTIDSet.addSet]
  by_cases hs : sid ∈ s.sets.map Prod.fst
  · rw [dif_pos hs, dif_pos (hkeys.mp hs)]
    exact h.map _
  · rw [dif_neg hs, dif_neg (hkeys.not.mp hs)]
    exact h.append_right _

theorem Same.int64 (h : s.Same t) (ht : Int64Sets t.sets) : Int64Sets s.sets :=
  fun u hu => ht u (h.mem_iff.mp hu)

end MysqlGTIDSet

/-! ## Keys -/

/-- The keys that stand for themselves. -/
inductive PlainKey where
  | hardState | confState | executedGtids | gtidPurged | masterInfo | syncerArgs | needRecover
  | raftCluster | appliedIndex
  deriving DecidableEq

/-- `hard_state`, `conf_state`, `mysql/executed_gtids`, `mysql/gtid_purged`, `master_info`,
`syncer_args`, `ds_need_recover`, `raft_cluster` and `apply_index`. -/
def PlainKey.bytes : PlainKey → Bytes
  | .hardState => [104, 97, 114, 100, 95, 115, 116, 97, 116, 101]
  | .confState => [99, 111, 110, 102, 95, 115, 116, 97, 116, 101]
  | .executedGtids => [109, 121, 115, 113, 108, 47, 101, 120, 101, 99, 117, 116,
      101, 100, 95, 103, 116, 105, 100, 115]
  | .gtidPurged => [109, 121, 115, 113, 108, 47, 103, 116, 105, 100,
      95, 112, 117, 114, 103, 101, 100]
  | .masterInfo => [109, 97, 115, 116, 101, 114, 95, 105, 110, 102, 111]
  | .syncerArgs => [115, 121, 110, 99, 101, 114, 95, 97, 114, 103, 115]
  | .needRecover => [100, 115, 95, 110, 101, 101, 100, 95, 114, 101, 99, 111, 118, 101, 114]
  | .raftCluster => [114, 97, 102, 116, 95, 99, 108, 117, 115, 116, 101, 114]
  | .appliedIndex => [97, 112, 112, 108, 121, 95, 105, 110, 100, 101, 120]

/-- `PgePrefix`: `pre_gtids`. -/
def pgePrefix : Bytes := [112, 114, 101, 95, 103, 116, 105, 100, 115]

/-- `path.Join(PgePrefix, fmt.Sprintf("%020d", raftIndex))`. -/
def pgeKey (raftIndex : Nat) : Bytes :=
  pgePrefix ++ 47 :: Decimal.pad 20 (Decimal.put 19 raftIndex)

/-- The keys of the bucket. -/
inductive MetaKey where
  | event (p : KeyPrefix) (raftIndex : UInt64)
  | previousGtids (raftIndex : UInt64)
  | plain (k : PlainKey)
  deriving DecidableEq

def MetaKey.bytes : MetaKey → Bytes
  | .event p raftIndex => p.key raftIndex.toNat
  | .previousGtids raftIndex => pgeKey raftIndex.toNat
  | .plain k => k.bytes

theorem keyIndex_pgeKey {n : Nat} (h : n < 2 ^ 64) : keyIndex (pgeKey n) = some n := by
  have hdigits := not_mem_of_value (b := 47) (KeyPrefix.value_digits h) (by decide)
  rw [keyIndex, pgeKey, Decimal.split_eq_pair_iff.mpr ⟨rfl, by decide, hdigits⟩]
  exact parseUint64_eq_some_iff.mpr ⟨KeyPrefix.value_digits h, h⟩

theorem pgeKey_lt_pgeKey {m n : Nat} (hm : m < 2 ^ 64) (hn : n < 2 ^ 64) (h : m < n) :
    pgeKey m < pgeKey n := by
  rw [pgeKey, pgeKey, Cursor.append_lt_append_left, List.cons_lt_cons_iff]
  refine .inr ⟨rfl, Decimal.lt_of_value ?_ (KeyPrefix.value_digits hm) (KeyPrefix.value_digits hn) h⟩
  rw [KeyPrefix.length_digits, KeyPrefix.length_digits]

/-- Keys have the order of their indexes. -/
theorem pgeKey_lt_pgeKey_iff {m n : Nat} (hm : m < 2 ^ 64) (hn : n < 2 ^ 64) :
    pgeKey m < pgeKey n ↔ m < n := by
  refine ⟨fun h => ?_, pgeKey_lt_pgeKey hm hn⟩
  rcases Nat.lt_trichotomy m n with hlt | heq | hgt
  · exact hlt
  · rw [heq] at h
    exact absurd h (List.lt_irrefl _)
  · exact absurd (List.lt_trans h (pgeKey_lt_pgeKey hn hm hgt)) (List.lt_irrefl _)

/-- The first letters of the prefixes are not those of the other keys. -/
theorem PlainKey.head?_bytes (k : PlainKey) : k.bytes.head? ≠ some 102 ∧
    k.bytes.head? ≠ some 110 ∧ k.bytes.head? ≠ some 112 := by
  cases k <;> decide

theorem KeyPrefix.head?_key (p : KeyPrefix) (n : Nat) :
    (p.key n).head? = some (match p with | .fde => 102 | .nextBinlog => 110) := by
  cases p <;> rfl

theorem head?_of_starts {b : UInt8} {t k : Bytes} (h : b :: t <+: k) : k.head? = some b := by
  obtain ⟨r, rfl⟩ := h
  rfl

namespace MetaKey

/-- A key with the prefix of an event is the key of such an event. -/
theorem event_of_prefix {p : KeyPrefix} {k : MetaKey} (h : p.bytes <+: k.bytes) :
    ∃ raftIndex, k = .event p raftIndex := by
  cases k with
  | event q raftIndex =>
      rw [KeyPrefix.eq_of_prefix_key h]
      exact ⟨raftIndex, rfl⟩
  | previousGtids raftIndex =>
      exfalso
      cases p with
      | fde => exact absurd (head?_of_starts h) (by simp [bytes, pgeKey, pgePrefix])
      | nextBinlog => exact absurd (head?_of_starts h) (by simp [bytes, pgeKey, pgePrefix])
  | plain k =>
      exfalso
      cases p with
      | fde => exact k.head?_bytes.1 (head?_of_starts h)
      | nextBinlog => exact k.head?_bytes.2.1 (head?_of_starts h)

theorem previousGtids_of_prefix {k : MetaKey} (h : pgePrefix <+: k.bytes) :
    ∃ raftIndex, k = .previousGtids raftIndex := by
  cases k with
  | event p raftIndex =>
      exfalso
      have hhead := head?_of_starts h
      rw [bytes, p.head?_key] at hhead
      cases p <;> exact absurd hhead (by decide)
  | previousGtids raftIndex => exact ⟨raftIndex, rfl⟩
  | plain k => exact absurd (head?_of_starts h) k.head?_bytes.2.2

end MetaKey

/-! ## The bucket and the calls -/

/-- The bucket: the cursor meets its keys in the order of their bytes, and the program writes no
other keys. -/
structure MetaDb where
  pairs : List (Bytes × Bytes)
  sorted : Cursor.Sorted pairs
  keyed : ∀ f ∈ pairs, ∃ k : MetaKey, f.1 = k.bytes

/-- The orders in which the maps of sets are walked. -/
structure MapWalk where
  order : MysqlGTIDSet → List (Sid × List (HalfOpenInterval Int))
  perm : ∀ s, (order s).Perm s.sets

/-- `Encode` into a `bytes.Buffer`. -/
def MapWalk.encode (w : MapWalk) (s : MysqlGTIDSet) : Except EventFailure Bytes :=
  if (encodeSets (w.order s)).length < 2 ^ 63 then .ok (encodeSets (w.order s))
  else .error (.panic "bytes.Buffer: too large")

namespace MetaDb

theorem sorted_nil : Cursor.Sorted ([] : List (Bytes × Bytes)) := List.Pairwise.nil

theorem keyed_nil : ∀ f ∈ ([] : List (Bytes × Bytes)), ∃ k : MetaKey, f.1 = k.bytes :=
  List.forall_mem_nil _

/-- What `init` leaves. -/
def empty : MetaDb where
  pairs := []
  sorted := sorted_nil
  keyed := keyed_nil

/-- `Get`. -/
def get (db : MetaDb) (k : MetaKey) : Option Bytes := Cursor.get k.bytes db.pairs

/-- The bucket with a value under a key. -/
def insert (db : MetaDb) (k : MetaKey) (value : Bytes) : MetaDb where
  pairs := Cursor.put k.bytes value db.pairs
  sorted := db.sorted.put
  keyed := by
    intro f hf
    rcases Cursor.mem_put.mp hf with rfl | ⟨hf, -⟩
    · exact ⟨k, rfl⟩
    · exact db.keyed f hf

/-- `MaxValueSize`. -/
def maxValueSize : Nat := 2 ^ 31 - 2

/-- `Set`, with the check of `Put` in `bbolt`.  No key of the program is empty or longer than
`MaxKeySize`. -/
def set (db : MetaDb) (k : MetaKey) (value : Bytes) : Except EventFailure MetaDb :=
  if maxValueSize < value.length then .error (.error "value too large")
  else .ok (db.insert k value)

/-- `cursor.Delete` at a key. -/
def delete (db : MetaDb) (k : Bytes) : MetaDb where
  pairs := db.pairs.filter fun f => f.1 ≠ k
  sorted := db.sorted.filter _
  keyed := fun f hf => db.keyed f (List.mem_of_mem_filter hf)

/-- `GetGtidSet`. -/
def getGtidSet (db : MetaDb) (k : PlainKey) : Except EventFailure MysqlGTIDSet :=
  match db.get (.plain k) with
  | none => .ok .empty
  | some value => MysqlGTIDSet.decode value

/-- `SetGtidSet`. -/
def setGtidSet (db : MetaDb) (w : MapWalk) (k : PlainKey) (gtidSet : MysqlGTIDSet) :
    Except EventFailure MetaDb :=
  (w.encode gtidSet).bind fun value => db.set (.plain k) value

/-- `SetBinlogProgress`: both keys in one transaction, which the first error rolls back. -/
def setBinlogProgress (db : MetaDb) (w : MapWalk) (appliedIndex : UInt64)
    (executedGtidSet : MysqlGTIDSet) : Except EventFailure MetaDb :=
  (w.encode executedGtidSet).bind fun value =>
    (db.set (.plain .executedGtids) value).bind fun db =>
      db.set (.plain .appliedIndex) (Bytes.leBytes 8 appliedIndex.toNat).reverse

/-- `MustGetAppliedIndex`: a value that is too short makes `Uint64` panic. -/
def mustGetAppliedIndex (db : MetaDb) : Except EventFailure Nat :=
  match db.get (.plain .appliedIndex) with
  | none => .ok 0
  | some value =>
      if value.length = 0 then .ok 0
      else if value.length < 8 then .error (.panic "index out of range")
      else .ok (Bytes.leNat (value.take 8).reverse)

/-- The loop of `SetPreviousGtidSet`. -/
def existLoop (previousGtidSet : MysqlGTIDSet) : List (Bytes × Bytes) → Except EventFailure Bool
  | [] => .ok false
  | (_, v) :: l =>
      (MysqlGTIDSet.decode v).bind fun gtids =>
        if gtids.equal previousGtidSet then .ok true else existLoop previousGtidSet l

/-- `SetPreviousGtidSet`. -/
def setPreviousGtidSet (db : MetaDb) (w : MapWalk) (raftIndex : UInt64)
    (previousGtidSet : MysqlGTIDSet) : Except EventFailure MetaDb :=
  (existLoop previousGtidSet (Cursor.scan pgePrefix db.pairs)).bind fun exist =>
    if exist then .ok db
    else (w.encode previousGtidSet).bind fun value => db.set (.previousGtids raftIndex) value

/-- The loop of `deletePreviousGtidSet`.  The cursor goes over the pages as they were when the
transaction began. -/
def deleteLoop (lastRaftIndex : Nat) : List (Bytes × Bytes) → MetaDb → Except EventFailure MetaDb
  | [], db => .ok db
  | (k, _) :: l, db =>
      match keyIndex k with
      | none => .error (.error "storage:key is not found")
      | some raftIndex =>
          deleteLoop lastRaftIndex l (if raftIndex < lastRaftIndex then db.delete k else db)

/-- `deletePreviousGtidSet`. -/
def deletePreviousGtidSet (db : MetaDb) (lastRaftIndex : UInt64) : Except EventFailure MetaDb :=
  deleteLoop lastRaftIndex.toNat (Cursor.scan pgePrefix db.pairs) db

/-- The loop of `GetPreviousGtidSet`, with `lastKey`. -/
def previousLoop (slaveExecutedGtids : MysqlGTIDSet) :
    List (Bytes × Bytes) → Option Bytes → Except EventFailure (Option Bytes)
  | [], lastKey => .ok lastKey
  | (k, v) :: l, lastKey =>
      (MysqlGTIDSet.decode v).bind fun gtids =>
        if slaveExecutedGtids.sets = [] then .ok (some k)
        else previousLoop slaveExecutedGtids l
          (if slaveExecutedGtids.contain gtids then some k else lastKey)

/-- `GetPreviousGtidSet`. -/
def getPreviousGtidSet (db : MetaDb) (slaveExecutedGtids : MysqlGTIDSet) :
    Except EventFailure Nat :=
  (previousLoop slaveExecutedGtids (Cursor.scan pgePrefix db.pairs) none).bind fun lastKey =>
    match lastKey with
    | none => .error (.error "storage:gtids not be contained")
    | some k =>
        match keyIndex k with
        | none => .error (.error "storage:key is not found")
        | some raftIndex => .ok raftIndex

/-- The loop of `UpdatePugedGtidset`. -/
def purgeLoop (firstIndex : Nat) :
    List (Bytes × Bytes) → Except EventFailure (Option MysqlGTIDSet)
  | [] => .ok none
  | (k, v) :: l =>
      match keyIndex k with
      | none => .error (.error "storage:key is not found")
      | some raftIndex =>
          if firstIndex < raftIndex then (MysqlGTIDSet.decode v).map some else purgeLoop firstIndex l

/-- What `UpdatePugedGtidset` does with the set it found.  `log.Log.Fatalf` ends the process. -/
def declarePurged (db : MetaDb) (print store : MapWalk) (firstIndex : UInt64)
    (gtids : MysqlGTIDSet) : Except EventFailure MetaDb :=
  if (gtidSetString (print.order gtids)).length = 0 then .ok db
  else
    match db.getGtidSet .gtidPurged with
    | .error (.panic text) => .error (.panic text)
    | .error _ => .error (.fatal "UpdatePugedGtidset:get gtidPurged error,err:%s")
    | .ok gtidPurged =>
        match gtidPurged.updateString (gtidSetString (print.order gtids)) with
        | .error _ => .error (.fatal "UpdatePugedGtidset:get gtidPurged error,err:%s,gtids:%s")
        | .ok gtidPurged =>
            (db.setGtidSet store .gtidPurged gtidPurged).bind fun db =>
              db.deletePreviousGtidSet firstIndex

/-- `UpdatePugedGtidset`. -/
def updatePugedGtidset (db : MetaDb) (print store : MapWalk) (firstIndex : UInt64) :
    Except EventFailure MetaDb :=
  (purgeLoop firstIndex.toNat (Cursor.scan pgePrefix db.pairs)).bind fun found =>
    match found with
    | none => .ok db
    | some gtids => db.declarePurged print store firstIndex gtids

/-- The keys of events, as `GetFde` and `GetNextBinlogFile` see them. -/
def toMetaBucket (db : MetaDb) : MetaBucket where
  pairs := db.pairs
  sorted := db.sorted
  keyed := by
    intro p f hf hp
    obtain ⟨k, hk⟩ := db.keyed f hf
    obtain ⟨raftIndex, rfl⟩ := MetaKey.event_of_prefix (hk ▸ hp : p.bytes <+: k.bytes)
    exact ⟨raftIndex.toNat, raftIndex.toNat_lt, hk⟩

/-- `GetFde`. -/
def getFde (db : MetaDb) (preGtidEventIndex : Nat) : Except EventFailure Bytes :=
  db.toMetaBucket.getFde preGtidEventIndex

/-- `GetNextBinlogFile`. -/
def getNextBinlogFile (db : MetaDb) (startRaftIndex : Nat) : Except EventFailure Bytes :=
  db.toMetaBucket.getNextBinlogFile startRaftIndex

end MetaDb

namespace MetaStore

/-- What the store has at the greatest index below another, and nothing where it has none. -/
def valueBelow (i : Nat) (l : List (Nat × Bytes)) : Bytes :=
  ((Table.lastBelow i l).map Prod.snd).getD []

/-- `GetFde` of a store: the event nearest below the index. -/
def getFde (m : MetaStore) (preGtidEventIndex : Nat) : Except EventFailure Bytes :=
  if (valueBelow preGtidEventIndex m.fde).length = 0 then
    .error (.error "storage:gtids not be contained")
  else .ok (valueBelow preGtidEventIndex m.fde)

/-- `GetNextBinlogFile` of a store: the name nearest below the index, or the one before the first
name from the index on. -/
def getNextBinlogFile (m : MetaStore) (startRaftIndex : Nat) : Except EventFailure Bytes :=
  (if (valueBelow startRaftIndex m.nextBinlog).length = 0 then
      (m.nextBinlog.find? fun f => startRaftIndex ≤ f.1).elim (.ok [])
        fun f => MetaBucket.generatePreviousLogName f.2
    else .ok (valueBelow startRaftIndex m.nextBinlog)).bind fun fileName =>
      if fileName.length = 0 then .error (.error "storage:key is not found") else .ok fileName

end MetaStore

/-- The calls that write metadata.  The sets hold `int64` values. -/
inductive MetaCall where
  | setEvent (p : KeyPrefix) (raftIndex : UInt64) (value : Bytes)
  | setPreviousGtidSet (raftIndex : UInt64) (s : MysqlGTIDSet) (int64 : Int64Sets s.sets)
  | setBinlogProgress (appliedIndex : UInt64) (s : MysqlGTIDSet) (int64 : Int64Sets s.sets)
  | setExecutedGtidSet (s : MysqlGTIDSet) (int64 : Int64Sets s.sets)
  | setGtidPurged (s : MysqlGTIDSet) (int64 : Int64Sets s.sets)
  | updatePugedGtidset (firstIndex : UInt64)
  | setOther (k : PlainKey) (value : Bytes)
      (other : k ≠ .executedGtids ∧ k ≠ .gtidPurged ∧ k ≠ .appliedIndex)

/-- A call on the bucket; it may walk over maps twice. -/
def MetaDb.call (db : MetaDb) (w w' : MapWalk) : MetaCall → Except EventFailure MetaDb
  | .setEvent p raftIndex value => db.set (.event p raftIndex) value
  | .setPreviousGtidSet raftIndex s _ => db.setPreviousGtidSet w raftIndex s
  | .setBinlogProgress appliedIndex s _ => db.setBinlogProgress w appliedIndex s
  | .setExecutedGtidSet s _ => db.setGtidSet w .executedGtids s
  | .setGtidPurged s _ => db.setGtidSet w .gtidPurged s
  | .updatePugedGtidset firstIndex => db.updatePugedGtidset w w' firstIndex
  | .setOther k value _ => db.set (.plain k) value

/-- The same call on the store. -/
def MetaStore.call (m : MetaStore) : MetaCall → Except EventFailure MetaStore
  | .setEvent .fde raftIndex value => .ok { m with fde := Table.put raftIndex.toNat value m.fde }
  | .setEvent .nextBinlog raftIndex value =>
      .ok { m with nextBinlog := Table.put raftIndex.toNat value m.nextBinlog }
  | .setPreviousGtidSet raftIndex s _ => .ok (m.setPreviousGtidSet raftIndex.toNat s)
  | .setBinlogProgress appliedIndex s _ => .ok (m.setBinlogProgress appliedIndex.toNat s)
  | .setExecutedGtidSet s _ => .ok { m with executedGtidSet := s }
  | .setGtidPurged s _ => .ok { m with gtidPurged := s }
  | .updatePugedGtidset firstIndex => m.updatePugedGtidset firstIndex.toNat
  | .setOther _ _ _ => .ok m

/-- Calls one after the other, up to the first that fails. -/
def MetaDb.run (db : MetaDb) : List ((MapWalk × MapWalk) × MetaCall) → Except EventFailure MetaDb
  | [] => .ok db
  | ((w, w'), c) :: l => (db.call w w' c).bind fun db => MetaDb.run db l

def MetaStore.run (m : MetaStore) : List MetaCall → Except EventFailure MetaStore
  | [] => .ok m
  | c :: l => (m.call c).bind fun m => MetaStore.run m l

namespace MetaDb
variable {db : MetaDb} {k k' : MetaKey} {v : Bytes} {w : MapWalk} {s : MysqlGTIDSet}

/-! ## Keys and values -/

theorem get_eq_some_iff : db.get k = some v ↔ (k.bytes, v) ∈ db.pairs :=
  db.sorted.get_eq_some_iff

theorem mem_insert {f : Bytes × Bytes} :
    f ∈ (db.insert k v).pairs ↔ f = (k.bytes, v) ∨ f ∈ db.pairs ∧ f.1 ≠ k.bytes :=
  Cursor.mem_put

/-- Other keys keep what they have. -/
theorem get_eq_get {db' : MetaDb}
    (h : ∀ v, (k.bytes, v) ∈ db'.pairs ↔ (k.bytes, v) ∈ db.pairs) : db'.get k = db.get k := by
  refine Option.ext fun x => ?_
  rw [get_eq_some_iff, get_eq_some_iff, h]

/-- The keys as the cursor meets them, with their indexes. -/
def previous (db : MetaDb) : List (Nat × Bytes) :=
  (Cursor.scan pgePrefix db.pairs).map fun f => ((keyIndex f.1).getD 0, f.2)

theorem exists_pgeKey_of_mem_scan {f : Bytes × Bytes} (hf : f ∈ Cursor.scan pgePrefix db.pairs) :
    ∃ n, n < 2 ^ 64 ∧ f.1 = pgeKey n := by
  obtain ⟨hmem, hprefix⟩ := db.sorted.mem_scan.mp hf
  obtain ⟨k, hk⟩ := db.keyed f hmem
  obtain ⟨raftIndex, rfl⟩ := MetaKey.previousGtids_of_prefix (hk ▸ hprefix : pgePrefix <+: k.bytes)
  exact ⟨raftIndex.toNat, raftIndex.toNat_lt, hk⟩

theorem scan_eq (db : MetaDb) :
    Cursor.scan pgePrefix db.pairs = db.previous.map fun f => (pgeKey f.1, f.2) := by
  rw [previous, List.map_map]
  conv_lhs => rw [← List.map_id (Cursor.scan pgePrefix db.pairs)]
  refine List.map_congr_left fun f hf => ?_
  obtain ⟨n, hn, hkey⟩ := exists_pgeKey_of_mem_scan hf
  rw [Function.comp_apply, hkey, keyIndex_pgeKey hn, Option.getD_some, ← hkey, id]

theorem mem_previous {f : Nat × Bytes} :
    f ∈ db.previous ↔ f.1 < 2 ^ 64 ∧ (pgeKey f.1, f.2) ∈ db.pairs := by
  constructor
  · intro hf
    obtain ⟨g, hg, rfl⟩ := List.mem_map.mp hf
    obtain ⟨n, hn, hkey⟩ := exists_pgeKey_of_mem_scan hg
    have hmem := (db.sorted.mem_scan.mp hg).1
    simp only [hkey, keyIndex_pgeKey hn, Option.getD_some]
    exact ⟨hn, hkey ▸ hmem⟩
  · rintro ⟨hn, hmem⟩
    refine List.mem_map.mpr ⟨(pgeKey f.1, f.2), ?_, ?_⟩
    · exact db.sorted.mem_scan.mpr ⟨hmem, ⟨_, rfl⟩⟩
    · rw [keyIndex_pgeKey hn, Option.getD_some]

theorem sorted_previous (db : MetaDb) : Table.Sorted db.previous := by
  have hscan : Cursor.Sorted (Cursor.scan pgePrefix db.pairs) := db.sorted.scan
  rw [db.scan_eq] at hscan
  refine (List.pairwise_map.mp hscan).imp_of_mem fun hf hg hlt => ?_
  exact (pgeKey_lt_pgeKey_iff (mem_previous.mp hf).1 (mem_previous.mp hg).1).mp hlt

/-- The bytes of a set. -/
def StoredSet (v : Bytes) (s : MysqlGTIDSet) : Prop :=
  Int64Sets s.sets ∧ ∃ t, MysqlGTIDSet.decode v = .ok t ∧ t.Same s

/-- A key with the set that belongs to it. -/
def SameKey (f : Nat × Bytes) (g : Nat × MysqlGTIDSet) : Prop := f.1 = g.1 ∧ StoredSet f.2 g.2

/-- `GetGtidSet` answers with the set. -/
def HoldsGtids (db : MetaDb) (k : PlainKey) (s : MysqlGTIDSet) : Prop :=
  Int64Sets s.sets ∧ ∃ t, db.getGtidSet k = .ok t ∧ t.Same s

/-- **The bucket holds a store.** -/
structure Stores (db : MetaDb) (m : MetaStore) : Prop where
  events : db.toMetaBucket.Holds m
  previous : List.Forall₂ SameKey db.previous m.previousGtids
  executed : db.HoldsGtids .executedGtids m.executedGtidSet
  purged : db.HoldsGtids .gtidPurged m.gtidPurged
  applied : db.mustGetAppliedIndex = .ok m.appliedIndex

theorem HoldsGtids.congr {db' : MetaDb} {k : PlainKey} (h : db.HoldsGtids k s)
    (hget : db'.get (.plain k) = db.get (.plain k)) : db'.HoldsGtids k s := by
  rw [HoldsGtids, getGtidSet, hget]
  exact h

theorem mustGetAppliedIndex_congr {db' : MetaDb}
    (hget : db'.get (.plain .appliedIndex) = db.get (.plain .appliedIndex)) :
    db'.mustGetAppliedIndex = db.mustGetAppliedIndex := by
  rw [mustGetAppliedIndex, hget]
  rfl

/-- The events stay when the keys with their prefixes stay. -/
theorem holds_congr {db' : MetaDb} {m : MetaStore}
    (h : ∀ (p : KeyPrefix) n v, (p.key n, v) ∈ db'.pairs ↔ (p.key n, v) ∈ db.pairs)
    (hm : db.toMetaBucket.Holds m) : db'.toMetaBucket.Holds m := by
  have hindexed : ∀ p, db'.toMetaBucket.indexed p = db.toMetaBucket.indexed p := by
    intro p
    refine (MetaBucket.sorted_indexed _ p).eq_of_mem_iff (MetaBucket.sorted_indexed _ p) fun f => ?_
    rw [MetaBucket.mem_indexed, MetaBucket.mem_indexed]
    exact and_congr_right fun _ => h p f.1 f.2
  exact ⟨(hindexed .fde).trans hm.fde, (hindexed .nextBinlog).trans hm.nextBinlog⟩

section Loops
variable {l : List (Nat × Bytes)} {l' : List (Nat × MysqlGTIDSet)}

/-- The keys of a table, as the cursor meets them. -/
def cells (l : List (Nat × Bytes)) : List (Bytes × Bytes) := l.map fun f => (pgeKey f.1, f.2)

theorem deleteLoop_eq {n : Nat} : ∀ {l : List (Nat × Bytes)} (db : MetaDb),
    (∀ f ∈ l, f.1 < 2 ^ 64) → ∃ db', deleteLoop n (cells l) db = .ok db' ∧
      ∀ f, f ∈ db'.pairs ↔ f ∈ db.pairs ∧ ∀ g ∈ l, g.1 < n → f.1 ≠ pgeKey g.1 := by
  intro l
  induction l with
  | nil => exact fun db _ => ⟨db, rfl, fun f => (and_iff_left (List.forall_mem_nil _)).symm⟩
  | cons g l ih =>
      intro db hlt
      obtain ⟨db', hdb', hmem⟩ := ih (if g.1 < n then db.delete (pgeKey g.1) else db)
        fun f hf => hlt f (List.mem_cons_of_mem g hf)
      refine ⟨db', ?_, fun f => ?_⟩
      · change (match keyIndex (pgeKey g.1) with | none => _ | some raftIndex => _) = _
        rw [keyIndex_pgeKey (hlt g List.mem_cons_self)]
        exact hdb'
      · rw [hmem, List.forall_mem_cons]
        split
        · next hg =>
          have hdelete : f ∈ (db.delete (pgeKey g.1)).pairs ↔ f ∈ db.pairs ∧ f.1 ≠ pgeKey g.1 := by
            rw [delete, List.mem_filter, decide_eq_true_eq]
          rw [hdelete, and_assoc]
          exact and_congr_right fun _ => and_congr_left fun _ => ⟨fun h _ => h, fun h => h hg⟩
        · next hg => exact and_congr_right fun _ => ⟨fun h => ⟨fun h' => absurd h' hg, h⟩, And.right⟩

end Loops

/-! ## Every call matches -/

/-- The failures of values that are too large: for a buffer, or for `Put`. -/
def SizeLimit (e : EventFailure) : Prop :=
  e = .panic "bytes.Buffer: too large" ∨ e = .error "value too large"

/-- How a call on the bucket ends, compared with the call on the store, which has no limit on
sizes. -/
inductive Matches : Except EventFailure MetaDb → Except EventFailure MetaStore → Prop where
  | ok {db : MetaDb} {m : MetaStore} : db.Stores m → Matches (.ok db) (.ok m)
  | error (e : EventFailure) : Matches (.error e) (.error e)
  | tooLarge {e : EventFailure} (h : SizeLimit e) (r : Except EventFailure MetaStore) :
      Matches (.error e) r

variable {m : MetaStore}

/-- Calls that match, one after the other. -/
theorem Matches.bind {x : Except EventFailure MetaDb} {y : Except EventFailure MetaStore}
    {f : MetaDb → Except EventFailure MetaDb} {g : MetaStore → Except EventFailure MetaStore}
    (h : Matches x y) (hf : ∀ {db m}, db.Stores m → Matches (f db) (g m)) :
    Matches (x.bind f) (y.bind g) := by
  cases h with
  | ok h => exact hf h
  | error e => exact .error e
  | tooLarge h r => exact .tooLarge h _

/-- Deleting the keys below an index. -/
theorem Stores.deletePreviousGtidSet (h : db.Stores m) (lastRaftIndex : UInt64) :
    ∃ db', db.deletePreviousGtidSet lastRaftIndex = .ok db' ∧
      db'.Stores (m.deletePreviousGtidSet lastRaftIndex.toNat) := by
  obtain ⟨db', hdb', hmem⟩ := deleteLoop_eq (n := lastRaftIndex.toNat) (l := db.previous) db
    fun f hf => (mem_previous.mp hf).1
  refine ⟨db', by rw [MetaDb.deletePreviousGtidSet, db.scan_eq]; exact hdb', ?_⟩
  -- only keys with the prefix are deleted
  have hkeep : ∀ {k : MetaKey}, (∀ i, k ≠ .previousGtids i) → ∀ v,
      (k.bytes, v) ∈ db'.pairs ↔ (k.bytes, v) ∈ db.pairs := by
    intro k hk v
    rw [hmem]
    refine and_iff_left fun g _ _ (heq : k.bytes = pgeKey g.1) => ?_
    obtain ⟨i, hi⟩ := MetaKey.previousGtids_of_prefix (heq ▸ ⟨_, rfl⟩ : pgePrefix <+: k.bytes)
    exact hk i hi
  have hget : ∀ k, db'.get (.plain k) = db.get (.plain k) := fun k => get_eq_get (hkeep (by simp))
  have hpgeKey : ∀ {i j : Nat}, i < 2 ^ 64 → j < 2 ^ 64 → pgeKey i = pgeKey j → i = j := by
    intro i j hi hj heq
    have hindex := congrArg keyIndex heq
    rw [keyIndex_pgeKey hi, keyIndex_pgeKey hj] at hindex
    exact Option.some.inj hindex
  have hprevious : db'.previous = db.previous.filter fun f => decide (¬ f.1 < lastRaftIndex.toNat) := by
    refine (sorted_previous _).eq_of_mem_iff (db.sorted_previous.filter _) fun f => ?_
    rw [mem_previous, hmem, List.mem_filter, mem_previous, decide_eq_true_eq]
    constructor
    · rintro ⟨hf, hpairs, hno⟩
      exact ⟨⟨hf, hpairs⟩, fun hlt => hno f (mem_previous.mpr ⟨hf, hpairs⟩) hlt rfl⟩
    · rintro ⟨⟨hf, hpairs⟩, hge⟩
      refine ⟨hf, hpairs, fun g hg hlt heq => hge ?_⟩
      rwa [hpgeKey hf (mem_previous.mp hg).1 heq]
  have hevents : db'.toMetaBucket.Holds m := by
    refine holds_congr (fun p n v => ?_) h.events
    rw [hmem]
    refine and_iff_left fun g _ _ heq => ?_
    have hhead := congrArg List.head? heq
    rw [p.head?_key] at hhead
    cases p <;> exact absurd hhead (by simp [pgeKey, pgePrefix])
  refine ⟨⟨hevents.fde, hevents.nextBinlog⟩, ?_, ?_, ?_, ?_⟩
  · rw [hprevious]
    exact Table.forall₂_filter And.left h.previous fun i => decide (¬ i < lastRaftIndex.toNat)
  · exact h.executed.congr (hget _)
  · exact h.purged.congr (hget _)
  · rw [mustGetAppliedIndex_congr (hget _)]
    exact h.applied

/-- The bucket answers every lookup as the store does; sets may come in another order. -/
structure Answers (db : MetaDb) (m : MetaStore) : Prop where
  /-- `GetPreviousGtidSet`, for every slave. -/
  previousGtidSet : ∀ slave, db.getPreviousGtidSet slave = m.getPreviousGtidSet slave
  executed : ∃ t, db.getGtidSet .executedGtids = .ok t ∧ t.Same m.executedGtidSet
  purged : ∃ t, db.getGtidSet .gtidPurged = .ok t ∧ t.Same m.gtidPurged
  applied : db.mustGetAppliedIndex = .ok m.appliedIndex
  fde : ∀ preGtidEventIndex, db.getFde preGtidEventIndex = m.getFde preGtidEventIndex
  nextBinlogFile : ∀ startRaftIndex,
    db.getNextBinlogFile startRaftIndex = m.getNextBinlogFile startRaftIndex

theorem Stores.getFde_eq (h : db.Stores m) (i : Nat) : db.getFde i = m.getFde i := by
  rw [getFde, MetaBucket.getFde_eq, h.events.fde]
  rfl

theorem Stores.getNextBinlogFile_eq (h : db.Stores m) (i : Nat) :
    db.getNextBinlogFile i = m.getNextBinlogFile i := by
  rw [getNextBinlogFile, MetaBucket.getNextBinlogFile_eq, h.events.nextBinlog]
  rfl

end MetaDb

end Kingbus
