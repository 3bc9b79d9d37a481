import Kingbus.GtidSet

/-! # Metadata of the binlog

The part of `MetaStore` (`storage/meta_storage.go`) that applying and purging binlog
events read and write: the keys below the prefixes of `FORMAT_DESCRIPTION`, `ROTATE` and
`PREVIOUS_GTIDS` events, each with a raft index of twenty digits, so that a cursor meets
them in the order of the indexes, and the two GTID sets and the applied index.  Sets are
kept decoded.  Writes succeed. -/

namespace Kingbus

/-- `MetaStore`. -/
structure MetaStore where
  /-- Below `FdePrefix`. -/
  fde : List (Nat × Bytes)
  /-- Below `NextBinlogPrefix`. -/
  nextBinlog : List (Nat × Bytes)
  /-- Below `PgePrefix`. -/
  previousGtids : List (Nat × MysqlGTIDSet)
  gtidPurged : MysqlGTIDSet
  executedGtidSet : MysqlGTIDSet
  appliedIndex : Nat
  deriving DecidableEq

namespace MetaStore

/-- A store with no keys: `GetGtidSet` then returns a set with no identifiers and
`MustGetAppliedIndex` returns 0. -/
def fresh : MetaStore := ⟨[], [], [], .empty, .empty, 0⟩

/-- `SetBinlogProgress`: both keys in one transaction. -/
def setBinlogProgress (s : MetaStore) (appliedIndex : Nat) (executedGtidSet : MysqlGTIDSet) :
    MetaStore :=
  { s with appliedIndex := appliedIndex, executedGtidSet := executedGtidSet }

/-- `SetPreviousGtidSet`: nothing is stored when some stored set is `Equal`. -/
def setPreviousGtidSet (s : MetaStore) (raftIndex : Nat) (previousGtidSet : MysqlGTIDSet) :
    MetaStore :=
  if s.previousGtids.any (fun f => f.2.equal previousGtidSet) then s
  else { s with previousGtids := Table.put raftIndex previousGtidSet s.previousGtids }

/-- The cursor loop of `GetPreviousGtidSet`, with the last index that was found. -/
def previousFrom (slaveExecutedGtids : MysqlGTIDSet) :
    List (Nat × MysqlGTIDSet) → Option Nat → Option Nat
  | [], last => last
  | (raftIndex, gtids) :: l, last =>
      if slaveExecutedGtids.sets = [] then some raftIndex
      else previousFrom slaveExecutedGtids l
        (if slaveExecutedGtids.contain gtids then some raftIndex else last)

/-- `GetPreviousGtidSet`. -/
def getPreviousGtidSet (s : MetaStore) (slaveExecutedGtids : MysqlGTIDSet) :
    Except EventFailure Nat :=
  match previousFrom slaveExecutedGtids s.previousGtids none with
  | none => .error (.error "storage:gtids not be contained")
  | some raftIndex => .ok raftIndex

/-- `deletePreviousGtidSet`. -/
def deletePreviousGtidSet (s : MetaStore) (lastRaftIndex : Nat) : MetaStore :=
  { s with previousGtids := s.previousGtids.filter fun f => ¬ f.1 < lastRaftIndex }

/-- `UpdatePugedGtidset`. -/
def updatePugedGtidset (s : MetaStore) (firstIndex : Nat) : Except EventFailure MetaStore :=
  match s.previousGtids.find? fun f => firstIndex < f.1 with
  | none => .ok s
  | some (_, gtids) =>
      if gtids.sets = [] then .ok s
      else
        match s.gtidPurged.updateText gtids.sets with
        | .error _ => .error (.fatal "UpdatePugedGtidset:get gtidPurged error,err:%s,gtids:%s")
        | .ok gtidPurged =>
            .ok ({ s with gtidPurged := gtidPurged }.deletePreviousGtidSet firstIndex)

/-! ## What the operations do -/

/-- What the loop finds is what it was given, or a key: any key for an empty slave set,
and otherwise one whose set the slave contains. -/
theorem previousFrom_cases {slave : MysqlGTIDSet} {l : List (Nat × MysqlGTIDSet)} {i : Nat} :
    ∀ {last : Option Nat}, previousFrom slave l last = some i →
      last = some i ∨ (slave.sets = [] ∧ ∃ f, l.head? = some f ∧ f.1 = i) ∨
        ∃ f ∈ l, f.1 = i ∧ slave.contain f.2 = true := by
  induction l with
  | nil => exact fun h => .inl h
  | cons f l ih =>
      intro last h
      rw [previousFrom] at h
      split at h
      · next hempty => exact .inr (.inl ⟨hempty, f, rfl, Option.some_inj.mp h⟩)
      · next hne =>
        rcases ih h with hlast | ⟨hempty, -⟩ | ⟨g, hg, hi, hc⟩
        · split at hlast
          · next hc =>
            exact .inr (.inr ⟨f, List.mem_cons_self .., Option.some_inj.mp hlast, hc⟩)
          · exact .inl hlast
        · exact absurd hempty hne
        · exact .inr (.inr ⟨g, List.mem_cons_of_mem _ hg, hi, hc⟩)

theorem getPreviousGtidSet_cases {s : MetaStore} {slave : MysqlGTIDSet} {i : Nat}
    (h : s.getPreviousGtidSet slave = .ok i) :
    (slave.sets = [] ∧ ∃ f, s.previousGtids.head? = some f ∧ f.1 = i) ∨
      ∃ f ∈ s.previousGtids, f.1 = i ∧ slave.contain f.2 = true := by
  rw [getPreviousGtidSet] at h
  split at h
  · cases h
  · next hfound =>
    cases h
    exact (previousFrom_cases hfound).resolve_left (by simp only [reduceCtorEq, not_false_eq_true])

/-- An index that is returned is the index of a key. -/
theorem exists_of_getPreviousGtidSet {s : MetaStore} {slave : MysqlGTIDSet} {i : Nat}
    (h : s.getPreviousGtidSet slave = .ok i) : ∃ f ∈ s.previousGtids, f.1 = i := by
  rcases getPreviousGtidSet_cases h with ⟨-, f, hf, hi⟩ | ⟨f, hf, hi, -⟩
  · exact ⟨f, List.mem_of_mem_head? hf, hi⟩
  · exact ⟨f, hf, hi⟩

end MetaStore

end Kingbus
