import Kingbus.LogRefinement
import Kingbus.DumpStart
import Kingbus.PurgedText

/-! # Purging segments and `gtid_purged`

When the purger has dropped a prefix of the segments, `purgeSegments` declares what is
gone: the set of the next `PREVIOUS_GTIDS` event behind the new first index is added to
`gtid_purged`, and the keys before that index are deleted.  Without such an event, or when
its set is empty, both are left out and the files are removed all the same. -/

namespace Kingbus

/-- `purgeSegments`, once the segments are dropped from the storage: what it does to the
metadata.  Removing the files succeeds. -/
def DiskStorage.purgeSegments (s : DiskStorage) (m : MetaStore) : Except EventFailure MetaStore :=
  m.updatePugedGtidset s.firstIndex

/-! ## What is declared -/

/-- Every transaction that starts before the index is in `gtid_purged`. -/
def MetaStore.PurgedBefore (m : MetaStore) (log : List (Nat × Trx)) (firstIndex : Nat) : Prop :=
  ∀ x ∈ log, x.1 < firstIndex → m.gtidPurged.Mem x.2.gtid.sid x.2.gtid.gno

/-- No key of a `PREVIOUS_GTIDS` event is before the index. -/
def MetaStore.KeysFrom (m : MetaStore) (firstIndex : Nat) : Prop :=
  ∀ f ∈ m.previousGtids, firstIndex ≤ f.1

/-- **When a purge is declared**: the `PREVIOUS_GTIDS` event next behind the new first index
exists and has a set that is not empty, or there was nothing to declare and to delete.  The
assumptions are that each stored set holds the transactions that start before it. -/
theorem purge_declared_iff (s : DiskStorage) (reserveSegmentCount : Nat) (m m' : MetaStore)
    (log : List (Nat × Trx))
    (hcomplete : ∀ f ∈ m.previousGtids, ∀ x ∈ log, x.1 < f.1 →
      f.2.Mem x.2.gtid.sid x.2.gtid.gno)
    (hint64 : ∀ f ∈ m.previousGtids, ∀ u ∈ f.2.sets, ∀ i ∈ u.2, Int64Interval i)
    (hok : (s.purge reserveSegmentCount).purgeSegments m = .ok m') :
    (m'.PurgedBefore log (s.purge reserveSegmentCount).firstIndex ∧
        m'.KeysFrom (s.purge reserveSegmentCount).firstIndex ∧
        ∀ slave i, m'.getPreviousGtidSet slave = .ok i →
          (s.purge reserveSegmentCount).checkRaftIndex i ≠ .error (.error .compacted)) ↔
      (∃ f, (m.previousGtids.find? fun f => (s.purge reserveSegmentCount).firstIndex < f.1) =
          some f ∧ f.2.sets ≠ []) ∨
        (m.PurgedBefore log (s.purge reserveSegmentCount).firstIndex ∧
          m.KeysFrom (s.purge reserveSegmentCount).firstIndex) := by
  -- what is returned is the index of a key
  have hget : ∀ {k : MetaStore}, k.KeysFrom (s.purge reserveSegmentCount).firstIndex →
      ∀ slave i, k.getPreviousGtidSet slave = .ok i →
        (s.purge reserveSegmentCount).checkRaftIndex i ≠ .error (.error .compacted) := by
    intro k hk slave i hi
    obtain ⟨f, hf, rfl⟩ := MetaStore.exists_of_getPreviousGtidSet hi
    rw [DiskStorage.checkRaftIndex, if_neg (Nat.not_lt.mpr (hk f hf))]
    split
    · exact fun h => by cases h
    · exact fun h => by cases h
  rcases MetaStore.updatePugedGtidset_cases hok with ⟨f, hf, hne, hpurged, hkeys⟩ | ⟨hnone, rfl⟩
  · refine iff_of_true ?_ (.inl ⟨f, hf, hne⟩)
    have hmem : f ∈ m.previousGtids := List.mem_of_find?_eq_some hf
    have hlt : (s.purge reserveSegmentCount).firstIndex < f.1 := by
      have := List.find?_some hf
      exact of_decide_eq_true this
    have hfrom : m'.KeysFrom (s.purge reserveSegmentCount).firstIndex := by
      intro f' hf'
      rw [hkeys] at hf'
      exact Nat.not_lt.mp (of_decide_eq_true (List.mem_filter.mp hf').2)
    refine ⟨fun x hx hxlt => ?_, hfrom, hget hfrom⟩
    exact MysqlGTIDSet.mem_of_updateText hpurged (hint64 f hmem) (Int.le_of_lt x.2.gno_pos)
      (hcomplete f hmem x hx (Nat.lt_trans hxlt hlt))
  · constructor
    · exact fun h => .inr ⟨h.1, h.2.1⟩
    · exact fun h => (h.resolve_left hnone).imp_right fun hk => ⟨hk, hget hk⟩

/-! ## A purge that is not declared -/

/-- A storage with two segments, the second of which starts at index 3. -/
def twoSegments : DiskStorage :=
  let s := (DiskStorage.empty.appendRaftEntries .small [small11, small12]).1
  (s.appendRaftEntries .small [small13]).1

/-- Metadata with a `PREVIOUS_GTIDS` event at the given indexes, the last of which has the
set with the first transaction. -/
def previousAt (i j : Nat) : MetaStore :=
  { MetaStore.fresh with previousGtids := [(i, .empty), (j, firstOfA)] }

theorem purge_declared_iff_twoSegments :
    ∃ m', (twoSegments.purge 1).purgeSegments (previousAt 1 4) = .ok m' ∧
      m'.PurgedBefore [(2, trxOne)] (twoSegments.purge 1).firstIndex ∧
      m'.KeysFrom (twoSegments.purge 1).firstIndex := by
  obtain ⟨m', hm'⟩ := exists_of_isOk
    (x := (twoSegments.purge 1).purgeSegments (previousAt 1 4)) (by decide +kernel)
  have hkey : ∃ f, ((previousAt 1 4).previousGtids.find? fun f =>
      (twoSegments.purge 1).firstIndex < f.1) = some f ∧ f.2.sets ≠ [] :=
    ⟨(4, firstOfA), by decide +kernel, by decide +kernel⟩
  have hiff := purge_declared_iff twoSegments 1 (previousAt 1 4) m' [(2, trxOne)]
    (by decide +kernel) (by decide +kernel) hm'
  obtain ⟨hpurged, hkeys, -⟩ := hiff.mpr (.inl hkey)
  exact ⟨m', hm', hpurged, hkeys⟩

/-- **Without a later `PREVIOUS_GTIDS` event** the purge of the first segment declares
nothing and leaves the key, so that a slave is started at an index that is gone. -/
theorem purge_without_later_event :
    ∃ m', (twoSegments.purge 1).purgeSegments
        { MetaStore.fresh with previousGtids := [(1, .empty)] } = .ok m' ∧
      ¬ m'.gtidPurged.Mem trxOne.gtid.sid trxOne.gtid.gno ∧
      2 < (twoSegments.purge 1).firstIndex ∧
      m'.getPreviousGtidSet .empty = .ok 1 ∧
      (twoSegments.purge 1).checkRaftIndex 1 = .error (.error .compacted) := by
  obtain ⟨m', hm', hmem⟩ := exists_of_eval
    (x := (twoSegments.purge 1).purgeSegments
      { MetaStore.fresh with previousGtids := [(1, .empty)] })
    (P := fun m' => ¬ m'.gtidPurged.Mem trxOne.gtid.sid trxOne.gtid.gno ∧
      m'.previousGtids = [(1, .empty)]) (by decide +kernel)
  refine ⟨m', hm', hmem.1, by decide +kernel, ?_, if_pos (by decide +kernel)⟩
  rw [MetaStore.getPreviousGtidSet, hmem.2]
  rfl

end Kingbus
