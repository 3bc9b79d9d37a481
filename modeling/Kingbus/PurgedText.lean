import Kingbus.MetaStore

/-! # What `UpdatePugedGtidset` declares

`UpdatePugedGtidset` adds the set of the next `PREVIOUS_GTIDS` event to `gtid_purged` by
printing it and passing the text to `Update`, which reads one identifier with its intervals.
Here is what is read for a set that is printed, and from that, for which sets the update is
the union that it is meant to be. -/

namespace Kingbus

/-! ## Intervals that are printed and parsed -/

/-- The bounds of an interval are `int64` values. -/
def Int64Interval (i : HalfOpenInterval Int) : Prop :=
  -2 ^ 63 ≤ i.start ∧ i.start < 2 ^ 63 ∧ -2 ^ 63 ≤ i.stop ∧ i.stop < 2 ^ 63

instance (i : HalfOpenInterval Int) : Decidable (Int64Interval i) :=
  inferInstanceAs (Decidable (_ ∧ _ ∧ _ ∧ _))

/-- A negative number alone. -/
def LoneNegative (i : HalfOpenInterval Int) : Prop :=
  -(2 ^ 63 - 1) < i.start ∧ i.start < 0 ∧ i.stop = i.start + 1

/-- The intervals whose text is read. -/
def Readable (i : HalfOpenInterval Int) : Prop := PrintableInterval i ∨ LoneNegative i

/-- What is read for them: the minus sign of a negative number is taken for the one between
two numbers. -/
def readInterval (i : HalfOpenInterval Int) : HalfOpenInterval Int :=
  if i.start < 0 then ⟨0, -i.start + 1⟩ else i

theorem PrintableInterval.readInterval_eq {i : HalfOpenInterval Int} (h : PrintableInterval i) :
    readInterval i = i :=
  if_neg (Int.not_lt.mpr h.1)

theorem Readable.lt {i : HalfOpenInterval Int} (h : Readable i) : i.start < i.stop := by
  rcases h with hp | hlone
  · exact hp.2.1
  · rw [hlone.2.2]
    omega

theorem wrap64_of_int64 {i : Int} (h0 : -2 ^ 63 ≤ i) (h : i < 2 ^ 63) : Wire.wrap64 i = i := by
  unfold Wire.wrap64
  omega

theorem formatInt_of_nonneg {n : Int} (h : 0 ≤ n) : formatInt n = Decimal.put 19 n.toNat :=
  if_neg (Int.not_lt.mpr h)

theorem formatInt_of_neg {n : Int} (h : n < 0) :
    formatInt n = 45 :: Decimal.put 19 (-n).toNat :=
  if_pos h

theorem split_formatInt_of_nonneg {n : Int} (h : 0 ≤ n) :
    Decimal.split 45 (formatInt n) = [formatInt n] := by
  rw [formatInt_of_nonneg h]
  exact Decimal.split_of_not_mem (not_mem_put (by decide))

theorem split_formatInt_of_neg {n : Int} (h : n < 0) :
    Decimal.split 45 (formatInt n) = [[], Decimal.put 19 (-n).toNat] := by
  rw [formatInt_of_neg h, Decimal.split, if_pos rfl,
    Decimal.split_of_not_mem (not_mem_put (by decide))]

/-- A minus sign between two texts adds their pieces. -/
theorem split_formatInt_append (n : Int) (t : Bytes) :
    Decimal.split 45 (formatInt n ++ 45 :: t) =
      Decimal.split 45 (formatInt n) ++ Decimal.split 45 t := by
  by_cases hn : n < 0
  · rw [split_formatInt_of_neg hn, formatInt_of_neg hn, List.cons_append, Decimal.split,
      if_pos rfl, Decimal.split_append_cons (not_mem_put (by decide))]
    rfl
  · have hn := Int.not_lt.mp hn
    rw [split_formatInt_of_nonneg hn, Decimal.split_append_cons ?_, List.singleton_append]
    rw [formatInt_of_nonneg hn]
    exact not_mem_put (by decide)

theorem parseInterval_three {str a b c : Bytes} {rest : List Bytes}
    (h : Decimal.split 45 str = a :: b :: c :: rest) (j : HalfOpenInterval Int) :
    parseInterval str ≠ .ok j := by
  rw [parseInterval, h]
  simp

theorem checkInterval_eq_ok {start stop : Int} {err : Bool} {j : HalfOpenInterval Int}
    (h : checkInterval start stop err = .ok j) : start < stop ∧ j = ⟨start, stop⟩ := by
  unfold checkInterval at h
  by_cases herr : err = true
  · rw [if_pos herr] at h
    cases h
  rw [if_neg herr] at h
  by_cases hle : stop ≤ start
  · rw [if_pos hle] at h
    cases h
  rw [if_neg hle] at h
  cases h
  exact ⟨Int.not_le.mp hle, rfl⟩

/-- Of two numbers in the text neither is negative, and the second is not the smaller. -/
theorem readable_of_two {i j : HalfOpenInterval Int} (hi : Int64Interval i)
    (h : parseInterval (formatInt i.start ++ 45 :: formatInt (Wire.wrap64 (i.stop - 1))) =
      .ok j) : PrintableInterval i ∧ j = i := by
  obtain ⟨hlo, hhi, hlo', hhi'⟩ := hi
  have hsplit := split_formatInt_append i.start (formatInt (Wire.wrap64 (i.stop - 1)))
  by_cases hneg : i.start < 0
  · rw [split_formatInt_of_neg hneg] at hsplit
    by_cases hneg' : Wire.wrap64 (i.stop - 1) < 0
    · rw [split_formatInt_of_neg hneg'] at hsplit
      exact absurd h (parseInterval_three hsplit j)
    · rw [split_formatInt_of_nonneg (Int.not_lt.mp hneg')] at hsplit
      exact absurd h (parseInterval_three hsplit j)
  rw [split_formatInt_of_nonneg (Int.not_lt.mp hneg)] at hsplit
  by_cases hneg' : Wire.wrap64 (i.stop - 1) < 0
  · rw [split_formatInt_of_neg hneg'] at hsplit
    exact absurd h (parseInterval_three hsplit j)
  -- what is left are two numbers, and `stop` is read back, also when `stop - 1` wraps around
  obtain ⟨a, ha⟩ := Int.eq_ofNat_of_zero_le (Int.not_lt.mp hneg)
  obtain ⟨b, hb⟩ := Int.eq_ofNat_of_zero_le (Int.not_lt.mp hneg')
  have hstop : Wire.wrap64 ((b : Int) + 1) = i.stop := by
    rw [← hb]
    unfold Wire.wrap64
    omega
  have hbmax : b < 2 ^ 63 := by
    have : Wire.wrap64 (i.stop - 1) < 2 ^ 63 := by
      unfold Wire.wrap64
      omega
    omega
  rw [formatInt_of_nonneg (Int.not_lt.mp hneg), formatInt_of_nonneg (Int.not_lt.mp hneg'), ha, hb,
    Int.toNat_natCast, Int.toNat_natCast, parseInterval_put_put, parseInt_put_of_lt (by omega),
    parseInt_put_of_lt hbmax] at h
  obtain ⟨hlt, rfl⟩ := checkInterval_eq_ok h
  simp only [hstop, ← ha] at hlt ⊢
  exact ⟨⟨Int.not_lt.mp hneg, hlt, hhi'⟩, trivial⟩

/-- **Printing an interval and parsing it.** -/
theorem parseInterval_eq_ok_iff {i j : HalfOpenInterval Int} (hi : Int64Interval i) :
    parseInterval (formatInterval i) = .ok j ↔ Readable i ∧ j = readInterval i := by
  constructor
  · intro h
    rw [formatInterval] at h
    by_cases hone : i.stop = Wire.wrap64 (i.start + 1)
    · rw [if_pos hone] at h
      by_cases hs : Storable i.start
      · rw [parseInterval_formatInt hs, gnoInterval] at h
        cases h
        obtain ⟨hlo, hhi⟩ := hs
        rw [wrap64_of_int64 (by omega) (by omega)] at hone
        rw [readInterval, ← hone]
        by_cases hneg : i.start < 0
        · exact ⟨.inr ⟨hlo, hneg, hone⟩, rfl⟩
        · exact ⟨.inl ⟨Int.not_lt.mp hneg, by omega, by omega⟩, rfl⟩
      · obtain ⟨text, ht⟩ := parseInterval_not_storable hi.1 hi.2.1 hs
        rw [ht] at h
        cases h
    · rw [if_neg hone] at h
      obtain ⟨hp, rfl⟩ := readable_of_two hi h
      exact ⟨.inl hp, hp.readInterval_eq.symm⟩
  · rintro ⟨hp | ⟨hlo, hneg, hone⟩, rfl⟩
    · rw [hp.readInterval_eq]
      exact parseInterval_formatInterval hp
    · have hwrap : i.stop = Wire.wrap64 (i.start + 1) := by
        rw [wrap64_of_int64 (by omega) (by omega), hone]
      rw [formatInterval, if_pos hwrap, parseInterval_formatInt ⟨hlo, by omega⟩,
        gnoInterval, readInterval, if_pos hneg, if_pos hneg]

theorem parseIntervals_eq_ok_iff {l l' : List (HalfOpenInterval Int)}
    (hl : ∀ i ∈ l, Int64Interval i) :
    parseIntervals l = .ok l' ↔ (∀ i ∈ l, Readable i) ∧ l' = l.map readInterval := by
  induction l generalizing l' with
  | nil => simp [parseIntervals, eq_comm]
  | cons i l ih =>
      obtain ⟨hi, hl⟩ := List.forall_mem_cons.mp hl
      rw [parseIntervals]
      cases hj : parseInterval (formatInterval i) with
      | error f =>
          refine iff_of_false (fun h => by cases h) fun h => ?_
          rw [(parseInterval_eq_ok_iff hi).mpr ⟨h.1 i List.mem_cons_self, rfl⟩] at hj
          cases hj
      | ok j =>
          obtain ⟨hread, rfl⟩ := (parseInterval_eq_ok_iff hi).mp hj
          change (parseIntervals l).map (readInterval i :: ·) = _ ↔ _
          rw [List.forall_mem_cons, List.map_cons, and_iff_right hread]
          cases hrest : parseIntervals l with
          | error f =>
              refine iff_of_false (fun h => by cases h) fun h => ?_
              rw [(ih hl).mpr ⟨h.1, rfl⟩] at hrest
              cases hrest
          | ok rest =>
              obtain ⟨hall, rfl⟩ := (ih hl).mp hrest
              change Except.ok _ = Except.ok l' ↔ _
              rw [and_iff_right hall, Except.ok.injEq, eq_comm]

theorem memList_map_readInterval {n : Int} {l : List (HalfOpenInterval Int)} :
    HalfOpenInterval.MemList n (l.map readInterval) ↔ ∃ i ∈ l, (readInterval i).Mem n := by
  simp [HalfOpenInterval.MemList]

theorem readInterval_start_nonneg (i : HalfOpenInterval Int) : 0 ≤ (readInterval i).start := by
  rw [readInterval]
  split
  · exact Int.le_refl 0
  · omega

theorem Readable.mem_of_nonneg {i : HalfOpenInterval Int} {n : Int} (h : Readable i) (h0 : 0 ≤ n)
    (hn : i.Mem n) : (readInterval i).Mem n := by
  rcases h with hp | ⟨-, hneg, hone⟩
  · rwa [hp.readInterval_eq]
  · have := hn.2
    omega

namespace MysqlGTIDSet
variable {s s' t : MysqlGTIDSet} {u : Sid × List (HalfOpenInterval Int)} {sid : Sid} {n : Int}

/-- The GTIDs of a set with one identifier. -/
theorem mem_iff_of_singleton (h : t.sets = [u]) :
    t.Mem sid n ↔ sid = u.1 ∧ HalfOpenInterval.MemList n u.2 := by
  rw [Mem, intervals, h, List.lookup_cons]
  by_cases hs : sid = u.1
  · subst hs
    simp
  · simp [hs, beq_false_of_ne hs]

/-- **`Update` with the text of a set** succeeds for one identifier with intervals that are
read. -/
theorem updateText_eq_ok_iff (ht : ∀ u ∈ t.sets, ∀ i ∈ u.2, Int64Interval i) :
    s.updateText t.sets = .ok s' ↔
      ∃ u, t.sets = [u] ∧ u.2 ≠ [] ∧ (∀ i ∈ u.2, Readable i) ∧
        s' = s.addSet u.1 (HalfOpenInterval.normalize (u.2.map readInterval)) := by
  cases hsets : t.sets with
  | nil => exact iff_of_false (fun h => by cases h) (by simp)
  | cons u us =>
      cases us with
      | cons v us => exact iff_of_false (fun h => by cases h) (by simp)
      | nil =>
          have hu := ht u (hsets ▸ List.mem_singleton_self u)
          simp only [List.cons.injEq, and_true, exists_eq_left', updateText, parseUUIDSet]
          by_cases hne : u.2 = []
          · rw [if_pos hne]
            exact iff_of_false (fun h => by cases h) fun h => h.1 hne
          rw [if_neg hne, and_iff_right hne]
          cases hl : parseIntervals u.2 with
          | error f =>
              refine iff_of_false (fun h => by cases h) fun h => ?_
              rw [(parseIntervals_eq_ok_iff hu).mpr ⟨h.1, rfl⟩] at hl
              cases hl
          | ok l =>
              obtain ⟨hall, rfl⟩ := (parseIntervals_eq_ok_iff hu).mp hl
              change Except.ok _ = Except.ok s' ↔ _
              rw [and_iff_right hall, Except.ok.injEq, eq_comm]

/-- `Update` with the text of a set keeps what was there and adds the set. -/
theorem mem_of_updateText (h : s.updateText t.sets = .ok s')
    (ht : ∀ u ∈ t.sets, ∀ i ∈ u.2, Int64Interval i) (h0 : 0 ≤ n) (hn : t.Mem sid n) :
    s'.Mem sid n := by
  obtain ⟨u, hsets, -, hread, rfl⟩ := (updateText_eq_ok_iff ht).mp h
  obtain ⟨rfl, i, hi, hn⟩ := (mem_iff_of_singleton hsets).mp hn
  rw [mem_addSet, HalfOpenInterval.memList_normalize, memList_map_readInterval]
  exact .inr ⟨rfl, i, hi, (hread i hi).mem_of_nonneg h0 hn⟩

/-- A set whose text adds to `purged` what the set holds: the text is empty, or it has one
identifier whose intervals are read back.  A negative number alone is not, but that makes no
difference where both it and what is read instead are there already. -/
def Declarable (t purged : MysqlGTIDSet) : Prop :=
  t.sets = [] ∨ ∃ u, t.sets = [u] ∧ u.2 ≠ [] ∧ ∀ i ∈ u.2, PrintableInterval i ∨
    (LoneNegative i ∧ purged.Mem u.1 i.start ∧
      ∀ n, 0 ≤ n → n ≤ -i.start → purged.Mem u.1 n ∨ t.Mem u.1 n)

/-- When the text of one identifier adds what its intervals hold. -/
theorem union_iff (hsets : t.sets = [u]) (hread : ∀ i ∈ u.2, Readable i) :
    (∀ sid n, (s.addSet u.1 (HalfOpenInterval.normalize (u.2.map readInterval))).Mem sid n ↔
        s.Mem sid n ∨ t.Mem sid n) ↔
      ∀ i ∈ u.2, PrintableInterval i ∨ (LoneNegative i ∧ s.Mem u.1 i.start ∧
        ∀ n, 0 ≤ n → n ≤ -i.start → s.Mem u.1 n ∨ t.Mem u.1 n) := by
  simp only [mem_addSet, HalfOpenInterval.memList_normalize, memList_map_readInterval]
  constructor
  · intro hunion i hi
    refine (hread i hi).imp_right fun hlone => ⟨hlone, ?_, fun n h0 hn => ?_⟩
    · have hmem : t.Mem u.1 i.start :=
        (mem_iff_of_singleton hsets).mpr ⟨rfl, i, hi, Int.le_refl _, by
          rw [hlone.2.2]
          omega⟩
      rcases (hunion u.1 i.start).mpr (.inr hmem) with h | ⟨-, j, -, hj⟩
      · exact h
      · -- nothing that is read is negative
        have := (readInterval_start_nonneg j).trans hj.1
        have := hlone.2.1
        omega
    · refine (hunion u.1 n).mp (.inr ⟨rfl, i, hi, ?_⟩)
      rw [readInterval, if_pos hlone.2.1]
      exact ⟨h0, by simp only; omega⟩
  · intro hall sid n
    constructor
    · rintro (h | ⟨rfl, i, hi, hn⟩)
      · exact .inl h
      rcases hall i hi with hp | ⟨hlone, -, hrange⟩
      · rw [hp.readInterval_eq] at hn
        exact .inr ((mem_iff_of_singleton hsets).mpr ⟨rfl, i, hi, hn⟩)
      · rw [readInterval, if_pos hlone.2.1] at hn
        exact hrange n hn.1 (by have := hn.2; simp only at this; omega)
    · rintro (h | h)
      · exact .inl h
      obtain ⟨rfl, i, hi, hn⟩ := (mem_iff_of_singleton hsets).mp h
      rcases hall i hi with hp | ⟨hlone, hstart, -⟩
      · exact .inr ⟨rfl, i, hi, by rwa [hp.readInterval_eq]⟩
      · have heq : n = i.start := by
          have h1 := hn.1
          have h2 := hn.2
          rw [hlone.2.2] at h2
          omega
        exact .inl (heq ▸ hstart)

end MysqlGTIDSet

/-! ## The update -/

namespace MetaStore
variable {m m' : MetaStore} {firstIndex : Nat}

/-- The two ways of `UpdatePugedGtidset` to return `nil`. -/
theorem updatePugedGtidset_cases (h : m.updatePugedGtidset firstIndex = .ok m') :
    (∃ f, (m.previousGtids.find? fun f => firstIndex < f.1) = some f ∧ f.2.sets ≠ [] ∧
      m.gtidPurged.updateText f.2.sets = .ok m'.gtidPurged ∧
      m'.previousGtids = m.previousGtids.filter fun f => ¬ f.1 < firstIndex) ∨
    (¬ (∃ f, (m.previousGtids.find? fun f => firstIndex < f.1) = some f ∧ f.2.sets ≠ []) ∧
      m' = m) := by
  rw [updatePugedGtidset] at h
  split at h
  · next hnone =>
    cases h
    refine .inr ⟨?_, rfl⟩
    rintro ⟨f, hf, -⟩
    rw [hnone] at hf
    cases hf
  · next i gtids hsome =>
    split at h
    · next hempty =>
      cases h
      refine .inr ⟨?_, rfl⟩
      rintro ⟨f, hf, hne⟩
      rw [hsome] at hf
      cases hf
      exact hne hempty
    · next hne =>
      split at h
      · cases h
      · next purged hpurged =>
        cases h
        exact .inl ⟨_, hsome, hne, hpurged, rfl⟩

theorem updatePugedGtidset_eq {f : Nat × MysqlGTIDSet} {purged : MysqlGTIDSet}
    (hfound : (m.previousGtids.find? fun g => firstIndex < g.1) = some f)
    (hsets : f.2.sets ≠ []) (hpurged : m.gtidPurged.updateText f.2.sets = .ok purged) :
    m.updatePugedGtidset firstIndex =
      .ok ({ m with gtidPurged := purged }.deletePreviousGtidSet firstIndex) := by
  rw [updatePugedGtidset, hfound]
  simp only [if_neg hsets, hpurged]

/-- The operations keep the keys in order. -/
theorem setPreviousGtidSet_sorted (h : Table.Sorted m.previousGtids) (raftIndex : Nat)
    (previousGtidSet : MysqlGTIDSet) :
    Table.Sorted (m.setPreviousGtidSet raftIndex previousGtidSet).previousGtids := by
  rw [setPreviousGtidSet]
  split
  · exact h
  · exact h.put

theorem updatePugedGtidset_sorted (h : Table.Sorted m.previousGtids)
    (hok : m.updatePugedGtidset firstIndex = .ok m') : Table.Sorted m'.previousGtids := by
  rcases updatePugedGtidset_cases hok with ⟨-, -, -, -, hkeys⟩ | ⟨-, rfl⟩
  · rw [hkeys]
    exact h.filter _
  · exact h

/-- The key with the smallest index behind `firstIndex`. -/
def Nearest (m : MetaStore) (firstIndex : Nat) (f : Nat × MysqlGTIDSet) : Prop :=
  f ∈ m.previousGtids ∧ firstIndex < f.1 ∧
    ∀ g ∈ m.previousGtids, firstIndex < g.1 → f.1 ≤ g.1

/-- The nearest key has a set that is not empty. -/
def Due (m : MetaStore) (firstIndex : Nat) (f : Nat × MysqlGTIDSet) : Prop :=
  m.Nearest firstIndex f ∧ ∃ sid n, f.2.Mem sid n

/-- The set is declared as purged, and the keys below `firstIndex` are gone. -/
structure Declared (m : MetaStore) (firstIndex : Nat) (gtids : MysqlGTIDSet) (m' : MetaStore) :
    Prop where
  purged : ∀ sid n, m'.gtidPurged.Mem sid n ↔ m.gtidPurged.Mem sid n ∨ gtids.Mem sid n
  keys : ∀ g, g ∈ m'.previousGtids ↔ g ∈ m.previousGtids ∧ firstIndex ≤ g.1
  others : m' = { m with gtidPurged := m'.gtidPurged, previousGtids := m'.previousGtids }

/-- The update returns `nil`, declares the set of the nearest key if there is one to declare,
and changes nothing otherwise. -/
def PurgesExactly (m : MetaStore) (firstIndex : Nat) : Prop :=
  ∃ m', m.updatePugedGtidset firstIndex = .ok m' ∧
    (∀ f, m.Due firstIndex f → m.Declared firstIndex f.2 m') ∧
    ((∀ f, ¬ m.Due firstIndex f) → m' = m)

theorem nearest_iff (hsorted : Table.Sorted m.previousGtids) {f : Nat × MysqlGTIDSet} :
    m.Nearest firstIndex f ↔ (m.previousGtids.find? fun g => firstIndex < g.1) = some f :=
  hsorted.find?_lt_iff.symm

theorem purgesExactly_of_not_due (hno : ∀ f, ¬ m.Due firstIndex f)
    (hok : m.updatePugedGtidset firstIndex = .ok m) : m.PurgesExactly firstIndex :=
  ⟨m, hok, fun f hf => absurd hf (hno f), fun _ => rfl⟩

/-- A set whose text is read has a GTID. -/
theorem Nearest.due {f : Nat × MysqlGTIDSet} {u : Sid × List (HalfOpenInterval Int)}
    (hf : m.Nearest firstIndex f) (hsets : f.2.sets = [u]) (hne : u.2 ≠ [])
    (hread : ∀ i ∈ u.2, Readable i) : m.Due firstIndex f := by
  obtain ⟨i, hi⟩ := List.exists_mem_of_ne_nil _ hne
  exact ⟨hf, u.1, i.start, (MysqlGTIDSet.mem_iff_of_singleton hsets).mpr
    ⟨rfl, i, hi, Int.le_refl _, (hread i hi).lt⟩⟩

/-- With an identifier in the set of the nearest key the update prints and parses it. -/
theorem purgesExactly_iff_declarable {f : Nat × MysqlGTIDSet}
    (hfound : (m.previousGtids.find? fun g => firstIndex < g.1) = some f)
    (hf : m.Nearest firstIndex f) (hunique : ∀ g, m.Nearest firstIndex g → g = f)
    (hint64 : ∀ u ∈ f.2.sets, ∀ i ∈ u.2, Int64Interval i) (hsets : f.2.sets ≠ []) :
    m.PurgesExactly firstIndex ↔ f.2.Declarable m.gtidPurged := by
  constructor
  · rintro ⟨m', hok, hdeclared, -⟩
    rcases updatePugedGtidset_cases hok with ⟨g, hg, -, hpurged, -⟩ | ⟨hnone, -⟩
    · rw [hfound, Option.some_inj] at hg
      subst hg
      obtain ⟨u, hu, hne, hread, hnew⟩ := (MysqlGTIDSet.updateText_eq_ok_iff hint64).mp hpurged
      have hunion := (hdeclared f (hf.due hu hne hread)).purged
      rw [hnew] at hunion
      exact .inr ⟨u, hu, hne, (MysqlGTIDSet.union_iff hu hread).mp hunion⟩
    · exact absurd ⟨f, hfound, hsets⟩ hnone
  · intro hdeclarable
    obtain ⟨u, hu, hne, hall⟩ := hdeclarable.resolve_left hsets
    have hread : ∀ i ∈ u.2, Readable i := fun i hi => (hall i hi).imp_right And.left
    have hpurged := (MysqlGTIDSet.updateText_eq_ok_iff (s := m.gtidPurged) hint64).mpr
      ⟨u, hu, hne, hread, rfl⟩
    refine ⟨_, updatePugedGtidset_eq hfound hsets hpurged, fun g hg => ?_,
      fun hno => absurd (hf.due hu hne hread) (hno f)⟩
    rw [hunique g hg.1]
    exact ⟨(MysqlGTIDSet.union_iff hu hread).mpr hall,
      fun g => by simp [deletePreviousGtidSet], rfl⟩

/-- **When the update is exact**: the set of the nearest key has no identifier, or one whose
intervals are read back from its text. -/
theorem purgesExactly_iff (m : MetaStore) (firstIndex : Nat)
    (hsorted : Table.Sorted m.previousGtids)
    (hint64 : ∀ f ∈ m.previousGtids, ∀ u ∈ f.2.sets, ∀ i ∈ u.2, Int64Interval i) :
    m.PurgesExactly firstIndex ↔
      ∀ f, m.Nearest firstIndex f → f.2.Declarable m.gtidPurged := by
  cases hfound : m.previousGtids.find? fun g => firstIndex < g.1 with
  | none =>
      have hno : ∀ f, ¬ m.Nearest firstIndex f := by
        intro f hf
        rw [nearest_iff hsorted, hfound] at hf
        cases hf
      refine iff_of_true (purgesExactly_of_not_due (fun f hf => hno f hf.1) ?_)
        fun f hf => absurd hf (hno f)
      rw [updatePugedGtidset, hfound]
  | some f =>
      have hf : m.Nearest firstIndex f := (nearest_iff hsorted).mpr hfound
      have hunique : ∀ g, m.Nearest firstIndex g → g = f := by
        intro g hg
        rw [nearest_iff hsorted, hfound] at hg
        exact (Option.some_inj.mp hg).symm
      have hforall : (∀ g, m.Nearest firstIndex g → g.2.Declarable m.gtidPurged) ↔
          f.2.Declarable m.gtidPurged :=
        ⟨fun h => h f hf, fun h g hg => hunique g hg ▸ h⟩
      rw [hforall]
      by_cases hsets : f.2.sets = []
      · refine iff_of_true (purgesExactly_of_not_due ?_ ?_) (.inl hsets)
        · rintro g ⟨hg, sid, n, hmem⟩
          rw [hunique g hg, MysqlGTIDSet.Mem, MysqlGTIDSet.intervals, hsets] at hmem
          exact HalfOpenInterval.memList_nil n hmem
        · rw [updatePugedGtidset, hfound]
          exact if_pos hsets
      · exact purgesExactly_iff_declarable hfound hf hunique (hint64 f hf.1) hsets

/-! ## Sets with one server and with two -/

/-- A server. -/
def serverOne : Sid := ⟨List.replicate 16 1, rfl⟩

/-- Another server. -/
def serverTwo : Sid := ⟨List.replicate 16 2, rfl⟩

/-- Metadata with one `PREVIOUS_GTIDS` event, at index 5. -/
def previousAtFive (gtids : MysqlGTIDSet) : MetaStore :=
  { MetaStore.fresh with previousGtids := [(5, gtids)] }

theorem purgesExactly_one_server :
    (previousAtFive (MysqlGTIDSet.empty.addSet serverOne [⟨1, 8⟩])).PurgesExactly 3 := by
  refine (purgesExactly_iff (previousAtFive _) 3 (List.pairwise_singleton _ _)
    (by decide +kernel)).mpr ?_
  rintro f ⟨hf, -⟩
  obtain rfl := List.mem_singleton.mp hf
  exact .inr ⟨(serverOne, [⟨1, 8⟩]), rfl, by simp, fun i hi => .inl (by
    rw [List.mem_singleton.mp hi]
    decide)⟩

/-- **A set with two servers is not read back**, and kingbus stops. -/
theorem two_servers_are_fatal :
    (previousAtFive ((MysqlGTIDSet.empty.addSet serverOne [⟨1, 8⟩]).addSet serverTwo
        [⟨1, 4⟩])).updatePugedGtidset 3 =
      .error (.fatal "UpdatePugedGtidset:get gtidPurged error,err:%s,gtids:%s") := by
  rfl

end MetaStore

end Kingbus
