import Kingbus.PurgedText

/-! # The keys of `PREVIOUS_GTIDS` events

`SetPreviousGtidSet` stores a set unless a stored one is `Equal` to it, and `Equal` looks only
at the identifiers of its argument.  So a set can count as stored when every key holds more,
and a slave with exactly that set then finds no key to start at. -/

namespace Kingbus

namespace MysqlGTIDSet

/-- Both sets stand for the same GTIDs. -/
def SameGtids (s t : MysqlGTIDSet) : Prop := ∀ sid n, s.Mem sid n ↔ t.Mem sid n

/-- The set has the identifiers of the other one, with the same intervals. -/
def AgreesOn (s t : MysqlGTIDSet) : Prop := ∀ u ∈ t.sets, s.sets.lookup u.1 = some u.2

/-- No identifier is without numbers, and all lists of intervals are in normal form. -/
def Normal (s : MysqlGTIDSet) : Prop :=
  ∀ u ∈ s.sets, u.2 ≠ [] ∧ HalfOpenInterval.Normal u.2

theorem SameGtids.refl (s : MysqlGTIDSet) : s.SameGtids s := fun _ _ => Iff.rfl

/-- **A subset is contained**, when both sets are in normal form. -/
theorem contain_of_subset {s o : MysqlGTIDSet} (hs : s.Normal) (ho : o.Normal)
    (h : o.Subset s) : s.contain o = true := by
  rw [contain, List.all_eq_true]
  intro u hu
  have hlookup := lookup_of_mem hu
  obtain ⟨hne, hnormal⟩ := ho u hu
  -- the identifier has a number, so the other set has it too
  obtain ⟨i, hi⟩ := List.exists_mem_of_ne_nil _ hne
  have hmem : o.Mem u.1 i.start := (mem_iff_of_lookup hlookup).mpr (hnormal.memList_start hi)
  obtain ⟨l, hl, -⟩ := exists_of_mem (h u.1 i.start hmem)
  simp only [hl]
  refine HalfOpenInterval.contain_of_subset (hs _ (mem_of_lookup hl)).2 hnormal fun n hn => ?_
  exact (mem_iff_of_lookup hl).mp (h u.1 n ((mem_iff_of_lookup hlookup).mpr hn))

end MysqlGTIDSet

namespace MetaStore
variable {m m' : MetaStore}

theorem previousFrom_ne_none {slave : MysqlGTIDSet} {l : List (Nat × MysqlGTIDSet)}
    {last : Option Nat} (h : last ≠ none ∨ ∃ f ∈ l, slave.contain f.2 = true) :
    previousFrom slave l last ≠ none := by
  induction l generalizing last with
  | nil =>
      rcases h with h | ⟨f, hf, -⟩
      · exact h
      · cases hf
  | cons g l ih =>
      obtain ⟨i, gtids⟩ := g
      rw [previousFrom]
      by_cases hempty : slave.sets = []
      · rw [if_pos hempty]
        simp
      rw [if_neg hempty]
      apply ih
      by_cases hg : slave.contain gtids = true
      · rw [if_pos hg]
        simp
      · rw [if_neg hg]
        refine h.imp_right ?_
        rintro ⟨f, hf, hc⟩
        rcases List.mem_cons.mp hf with rfl | hf
        · exact absurd hc hg
        · exact ⟨f, hf, hc⟩

/-- A slave that contains a stored set gets an index. -/
theorem getPreviousGtidSet_of_contain {slave : MysqlGTIDSet} {f : Nat × MysqlGTIDSet}
    (hf : f ∈ m.previousGtids) (hc : slave.contain f.2 = true) :
    ∃ i, m.getPreviousGtidSet slave = .ok i := by
  rw [getPreviousGtidSet]
  cases hfrom : previousFrom slave m.previousGtids none with
  | none => exact absurd hfrom (previousFrom_ne_none (.inr ⟨f, hf, hc⟩))
  | some i => exact ⟨i, rfl⟩

/-- What `SetPreviousGtidSet` is to do: some key holds the GTIDs of the set, the keys that were
there stay, at most the key of `raftIndex` is new, and so a slave with these GTIDs gets an
index. -/
structure Represents (m : MetaStore) (raftIndex : Nat) (gtids : MysqlGTIDSet) (m' : MetaStore) :
    Prop where
  stored : ∃ f ∈ m'.previousGtids, f.2.SameGtids gtids
  kept : ∀ f ∈ m.previousGtids, f ∈ m'.previousGtids
  new : ∀ f ∈ m'.previousGtids, f ∈ m.previousGtids ∨ f.1 = raftIndex
  others : m' = { m with previousGtids := m'.previousGtids }
  found : ∀ slave : MysqlGTIDSet, slave.SameGtids gtids → slave.Normal →
    (∀ f ∈ m'.previousGtids, f.2.Normal) → ∃ i, m'.getPreviousGtidSet slave = .ok i

theorem found_of_stored {gtids : MysqlGTIDSet}
    (h : ∃ f ∈ m'.previousGtids, f.2.SameGtids gtids) (slave : MysqlGTIDSet)
    (hslave : slave.SameGtids gtids) (hnormal : slave.Normal)
    (hstored : ∀ f ∈ m'.previousGtids, f.2.Normal) :
    ∃ i, m'.getPreviousGtidSet slave = .ok i := by
  obtain ⟨f, hf, hsame⟩ := h
  have hsub : f.2.Subset slave := fun sid n hn => (hslave sid n).mpr ((hsame sid n).mp hn)
  exact getPreviousGtidSet_of_contain hf
    (MysqlGTIDSet.contain_of_subset hnormal (hstored f hf) hsub)

theorem setPreviousGtidSet_of_agrees {raftIndex : Nat} {gtids : MysqlGTIDSet}
    (h : ∃ f ∈ m.previousGtids, f.2.AgreesOn gtids) :
    m.setPreviousGtidSet raftIndex gtids = m := by
  obtain ⟨f, hf, hagrees⟩ := h
  exact if_pos (List.any_eq_true.mpr ⟨f, hf, MysqlGTIDSet.equal_iff.mpr hagrees⟩)

theorem setPreviousGtidSet_of_not_agrees {raftIndex : Nat} {gtids : MysqlGTIDSet}
    (h : ∀ f ∈ m.previousGtids, ¬ f.2.AgreesOn gtids) :
    m.setPreviousGtidSet raftIndex gtids =
      { m with previousGtids := Table.put raftIndex gtids m.previousGtids } := by
  refine if_neg fun hany => ?_
  obtain ⟨f, hf, hequal⟩ := List.any_eq_true.mp hany
  exact h f hf (MysqlGTIDSet.equal_iff.mp hequal)

/-- **When a set is represented**: a stored set has its identifiers with the same intervals, and
one has exactly its GTIDs; or none has its identifiers that way, and the index is no key yet. -/
theorem setPreviousGtidSet_represents_iff (m : MetaStore) (raftIndex : Nat)
    (gtids : MysqlGTIDSet) (hsorted : Table.Sorted m.previousGtids) :
    m.Represents raftIndex gtids (m.setPreviousGtidSet raftIndex gtids) ↔
      ((∃ f ∈ m.previousGtids, f.2.AgreesOn gtids) ∧
          ∃ f ∈ m.previousGtids, f.2.SameGtids gtids) ∨
        ((∀ f ∈ m.previousGtids, ¬ f.2.AgreesOn gtids) ∧
          ∀ f ∈ m.previousGtids, f.1 ≠ raftIndex) := by
  by_cases hagrees : ∃ f ∈ m.previousGtids, f.2.AgreesOn gtids
  · rw [setPreviousGtidSet_of_agrees hagrees]
    constructor
    · exact fun h => .inl ⟨hagrees, h.stored⟩
    · rintro (⟨-, hstored⟩ | ⟨hno, -⟩)
      · exact ⟨hstored, fun _ hf => hf, fun _ hf => .inl hf, rfl, found_of_stored hstored⟩
      · obtain ⟨f, hf, hfa⟩ := hagrees
        exact absurd hfa (hno f hf)
  · have hno : ∀ f ∈ m.previousGtids, ¬ f.2.AgreesOn gtids :=
      fun f hf hfa => hagrees ⟨f, hf, hfa⟩
    rw [setPreviousGtidSet_of_not_agrees hno]
    constructor
    · -- the entry of the index is the new one, and no stored set equals that
      refine fun h => .inr ⟨hno, fun f hf hkey => ?_⟩
      have heq : f = (raftIndex, gtids) :=
        hsorted.put.eq_of_key_eq (h.kept f hf) (Table.mem_put_self ..) hkey
      refine hno f hf fun u hu => ?_
      rw [heq]
      exact MysqlGTIDSet.lookup_of_mem hu
    · rintro (⟨h, -⟩ | ⟨-, hfree⟩)
      · exact absurd h hagrees
      have hstored : ∃ f ∈ Table.put raftIndex gtids m.previousGtids, f.2.SameGtids gtids :=
        ⟨_, Table.mem_put_self .., .refl _⟩
      refine ⟨hstored, fun f hf => Table.mem_put_of_mem (hfree f hf) hf, fun f hf => ?_, rfl,
        found_of_stored hstored⟩
      rcases Table.mem_of_mem_put hf with rfl | hf
      · exact .inr rfl
      · exact .inl hf

/-! ## A set within a stored one -/

/-- GTIDs of two servers. -/
def ofTwoServers : MysqlGTIDSet :=
  (MysqlGTIDSet.empty.addSet serverOne [⟨1, 8⟩]).addSet serverTwo [⟨1, 4⟩]

/-- A key with the GTIDs of the first server is there, and the set of both is stored next to
it. -/
theorem represents_second_set :
    let m := previousAtFive (MysqlGTIDSet.empty.addSet serverOne [⟨1, 8⟩])
    m.Represents 9 ofTwoServers (m.setPreviousGtidSet 9 ofTwoServers) := by
  intro m
  refine (setPreviousGtidSet_represents_iff m 9 ofTwoServers (List.pairwise_singleton _ _)).mpr
    (.inr ⟨fun f hf hagrees => ?_, fun f hf => ?_⟩)
  · rw [List.mem_singleton.mp hf] at hagrees
    exact absurd (MysqlGTIDSet.equal_iff.mpr hagrees) (by decide +kernel)
  · rw [List.mem_singleton.mp hf]
    decide

/-- **The set of the first server alone counts as stored**, but its only key has the GTIDs of
the second too, and a slave with exactly this set is refused. -/
theorem set_within_stored_is_lost :
    ((previousAtFive ofTwoServers).setPreviousGtidSet 9
        (MysqlGTIDSet.empty.addSet serverOne [⟨1, 8⟩])).previousGtids = [(5, ofTwoServers)] ∧
      ¬ ofTwoServers.SameGtids (MysqlGTIDSet.empty.addSet serverOne [⟨1, 8⟩]) ∧
      ((previousAtFive ofTwoServers).setPreviousGtidSet 9
        (MysqlGTIDSet.empty.addSet serverOne [⟨1, 8⟩])).getPreviousGtidSet
          (MysqlGTIDSet.empty.addSet serverOne [⟨1, 8⟩]) =
        .error (.error "storage:gtids not be contained") := by
  refine ⟨by decide +kernel, fun h => ?_, rfl⟩
  have hmem := (h serverTwo 1).mp (by decide +kernel)
  exact absurd hmem (by decide +kernel)

end MetaStore

end Kingbus
