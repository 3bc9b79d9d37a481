import Kingbus.EventRelay
import Kingbus.TrxBoundary
import Kingbus.PreviousGtidKeys

/-! # The events that a dump leaves out

`DumpBinlogAt` looks at one raft entry after the other and carries a flag, `inExcludeGroup`: a
`GTID_EVENT` sets it to whether the slave has the GTID, a `ROTATE_EVENT` clears it, and every
other event is sent or left out as the flag says.  `Missing` states the same without a flag:
what decides about an event is the nearest GTID or ROTATE event at or before it. -/

namespace Kingbus

/-- `raftpb.EntryNormal`. -/
def entryNormal : Nat := 0

/-- The bytes a possibly nil slice holds. -/
def Entry.bytes (e : Entry) : Bytes := e.data.getD []

/-- `utils.IsBinlogEvent`. -/
def Entry.isBinlogEvent (e : Entry) : Bool :=
  decide (e.type = entryNormal ∧ e.bytes.head? = some BinlogEvent.mySQLBinlogEventType)

/-- The binlog event in a raft entry, if it is one. -/
def Entry.event? (e : Entry) : Option BinlogEvent :=
  if e.isBinlogEvent then (BinlogEvent.decode e.bytes).toOption else none

/-- The GTID of a `GTID_EVENT`. -/
def BinlogEvent.gtid (e : BinlogEvent) : Except EventFailure Gtid :=
  (eventBody e.bytes).bind decodeGtid

/-- `BinlogServer.skipEvent`. -/
def skipEvent (event : BinlogEvent) (slaveGtids : MysqlGTIDSet) (inExcludeGroup : Bool) :
    Except EventFailure Bool :=
  match event.eventType with
  | .gtid =>
      event.gtid.map fun g =>
        match MysqlGTIDSet.empty.update g with
        | .error _ => true
        | .ok currentGtidset => slaveGtids.contain currentGtidset
  | .rotate => .ok false
  | _ => .ok inExcludeGroup

/-- What the loop of `DumpBinlogAt` does with an entry: the new `inExcludeGroup`, and the event
to send. -/
def filterEntry (slaveGtids : MysqlGTIDSet) (inExcludeGroup : Bool) (raftEntry : Entry) :
    Except EventFailure (Bool × Option BinlogEvent) :=
  if raftEntry.isBinlogEvent = false then .ok (inExcludeGroup, none)
  else
    (BinlogEvent.decode raftEntry.bytes).bind fun event =>
      (skipEvent event slaveGtids inExcludeGroup).map fun skip =>
        (skip, if skip then none else some event)

/-! ## GTIDs that a slave has -/

/-- The set with one GTID. -/
def Gtid.single (g : Gtid) : MysqlGTIDSet :=
  MysqlGTIDSet.empty.addSet g.sid [⟨g.gno, g.gno + 1⟩]

/-- `Contain` of one GTID. -/
def MysqlGTIDSet.Contains (s : MysqlGTIDSet) (g : Gtid) : Prop := s.contain g.single = true

instance (s : MysqlGTIDSet) (g : Gtid) : Decidable (s.Contains g) :=
  inferInstanceAs (Decidable (_ = _))

theorem Gtid.mem_single {g : Gtid} {sid : Sid} {n : Int} :
    g.single.Mem sid n ↔ sid = g.sid ∧ n = g.gno := by
  rw [single, MysqlGTIDSet.mem_addSet, HalfOpenInterval.memList_cons]
  simp only [MysqlGTIDSet.not_mem_empty, HalfOpenInterval.memList_nil, HalfOpenInterval.Mem,
    false_or, or_false]
  refine and_congr_right fun _ => ?_
  omega

theorem Gtid.normal_single (g : Gtid) : g.single.Normal := by
  intro u hu
  obtain rfl : u = (g.sid, [⟨g.gno, g.gno + 1⟩]) := List.mem_singleton.mp hu
  refine ⟨by simp, fun i hi => ?_, List.pairwise_singleton _ _⟩
  rw [List.mem_singleton.mp hi]
  exact Int.lt_succ g.gno

/-- For a set in normal form the test is membership. -/
theorem MysqlGTIDSet.contains_iff_mem {s : MysqlGTIDSet} (hs : s.Normal) {g : Gtid} :
    s.Contains g ↔ s.Mem g.sid g.gno := by
  constructor
  · exact fun h => subset_of_contain h g.sid g.gno (Gtid.mem_single.mpr ⟨rfl, rfl⟩)
  · intro h
    refine contain_of_subset hs g.normal_single fun sid n hn => ?_
    obtain ⟨rfl, rfl⟩ := Gtid.mem_single.mp hn
    exact h

/-- A `GTID_EVENT` that is whole and whose GTID is read back from its text. -/
structure BinlogEvent.DecodableGtid (e : BinlogEvent) : Prop where
  undivided : e.dividedCount = 0
  gtid : ∃ g, e.gtid = .ok g ∧ 0 ≤ g.gno ∧ g.gno < 2 ^ 63 - 1

theorem MysqlGTIDSet.update_empty {g : Gtid} (h0 : 0 ≤ g.gno) (h : g.gno < 2 ^ 63 - 1) :
    MysqlGTIDSet.empty.update g = .ok g.single := by
  rw [update_eq_ok ⟨by omega, h⟩, gnoInterval, if_neg (Int.not_lt.mpr h0)]
  rfl

/-! ## The groups -/

namespace BinlogEvent

/-- The events that begin a group. -/
def Marks (e : BinlogEvent) : Prop := e.eventType = .gtid ∨ e.eventType = .rotate

/-- A group that is sent: a `ROTATE_EVENT`, or a GTID that the slave does not have. -/
def OpensMissing (e : BinlogEvent) (slaveGtids : MysqlGTIDSet) : Prop :=
  e.eventType = .rotate ∨
    e.eventType = .gtid ∧ ∃ g, e.gtid = .ok g ∧ ¬ slaveGtids.Contains g

end BinlogEvent

/-- Entry `j` holds the nearest GTID or ROTATE event before index `n`, from `start` on. -/
structure NearestMark (log : Nat → Entry) (start n j : Nat) (e : BinlogEvent) : Prop where
  start_le : start ≤ j
  lt : j < n
  event : (log j).event? = some e
  marks : e.Marks
  last : ∀ k, j < k → k < n → ∀ e', (log k).event? = some e' → ¬ e'.Marks

/-- The nearest GTID or ROTATE event at or before index `i`, from `start` on, is absent, or is
one whose group the slave is sent. -/
def Missing (log : Nat → Entry) (slaveGtids : MysqlGTIDSet) (start i : Nat) : Prop :=
  ∀ j e, NearestMark log start (i + 1) j e → e.OpensMissing slaveGtids

section
variable {log : Nat → Entry} {slave : MysqlGTIDSet} {start m n i j : Nat} {e e' : BinlogEvent}

/-- Entries without such an event do not change which one is the nearest. -/
theorem nearestMark_congr (hmn : m ≤ n)
    (h : ∀ k, m ≤ k → k < n → ∀ e', (log k).event? = some e' → ¬ e'.Marks) :
    NearestMark log start n j e ↔ NearestMark log start m j e := by
  constructor
  · intro hnear
    refine { hnear with
      lt := ?_
      last := fun k hk hkm => hnear.last k hk (Nat.lt_of_lt_of_le hkm hmn) }
    by_contra hle
    exact h j (Nat.not_lt.mp hle) hnear.lt e hnear.event hnear.marks
  · intro hnear
    refine { hnear with
      lt := Nat.lt_of_lt_of_le hnear.lt hmn
      last := fun k hk hkn => ?_ }
    by_cases hkm : k < m
    · exact hnear.last k hk hkm
    · exact h k (Nat.not_lt.mp hkm) hkn

/-- An event that begins a group is the nearest one right behind it. -/
theorem nearestMark_succ (hs : start ≤ n) (hn : (log n).event? = some e) (he : e.Marks) :
    NearestMark log start (n + 1) j e' ↔ j = n ∧ e' = e := by
  constructor
  · intro hnear
    have hj : j = n := by
      by_contra hne
      have := hnear.lt
      exact hnear.last n (by omega) (Nat.lt_succ_self n) e hn he
    subst hj
    have heq := hnear.event
    rw [hn, Option.some_inj] at heq
    exact ⟨rfl, heq.symm⟩
  · rintro ⟨rfl, rfl⟩
    exact ⟨hs, Nat.lt_succ_self _, hn, he, fun k hk hkn => absurd hkn (by omega)⟩

theorem missing_of_mark (hs : start ≤ i) (hi : (log i).event? = some e) (he : e.Marks) :
    Missing log slave start i ↔ e.OpensMissing slave := by
  simp only [Missing, nearestMark_succ hs hi he]
  constructor
  · exact fun h => h i e ⟨rfl, rfl⟩
  · rintro h j e' ⟨-, rfl⟩
    exact h

theorem missing_congr (hle : i ≤ j)
    (h : ∀ k, i < k → k ≤ j → ∀ e', (log k).event? = some e' → ¬ e'.Marks) :
    Missing log slave start j ↔ Missing log slave start i := by
  simp only [Missing]
  refine forall₂_congr fun k e => ?_
  rw [nearestMark_congr (Nat.succ_le_succ hle) fun k hk hkj => h k hk (Nat.lt_succ_iff.mp hkj)]

/-! ## The flag -/

/-- The flag before index `n` says whether the slave has the group. -/
def FlagAt (log : Nat → Entry) (slaveGtids : MysqlGTIDSet) (start n : Nat) (flag : Bool) : Prop :=
  flag = false ↔ ∀ j e, NearestMark log start n j e → e.OpensMissing slaveGtids

theorem flagAt_start : FlagAt log slave start start false := by
  refine iff_of_true rfl fun j e h => ?_
  have := h.start_le
  have := h.lt
  omega

/-- What `skipEvent` returns for an event that begins a group. -/
theorem skipEvent_mark {flag flag' : Bool} (he : e.Marks)
    (hdec : e.eventType = .gtid → e.DecodableGtid) (h : skipEvent e slave flag = .ok flag') :
    flag' = false ↔ e.OpensMissing slave := by
  rcases he with he | he
  · obtain ⟨g, hg, h0, hmax⟩ := (hdec he).gtid
    simp only [skipEvent, he, hg, Except.map, MysqlGTIDSet.update_empty h0 hmax, Except.ok.injEq]
      at h
    subst h
    simp only [BinlogEvent.OpensMissing, he, hg, reduceCtorEq, false_or, true_and,
      Except.ok.injEq, exists_eq_left', MysqlGTIDSet.Contains, Bool.not_eq_true]
  · simp only [skipEvent, he, Except.ok.injEq] at h
    exact iff_of_true h.symm (.inl he)

theorem skipEvent_other {flag flag' : Bool} (he : ¬ e.Marks)
    (h : skipEvent e slave flag = .ok flag') : flag' = flag := by
  rw [BinlogEvent.Marks, not_or] at he
  unfold skipEvent at h
  split at h
  · next hgtid => exact absurd hgtid he.1
  · next hrotate => exact absurd hrotate he.2
  · exact (Except.ok.inj h).symm

/-- **One event carries the flag on.** -/
theorem FlagAt.skipEvent {flag flag' : Bool} (h : FlagAt log slave start n flag)
    (hs : start ≤ n) (hn : (log n).event? = some e)
    (hdec : e.eventType = .gtid → e.DecodableGtid)
    (hskip : Kingbus.skipEvent e slave flag = .ok flag') :
    FlagAt log slave start (n + 1) flag' := by
  by_cases he : e.Marks
  · exact (skipEvent_mark he hdec hskip).trans (missing_of_mark hs hn he).symm
  · rw [skipEvent_other he hskip]
    refine h.trans (forall₂_congr fun j e' => ?_)
    rw [nearestMark_congr (Nat.le_succ n) fun k hk hkn e'' he'' => ?_]
    obtain rfl : k = n := by omega
    rw [hn, Option.some_inj] at he''
    exact he'' ▸ he

theorem FlagAt.other {flag : Bool} (h : FlagAt log slave start n flag)
    (hn : (log n).event? = none) : FlagAt log slave start (n + 1) flag := by
  refine h.trans (forall₂_congr fun j e => ?_)
  rw [nearestMark_congr (Nat.le_succ n) fun k hk hkn e' he' => ?_]
  obtain rfl : k = n := by omega
  rw [hn] at he'
  cases he'

/-- What the loop does with an entry. -/
theorem filterEntry_cases {flag flag' : Bool} {entry : Entry} {out : Option BinlogEvent}
    (h : filterEntry slave flag entry = .ok (flag', out)) :
    (entry.isBinlogEvent = false ∧ flag' = flag ∧ out = none) ∨
      ∃ e, entry.isBinlogEvent = true ∧ entry.event? = some e ∧
        Kingbus.skipEvent e slave flag = .ok flag' ∧ out = if flag' then none else some e := by
  rw [filterEntry] at h
  by_cases hb : entry.isBinlogEvent = false
  · rw [if_pos hb] at h
    cases h
    exact .inl ⟨hb, rfl, rfl⟩
  rw [if_neg hb] at h
  have hb := eq_true_of_ne_false hb
  cases hd : BinlogEvent.decode entry.bytes with
  | error f =>
      rw [hd] at h
      cases h
  | ok e =>
      rw [hd] at h
      change (Kingbus.skipEvent e slave flag).map _ = _ at h
      cases hs : Kingbus.skipEvent e slave flag with
      | error f =>
          rw [hs] at h
          cases h
      | ok skip =>
          rw [hs] at h
          cases h
          refine .inr ⟨e, hb, ?_, hs, rfl⟩
          rw [Entry.event?, if_pos hb, hd]
          rfl

end

/-! ## Divided events -/

namespace MasterEvent
variable {event : MasterEvent} {parts : List BinlogEvent} {e : BinlogEvent}

theorem of_mem_divideLoop {n i pos : Nat} (h : event.divideLoop n i pos = .ok parts)
    (he : e ∈ parts) : ∃ j d, e = event.part event.dividedCount j d := by
  induction n generalizing i pos parts with
  | zero =>
      cases h
      cases he
  | succ n ih =>
      rw [divideLoop] at h
      cases hd : partData event.rawData pos (if i = 0 then maxPayloadLen - 1 else maxPayloadLen) with
      | error f =>
          simp only [hd] at h
          cases h
      | ok d =>
          simp only [hd] at h
          change (event.divideLoop n (i + 1) _).map _ = _ at h
          cases hrest : event.divideLoop n (i + 1)
              (pos + if i = 0 then maxPayloadLen - 1 else maxPayloadLen) with
          | error f =>
              rw [hrest] at h
              cases h
          | ok rest =>
              rw [hrest] at h
              cases h
              rcases List.mem_cons.mp he with rfl | he
              · exact ⟨i, d, rfl⟩
              · exact ih hrest he

/-- All parts have the type of the event, and say that they are parts. -/
theorem of_mem_parts (h : event.divideBinlogEvent = .ok parts) (he : e ∈ parts) :
    e.type = event.header.eventType.toByte.toNat ∧ e.dividedCount ≠ 0 := by
  obtain ⟨j, d, rfl⟩ := of_mem_divideLoop h he
  refine ⟨rfl, ?_⟩
  change event.dividedCount % 2 ^ 32 ≠ 0
  rw [Nat.mod_eq_of_lt event.dividedCount_lt]
  intro h0
  rw [divideBinlogEvent, h0] at h
  cases h
  cases he

end MasterEvent

/-- **All parts of a divided event are sent or all are left out**: the entries `i` to `j` have
no binlog events but parts of it. -/
theorem missing_iff_of_parts {log : Nat → Entry} {slave : MysqlGTIDSet} {start i j : Nat}
    (hdec : ∀ k, start ≤ k → ∀ e, (log k).event? = some e → e.eventType = .gtid →
      e.DecodableGtid)
    {event : MasterEvent} {parts : List BinlogEvent} (hdiv : event.divideBinlogEvent = .ok parts)
    (hs : start ≤ i) (hij : i ≤ j)
    (hparts : ∀ k, i ≤ k → k ≤ j → ∀ e, (log k).event? = some e → e ∈ parts)
    (hi : ∃ e, (log i).event? = some e) (hj : ∃ e, (log j).event? = some e) :
    Missing log slave start i ↔ Missing log slave start j := by
  obtain ⟨e, he⟩ := hi
  obtain ⟨e', he'⟩ := hj
  have hsame : ∀ k, i ≤ k → k ≤ j → ∀ e₁, (log k).event? = some e₁ →
      e₁.eventType = e.eventType := by
    intro k hk hkj e₁ he₁
    rw [BinlogEvent.eventType, BinlogEvent.eventType,
      (MasterEvent.of_mem_parts hdiv (hparts k hk hkj e₁ he₁)).1,
      (MasterEvent.of_mem_parts hdiv (hparts i (Nat.le_refl i) hij e he)).1]
  have hgtid : e.eventType ≠ .gtid := fun hg =>
    (MasterEvent.of_mem_parts hdiv (hparts i (Nat.le_refl i) hij e he)).2
      (hdec i hs e he hg).undivided
  by_cases hrot : e.eventType = .rotate
  · have hrot' : e'.eventType = .rotate := (hsame j hij (Nat.le_refl j) e' he').trans hrot
    rw [missing_of_mark hs he (.inr hrot), missing_of_mark (hs.trans hij) he' (.inr hrot')]
    exact iff_of_true (.inl hrot) (.inl hrot')
  · refine (missing_congr hij fun k hk hkj e₁ he₁ hmarks => ?_).symm
    rw [BinlogEvent.Marks, hsame k (Nat.le_of_lt hk) hkj e₁ he₁] at hmarks
    exact hmarks.elim hgtid hrot

end Kingbus
