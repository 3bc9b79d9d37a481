import Kingbus.TrxStream

/-! # Where the dump of a slave starts

`GetPreviousGtidSet` starts a slave at the last `PREVIOUS_GTIDS` event whose set the slave
has executed.  That is right as long as such a set holds every transaction that is in the
log before it.  It does for the files of one master; but a session against another
master begins with a file of that master, whose set may be smaller than what the log
already holds. -/

namespace Kingbus

/-! ## Sessions -/

/-- The set of a `PREVIOUS_GTIDS` event. -/
def ParsedEvent.previousGtidSet? (event : ParsedEvent) : Option MysqlGTIDSet :=
  if event.eventType = .previousGtids then (MysqlGTIDSet.decode event.body).toOption else none

/-- A binlog file of a master. -/
structure BinlogFile where
  rotate : ParsedEvent
  fde : ParsedEvent
  previous : ParsedEvent
  previousGtidSet : MysqlGTIDSet
  trxs : List Trx
  rotate_ok : rotate.eventType = .rotate
  fde_ok : fde.eventType = .formatDescription
  previous_ok : previous.previousGtidSet? = some previousGtidSet

/-- The set of the next file holds the transactions of this one as well. -/
def BinlogFile.Follows (f next : BinlogFile) : Prop :=
  ∀ sid n, next.previousGtidSet.Mem sid n ↔
    f.previousGtidSet.Mem sid n ∨ ∃ t ∈ f.trxs, t.gtid.sid = sid ∧ t.gtid.gno = n

/-- What a master sends of a file to one that has executed the given set. -/
def BinlogFile.events (executed : MysqlGTIDSet) (f : BinlogFile) : List ParsedEvent :=
  [f.rotate, f.fde, f.previous] ++
    (f.trxs.filter fun t => ¬ executed.Mem t.gtid.sid t.gtid.gno).flatMap Trx.events

/-- A session of a syncer: consecutive files of one master. -/
structure Session where
  first : BinlogFile
  later : List BinlogFile
  follows : List.IsChain BinlogFile.Follows (first :: later)

/-- The events of a session with a syncer that has executed the given set. -/
def Session.events (executed : MysqlGTIDSet) (session : Session) : List ParsedEvent :=
  (session.first :: session.later).flatMap (BinlogFile.events executed)

/-- A log that sessions have built, and the replica that has applied it.  Each session
starts with a file whose set is executed. -/
inductive SessionLog (flavor : Flavor) (clock : Nat → Bool) (i : Nat) :
    List ParsedEvent → KingbusServer → Prop
  | nil : SessionLog flavor clock i [] (.start .fresh)
  | session {es : List ParsedEvent} {s s' : KingbusServer} (log : SessionLog flavor clock i es s)
      (session : Session)
      (contained : session.first.previousGtidSet.Subset s.binlogProgress.executedGtidSet)
      (applied : s.applyEvents flavor clock (nextIndex i es)
        (session.events s.binlogProgress.executedGtidSet) = .ok s') :
      SessionLog flavor clock i (es ++ session.events s.binlogProgress.executedGtidSet) s'

/-- `BinlogServer.CheckGtidSet`. -/
def KingbusServer.checkGtidSet (s : KingbusServer) (slaveExecutedGtids : MysqlGTIDSet) :
    Except EventFailure Unit :=
  if slaveExecutedGtids.sets.any fun u =>
      match s.binlogProgress.executedGtidSet.sets.lookup u.1 with
      | none => false
      | some masterSet => !HalfOpenInterval.contain masterSet u.2 then
    .error (.error "binlog_server:slave gtidset not contain in master")
  else if slaveExecutedGtids.contain s.store.gtidPurged then .ok ()
  else .error (.error "binlog_server:slave gtidset not contain in master")

/-! ## The keys of `PREVIOUS_GTIDS` events -/

theorem KingbusServer.saveProgress_previousGtids (s : KingbusServer) (i : Nat) (elapsed : Bool)
    (p : TrxProgress) (recorded : Bool) (logPos : Nat) :
    (s.saveProgress i elapsed p recorded logPos).store.previousGtids = s.store.previousGtids := by
  rw [KingbusServer.saveProgress]
  split <;> rfl

namespace ParsedEvent
variable {event : ParsedEvent} {clock : Nat → Bool} {s s' : KingbusServer} {i : Nat}

/-- What an event does to the keys. -/
theorem Applied.previousGtids (h : event.Applied clock i s s') :
    s'.store.previousGtids =
      match event.previousGtidSet? with
      | none => s.store.previousGtids
      | some gset => (s.store.setPreviousGtidSet i gset).previousGtids := by
  have hwrites : ∀ {s₀ s₁ : KingbusServer}, s₀.store.previousGtids = s.store.previousGtids →
      s₀.Writes i event s₁ → s₁.store.previousGtids =
        match event.previousGtidSet? with
        | none => s.store.previousGtids
        | some gset => (s.store.setPreviousGtidSet i gset).previousGtids := by
    intro s₀ s₁ h₀ hw
    have hnone : event.eventType ≠ .previousGtids → event.previousGtidSet? = none :=
      fun hne => if_neg hne
    cases hw with
    | fde ht => rw [hnone (by rw [ht]; decide)]; exact h₀
    | gtid ht _ => rw [hnone (by rw [ht]; decide)]; exact h₀
    | rotate ht _ => rw [hnone (by rw [ht]; decide)]; exact h₀
    | @previousGtids gset ht hset =>
        have hsome : event.previousGtidSet? = some gset := by
          rw [previousGtidSet?, if_pos ht, hset]
          rfl
        rw [hsome]
        simp only [MetaStore.setPreviousGtidSet, h₀]
        split
        · exact h₀
        · rfl
    | nothing hn =>
        rw [hnone]
        · exact h₀
        · intro ht
          rw [ht] at hn
          cases hn
  cases h with
  | one _ hw => exact hwrites (KingbusServer.saveProgress_previousGtids ..) hw
  | @two _ s₁ _ hw _ =>
      rw [← hwrites (KingbusServer.saveProgress_previousGtids ..) hw, withEmptyPart]
      split <;> rfl

end ParsedEvent

/-! ## The invariant -/

/-- Each event with the events before it. -/
def withBefore : List ParsedEvent → List ParsedEvent → List (List ParsedEvent × ParsedEvent)
  | _, [] => []
  | before, e :: es => (before, e) :: withBefore (before ++ [e]) es

theorem withBefore_concat (es : List ParsedEvent) (e : ParsedEvent) : ∀ before,
    withBefore before (es ++ [e]) = withBefore before es ++ [(before ++ es, e)] := by
  induction es with
  | nil => exact fun before => by rw [List.append_nil]; rfl
  | cons x es ih =>
      intro before
      rw [List.cons_append, withBefore, withBefore, ih, List.append_assoc]
      rfl

/-- Every `PREVIOUS_GTIDS` event repeats a set, or its set holds every GTID that is in the
log before it. -/
def PreviousComplete (es : List ParsedEvent) : Prop :=
  ∀ x ∈ withBefore [] es, ∀ gset ∈ x.2.previousGtidSet?,
    (∃ e ∈ x.1, ∃ gset' ∈ e.previousGtidSet?, gset'.equal gset = true) ∨
      ∀ e ∈ x.1, ∀ g ∈ e.gtid?, gset.Mem g.sid g.gno

instance (es : List ParsedEvent) : Decidable (PreviousComplete es) :=
  inferInstanceAs (Decidable (∀ x ∈ withBefore [] es, _))

theorem PreviousComplete.of_concat {es : List ParsedEvent} {e : ParsedEvent}
    (h : PreviousComplete (es ++ [e])) : PreviousComplete es := by
  rw [PreviousComplete, withBefore_concat] at h
  exact fun x hx => h x (List.mem_append_left _ hx)

theorem PreviousComplete.last {es : List ParsedEvent} {e : ParsedEvent}
    (h : PreviousComplete (es ++ [e])) {gset : MysqlGTIDSet} (hset : e.previousGtidSet? = some gset) :
    (∃ e' ∈ es, ∃ gset' ∈ e'.previousGtidSet?, gset'.equal gset = true) ∨
      ∀ e' ∈ es, ∀ g ∈ e'.gtid?, gset.Mem g.sid g.gno := by
  rw [PreviousComplete, withBefore_concat] at h
  exact h (es, e) (List.mem_append_right _ (List.mem_singleton_self _)) gset hset

/-- The keys of a log that has been applied from index `i` on. -/
structure Keyed (i : Nat) (es : List ParsedEvent) (keys : List (Nat × MysqlGTIDSet)) : Prop where
  lt_next : ∀ f ∈ keys, f.1 < nextIndex i es
  complete : ∀ x ∈ indexed i es, ∀ g, x.2.gtid? = some g →
    ∀ f ∈ keys, f.1 < x.1 ∨ f.2.Mem g.sid g.gno
  stored : ∀ x ∈ indexed i es, ∀ gset, x.2.previousGtidSet? = some gset →
    (∃ f ∈ keys, f.2.equal gset = true) ∧ ∃ f, keys.head? = some f ∧ f.1 ≤ x.1

section Keyed
variable {i : Nat} {es : List ParsedEvent} {event : ParsedEvent} {keys : List (Nat × MysqlGTIDSet)}

/-- What one event does to the keys: they stay, or its set, which repeats none, is added at
the end. -/
theorem Keyed.keys_cases {m : MetaStore} (h : Keyed i es m.previousGtids)
    (hkeys : keys = match event.previousGtidSet? with
      | none => m.previousGtids
      | some gset => (m.setPreviousGtidSet (nextIndex i es) gset).previousGtids) :
    keys = m.previousGtids ∧
        (∀ gset, event.previousGtidSet? = some gset →
          ∃ f ∈ m.previousGtids, f.2.equal gset = true) ∨
      ∃ gset, event.previousGtidSet? = some gset ∧
        keys = m.previousGtids ++ [(nextIndex i es, gset)] ∧
        ∀ f ∈ m.previousGtids, f.2.equal gset = false := by
  cases hset : event.previousGtidSet? with
  | none =>
      rw [hset] at hkeys
      exact .inl ⟨hkeys, nofun⟩
  | some gset =>
      rw [hset] at hkeys
      simp only [MetaStore.setPreviousGtidSet] at hkeys
      split at hkeys
      · next hany =>
        refine .inl ⟨hkeys, fun _ hg => ?_⟩
        cases hg
        exact List.any_eq_true.mp hany
      · next hany =>
        refine .inr ⟨gset, rfl, ?_, fun f hf => ?_⟩
        · rw [hkeys]
          exact Table.put_of_lt gset h.lt_next
        · by_contra hne
          exact hany (List.any_eq_true.mpr ⟨f, hf, Bool.not_eq_false _ ▸ hne⟩)

theorem Keyed.lt_next_concat (h : Keyed i es keys) :
    ∀ f ∈ keys, f.1 < nextIndex i (es ++ [event]) := by
  intro f hf
  rw [nextIndex_concat]
  exact Nat.lt_add_right _ (h.lt_next f hf)

theorem mem_indexed_concat {x : Nat × ParsedEvent} (hx : x ∈ indexed i (es ++ [event])) :
    x ∈ indexed i es ∨ x = (nextIndex i es, event) := by
  rw [indexed_append] at hx
  exact (List.mem_append.mp hx).imp id List.mem_singleton.mp

theorem ParsedEvent.gtid?_of_previousGtidSet? {gset : MysqlGTIDSet}
    (hset : event.previousGtidSet? = some gset) : event.gtid? = none := by
  have ht : event.eventType = .previousGtids := by
    by_contra hne
    rw [ParsedEvent.previousGtidSet?, if_neg hne] at hset
    cases hset
  exact event.gtid?_eq_none (by rw [ht]; decide)

/-- An event that adds no key. -/
theorem Keyed.keep (h : Keyed i es keys)
    (hequal : ∀ gset, event.previousGtidSet? = some gset → ∃ f ∈ keys, f.2.equal gset = true) :
    Keyed i (es ++ [event]) keys where
  lt_next := h.lt_next_concat
  complete x hx g hg f hf := by
    rcases mem_indexed_concat hx with hx | rfl
    · exact h.complete x hx g hg f hf
    · exact .inl (h.lt_next f hf)
  stored x hx gset hset := by
    rcases mem_indexed_concat hx with hx | rfl
    · exact h.stored x hx gset hset
    · obtain ⟨f, hf, heq⟩ := hequal gset hset
      refine ⟨⟨f, hf, heq⟩, ?_⟩
      cases keys with
      | nil => cases hf
      | cons f' l => exact ⟨f', rfl, Nat.le_of_lt (h.lt_next f' List.mem_cons_self)⟩

/-- An event whose set holds every GTID of the log. -/
theorem Keyed.add {gset : MysqlGTIDSet} (h : Keyed i es keys)
    (hset : event.previousGtidSet? = some gset)
    (hall : ∀ e ∈ es, ∀ g ∈ e.gtid?, gset.Mem g.sid g.gno) :
    Keyed i (es ++ [event]) (keys ++ [(nextIndex i es, gset)]) where
  lt_next f hf := by
    rcases List.mem_append.mp hf with hf | hf
    · exact h.lt_next_concat f hf
    · rw [List.mem_singleton.mp hf, nextIndex_concat]
      exact Nat.lt_add_of_pos_right event.entryCount_pos
  complete x hx g hg f hf := by
    rcases mem_indexed_concat hx with hx | rfl
    · rcases List.mem_append.mp hf with hf | hf
      · exact h.complete x hx g hg f hf
      · rw [List.mem_singleton.mp hf]
        exact .inr (hall x.2 (mem_indexed.mp ⟨x.1, hx⟩) g hg)
    · rw [ParsedEvent.gtid?_of_previousGtidSet? hset] at hg
      cases hg
  stored x hx gset' hset' := by
    rcases mem_indexed_concat hx with hx | rfl
    · obtain ⟨⟨f, hf, heq⟩, f', hf', hle⟩ := h.stored x hx gset' hset'
      refine ⟨⟨f, List.mem_append_left _ hf, heq⟩, f', ?_, hle⟩
      rw [List.head?_append, hf']
      rfl
    · rw [hset] at hset'
      cases hset'
      refine ⟨⟨_, List.mem_append_right _ (List.mem_singleton_self _),
        MysqlGTIDSet.equal_refl gset⟩, ?_⟩
      cases keys with
      | nil => exact ⟨_, rfl, Nat.le_refl _⟩
      | cons f' l => exact ⟨f', rfl, Nat.le_of_lt (h.lt_next f' List.mem_cons_self)⟩

/-- **One event.** -/
theorem Keyed.step {m : MetaStore} (h : Keyed i es m.previousGtids)
    (hcomplete : PreviousComplete (es ++ [event]))
    (hkeys : keys = match event.previousGtidSet? with
      | none => m.previousGtids
      | some gset => (m.setPreviousGtidSet (nextIndex i es) gset).previousGtids) :
    Keyed i (es ++ [event]) keys := by
  rcases h.keys_cases hkeys with ⟨rfl, hequal⟩ | ⟨gset, hset, rfl, hnew⟩
  · exact h.keep hequal
  · refine h.add hset ?_
    -- the new set repeats none, so it holds what is in the log
    rcases hcomplete.last hset with ⟨e', he', gset', hset', heq⟩ | hall
    · obtain ⟨k, hk⟩ := (mem_indexed (i := i)).mpr he'
      obtain ⟨⟨f', hf', heq'⟩, -⟩ := h.stored (k, e') hk gset' hset'
      have := MysqlGTIDSet.equal_trans heq' heq
      rw [hnew f' hf'] at this
      cases this
    · exact hall

end Keyed

/-- **A whole log.** -/
theorem keyed_of_applyEvents {flavor : Flavor} {clock : Nat → Bool} {i : Nat}
    {es : List ParsedEvent} {s' : KingbusServer}
    (h : (KingbusServer.start .fresh).applyEvents flavor clock i es = .ok s')
    (hcomplete : PreviousComplete es) : Keyed i es s'.store.previousGtids := by
  induction es using List.reverseRecOn generalizing s' with
  | nil =>
      cases h
      exact ⟨List.forall_mem_nil _, List.forall_mem_nil _, List.forall_mem_nil _⟩
  | append_singleton es e ih =>
      obtain ⟨s₁, h₁, hlast⟩ := ParsedEvent.applyEvents_concat.mp h
      exact (ih h₁ hcomplete.of_concat).step hcomplete (ParsedEvent.of_applyTo hlast).2.previousGtids

/-! ## Sessions begin with a `PREVIOUS_GTIDS` event -/

theorem SessionLog.applyEvents {flavor : Flavor} {clock : Nat → Bool} {i : Nat}
    {es : List ParsedEvent} {s : KingbusServer} (h : SessionLog flavor clock i es s) :
    (KingbusServer.start .fresh).applyEvents flavor clock i es = .ok s := by
  induction h with
  | nil => rfl
  | session _ _ _ applied ih => exact ParsedEvent.applyEvents_append.mpr ⟨_, ih, applied⟩

/-- The events of a log of sessions: three events without a GTID first, the third of them
a `PREVIOUS_GTIDS` event. -/
theorem SessionLog.head {flavor : Flavor} {clock : Nat → Bool} {i : Nat}
    {es : List ParsedEvent} {s : KingbusServer} (h : SessionLog flavor clock i es s) :
    es = [] ∨ ∃ (f : BinlogFile) (rest : List ParsedEvent),
      es = f.rotate :: f.fde :: f.previous :: rest := by
  induction h with
  | nil => exact .inl rfl
  | @session es s s' _ session _ _ ih =>
      right
      rcases ih with rfl | ⟨f, rest, rfl⟩
      · exact ⟨session.first, _, rfl⟩
      · exact ⟨f, _, rfl⟩

/-- A GTID event comes behind the first `PREVIOUS_GTIDS` event. -/
theorem SessionLog.previous_lt {flavor : Flavor} {clock : Nat → Bool} {i : Nat}
    {es : List ParsedEvent} {s : KingbusServer} (h : SessionLog flavor clock i es s)
    {x : Nat × ParsedEvent} (hx : x ∈ indexed i es) {g : Gtid} (hg : x.2.gtid? = some g) :
    ∃ y ∈ indexed i es, (∃ gset, y.2.previousGtidSet? = some gset) ∧ y.1 < x.1 := by
  rcases h.head with rfl | ⟨f, rest, rfl⟩
  · cases hx
  · have hnone : ∀ {e : ParsedEvent}, e.eventType ≠ .gtid → e.gtid? ≠ some g := by
      intro e hne heq
      rw [e.gtid?_eq_none hne] at heq
      cases heq
    have hprev : f.previous.eventType ≠ .gtid := by
      have := f.previous_ok
      intro ht
      rw [ParsedEvent.previousGtidSet?, ht, if_neg (by decide)] at this
      cases this
    have hfirst := f.previous.entryCount_pos
    simp only [indexed] at hx ⊢
    rcases List.mem_cons.mp hx with rfl | hx
    · exact absurd hg (hnone (by rw [f.rotate_ok]; decide))
    · rcases List.mem_cons.mp hx with rfl | hx
      · exact absurd hg (hnone (by rw [f.fde_ok]; decide))
      · rcases List.mem_cons.mp hx with rfl | hx
        · exact absurd hg (hnone hprev)
        · refine ⟨_, List.mem_cons_of_mem _ (List.mem_cons_of_mem _ (List.mem_cons_self ..)),
            ⟨_, f.previous_ok⟩, ?_⟩
          have := (lt_nextIndex_of_mem hx).1
          simp only
          omega

/-- **A slave is not started past a transaction it lacks**, in every log of sessions whose
`PREVIOUS_GTIDS` events are complete.  This does not need `CheckGtidSet`. -/
theorem slave_not_started_past (flavor : Flavor) (clock : Nat → Bool) (i : Nat)
    (es : List ParsedEvent) (s : KingbusServer) (log : SessionLog flavor clock i es s)
    (hcomplete : PreviousComplete es) (slave : MysqlGTIDSet) (raftIndex : Nat)
    (hstart : s.store.getPreviousGtidSet slave = .ok raftIndex) :
    ∀ pre t post, es = pre ++ Trx.events t ++ post → ¬ slave.Mem t.gtid.sid t.gtid.gno →
      ∀ k, nextIndex i pre ≤ k → k < nextIndex i (pre ++ t.events) → raftIndex < k := by
  rintro pre t post rfl hlack k hk -
  refine Nat.lt_of_lt_of_le ?_ hk
  have hkeyed := keyed_of_applyEvents log.applyEvents hcomplete
  have hx : (nextIndex i pre, t.gtidEvent) ∈ indexed i (pre ++ t.events ++ post) := by
    rw [List.append_assoc, indexed_append]
    exact List.mem_append_right _ (List.mem_cons_self ..)
  rcases MetaStore.getPreviousGtidSet_cases hstart with ⟨-, f, hf, rfl⟩ | ⟨f, hf, rfl, hcontain⟩
  · -- the first key
    obtain ⟨y, hy, ⟨gset, hset⟩, hlt⟩ := log.previous_lt hx t.gtid_eq
    obtain ⟨-, f', hf', hle⟩ := hkeyed.stored y hy gset hset
    cases hf.symm.trans hf'
    exact Nat.lt_of_le_of_lt hle hlt
  · refine (hkeyed.complete _ hx t.gtid t.gtid_eq f hf).resolve_right fun hmem => ?_
    exact hlack (MysqlGTIDSet.subset_of_contain hcontain _ _ hmem)

/-! ## A session against a promoted master -/

/-- The content of a `PREVIOUS_GTIDS` event with the numbers from 1 to `n` of an
identifier. -/
def previousContent (sid : Sid) (n : Nat) : Bytes :=
  Bytes.leBytes 8 1 ++ sid.bytes ++ Bytes.leBytes 8 1 ++ Bytes.leBytes 8 1 ++ Bytes.leBytes 8 (n + 1)

/-- The set with the first transaction of an identifier. -/
def firstOfA : MysqlGTIDSet := MysqlGTIDSet.empty.addSet sidA [⟨1, 2⟩]

/-- The `PREVIOUS_GTIDS` event with that set. -/
def previousOne : ParsedEvent :=
  .of .previousGtids (previousContent sidA 1) (by decide) ofByte_previousGtids

/-- What follows the GTID of a small transaction. -/
def smallBody : TrxBody :=
  .dml beginEvent [] xidEvent opens_beginEvent (List.forall_mem_nil _) (by decide +kernel)

/-- The first transaction. -/
def trxOne : Trx := { committedTrx with body := smallBody }

/-- The second transaction. -/
def trxTwo : Trx where
  gtidEvent := gtidTwo
  gtid := ⟨sidA, 2, by decide, by decide⟩
  body := smallBody
  gtid_eq := by decide +kernel
  gno_pos := by decide
  gno_max := by decide

/-- The first file of a master, with both transactions. -/
def fileOfMaster : BinlogFile where
  rotate := rotateEvent
  fde := fdeEvent
  previous := previousEmpty
  previousGtidSet := .empty
  trxs := [trxOne, trxTwo]
  rotate_ok := rfl
  fde_ok := rfl
  previous_ok := by decide +kernel

/-- A file of a replica that is promoted: it begins between the two transactions. -/
def fileOfReplica : BinlogFile where
  rotate := .of .rotate (Bytes.zeros 8 ++ ascii "binlog.000002") (by decide) ofByte_rotate
  fde := fdeEvent
  previous := previousOne
  previousGtidSet := firstOfA
  trxs := [trxTwo]
  rotate_ok := rfl
  fde_ok := rfl
  previous_ok := by decide +kernel

/-- A replica that has applied the given events. -/
def afterEvents (s : KingbusServer) (i : Nat) (es : List ParsedEvent) : KingbusServer :=
  (s.applyEvents .mySQL (fun _ => false) i es).toOption.getD s

theorem applyEvents_eq_afterEvents {s : KingbusServer} {i : Nat} {es : List ParsedEvent}
    (h : (s.applyEvents .mySQL (fun _ => false) i es).isOk = true) :
    s.applyEvents .mySQL (fun _ => false) i es = .ok (afterEvents s i es) := by
  obtain ⟨s', hs'⟩ := exists_of_isOk h
  rw [afterEvents, hs']
  rfl

/-- A session against the master. -/
def masterSession : Session := ⟨fileOfMaster, [], List.IsChain.singleton _⟩

/-- A session against the replica. -/
def replicaSession : Session := ⟨fileOfReplica, [], List.IsChain.singleton _⟩

/-- The replica of kingbus behind the first session. -/
def afterMaster : KingbusServer :=
  afterEvents (.start .fresh) 1 (masterSession.events .empty)

/-- The log of both sessions. -/
def promotedLog : List ParsedEvent :=
  [] ++ masterSession.events .empty ++ replicaSession.events afterMaster.binlogProgress.executedGtidSet

/-- The replica of kingbus behind both sessions. -/
def afterReplica : KingbusServer :=
  afterEvents afterMaster (nextIndex 1 ([] ++ masterSession.events .empty))
    (replicaSession.events afterMaster.binlogProgress.executedGtidSet)

theorem sessionLog_promotedLog :
    SessionLog .mySQL (fun _ => false) 1 promotedLog afterReplica :=
  .session
    (.session .nil masterSession (fun sid n h => absurd h (MysqlGTIDSet.not_mem_empty sid n))
      (applyEvents_eq_afterEvents (by decide +kernel)))
    replicaSession (MysqlGTIDSet.subset_of_contain (by decide +kernel))
    (applyEvents_eq_afterEvents (by decide +kernel))

theorem slave_not_started_past_master :
    ∃ es s, SessionLog .mySQL (fun _ => false) 1 es s ∧ PreviousComplete es ∧
      ∃ raftIndex, s.store.getPreviousGtidSet firstOfA = .ok raftIndex ∧
        ∀ pre t post, es = pre ++ Trx.events t ++ post → ¬ firstOfA.Mem t.gtid.sid t.gtid.gno →
          ∀ k, nextIndex 1 pre ≤ k → k < nextIndex 1 (pre ++ t.events) → raftIndex < k := by
  have log : SessionLog .mySQL (fun _ => false) 1 ([] ++ masterSession.events .empty) afterMaster :=
    .session .nil masterSession (fun sid n h => absurd h (MysqlGTIDSet.not_mem_empty sid n))
      (applyEvents_eq_afterEvents (by decide +kernel))
  have hcomplete : PreviousComplete ([] ++ masterSession.events .empty) := by decide +kernel
  obtain ⟨raftIndex, hstart⟩ := exists_of_isOk
    (x := afterMaster.store.getPreviousGtidSet firstOfA) (by decide +kernel)
  exact ⟨_, _, log, hcomplete, raftIndex, hstart,
    slave_not_started_past _ _ _ _ _ log hcomplete firstOfA raftIndex hstart⟩

/-- **A slave with the first transaction is started past the second one**, once a session
against the replica has stored the set of its file. -/
theorem promoted_master_loses_trx :
    SessionLog .mySQL (fun _ => false) 1 promotedLog afterReplica ∧
      afterReplica.checkGtidSet firstOfA = .ok () ∧
      ∃ raftIndex, afterReplica.store.getPreviousGtidSet firstOfA = .ok raftIndex ∧
        ∃ pre post, promotedLog = pre ++ trxTwo.events ++ post ∧
          ¬ firstOfA.Mem trxTwo.gtid.sid trxTwo.gtid.gno ∧ nextIndex 1 pre < raftIndex := by
  have hcheck : (afterReplica.checkGtidSet firstOfA).isOk = true := by decide +kernel
  obtain ⟨⟨⟩, hcheck⟩ := exists_of_isOk hcheck
  obtain ⟨raftIndex, hstart, hlt⟩ := exists_of_eval
    (x := afterReplica.store.getPreviousGtidSet firstOfA)
    (P := fun raftIndex => nextIndex 1 (fileOfMaster.rotate :: fileOfMaster.fde ::
      fileOfMaster.previous :: trxOne.events) < raftIndex) (by decide +kernel)
  exact ⟨sessionLog_promotedLog, hcheck, raftIndex, hstart, _, [fileOfReplica.rotate,
    fileOfReplica.fde, fileOfReplica.previous], rfl, by decide +kernel, hlt⟩

end Kingbus
