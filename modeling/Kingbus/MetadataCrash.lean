import Kingbus.CrashReplay

/-! # Metadata and crashes

`applyMySQLBinlogEvent` calls `updateProcess`, which may persist the index of the entry,
before `applyBinlogEvent` writes the key of a `FORMAT_DESCRIPTION`, `ROTATE` or
`PREVIOUS_GTIDS` event.  A replica that crashes between the two never applies the entry
again.  The index is persisted where a GTID is recorded; at a metadata event that happens
only when a cut-off transaction has left a GTID behind.

The key of a `PREVIOUS_GTIDS` event is not written when a stored set is `Equal`, and
`Equal` only looks at the identifiers of its argument.

The invariant of `MetaRuns` is that the entries up to the furthest index have their keys
(`KeptUpTo`) and that the persisted index is not beyond it. -/

namespace Kingbus

/-- An event with a key in the metadata. -/
def BinlogEvent.IsMetadata (e : BinlogEvent) : Prop :=
  e.eventType = .formatDescription ∨ e.eventType = .rotate ∨ e.eventType = .previousGtids

/-- The set of a `PREVIOUS_GTIDS` event. -/
def BinlogEvent.previousSet (e : BinlogEvent) : Except EventFailure MysqlGTIDSet :=
  (eventBody e.bytes).bind MysqlGTIDSet.decode

/-- The runs of a replica that may crash at any point, also between the two halves of an
entry, and that applies the following entries again.  `P` is a condition on the state
before each storage event. -/
inductive MetaRuns (P : KingbusServer → BinlogEvent → Prop) (log : List LogEntry) :
    Nat → KingbusServer → Prop
  | start : MetaRuns P log 0 (.start .fresh)
  | apply {n : Nat} {s s' : KingbusServer} {entry : LogEntry} (elapsed : Bool)
      (h : MetaRuns P log n s) (hentry : log[n]? = some entry)
      (hP : ∀ e, entry = .binlog e → P s e)
      (hs : s.applyEntry elapsed (n + 1) entry = .ok s') : MetaRuns P log (n + 1) s'
  | crash {n : Nat} {s : KingbusServer} (h : MetaRuns P log n s) :
      MetaRuns P log s.store.appliedIndex (.start s.store)
  | crashInside {n : Nat} {s s' : KingbusServer} {e : BinlogEvent} (elapsed : Bool)
      (h : MetaRuns P log n s) (hentry : log[n]? = some (.binlog e)) (hP : P s e)
      (hs : s.updateStored elapsed (n + 1) e = .ok s') :
      MetaRuns P log s'.store.appliedIndex (.start s'.store)

/-- No GTID is left to record at a metadata event, and a stored set that is `Equal` to the
one of a `PREVIOUS_GTIDS` event has no identifiers besides. -/
def KingbusServer.Guarded (s : KingbusServer) (e : BinlogEvent) : Prop :=
  (e.IsMetadata → s.binlogProgress.trxBoundaryParser = .none → ¬ s.binlogProgress.Unrecorded) ∧
  (e.eventType = .previousGtids → ∀ gset, e.previousSet = .ok gset →
    ∀ f ∈ s.store.previousGtids, f.2.equal gset = true → gset.equal f.2 = true)

instance (e : BinlogEvent) : Decidable e.IsMetadata := inferInstanceAs (Decidable (_ ∨ _ ∨ _))

theorem forall_mem_toOption {x : Except EventFailure MysqlGTIDSet} {P : MysqlGTIDSet → Prop} :
    (∀ gset ∈ x.toOption, P gset) ↔ ∀ gset, x = .ok gset → P gset := by
  cases x with
  | error err => exact iff_of_true (fun _ h => absurd h nofun) fun _ h => absurd h nofun
  | ok gset =>
      exact ⟨fun h g hg => h g (congrArg Except.toOption hg), fun h g hg =>
        h g (congrArg Except.ok (Option.some.inj hg))⟩

instance (s : KingbusServer) (e : BinlogEvent) : Decidable (s.Guarded e) :=
  have : Decidable (∀ gset, e.previousSet = .ok gset →
      ∀ f ∈ s.store.previousGtids, f.2.equal gset = true → gset.equal f.2 = true) :=
    decidable_of_iff _ forall_mem_toOption
  inferInstanceAs (Decidable (_ ∧ _))

/-! ## The keys of an entry -/

/-- The metadata has what the entry is to leave in it. -/
structure Kept (store : MetaStore) (i : Nat) (e : BinlogEvent) : Prop where
  fde : e.eventType = .formatDescription → (i, e.bytes) ∈ store.fde
  rotate : e.eventType = .rotate → ∃ name,
    (eventBody e.bytes).bind decodeRotate = .ok name ∧ (i, name) ∈ store.nextBinlog
  previous : e.eventType = .previousGtids → ∃ gset, e.previousSet = .ok gset ∧
    ∃ f ∈ store.previousGtids, f.1 ≤ i ∧ f.2.equal gset = true ∧ gset.equal f.2 = true

/-- The entries up to an index have their keys. -/
structure KeptUpTo (log : List LogEntry) (top : Nat) (store : MetaStore) : Prop where
  kept : ∀ k e, k < top → log[k]? = some (.binlog e) → Kept store (k + 1) e
  keys_le : ∀ f ∈ store.previousGtids, f.1 ≤ top

section
variable {log : List LogEntry} {n top i : Nat} {s s' : KingbusServer} {e : BinlogEvent}
  {entry : LogEntry} {store store' : MetaStore} {elapsed : Bool}

theorem Kept.of_not_metadata (h : ¬ e.IsMetadata) : Kept store i e :=
  ⟨fun ht => absurd (.inl ht) h, fun ht => absurd (.inr (.inl ht)) h,
    fun ht => absurd (.inr (.inr ht)) h⟩

/-- Only the keys matter. -/
theorem KeptUpTo.congr (h : KeptUpTo log top store) (hfde : store'.fde = store.fde)
    (hnext : store'.nextBinlog = store.nextBinlog)
    (hprevious : store'.previousGtids = store.previousGtids) : KeptUpTo log top store' where
  kept k e hk he :=
    let hkept := h.kept k e hk he
    ⟨fun ht => hfde ▸ hkept.fde ht, fun ht => hnext ▸ hkept.rotate ht,
      fun ht => hprevious ▸ hkept.previous ht⟩
  keys_le := hprevious ▸ h.keys_le

/-- One entry more, when its own keys are there and those of the others stay. -/
theorem KeptUpTo.step (h : KeptUpTo log top store) (hn : n ≤ top)
    (hentry : log[n]? = some (.binlog e)) (hself : Kept store' (n + 1) e)
    (hframe : ∀ k e, k ≠ n → k < top → Kept store (k + 1) e → Kept store' (k + 1) e)
    (hkeys : ∀ f ∈ store'.previousGtids, f.1 ≤ max top (n + 1)) :
    KeptUpTo log (max top (n + 1)) store' where
  kept k e' hk he' := by
    by_cases hkn : k = n
    · subst hkn
      cases hentry.symm.trans he'
      exact hself
    · have hlt : k < top := by omega
      exact hframe k e' hkn hlt (h.kept k e' hlt he')
  keys_le := hkeys

theorem KeptUpTo.keys_le_max (h : KeptUpTo log top store) :
    ∀ f ∈ store.previousGtids, f.1 ≤ max top (n + 1) :=
  fun f hf => Nat.le_trans (h.keys_le f hf) (Nat.le_max_left _ _)

/-- An entry without a key. -/
theorem KeptUpTo.extend (h : KeptUpTo log top store) (hn : n ≤ top)
    (hentry : log[n]? = some entry) (hnot : ∀ e, entry = .binlog e → ¬ e.IsMetadata) :
    KeptUpTo log (max top (n + 1)) store where
  kept k e' hk he' := by
    by_cases hkn : k = n
    · subst hkn
      exact .of_not_metadata (hnot e' (Option.some.inj (hentry.symm.trans he')))
    · exact h.kept k e' (by omega) he'
  keys_le := h.keys_le_max

/-- A `PREVIOUS_GTIDS` event: its set is stored, or a stored one stands for it. -/
theorem KeptUpTo.setPrevious {gset : MysqlGTIDSet} (h : KeptUpTo log top store) (hn : n ≤ top)
    (hentry : log[n]? = some (.binlog e)) (ht : e.eventType = .previousGtids)
    (hset : e.previousSet = .ok gset)
    (hsame : ∀ f ∈ store.previousGtids, f.2.equal gset = true → gset.equal f.2 = true) :
    KeptUpTo log (max top (n + 1)) (store.setPreviousGtidSet (n + 1) gset) := by
  have hfde : e.eventType ≠ .formatDescription := by rw [ht]; decide
  have hrotate : e.eventType ≠ .rotate := by rw [ht]; decide
  -- on a replay some set stands for the entry already
  have hagain : n < top → ∃ f ∈ store.previousGtids,
      f.1 ≤ n + 1 ∧ f.2.equal gset = true ∧ gset.equal f.2 = true := by
    intro hlt
    obtain ⟨gset', hset', hf⟩ := (h.kept n e hlt hentry).previous ht
    cases hset.symm.trans hset'
    exact hf
  rw [MetaStore.setPreviousGtidSet]
  split
  · next hany =>
    obtain ⟨f, hf, hequal⟩ := List.any_eq_true.mp hany
    refine h.step hn hentry ⟨fun ht' => absurd ht' hfde, fun ht' => absurd ht' hrotate,
      fun _ => ⟨gset, hset, ?_⟩⟩ (fun _ _ _ _ => id) h.keys_le_max
    rcases Nat.lt_or_ge n top with hlt | hge
    · exact hagain hlt
    · exact ⟨f, hf, Nat.le_succ_of_le (Nat.le_trans (h.keys_le f hf) hge), hequal,
        hsame f hf hequal⟩
  · next hany =>
    have hnew : top ≤ n := by
      by_contra hlt
      obtain ⟨f, hf, -, hequal, -⟩ := hagain (Nat.lt_of_not_le hlt)
      exact hany (List.any_eq_true.mpr ⟨f, hf, hequal⟩)
    refine h.step hn hentry ⟨fun ht' => absurd ht' hfde, fun ht' => absurd ht' hrotate,
      fun _ => ⟨gset, hset, (n + 1, gset), Table.mem_put_self .., Nat.le_refl _,
        gset.equal_refl, gset.equal_refl⟩⟩ (fun k e' _ _ hkept => ?_) fun f hf => ?_
    · refine ⟨hkept.fde, hkept.rotate, fun ht' => ?_⟩
      obtain ⟨gset', hset', f, hf, hle, hequal⟩ := hkept.previous ht'
      have hne : f.1 ≠ n + 1 := by
        have := h.keys_le f hf
        omega
      exact ⟨gset', hset', f, Table.mem_put_of_mem hne hf, hle, hequal⟩
    · rcases Table.mem_of_mem_put hf with rfl | hf
      · exact Nat.le_max_right _ _
      · exact h.keys_le_max f hf

/-- **The second half of an entry** writes its key. -/
theorem KeptUpTo.stores (h : KeptUpTo log top s.store) (hn : n ≤ top)
    (hentry : log[n]? = some (.binlog e))
    (hsame : e.eventType = .previousGtids → ∀ gset, e.previousSet = .ok gset →
      ∀ f ∈ s.store.previousGtids, f.2.equal gset = true → gset.equal f.2 = true)
    (hw : s.Stores e (n + 1) s') : KeptUpTo log (max top (n + 1)) s'.store := by
  cases hw with
  | fde ht =>
      have hrotate : e.eventType ≠ .rotate := by rw [ht]; decide
      have hprevious : e.eventType ≠ .previousGtids := by rw [ht]; decide
      refine h.step hn hentry ⟨fun _ => Table.mem_put_self .., fun ht' => absurd ht' hrotate,
        fun ht' => absurd ht' hprevious⟩ (fun k e' hkn _ hkept => ?_) h.keys_le_max
      exact ⟨fun ht' => Table.mem_put_of_mem (fun heq => hkn (Nat.succ.inj heq)) (hkept.fde ht'),
        hkept.rotate, hkept.previous⟩
  | gtid ht _ =>
      refine h.extend hn hentry fun e' he' hmeta => ?_
      cases he'
      rw [BinlogEvent.IsMetadata, ht] at hmeta
      exact absurd hmeta (by decide)
  | rotate ht hname =>
      have hfde : e.eventType ≠ .formatDescription := by rw [ht]; decide
      have hprevious : e.eventType ≠ .previousGtids := by rw [ht]; decide
      refine h.step hn hentry ⟨fun ht' => absurd ht' hfde, fun _ => ⟨_, hname,
        Table.mem_put_self ..⟩, fun ht' => absurd ht' hprevious⟩
        (fun k e' hkn _ hkept => ?_) h.keys_le_max
      refine ⟨hkept.fde, fun ht' => ?_, hkept.previous⟩
      obtain ⟨name, hname', hmem⟩ := hkept.rotate ht'
      exact ⟨name, hname', Table.mem_put_of_mem (fun heq => hkn (Nat.succ.inj heq)) hmem⟩
  | previousGtids ht hset => exact h.setPrevious hn hentry ht hset (hsame ht _ hset)
  | nothing hnot =>
      refine h.extend hn hentry fun e' he' hmeta => ?_
      cases he'
      have hneed : KingbusServer.needApply e.eventType = true := by
        rw [KingbusServer.needApply_iff]
        rcases hmeta with ht | ht | ht
        · exact .inr (.inl ht)
        · exact .inr (.inr (.inl ht))
        · exact .inr (.inr (.inr ht))
      rw [hneed] at hnot
      cases hnot

/-! ## The first half -/

/-- The first half writes no keys, and persists the index of the entry at most. -/
theorem KingbusServer.Observes.keys {s₁ : KingbusServer} (h : s.Observes e elapsed i s₁) :
    s₁.store.fde = s.store.fde ∧ s₁.store.nextBinlog = s.store.nextBinlog ∧
      s₁.store.previousGtids = s.store.previousGtids ∧
      (s₁.store.appliedIndex = s.store.appliedIndex ∨ s₁.store.appliedIndex = i) := by
  cases h with
  | later _ => exact ⟨rfl, rfl, rfl, .inl rfl⟩
  | first hfirst hb hobs =>
      rcases saveProgress_store s i elapsed _ _ _ with heq | ⟨-, heq⟩
      · rw [heq]
        exact ⟨rfl, rfl, rfl, .inl rfl⟩
      · rw [heq]
        exact ⟨rfl, rfl, rfl, .inr rfl⟩

/-- **At a metadata event nothing is persisted**, when no GTID is left to record. -/
theorem KingbusServer.Observes.not_persisted {s₁ : KingbusServer} (hc : e.Consistent)
    (hmeta : e.IsMetadata)
    (hsettled : s.binlogProgress.trxBoundaryParser = .none → ¬ s.binlogProgress.Unrecorded)
    (h : s.Observes e elapsed i s₁) : s₁.store = s.store := by
  cases h with
  | later _ => rfl
  | @first b r hfirst hb hobs =>
      have hignore : b = .ignore := by
        obtain ⟨body, hbody⟩ := exists_of_boundaryOf hb
        have htype := hc.type_eq hfirst
        rcases hmeta with ht | ht | ht <;> rw [getEventBoundaryType, htype, ht] at hbody <;>
          exact (Except.ok.inj hbody).symm
      subst hignore
      rcases saveProgress_store s i elapsed r.1 r.2 (EventHeader.read e.bytes).logPos with
        heq | ⟨hrec, -⟩
      · exact heq
      · cases TrxProgress.observed_of_observe hobs with
        | partialTrx _ => cases hrec
        | moved _ _ => cases hrec
        | recorded hdue _ =>
            exact absurd hdue.unrecorded (hsettled (congrArg Prod.fst hdue.1))

/-! ## Runs -/

/-- An entry that is applied keeps the keys, and moves the index by one at most. -/
theorem KeptUpTo.applyEntry (h : KeptUpTo log top s.store) (hn : n ≤ top)
    (happlied : s.store.appliedIndex ≤ top) (hsyncer : entry.FromSyncer)
    (hentry : log[n]? = some entry) (hguarded : ∀ e, entry = .binlog e → s.Guarded e)
    (hs : s.applyEntry elapsed (n + 1) entry = .ok s') :
    s'.store.appliedIndex ≤ max top (n + 1) ∧ KeptUpTo log (max top (n + 1)) s'.store := by
  cases entry with
  | binlog e =>
      obtain ⟨s₁, -, hobs, hw⟩ :=
        KingbusServer.of_applyEntry_binlog (BinlogEvent.FromSyncer.consistent hsyncer) hs
      obtain ⟨hfde, hnext, hprevious, hindex⟩ := hobs.keys
      refine ⟨?_, (h.congr hfde hnext hprevious).stores hn hentry
        (hprevious ▸ (hguarded e rfl).2) hw⟩
      rw [hw.persisted.1]
      rcases hindex with heq | heq <;> omega
  | masterGtidPurged text =>
      obtain ⟨m, hr⟩ := KingbusServer.of_applyEntry_masterGtidPurged hs
      have hextend := h.extend hn hentry nofun
      rw [hr.store]
      split
      · exact ⟨by simp only; omega, hextend.congr rfl rfl rfl⟩
      · exact ⟨by simp only; omega, hextend.congr rfl rfl rfl⟩
  | other =>
      cases hs
      exact ⟨by omega, h.extend hn hentry nofun⟩

/-- The first half of an entry alone: at a metadata event the index stays in front of it, and
any other entry has no key that could be missing. -/
theorem KeptUpTo.updateStored (h : KeptUpTo log top s.store) (hn : n ≤ top)
    (happlied : s.store.appliedIndex ≤ top) (hc : e.Consistent)
    (hentry : log[n]? = some (.binlog e)) (hguarded : s.Guarded e)
    (hs : s.updateStored elapsed (n + 1) e = .ok s') :
    ∃ top', s'.store.appliedIndex ≤ top' ∧ KeptUpTo log top' s'.store := by
  have hobs := KingbusServer.observes_of_updateStored hs
  by_cases hmeta : e.IsMetadata
  · rw [hobs.not_persisted hc hmeta (hguarded.1 hmeta)]
    exact ⟨top, happlied, h⟩
  · obtain ⟨hfde, hnext, hprevious, hindex⟩ := hobs.keys
    refine ⟨max top (n + 1), ?_, (h.extend hn hentry fun e' he' => ?_).congr hfde hnext hprevious⟩
    · rcases hindex with heq | heq <;> omega
    · cases he'
      exact hmeta

/-- **The invariant of runs.** -/
theorem MetaRuns.invariant (hlog : ∀ entry ∈ log, entry.FromSyncer)
    (h : MetaRuns KingbusServer.Guarded log n s) :
    ∃ top, n ≤ top ∧ s.store.appliedIndex ≤ top ∧ KeptUpTo log top s.store := by
  induction h with
  | start => exact ⟨0, Nat.le_refl 0, Nat.le_refl 0, fun k e hk => absurd hk (Nat.not_lt_zero k),
      fun f hf => absurd hf List.not_mem_nil⟩
  | crash h ih =>
      obtain ⟨top, -, happlied, hkept⟩ := ih
      exact ⟨top, happlied, happlied, hkept⟩
  | @apply n s s' entry elapsed h hentry hP hs ih =>
      obtain ⟨top, hn, happlied, hkept⟩ := ih
      have hsyncer := hlog entry (List.mem_of_getElem? hentry)
      exact ⟨max top (n + 1), Nat.le_max_right _ _,
        hkept.applyEntry hn happlied hsyncer hentry hP hs⟩
  | @crashInside n s s' e elapsed h hentry hP hs ih =>
      obtain ⟨top, hn, happlied, hkept⟩ := ih
      have hc : e.Consistent :=
        BinlogEvent.FromSyncer.consistent (hlog _ (List.mem_of_getElem? hentry))
      obtain ⟨top', happlied', hkept'⟩ := hkept.updateStored hn happlied hc hentry hP hs
      exact ⟨top', happlied', happlied', hkept'⟩

end

theorem MysqlGTIDSet.subset_of_equal {f g : MysqlGTIDSet} (h : f.equal g = true) : g.Subset f := by
  intro sid n hn
  obtain ⟨l, hl, hn⟩ := exists_of_mem hn
  exact (mem_iff_of_lookup (equal_iff.mp h _ (mem_of_lookup hl))).mpr hn

/-- **No metadata is lost at a crash**, in runs whose storage events all meet the
condition: an entry whose index is at most the persisted one has its key. -/
theorem metadata_survives (log : List LogEntry) (hlog : ∀ entry ∈ log, entry.FromSyncer)
    {n : Nat} {s : KingbusServer} (h : MetaRuns KingbusServer.Guarded log n s)
    {k : Nat} {e : BinlogEvent} (hk : k + 1 ≤ s.store.appliedIndex)
    (he : log[k]? = some (.binlog e)) :
    (e.eventType = .formatDescription → (k + 1, e.bytes) ∈ s.store.fde) ∧
    (e.eventType = .rotate → ∃ name, (eventBody e.bytes).bind decodeRotate = .ok name ∧
      (k + 1, name) ∈ s.store.nextBinlog) ∧
    (e.eventType = .previousGtids → ∃ gset, e.previousSet = .ok gset ∧
      ∃ f ∈ s.store.previousGtids, f.1 ≤ k + 1 ∧ ∀ sid m, f.2.Mem sid m ↔ gset.Mem sid m) := by
  obtain ⟨top, -, happlied, hkept⟩ := h.invariant hlog
  have hentry := hkept.kept k e (by omega) he
  refine ⟨hentry.fde, hentry.rotate, fun ht => ?_⟩
  obtain ⟨gset, hset, f, hf, hle, hequal, hequal'⟩ := hentry.previous ht
  exact ⟨gset, hset, f, hf, hle, fun sid m =>
    ⟨MysqlGTIDSet.subset_of_equal hequal' sid m, MysqlGTIDSet.subset_of_equal hequal sid m⟩⟩

/-! ## Two losses -/

/-- The entries of events that fit in one packet. -/
def fittingEntries (events : List ParsedEvent) : List LogEntry :=
  events.map fun event => .binlog (event.undivided .mySQL)

theorem fromSyncer_of_mem_fittingEntries {events : List ParsedEvent} {entry : LogEntry}
    (hfits : ∀ event ∈ events, event.Fits) (h : entry ∈ fittingEntries events) :
    entry.FromSyncer := by
  obtain ⟨event, hevent, rfl⟩ := List.mem_map.mp h
  refine ⟨event.toMasterEvent, .mySQL, event.header_eq, ?_⟩
  rw [MasterEvent.parts, MasterEvent.proposeBinlogEvent, if_pos (hfits event hevent)]
  exact List.mem_singleton_self _

/-- A run without crashes, whose states meet the condition. -/
theorem MetaRuns.of_uninterrupted {P : KingbusServer → BinlogEvent → Prop} {log : List LogEntry}
    {clock : Nat → Bool} {n : Nat} {u : KingbusServer} (hn : n ≤ log.length)
    (hP : ∀ k < n, ∀ v, Uninterrupted log clock k v → ∀ e, log[k]? = some (.binlog e) → P v e)
    (hu : Uninterrupted log clock n u) : MetaRuns P log n u := by
  induction n generalizing u with
  | zero =>
      cases hu
      exact .start
  | succ n ih =>
      have hentry := List.getElem?_eq_getElem (Nat.lt_of_succ_le hn)
      obtain ⟨v, hv, hstep⟩ := hu.succ hentry
      refine .apply _ (ih (by omega) (fun k hk => hP k (by omega)) hv) hentry (fun e he => ?_) hstep
      exact hP n (Nat.lt_succ_self n) v hv e (he ▸ hentry)

/-- The events of a new file and a transaction. -/
def fileEvents : List ParsedEvent := streamHead ++ trxOne.events

/-- The state behind the first `n` entries of events. -/
def stateAt (events : List ParsedEvent) (n : Nat) : KingbusServer :=
  afterLog (.start .fresh) 1 ((fittingEntries events).take n)

theorem uninterrupted_stateAt {events : List ParsedEvent} {n : Nat}
    (h : ((KingbusServer.start .fresh).applyLog (fun _ => true) 1
      ((fittingEntries events).take n)).isOk = true) :
    Uninterrupted (fittingEntries events) (fun _ => true) n (stateAt events n) :=
  applyLog_eq_afterLog h

theorem metadata_survives_fileEvents :
    (stateAt fileEvents 6).store.appliedIndex = 6 ∧
      ∃ name, (1, name) ∈ (stateAt fileEvents 6).store.nextBinlog := by
  have happlied : (stateAt fileEvents 6).store.appliedIndex = 6 := by decide +kernel
  have hguarded : ∀ k < 6, ∀ event ∈ fileEvents[k]?,
      (stateAt fileEvents k).Guarded (event.undivided .mySQL) := by decide +kernel
  have hrun : MetaRuns KingbusServer.Guarded (fittingEntries fileEvents) 6
      (stateAt fileEvents 6) := by
    refine .of_uninterrupted (by decide) (fun k hk v hv e he => ?_)
      (uninterrupted_stateAt (by decide +kernel))
    have hv' : v = stateAt fileEvents k := by
      rw [stateAt, afterLog, hv]
      rfl
    rw [fittingEntries, List.getElem?_map, Option.map_eq_some_iff] at he
    obtain ⟨event, hevent, heq⟩ := he
    cases heq
    exact hv' ▸ hguarded k hk event hevent
  obtain ⟨name, -, hmem⟩ := (metadata_survives (fittingEntries fileEvents)
    (fun _ => fromSyncer_of_mem_fittingEntries (by decide +kernel)) hrun
    (k := 0) (happlied ▸ by decide) rfl).2.1 (by decide +kernel)
  exact ⟨happlied, name, hmem⟩

/-- A `ROTATE` event behind a GTID that a cut-off stream has left. -/
def rotateEvents : List ParsedEvent :=
  [gtidOne, beginEvent, gtidTwo, rotateEvent]

/-- An empty `PREVIOUS_GTIDS` event behind one that is not empty. -/
def previousEvents : List ParsedEvent :=
  [previousOne, previousEmpty] ++ trxOne.events

/-- The `ROTATE` event of the first, as it is stored. -/
def rotateStored : BinlogEvent := rotateEvent.undivided .mySQL

/-- The empty `PREVIOUS_GTIDS` event of the second, as it is stored. -/
def previousStored : BinlogEvent := previousEmpty.undivided .mySQL

/-- **Metadata that is lost.**  The index of the `ROTATE` event is persisted when the GTID
is recorded, and the replica crashes before the key is written.  The empty set is taken
for one that is stored, which has a GTID. -/
theorem metadata_is_lost :
    (∃ n s, MetaRuns (fun _ _ => True) (fittingEntries rotateEvents) n s ∧
      4 ≤ s.store.appliedIndex ∧
      (fittingEntries rotateEvents)[3]? = some (.binlog rotateStored) ∧
      rotateStored.eventType = .rotate ∧ s.store.nextBinlog = []) ∧
    (∃ n s, MetaRuns (fun _ _ => True) (fittingEntries previousEvents) n s ∧
      2 ≤ s.store.appliedIndex ∧
      (fittingEntries previousEvents)[1]? = some (.binlog previousStored) ∧
      previousStored.eventType = .previousGtids ∧ previousStored.previousSet = .ok .empty ∧
      ∀ f ∈ s.store.previousGtids, f.2.Mem sidA 1 ∧ ¬ MysqlGTIDSet.empty.Mem sidA 1) := by
  constructor
  · obtain ⟨s', hs', happlied, hnext⟩ := exists_of_eval
      (x := (stateAt rotateEvents 3).updateStored true 4 rotateStored)
      (P := fun s' => 4 ≤ s'.store.appliedIndex ∧ s'.store.nextBinlog = []) (by decide +kernel)
    have hrun : MetaRuns (fun _ _ => True) (fittingEntries rotateEvents) 3
        (stateAt rotateEvents 3) :=
      .of_uninterrupted (by decide) (fun _ _ _ _ _ _ => trivial)
        (uninterrupted_stateAt (by decide +kernel))
    exact ⟨_, _, .crashInside true hrun rfl trivial hs', happlied, rfl, by decide +kernel, hnext⟩
  · have hrun : MetaRuns (fun _ _ => True) (fittingEntries previousEvents) 5
        (stateAt previousEvents 5) :=
      .of_uninterrupted (by decide) (fun _ _ _ _ _ _ => trivial)
        (uninterrupted_stateAt (by decide +kernel))
    exact ⟨5, stateAt previousEvents 5, hrun, by decide +kernel, rfl, by decide +kernel, rfl,
      by decide +kernel⟩

end Kingbus
