import Kingbus.ReplicaLog

/-! # Crashes and replay

A replica applies a committed log, crashes between entries, restarts from what
`SetBinlogProgress` and `reset` have persisted and applies the following entries again.
The parser, the current GTID and the one recorded last are lost, and the executed set may
be newer than the applied index.

The index is persisted at the end of a transaction only, where a replica without crashes
is settled: it has nothing left to record.  From there on the replay is ahead of it, with
an executed set between the one at that index and the one at the furthest index reached. -/

namespace Kingbus

/-- The replica has applied the entries of the log up to the first index, and has been up
to the second one before some crash, or is there now.  Whether enough time has passed to
persist is open at every entry. -/
inductive Reaches (log : List LogEntry) : Nat → Nat → KingbusServer → Prop
  | start : Reaches log 0 0 (.start .fresh)
  | apply {n top : Nat} {s s' : KingbusServer} {entry : LogEntry} (elapsed : Bool)
      (h : Reaches log n top s) (hentry : log[n]? = some entry)
      (hs : s.applyEntry elapsed (n + 1) entry = .ok s') :
      Reaches log (n + 1) (max top (n + 1)) s'
  | crash {n top : Nat} {s : KingbusServer} (h : Reaches log n top s) :
      Reaches log s.store.appliedIndex top (.start s.store)

/-- The replica without crashes, behind the entries up to an index. -/
def Uninterrupted (log : List LogEntry) (clock : Nat → Bool) (n : Nat) (u : KingbusServer) : Prop :=
  (KingbusServer.start .fresh).applyLog clock 1 (log.take n) = .ok u

section
variable {log : List LogEntry} {clock : Nat → Bool} {n m top : Nat} {s s' u u' w : KingbusServer}
  {entry : LogEntry} {elapsed : Bool}

/-! ## The replica without crashes -/

theorem Uninterrupted.succ (hentry : log[n]? = some entry)
    (h : Uninterrupted log clock (n + 1) u') :
    ∃ u, Uninterrupted log clock n u ∧ u.applyEntry (clock (n + 1)) (n + 1) entry = .ok u' := by
  have hlt : n < log.length := (List.getElem?_eq_some_iff.mp hentry).1
  rw [Uninterrupted, List.take_add_one, hentry, Option.toList_some,
    KingbusServer.applyLog_append] at h
  obtain ⟨u, hu, hlast⟩ := h
  obtain ⟨u₁, hu₁, hnil⟩ := KingbusServer.applyLog_cons.mp hlast
  cases hnil
  rw [List.length_take_of_le (Nat.le_of_lt hlt), Nat.add_comm] at hu₁
  exact ⟨u, hu, hu₁⟩

theorem Uninterrupted.saved (hlog : ∀ entry ∈ log, entry.FromSyncer)
    (h : Uninterrupted log clock n u) : u.Saved := by
  induction n generalizing u with
  | zero =>
      cases h
      exact fun g hg => absurd hg.symm (Option.some_ne_none g)
  | succ n ih =>
      cases hentry : log[n]? with
      | none =>
          rw [Uninterrupted, List.take_add_one, hentry, Option.toList_none, List.append_nil] at h
          exact ih h
      | some entry =>
          obtain ⟨u₀, hu₀, hstep⟩ := h.succ hentry
          exact (KingbusServer.subset_of_applyEntry (hlog entry (List.mem_of_getElem? hentry))
            hstep).2 (ih hu₀)

/-- Earlier on it has been everywhere, with a smaller executed set. -/
theorem Uninterrupted.earlier (hlog : ∀ entry ∈ log, entry.FromSyncer)
    (h : Uninterrupted log clock n u) (hle : m ≤ n) :
    ∃ u₀, Uninterrupted log clock m u₀ ∧
      u₀.binlogProgress.executedGtidSet.Subset u.binlogProgress.executedGtidSet := by
  induction n generalizing u with
  | zero =>
      cases Nat.le_zero.mp hle
      exact ⟨u, h, fun _ _ => id⟩
  | succ n ih =>
      rcases Nat.lt_or_ge n m with hlt | hle'
      · cases (by omega : m = n + 1)
        exact ⟨u, h, fun _ _ => id⟩
      · cases hentry : log[n]? with
        | none =>
            rw [Uninterrupted, List.take_add_one, hentry, Option.toList_none,
              List.append_nil] at h
            exact ih h hle'
        | some entry =>
            obtain ⟨u₁, hu₁, hstep⟩ := h.succ hentry
            obtain ⟨u₀, hu₀, hsub⟩ := ih hu₁ hle'
            have hsub' := (KingbusServer.subset_of_applyEntry
              (hlog entry (List.mem_of_getElem? hentry)) hstep).1
            exact ⟨u₀, hu₀, fun sid k hk => hsub' sid k (hsub sid k hk)⟩

/-! ## What is persisted -/

/-- A recorded GTID is not that of the same entry: a `GTID_EVENT` opens a transaction. -/
theorem not_due_of_gtid {p : TrxProgress} {e : BinlogEvent} {b : EventBoundaryType} {g : Gtid}
    (hc : e.Consistent) (hfirst : e.IsFirst) (hb : boundaryOf e.bytes = .ok b)
    (ht : e.eventType = .gtid) : ¬ p.Due b g := by
  have htype := (hc.type_eq hfirst).trans ht
  obtain ⟨body, hbody⟩ := exists_of_boundaryOf hb
  rw [getEventBoundaryType, htype] at hbody
  cases hbody
  rintro ⟨hstate, -, -⟩
  revert hstate
  cases p.trxBoundaryParser <;> decide

theorem saveProgress_store (s : KingbusServer) (i : Nat) (elapsed : Bool) (p : TrxProgress)
    (recorded : Bool) (logPos : Nat) :
    (s.saveProgress i elapsed p recorded logPos).store = s.store ∨
      (recorded = true ∧ (s.saveProgress i elapsed p recorded logPos).store =
        s.store.setBinlogProgress i p.executedGtidSet) := by
  rw [KingbusServer.saveProgress]
  split
  · next h => exact .inr ⟨h.1, rfl⟩
  · exact .inl rfl

/-- **What an entry persists**: nothing, or the executed set alone, or index and executed
set, and then a replica without crashes is settled. -/
theorem persisted_of_applyEntry {X : Sid → Int → Prop} {elapsed' : Bool} {i j : Nat}
    (hsyncer : entry.FromSyncer)
    (h : TrxProgress.Ahead X u.binlogProgress.toTrxProgress s.binlogProgress.toTrxProgress)
    (hu : u.applyEntry elapsed' j entry = .ok u') (hs : s.applyEntry elapsed i entry = .ok s') :
    (s'.store.appliedIndex = s.store.appliedIndex ∧
      (s'.store.executedGtidSet = s.store.executedGtidSet ∨
        s'.store.executedGtidSet = s'.binlogProgress.executedGtidSet)) ∨
    (s'.store.appliedIndex = i ∧
      s'.store.executedGtidSet = s'.binlogProgress.executedGtidSet ∧
      u'.binlogProgress.Settled) := by
  cases entry with
  | binlog e =>
      have hc : e.Consistent := BinlogEvent.FromSyncer.consistent hsyncer
      obtain ⟨s₁, -, hobs, hw⟩ := KingbusServer.of_applyEntry_binlog hc hs
      obtain ⟨u₁, -, hobs', hw'⟩ := KingbusServer.of_applyEntry_binlog hc hu
      rw [hw.persisted.1, hw.persisted.2, hw.executed]
      cases hobs with
      | later _ => exact .inl ⟨rfl, .inl rfl⟩
      | @first b r hfirst hb hobs =>
          rw [KingbusServer.saveProgress_toTrxProgress]
          rcases saveProgress_store s i elapsed r.1 r.2 (EventHeader.read e.bytes).logPos with
            heq | ⟨hrec, heq⟩
          · rw [heq]
            exact .inl ⟨rfl, .inl rfl⟩
          · rw [heq]
            refine .inr ⟨rfl, rfl, ?_⟩
            have ho := TrxProgress.observed_of_observe hobs
            cases hobs' with
            | later hlater => exact absurd hfirst hlater
            | first _ hb' hobs' =>
                cases hb.symm.trans hb'
                have hsettled := h.settled_of_recorded (TrxProgress.observed_of_observe hobs') ho
                  hrec
                -- the entry is not a `GTID_EVENT`, so the second half leaves the progress
                rcases hw'.toTrxProgress with ⟨-, htrx⟩ | ⟨g, ht, -, -⟩
                · rwa [htrx, KingbusServer.saveProgress_toTrxProgress]
                · cases ho with
                  | recorded hdue _ => exact absurd hdue (not_due_of_gtid hc hfirst hb ht)
                  | partialTrx _ => cases hrec
                  | moved _ _ => cases hrec
  | masterGtidPurged text =>
      obtain ⟨m, hr⟩ := KingbusServer.of_applyEntry_masterGtidPurged hs
      refine .inl ?_
      rw [hr.store]
      split
      · exact ⟨rfl, .inl rfl⟩
      · exact ⟨rfl, .inr rfl⟩
  | other =>
      cases hs
      exact .inl ⟨rfl, .inl rfl⟩

/-! ## The replica with crashes -/

/-- The state of a replica with crashes, at an index, against the states of one without:
`w` is that one's state at an index that has not been passed. -/
structure Replays (log : List LogEntry) (clock : Nat → Bool) (w : KingbusServer) (n : Nat)
    (s : KingbusServer) : Prop where
  applied_le : s.store.appliedIndex ≤ n
  ahead : ∀ u, Uninterrupted log clock n u →
    TrxProgress.Ahead w.binlogProgress.executedGtidSet.Mem u.binlogProgress.toTrxProgress
      s.binlogProgress.toTrxProgress
  settled : ∀ u, Uninterrupted log clock s.store.appliedIndex u → u.binlogProgress.Settled ∧
    u.binlogProgress.executedGtidSet.Subset s.store.executedGtidSet
  persisted_le : s.store.executedGtidSet.Subset w.binlogProgress.executedGtidSet

theorem replays_start : Replays log clock w 0 (.start .fresh) where
  applied_le := Nat.le_refl 0
  ahead u hu := by
    cases hu
    exact ⟨rfl, fun _ _ => id, fun _ _ => .inl, .inl rfl,
      fun g hg => absurd hg.symm (Option.some_ne_none g),
      fun g hg => absurd hg.symm (Option.some_ne_none g)⟩
  settled u hu := by
    cases hu
    exact ⟨⟨rfl, fun g hg => absurd hg.symm (Option.some_ne_none g)⟩, fun _ _ => id⟩
  persisted_le sid k hk := absurd hk (MysqlGTIDSet.not_mem_empty sid k)

/-- **A step of the replay.** -/
theorem Replays.apply (hlog : ∀ entry ∈ log, entry.FromSyncer) (hw : Uninterrupted log clock m w)
    (hle : n + 1 ≤ m) (h : Replays log clock w n s) (hentry : log[n]? = some entry)
    (hs : s.applyEntry elapsed (n + 1) entry = .ok s') : Replays log clock w (n + 1) s' := by
  have hsyncer := hlog entry (List.mem_of_getElem? hentry)
  obtain ⟨u', hu', hsub⟩ := hw.earlier hlog hle
  obtain ⟨u, hu, hstep⟩ := hu'.succ hentry
  have hahead := KingbusServer.ahead_of_applyEntry hsyncer (h.ahead u hu) hstep hs
  have hunique : ∀ v, Uninterrupted log clock (n + 1) v → v = u' :=
    fun v hv => Except.ok.inj (hv.symm.trans hu')
  have hupper : s'.binlogProgress.executedGtidSet.Subset w.binlogProgress.executedGtidSet :=
    fun sid k hk => (hahead.upper sid k hk).elim (hsub sid k) id
  have hgrow : ∀ v, Uninterrupted log clock s.store.appliedIndex v →
      v.binlogProgress.executedGtidSet.Subset s'.binlogProgress.executedGtidSet := by
    intro v hv
    obtain ⟨v', hv', hsub'⟩ := hu'.earlier hlog (Nat.le_succ_of_le h.applied_le)
    cases Except.ok.inj (hv.symm.trans hv')
    exact fun sid k hk => hahead.lower sid k (hsub' sid k hk)
  have hpersisted := persisted_of_applyEntry hsyncer (h.ahead u hu) hstep hs
  refine ⟨?_, fun v hv => hunique v hv ▸ hahead, ?_, ?_⟩
  · rcases hpersisted with ⟨happlied, -⟩ | ⟨happlied, -, -⟩
    · exact happlied ▸ Nat.le_succ_of_le h.applied_le
    · exact Nat.le_of_eq happlied
  · intro v hv
    rcases hpersisted with ⟨happlied, hset⟩ | ⟨happlied, hset, hsettled⟩
    · rw [happlied] at hv
      refine ⟨(h.settled v hv).1, ?_⟩
      rcases hset with hset | hset
      · exact hset ▸ (h.settled v hv).2
      · exact hset ▸ hgrow v hv
    · rw [happlied] at hv
      cases hunique v hv
      exact ⟨hsettled, hset ▸ hahead.lower⟩
  · rcases hpersisted with ⟨-, hset | hset⟩ | ⟨-, hset, -⟩
    · exact hset ▸ h.persisted_le
    · exact hset ▸ hupper
    · exact hset ▸ hupper

/-- **A crash.** -/
theorem Replays.crash (hlog : ∀ entry ∈ log, entry.FromSyncer) (h : Replays log clock w n s) :
    Replays log clock w s.store.appliedIndex (.start s.store) where
  applied_le := Nat.le_refl _
  ahead u hu := by
    obtain ⟨hsettled, hsub⟩ := h.settled u hu
    exact ⟨hsettled.parser.symm, hsub, fun sid k hk => .inr (h.persisted_le sid k hk),
      .inr ⟨rfl, hsettled.current⟩, hu.saved hlog,
      fun g hg => absurd hg.symm (Option.some_ne_none g)⟩
  settled := h.settled
  persisted_le := h.persisted_le

theorem Reaches.replays (hlog : ∀ entry ∈ log, entry.FromSyncer) (h : Reaches log n top s)
    (hw : Uninterrupted log clock m w) (hle : top ≤ m) : Replays log clock w n s := by
  induction h with
  | start => exact replays_start
  | apply elapsed h hentry hs ih =>
      exact (ih (Nat.le_trans (Nat.le_max_left _ _) hle)).apply hlog hw
        (Nat.le_trans (Nat.le_max_right _ _) hle) hentry hs
  | crash h ih => exact (ih hle).crash hlog

/-- Whatever it went through, a replica has in its executed set what it recorded last. -/
theorem Reaches.saved (hlog : ∀ entry ∈ log, entry.FromSyncer) (h : Reaches log n top s) :
    s.Saved := by
  induction h with
  | start => exact fun g hg => absurd hg.symm (Option.some_ne_none g)
  | apply _ _ hentry hs ih =>
      exact (KingbusServer.subset_of_applyEntry (hlog _ (List.mem_of_getElem? hentry)) hs).2 ih
  | crash _ _ => exact fun g hg => absurd hg.symm (Option.some_ne_none g)

/-- **Crash and replay give the same executed set.**  A replica that has crashed any number
of times can apply every entry that one without crashes applied, and where it has come up
to an index not below the crash points, its executed set is the same. -/
theorem crash_replay_agrees (hlog : ∀ entry ∈ log, entry.FromSyncer) (h : Reaches log n top s)
    (hu : Uninterrupted log clock m u) (hle : top ≤ m) :
    (∀ entry elapsed, n < m → log[n]? = some entry →
      ∃ s', s.applyEntry elapsed (n + 1) entry = .ok s') ∧
    (n = m → ∀ sid k, s.binlogProgress.executedGtidSet.Mem sid k ↔
      u.binlogProgress.executedGtidSet.Mem sid k) := by
  have hreplays := h.replays hlog hu hle
  constructor
  · intro entry elapsed hlt hentry
    obtain ⟨v', hv', -⟩ := hu.earlier hlog hlt
    obtain ⟨v, hv, hstep⟩ := hv'.succ hentry
    exact KingbusServer.applyEntry_ok_of_ahead (hlog entry (List.mem_of_getElem? hentry))
      (hreplays.ahead v hv) hstep elapsed (n + 1)
  · rintro rfl sid k
    have hahead := hreplays.ahead u hu
    exact ⟨fun hk => (hahead.upper sid k hk).elim id id, hahead.lower sid k⟩

end

/-! ## A small run with a crash -/

/-- The entries of two transactions. -/
def twoTrxLog : List LogEntry := (trxOne.events ++ trxTwo.events).flatMap (·.entries .mySQL)

/-- The server behind the given entries, where enough time has always passed. -/
def afterLog (s : KingbusServer) (i : Nat) (log : List LogEntry) : KingbusServer :=
  (s.applyLog (fun _ => true) i log).toOption.getD s

theorem applyLog_eq_afterLog {s : KingbusServer} {i : Nat} {log : List LogEntry}
    (h : (s.applyLog (fun _ => true) i log).isOk = true) :
    s.applyLog (fun _ => true) i log = .ok (afterLog s i log) := by
  obtain ⟨s', hs'⟩ := exists_of_isOk h
  rw [afterLog, hs']
  rfl

theorem Reaches.applyLog {log : List LogEntry} {clock : Nat → Bool} {k : Nat} :
    ∀ {n top : Nat} {s s' : KingbusServer}, Reaches log n top s → n + k ≤ log.length →
      s.applyLog clock (n + 1) ((log.drop n).take k) = .ok s' →
      ∃ top', top' ≤ max top (n + k) ∧ Reaches log (n + k) top' s' := by
  induction k with
  | zero =>
      intro n top s s' h _ hs
      cases hs
      exact ⟨top, Nat.le_max_left _ _, h⟩
  | succ k ih =>
      intro n top s s' h hle hs
      have hlt : n < log.length := by omega
      rw [List.drop_eq_getElem_cons hlt, List.take_succ_cons,
        KingbusServer.applyLog_cons] at hs
      obtain ⟨s₁, hs₁, hrest⟩ := hs
      obtain ⟨top', htop, hr⟩ :=
        ih (.apply (clock (n + 1)) h (List.getElem?_eq_getElem hlt) hs₁) (by omega) hrest
      rw [Nat.add_assoc, Nat.add_comm 1 k] at hr
      exact ⟨top', by omega, hr⟩

/-- The server that crashes behind the fourth entry and has its index persisted at the
third. -/
def crashed : KingbusServer := .start (afterLog (.start .fresh) 1 (twoTrxLog.take 4)).store

theorem crash_replay_agrees_twoTrxLog :
    crashed.store.appliedIndex = 3 ∧
      ∀ sid k,
        (afterLog crashed 4 ((twoTrxLog.drop 3).take 3)).binlogProgress.executedGtidSet.Mem sid k ↔
        (afterLog (.start .fresh) 1 (twoTrxLog.take 6)).binlogProgress.executedGtidSet.Mem
          sid k := by
  have hlog : ∀ entry ∈ twoTrxLog, entry.FromSyncer := fun _ => ParsedEvent.fromSyncer_of_mem
  have hlen : twoTrxLog.length = 6 := by decide +kernel
  have happlied : crashed.store.appliedIndex = 3 := by decide +kernel
  have hstart : Reaches twoTrxLog 0 0 (.start .fresh) := .start
  obtain ⟨top, htop, hr⟩ := hstart.applyLog (k := 4)
    (by omega) (applyLog_eq_afterLog (by decide +kernel))
  have hcrash : Reaches twoTrxLog 3 top crashed := happlied ▸ hr.crash
  obtain ⟨top', htop', hr'⟩ := hcrash.applyLog (k := 3) (by omega)
    (applyLog_eq_afterLog (by decide +kernel))
  have hu : Uninterrupted twoTrxLog (fun _ => true) 6
      (afterLog (.start .fresh) 1 (twoTrxLog.take 6)) := applyLog_eq_afterLog (by decide +kernel)
  exact ⟨happlied, (crash_replay_agrees hlog hr' hu (by omega)).2 rfl⟩

end Kingbus
