import Kingbus.CrashReplay

/-! # The reset of the leader

`startSyncerServer` waits until all committed entries are applied, resets the progress of
the leader with the `gtid_purged` of the master, and then proposes the entry on which
every replica does the same.  Entries that were proposed before can still be committed
between the reset and that entry, and they may be the rest of a transaction that is open
at the reset: the leader has then forgotten its GTID, a follower has not. -/

namespace Kingbus

namespace KingbusServer
variable {X : Sid → Int → Prop} {s s' t t' : KingbusServer} {clock clock' : Nat → Bool}
  {i j : Nat} {log : List LogEntry} {text : GtidText}

/-- Entries that both apply keep the relation between two replicas. -/
theorem ahead_of_applyLog (hlog : ∀ entry ∈ log, entry.FromSyncer)
    (h : TrxProgress.Ahead X s.binlogProgress.toTrxProgress t.binlogProgress.toTrxProgress)
    (hs : s.applyLog clock i log = .ok s') (ht : t.applyLog clock' j log = .ok t') :
    TrxProgress.Ahead X s'.binlogProgress.toTrxProgress t'.binlogProgress.toTrxProgress := by
  induction log generalizing s t i j with
  | nil =>
      cases hs
      cases ht
      exact h
  | cons entry log ih =>
      obtain ⟨s₁, hs₁, hs⟩ := applyLog_cons.mp hs
      obtain ⟨t₁, ht₁, ht⟩ := applyLog_cons.mp ht
      exact ih (fun x hx => hlog x (List.mem_cons_of_mem _ hx))
        (ahead_of_applyEntry (hlog entry (List.mem_cons_self ..)) h hs₁ ht₁) hs ht

theorem subset_of_applyLog (hlog : ∀ entry ∈ log, entry.FromSyncer)
    (hs : s.applyLog clock i log = .ok s') :
    s.binlogProgress.executedGtidSet.Subset s'.binlogProgress.executedGtidSet := by
  refine applyLog_invariant
    (I := fun s' => s.binlogProgress.executedGtidSet.Subset s'.binlogProgress.executedGtidSet)
    (fun entry hentry h hs₁ sid n hn => ?_) (fun _ _ => id) hs
  exact (subset_of_applyEntry (hlog entry hentry) hs₁).1 sid n (h sid n hn)

/-- Behind a `MasterGtidPurged` entry its set is executed. -/
theorem mem_of_applyLog (hlog : ∀ entry ∈ log, entry.FromSyncer)
    (hmem : LogEntry.masterGtidPurged text ∈ log) (hs : s.applyLog clock i log = .ok s')
    {sid : Sid} {n : Int} (hn : text.Mem sid n) :
    s'.binlogProgress.executedGtidSet.Mem sid n := by
  obtain ⟨before, after, rfl⟩ := List.mem_iff_append.mp hmem
  obtain ⟨s₁, -, hs⟩ := applyLog_append.mp hs
  obtain ⟨s₂, hs₂, hs⟩ := applyLog_cons.mp hs
  obtain ⟨m, hr⟩ := of_applyEntry_masterGtidPurged hs₂
  refine subset_of_applyLog (fun x hx => hlog x ?_) hs sid n ((hr.executed sid n).mpr (.inr hn))
  exact List.mem_append_right _ (List.mem_cons_of_mem _ hx)

theorem ahead_start (store : MetaStore) :
    TrxProgress.Ahead (fun _ _ => False) (KingbusServer.start store).binlogProgress.toTrxProgress
      (KingbusServer.start store).binlogProgress.toTrxProgress :=
  ⟨rfl, fun _ _ => id, fun _ _ => .inl, .inl rfl,
    fun g hg => absurd hg.symm (Option.some_ne_none g),
    fun g hg => absurd hg.symm (Option.some_ne_none g)⟩

/-- **A reset where no transaction is open** leaves a replica ahead of the others. -/
theorem ahead_of_reset
    (h : TrxProgress.Ahead (fun _ _ => False) s.binlogProgress.toTrxProgress
      t.binlogProgress.toTrxProgress) (hsettled : t.binlogProgress.Settled)
    (hr : ResetBy text t t') :
    TrxProgress.Ahead text.Mem s.binlogProgress.toTrxProgress t'.binlogProgress.toTrxProgress where
  parser := hr.parser.trans (hsettled.parser.symm.trans h.parser)
  lower sid n hn := (hr.executed sid n).mpr (.inl (h.lower sid n hn))
  upper sid n hn := ((hr.executed sid n).mp hn).imp_left fun hn =>
    (h.upper sid n hn).resolve_right id
  current := by
    refine .inr ⟨hr.current, fun g hg => ?_⟩
    rcases h.current with heq | ⟨-, hrec⟩
    · exact (hsettled.current g (heq.trans hg)).mono fun sid n hn =>
        (h.upper sid n hn).resolve_right id
    · exact hrec g hg
  saved := h.saved
  saved' g hg :=
    (h.saved' g (hr.lastSave ▸ hg)).mono fun sid n hn => (hr.executed sid n).mpr (.inl hn)

end KingbusServer

/-- **Leader and follower agree on the executed set**, when no transaction is open on the
leader at its reset.  Both start on the same metadata; the leader resets its progress
behind the entries `before`, and the entry with the same set is among the entries `after`. -/
theorem leader_agrees_with_follower (store : MetaStore) (before after : List LogEntry)
    (text : GtidText) (hbefore : ∀ entry ∈ before, entry.FromSyncer)
    (hafter : ∀ entry ∈ after, entry.FromSyncer)
    (hmem : LogEntry.masterGtidPurged text ∈ after) (clock clock' : Nat → Bool)
    {atReset reset leader follower : KingbusServer}
    (hatReset : (KingbusServer.start store).applyLog clock 1 before = .ok atReset)
    (hsettled : atReset.binlogProgress.Settled) (hreset : atReset.reset text = .ok reset)
    (hleader : reset.applyLog clock (1 + before.length) after = .ok leader)
    (hfollower : (KingbusServer.start store).applyLog clock' 1 (before ++ after) = .ok follower)
    (sid : Sid) (n : Int) :
    leader.binlogProgress.executedGtidSet.Mem sid n ↔
      follower.binlogProgress.executedGtidSet.Mem sid n := by
  obtain ⟨f, hf, hrest⟩ := KingbusServer.applyLog_append.mp hfollower
  have hequal := KingbusServer.ahead_of_applyLog hbefore (KingbusServer.ahead_start store) hf
    hatReset
  have hahead := KingbusServer.ahead_of_applyLog hafter
    (KingbusServer.ahead_of_reset hequal hsettled (KingbusServer.resetBy_of_reset hreset))
    hrest hleader
  refine ⟨fun hn => ?_, hahead.lower sid n⟩
  exact (hahead.upper sid n hn).elim id (KingbusServer.mem_of_applyLog hafter hmem hrest)

/-! ## A reset in a transaction -/

/-- A master that has purged nothing. -/
def purgedNothing : GtidText where
  sets := []

theorem fromSyncer_twoTrxLog {log : List LogEntry} (hsub : ∀ entry ∈ log,
    entry ∈ twoTrxLog ∨ ∃ text, entry = .masterGtidPurged text) :
    ∀ entry ∈ log, entry.FromSyncer := by
  intro entry h
  rcases hsub entry h with h | ⟨text, rfl⟩
  · exact ParsedEvent.fromSyncer_of_mem h
  · trivial

/-- The server behind a reset. -/
def afterReset (s : KingbusServer) (text : GtidText) : KingbusServer :=
  (s.reset text).toOption.getD s

theorem reset_eq_afterReset {s : KingbusServer} {text : GtidText} (h : text.sets.length ≤ 1) :
    s.reset text = .ok (afterReset s text) := by
  obtain ⟨s', hs', -⟩ := KingbusServer.reset_ok (s := s) h
  rw [afterReset, hs']
  rfl

/-- The leader behind the first `n` entries of two transactions and its reset, and then
behind the rest of them and the entry of the new syncer. -/
def leaderAt (n : Nat) (text : GtidText) : KingbusServer :=
  afterReset (afterLog (.start .fresh) 1 (twoTrxLog.take n)) text

def restWith (n : Nat) (text : GtidText) : List LogEntry :=
  twoTrxLog.drop n ++ [.masterGtidPurged text]

theorem leader_agrees_with_follower_between :
    (afterLog (leaderAt 3 purgedNothing) 4
        (restWith 3 purgedNothing)).binlogProgress.executedGtidSet.Mem sidA 1 ↔
      (afterLog (.start .fresh) 1
        (twoTrxLog.take 3 ++ restWith 3 purgedNothing)).binlogProgress.executedGtidSet.Mem sidA 1 := by
  have hsettled : (afterLog (.start .fresh) 1 (twoTrxLog.take 3)).binlogProgress.Settled := by
    have hrun : Uninterrupted twoTrxLog (fun _ => true) 3
        (afterLog (.start .fresh) 1 (twoTrxLog.take 3)) := applyLog_eq_afterLog (by decide +kernel)
    have hcurrent : (afterLog (.start .fresh) 1 (twoTrxLog.take 3)).binlogProgress.currentGtid =
        (afterLog (.start .fresh) 1 (twoTrxLog.take 3)).binlogProgress.lastSaveGtid := by
      decide +kernel
    exact ⟨by decide +kernel, fun g hg =>
      hrun.saved (fun _ => ParsedEvent.fromSyncer_of_mem) g (hcurrent.symm.trans hg)⟩
  exact leader_agrees_with_follower .fresh (twoTrxLog.take 3) (restWith 3 purgedNothing) purgedNothing
    (fromSyncer_twoTrxLog fun _ h => .inl (List.mem_of_mem_take h))
    (fromSyncer_twoTrxLog fun _ h => (List.mem_append.mp h).imp List.mem_of_mem_drop
      fun h => ⟨_, List.mem_singleton.mp h⟩)
    (List.mem_append_right _ (List.mem_singleton_self _)) (fun _ => true) (fun _ => true)
    (applyLog_eq_afterLog (by decide +kernel)) hsettled (reset_eq_afterReset (by decide))
    (applyLog_eq_afterLog (by decide +kernel)) (applyLog_eq_afterLog (by decide +kernel)) sidA 1

/-- **A reset in a transaction**: the leader resets its progress before the last entry of
the first transaction, and only the follower records its GTID. -/
theorem reset_in_trx_diverges :
    (KingbusServer.start .fresh).applyLog (fun _ => true) 1 (twoTrxLog.take 2) =
        .ok (afterLog (.start .fresh) 1 (twoTrxLog.take 2)) ∧
      (afterLog (.start .fresh) 1 (twoTrxLog.take 2)).reset purgedNothing =
        .ok (leaderAt 2 purgedNothing) ∧
      (leaderAt 2 purgedNothing).applyLog (fun _ => true) 3 (restWith 2 purgedNothing) =
        .ok (afterLog (leaderAt 2 purgedNothing) 3 (restWith 2 purgedNothing)) ∧
      (KingbusServer.start .fresh).applyLog (fun _ => true) 1
          (twoTrxLog.take 2 ++ restWith 2 purgedNothing) =
        .ok (afterLog (.start .fresh) 1 (twoTrxLog.take 2 ++ restWith 2 purgedNothing)) ∧
      (afterLog (.start .fresh) 1
        (twoTrxLog.take 2 ++ restWith 2 purgedNothing)).binlogProgress.executedGtidSet.Mem sidA 1 ∧
      ¬ (afterLog (leaderAt 2 purgedNothing) 3
        (restWith 2 purgedNothing)).binlogProgress.executedGtidSet.Mem sidA 1 :=
  ⟨applyLog_eq_afterLog (by decide +kernel), reset_eq_afterReset (by decide),
    applyLog_eq_afterLog (by decide +kernel), applyLog_eq_afterLog (by decide +kernel),
    by decide +kernel, by decide +kernel⟩

end Kingbus
