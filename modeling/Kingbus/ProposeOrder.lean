import Kingbus.StreamCut

/-! # The order in which the proposer takes its items

When a syncer starts, `MasterGtidPurged` and `MasterInfo` wait on `dataC`, and the events of
the master come on `binlogEventC`.  `StartProposeBinlog` selects between the two channels
without priority, so the entry that resets the progress can come at any place among the
entries of the stream.  In a transaction it takes the current GTID away, and the end of
that transaction records nothing.

`order_loses_no_gtid_iff` says which places are harmless: those outside of every transaction
of the stream, and those in a transaction whose GTID the replica has from elsewhere. -/

namespace Kingbus

/-- The log when the proposer takes `MasterGtidPurged` behind the first `k` entries of the
stream, and `MasterInfo` behind the first `j`. -/
def proposedLog (flavor : Flavor) (stream : List StreamItem) (text : GtidText) (k j : Nat) :
    List LogEntry :=
  (streamEntries flavor stream).take k ++ .masterGtidPurged text ::
    (((streamEntries flavor stream).drop k).take (j - k) ++
      .other :: ((streamEntries flavor stream).drop k).drop (j - k))

/-- An item behind the first `k` entries of the stream stands in the transaction: its GTID event
is taken, and it is not recorded yet. -/
structure Interrupts (flavor : Flavor) (k : Nat) (stream before : List StreamItem) (t : Trx)
    (after : List StreamItem) : Prop where
  stream_eq : stream = before ++ .trx t :: after
  begun : (streamEntries flavor before).length < k
  unfinished : k ≤ (streamEntries flavor before).length + (t.openEntries flavor).length

/-- A GTID that the replica has not recorded and that the first of the `k` entries records: one
that has come when the parser was in no state of a transaction. -/
def leftOver (p : TrxProgress) (stream : List StreamItem) (k : Nat) : Option Gtid :=
  if 0 < k ∧ startsBetween stream = true then p.pending else none

/-! ## The log of the proposer -/

section
variable {flavor : Flavor} {stream : List StreamItem} {text : GtidText} {k j i : Nat}
  {clock : Nat → Bool} {s s' sk sr : KingbusServer}

theorem KingbusServer.exists_of_mem_applyLog {log : List LogEntry} {entry : LogEntry}
    (hmem : entry ∈ log) (h : s.applyLog clock i log = .ok s') :
    ∃ t elapsed n t', KingbusServer.applyEntry t elapsed n entry = .ok t' := by
  obtain ⟨before, after, rfl⟩ := List.mem_iff_append.mp hmem
  obtain ⟨t, -, h⟩ := KingbusServer.applyLog_append.mp h
  obtain ⟨t', ht', -⟩ := KingbusServer.applyLog_cons.mp h
  exact ⟨t, _, _, t', ht'⟩

theorem KingbusServer.saved_of_applyLog {log : List LogEntry}
    (hlog : ∀ entry ∈ log, entry.FromSyncer) (hs : s.Saved)
    (h : s.applyLog clock i log = .ok s') : s'.Saved :=
  KingbusServer.applyLog_invariant (I := KingbusServer.Saved)
    (fun entry hentry hs hs₁ => (KingbusServer.subset_of_applyEntry (hlog entry hentry) hs₁).2 hs) hs h

theorem fromSyncer_of_mem_streamEntries {entry : LogEntry}
    (h : entry ∈ streamEntries flavor stream) : entry.FromSyncer := by
  obtain ⟨item, -, hitem⟩ := List.mem_flatMap.mp h
  exact ParsedEvent.fromSyncer_of_mem hitem

theorem mem_proposedLog {entry : LogEntry} (h : entry ∈ streamEntries flavor stream) :
    entry ∈ proposedLog flavor stream text k j := by
  rw [← List.take_append_drop k (streamEntries flavor stream),
    ← List.take_append_drop (j - k) ((streamEntries flavor stream).drop k)] at h
  simp only [proposedLog, List.mem_append, List.mem_cons] at h ⊢
  tauto

/-- Every event of a stream whose entries were applied was taken. -/
theorem taken_of_applyLog (h : s.applyLog clock i (proposedLog flavor stream text k j) = .ok s') :
    ∀ e ∈ streamEvents stream, e.Taken := by
  intro e he
  by_contra hnot
  obtain ⟨entry, hentry, hdead⟩ := ParsedEvent.entries_of_not_taken flavor hnot
  obtain ⟨item, hitem, heitem⟩ := List.mem_flatMap.mp he
  have hmem : entry ∈ streamEntries flavor stream :=
    List.mem_flatMap.mpr ⟨item, hitem, List.mem_flatMap.mpr ⟨e, heitem, hentry⟩⟩
  obtain ⟨t, elapsed, n, t', ht'⟩ :=
    KingbusServer.exists_of_mem_applyLog (mem_proposedLog hmem) h
  obtain ⟨f, hf⟩ := hdead t elapsed n
  rw [ht'] at hf
  cases hf

/-- A GTID that is left over and cannot be stored stops the replica at the first entry. -/
theorem storable_of_applyLog (htaken : ∀ e ∈ streamEvents stream, e.Taken)
    (hk : s.applyLog clock i ((streamEntries flavor stream).take k) = .ok sk) {g : Gtid}
    (hg : leftOver s.binlogProgress.toTrxProgress stream k = some g) : Storable g.gno := by
  by_contra hs
  rw [leftOver] at hg
  split at hg
  · next hcond =>
    obtain ⟨hpos, hbetween⟩ := hcond
    cases stream with
    | nil => cases hbetween
    | cons item stream =>
        cases item with
        | trx t => cases hbetween
        | between event he =>
            have hevent : event.Taken := htaken event
              (List.mem_flatMap.mpr ⟨_, List.mem_cons_self .., List.mem_singleton_self _⟩)
            obtain ⟨e, rest, heq, hc, hwhole, -⟩ := ParsedEvent.entries_of_taken flavor hevent
            have hentries : StreamItem.entries (.between event he) flavor = .binlog e :: rest := by
              rw [StreamItem.entries, StreamItem.events, List.flatMap_cons, List.flatMap_nil,
                List.append_nil, heq]
            obtain ⟨text, ht⟩ := TrxProgress.step_leftOver_error hg hs he
            obtain ⟨k, rfl⟩ := Nat.exists_eq_succ_of_ne_zero (Nat.ne_of_gt hpos)
            rw [streamEntries, List.flatMap_cons, hentries, List.cons_append,
              List.take_succ_cons] at hk
            obtain ⟨s₁, hs₁, -⟩ := KingbusServer.applyLog_cons.mp hk
            rw [KingbusServer.applyEntry_binlog hc, hwhole.applyStored_error ht] at hs₁
            cases hs₁
  · cases hg

/-- **Before the reset** the executed set gets the GTIDs of the transactions that are complete,
and one that was left over. -/
theorem applyLog_before_reset (hxid : ∀ t, .trx t ∈ stream → t.body.endsWithXid = true)
    (htaken : ∀ e ∈ streamEvents stream, e.Taken) (hsaved : s.Saved)
    (hstore : ∀ g, leftOver s.binlogProgress.toTrxProgress stream k = some g → Storable g.gno) :
    ∃ sk, s.applyLog clock i ((streamEntries flavor stream).take k) = .ok sk ∧
      ∀ sid n, sk.binlogProgress.executedGtidSet.Mem sid n ↔
        (s.binlogProgress.executedGtidSet.Mem sid n ∨
          ∃ g, leftOver s.binlogProgress.toTrxProgress stream k = some g ∧ g.Adds sid n) ∨
        RecordedBefore flavor stream k sid n := by
  obtain ⟨events, hcarries, hfirst, hrun⟩ := @exists_records flavor stream hxid htaken k
  have hholds : TrxProgress.Holds s.binlogProgress.executedGtidSet.Mem
      s.binlogProgress.toTrxProgress := by
    refine ⟨fun _ _ => Iff.rfl, fun g hpos hg => ?_⟩
    exact (hsaved g hg).mem _ ((MysqlGTIDSet.memList_gnoInterval (Int.le_of_lt hpos)).mpr rfl)
  obtain ⟨p', hs', hexec⟩ : ∃ p', s.binlogProgress.run events = .ok p' ∧
      TrxProgress.Holds (fun sid n => (s.binlogProgress.executedGtidSet.Mem sid n ∨
        ∃ g, leftOver s.binlogProgress.toTrxProgress stream k = some g ∧ g.Adds sid n) ∨
        RecordedBefore flavor stream k sid n) p' := by
    cases hleft : leftOver s.binlogProgress.toTrxProgress stream k with
    | none =>
        simp only [reduceCtorEq, false_and, exists_false, or_false]
        by_cases hk : k = 0
        · subst hk
          rw [List.take_zero] at hcarries
          rw [hcarries.eq_nil]
          refine ⟨_, rfl, hholds.congr fun sid n => ?_⟩
          exact (or_iff_left not_recordedBefore_zero).symm
        · refine hrun _ _ hholds fun hbetween => ?_
          rwa [leftOver, if_pos ⟨Nat.pos_of_ne_zero hk, hbetween⟩] at hleft
    | some g =>
        simp only [Option.some.injEq, exists_eq_left']
        have hstorable := hstore g hleft
        rw [leftOver] at hleft
        split at hleft
        · next hcond =>
          cases stream with
          | nil => cases hcond.2
          | cons item stream =>
              cases item with
              | trx t => cases hcond.2
              | between event he =>
                  -- the first event records it, and would change nothing then
                  obtain ⟨p₁, hs₁, hpending, h₁⟩ := hholds.leftOver hleft hstorable he
                  obtain ⟨es, rfl⟩ := hfirst event he stream rfl hcond.1
                  obtain ⟨p', hs', h'⟩ := hrun _ p₁ h₁ fun _ => hpending
                  refine ⟨p', TrxProgress.run_cons.mpr ⟨p₁, hs₁, ?_⟩, h'⟩
                  obtain ⟨p₂, hs₂, hrest⟩ := TrxProgress.run_cons.mp hs'
                  rw [TrxProgress.step_between hpending he] at hs₂
                  cases hs₂
                  exact hrest
        · cases hleft
  obtain ⟨sk, hsk, htrx⟩ := hcarries.applyLog_of_run hs'
  refine ⟨sk, hsk, fun sid n => ?_⟩
  rw [htrx]
  exact hexec.executed sid n

/-- **Behind the reset** the executed set gets the GTIDs of the transactions that had not
begun, and no others. -/
theorem applyLog_behind_reset (hxid : ∀ t, .trx t ∈ stream → t.body.endsWithXid = true)
    (htaken : ∀ e ∈ streamEvents stream, e.Taken) (hsaved : sk.Saved) {elapsed : Bool} {m : Nat}
    (hpurged : sk.applyEntry elapsed m (.masterGtidPurged text) = .ok sr) :
    ∃ s', sr.applyLog clock i
        (((streamEntries flavor stream).drop k).take (j - k) ++
          .other :: ((streamEntries flavor stream).drop k).drop (j - k)) = .ok s' ∧
      ∀ sid n, s'.binlogProgress.executedGtidSet.Mem sid n ↔
        (sk.binlogProgress.executedGtidSet.Mem sid n ∨ text.Mem sid n) ∨
          ∃ t, .trx t ∈ notBegun flavor stream k ∧ sid = t.gtid.sid ∧ n = t.gtid.gno := by
  obtain ⟨_, hr⟩ := KingbusServer.of_applyEntry_masterGtidPurged hpurged
  obtain ⟨rest, hcarries, hrest⟩ := carries_drop flavor htaken k
  have hidle : TrxProgress.Idle (fun sid n => sk.binlogProgress.executedGtidSet.Mem sid n ∨
      text.Mem sid n) sr.binlogProgress.toTrxProgress := by
    refine ⟨⟨hr.executed, fun g hpos hg => .inl ?_⟩, hr.current⟩
    exact (hsaved g (hr.lastSave ▸ hg)).mem _
      ((MysqlGTIDSet.memList_gnoInterval (Int.le_of_lt hpos)).mpr rfl)
  obtain ⟨p₁, hp₁, hbetween⟩ : ∃ p₁, sr.binlogProgress.run rest = .ok p₁ ∧
      TrxProgress.Between (fun sid n => sk.binlogProgress.executedGtidSet.Mem sid n ∨
        text.Mem sid n) p₁ := by
    rcases hrest with rfl | ⟨t, ht, hsuffix⟩
    · exact ⟨_, rfl, hidle.holds, .inr ⟨hr.parser, fun hu => hu.1 hr.current⟩⟩
    · exact hidle.rest hr.parser (hxid t ht) (.inr hsuffix)
  obtain ⟨p, hp, hfinal⟩ : ∃ p, p₁.run (streamEvents (notBegun flavor stream k)) = .ok p ∧ _ :=
    hbetween.stream
  -- `MasterInfo` among the entries changes nothing
  have hlog : Carries (((streamEntries flavor stream).drop k).take (j - k) ++
      .other :: ((streamEntries flavor stream).drop k).drop (j - k))
      (rest ++ streamEvents (notBegun flavor stream k)) := by
    rw [← List.take_append_drop (j - k) ((streamEntries flavor stream).drop k)] at hcarries
    obtain ⟨before, after, heq, hb, ha⟩ := hcarries.split
    rw [heq]
    exact hb.append ha.other
  have hrun : sr.binlogProgress.run (rest ++ streamEvents (notBegun flavor stream k)) = .ok p := by
    rw [TrxProgress.run_append, hp₁]
    exact hp
  obtain ⟨s', hs', htrx⟩ := hlog.applyLog_of_run hrun
  refine ⟨s', hs', fun sid n => ?_⟩
  rw [htrx, hfinal.holds.executed]
  refine or_congr_right (exists_congr fun t => and_congr_right fun ht => ?_)
  obtain ⟨before, after, rfl, -⟩ := mem_notBegun.mp ht
  exact and_iff_right (TrxBody.lost_eq_false (hxid t (List.mem_append_right _ List.mem_cons_self)))

end

section
variable {flavor : Flavor} {stream before before' after after' : List StreamItem} {t t' : Trx}

/-- Two places of a stream are the same one, or each is before or behind the other. -/
theorem mem_of_two_places (h : before ++ .trx t :: after = before' ++ .trx t' :: after') :
    (before = before' ∧ t = t') ∨ .trx t' ∈ before ∨ .trx t' ∈ after := by
  rcases List.append_eq_append_iff.mp h with ⟨l, hl, hrest⟩ | ⟨l, hl, hrest⟩
  · cases l with
    | nil =>
        cases (List.cons.inj hrest).1
        exact .inl ⟨by rw [hl, List.append_nil], rfl⟩
    | cons x l =>
        obtain ⟨-, rfl⟩ := List.cons.inj hrest
        exact .inr (.inr (List.mem_append_right _ List.mem_cons_self))
  · cases l with
    | nil =>
        cases (List.cons.inj hrest).1
        exact .inl ⟨by rw [hl, List.append_nil], rfl⟩
    | cons x l =>
        obtain ⟨rfl, -⟩ := List.cons.inj hrest
        exact .inr (.inl (hl ▸ List.mem_append_right _ List.mem_cons_self))

/-- The event that records the GTID has an entry of its own. -/
theorem length_openEntries_lt (htaken : ∀ e ∈ t.events, e.Taken) :
    (t.openEntries flavor).length < ((StreamItem.trx t).entries flavor).length := by
  obtain ⟨event, rest, heq⟩ := t.body.events_eq_openEvents
  obtain ⟨e, r, hentries, -⟩ := ParsedEvent.entries_of_taken flavor (htaken event (by
    rw [Trx.events, heq]
    exact List.mem_cons_of_mem _ (List.mem_append_right _ List.mem_cons_self)))
  have hpos : 0 < ((event :: rest).flatMap (·.entries flavor)).length := by
    rw [List.flatMap_cons, hentries]
    exact Nat.succ_pos _
  rw [Trx.openEntries, StreamItem.entries, StreamItem.events, Trx.events, heq, ← List.cons_append,
    List.flatMap_append, List.length_append]
  omega

theorem length_streamEntries_append : (streamEntries flavor (before ++ after)).length =
    (streamEntries flavor before).length + (streamEntries flavor after).length := by
  rw [streamEntries, List.flatMap_append, List.length_append]
  rfl

end

/-- What a replica has executed when it has applied the whole log: what it had executed, a GTID
that was left over, what the first `k` entries record, the text, and the transactions that begin
behind `MasterGtidPurged`. -/
def ExecutedThen (flavor : Flavor) (stream : List StreamItem) (text : GtidText) (k : Nat)
    (s : KingbusServer) (sid : Sid) (n : Int) : Prop :=
  (((s.binlogProgress.executedGtidSet.Mem sid n ∨
      ∃ g, leftOver s.binlogProgress.toTrxProgress stream k = some g ∧ g.Adds sid n) ∨
    RecordedBefore flavor stream k sid n) ∨ text.Mem sid n) ∨
    ∃ t, .trx t ∈ notBegun flavor stream k ∧ sid = t.gtid.sid ∧ n = t.gtid.gno

section
variable {flavor : Flavor} {stream : List StreamItem} {text : GtidText} {k j i : Nat}
  {clock : Nat → Bool} {s s' sk : KingbusServer}

theorem saved_of_applyLog_take (hsaved : s.Saved)
    (h : s.applyLog clock i ((streamEntries flavor stream).take k) = .ok sk) : sk.Saved :=
  KingbusServer.saved_of_applyLog
    (fun _ hx => fromSyncer_of_mem_streamEntries (List.mem_of_mem_take hx)) hsaved h

/-- The log is applied if its events are taken, its text is, and what is left over can be
stored. -/
theorem applyLog_proposedLog (hxid : ∀ t, .trx t ∈ stream → t.body.endsWithXid = true)
    (hsaved : s.Saved) (htaken : ∀ e ∈ streamEvents stream, e.Taken) (hlen : text.sets.length ≤ 1)
    (hstore : ∀ g, leftOver s.binlogProgress.toTrxProgress stream k = some g → Storable g.gno) :
    ∃ s', s.applyLog clock i (proposedLog flavor stream text k j) = .ok s' ∧
      ∀ sid n, s'.binlogProgress.executedGtidSet.Mem sid n ↔
        ExecutedThen flavor stream text k s sid n := by
  obtain ⟨sk, hk, hbefore⟩ := @applyLog_before_reset flavor stream k i clock s hxid htaken hsaved
    hstore
  obtain ⟨sr, hpurged⟩ : ∃ sr, sk.applyEntry
      (clock (i + ((streamEntries flavor stream).take k).length))
      (i + ((streamEntries flavor stream).take k).length) (.masterGtidPurged text) = .ok sr :=
    KingbusServer.applyEntry_masterGtidPurged_iff.mpr hlen
  obtain ⟨s', hs', hexec⟩ :=
    applyLog_behind_reset hxid htaken (saved_of_applyLog_take hsaved hk) hpurged
  refine ⟨s', KingbusServer.applyLog_append.mpr ⟨sk, hk,
    KingbusServer.applyLog_cons.mpr ⟨sr, hpurged, hs'⟩⟩, fun sid n => ?_⟩
  rw [hexec, hbefore, ExecutedThen]

/-- And only then. -/
theorem of_applyLog_proposedLog
    (h : s.applyLog clock i (proposedLog flavor stream text k j) = .ok s') :
    (∀ e ∈ streamEvents stream, e.Taken) ∧ text.sets.length ≤ 1 ∧
      ∀ g, leftOver s.binlogProgress.toTrxProgress stream k = some g → Storable g.gno := by
  have htaken := taken_of_applyLog h
  obtain ⟨sk, hk, hrest⟩ := KingbusServer.applyLog_append.mp h
  obtain ⟨sr, hpurged, -⟩ := KingbusServer.applyLog_cons.mp hrest
  exact ⟨htaken, KingbusServer.applyEntry_masterGtidPurged_iff.mp ⟨sr, hpurged⟩,
    fun g hg => storable_of_applyLog htaken hk hg⟩

/-- An interrupted transaction is executed then for another reason than its own entries. -/
theorem ExecutedThen.of_interrupts {before after : List StreamItem} {t : Trx}
    (h : ExecutedThen flavor stream text k s t.gtid.sid t.gtid.gno)
    (hin : Interrupts flavor k stream before t after) :
    s.binlogProgress.executedGtidSet.Mem t.gtid.sid t.gtid.gno ∨
      text.Mem t.gtid.sid t.gtid.gno ∨
      (∃ g, leftOver s.binlogProgress.toTrxProgress stream k = some g ∧
        g.Adds t.gtid.sid t.gtid.gno) ∨
      ∃ t', (.trx t' ∈ before ∨ .trx t' ∈ after) ∧
        t.gtid.sid = t'.gtid.sid ∧ t.gtid.gno = t'.gtid.gno := by
  rcases h with (((h | h) | ⟨before', t', after', heq, hlt, hsid, hgno⟩) | h) |
    ⟨t', ht', hsid, hgno⟩
  · exact .inl h
  · exact .inr (.inr (.inl h))
  · rcases mem_of_two_places (hin.stream_eq.symm.trans heq) with ⟨rfl, rfl⟩ | hother
    · exact absurd hin.unfinished (Nat.not_le.mpr hlt)
    · exact .inr (.inr (.inr ⟨t', hother, hsid, hgno⟩))
  · exact .inr (.inl h)
  · obtain ⟨before', after', heq, hle⟩ := mem_notBegun.mp ht'
    rcases mem_of_two_places (hin.stream_eq.symm.trans heq) with ⟨rfl, rfl⟩ | hother
    · exact absurd hin.begun (Nat.not_lt.mpr hle)
    · exact .inr (.inr (.inr ⟨t', hother, hsid, hgno⟩))

/-- A transaction that is not the interrupted one is executed then. -/
theorem executedThen_of_other (htaken : ∀ e ∈ streamEvents stream, e.Taken)
    {before after : List StreamItem} {t t' : Trx} (hin : Interrupts flavor k stream before t after)
    (ht' : .trx t' ∈ before ∨ .trx t' ∈ after) :
    ExecutedThen flavor stream text k s t'.gtid.sid t'.gtid.gno := by
  obtain ⟨rfl, hbegun, hunfinished⟩ := hin
  have hopen : ∀ {u}, .trx u ∈ before ++ .trx t :: after →
      (u.openEntries flavor).length < ((StreamItem.trx u).entries flavor).length := fun hu =>
    length_openEntries_lt fun e he => htaken e (List.mem_flatMap.mpr ⟨_, hu, he⟩)
  rcases ht' with ht' | ht'
  · obtain ⟨b₁, b₂, rfl⟩ := List.mem_iff_append.mp ht'
    have hlt := hopen (List.mem_append_left _ ht')
    rw [length_streamEntries_append, length_streamEntries_cons] at hbegun
    refine .inl (.inl (.inr ⟨b₁, t', b₂ ++ .trx t :: after, ?_, by omega, rfl, rfl⟩))
    rw [List.append_assoc, List.cons_append]
  · obtain ⟨a₁, a₂, rfl⟩ := List.mem_iff_append.mp ht'
    have hlt := hopen (List.mem_append_right _ List.mem_cons_self)
    refine .inr ⟨t', mem_notBegun.mpr ⟨before ++ .trx t :: a₁, a₂, ?_, ?_⟩, rfl, rfl⟩
    · rw [List.append_assoc, List.cons_append]
    · rw [length_streamEntries_append, length_streamEntries_cons]
      omega

/-- `MasterGtidPurged` stands before a transaction, behind its end, or in it. -/
theorem executedThen_or_interrupts (text : GtidText) (k : Nat) (s : KingbusServer) {t : Trx}
    (ht : .trx t ∈ stream) : ExecutedThen flavor stream text k s t.gtid.sid t.gtid.gno ∨
      ∃ before after, Interrupts flavor k stream before t after := by
  obtain ⟨before, after, rfl⟩ := List.mem_iff_append.mp ht
  by_cases hnot : k ≤ (streamEntries flavor before).length
  · exact .inl (.inr ⟨t, mem_notBegun.mpr ⟨before, after, rfl, hnot⟩, rfl, rfl⟩)
  by_cases hdone : (streamEntries flavor before).length + (t.openEntries flavor).length < k
  · exact .inl (.inl (.inl (.inr ⟨before, t, after, rfl, hdone, rfl, rfl⟩)))
  · exact .inr ⟨before, after, rfl, Nat.not_le.mp hnot, Nat.not_lt.mp hdone⟩

end

/-- **Which orders lose no GTID.**  A replica with any progress takes the entries of a
stream of transactions that end with `XID_EVENT`, with `MasterGtidPurged` behind the first
`k` of them and `MasterInfo` behind the first `j`.  Every GTID of the stream is executed
then, exactly when the events are taken, the text has at most one identifier, a GTID that the
first entry records can be stored, and the GTID of a transaction that `MasterGtidPurged` stands in
is executed before, or in its text, or recorded by the first entry, or that of another transaction
of the stream. -/
theorem order_loses_no_gtid_iff (flavor : Flavor) (stream : List StreamItem)
    (hxid : ∀ t, .trx t ∈ stream → t.body.endsWithXid = true) (text : GtidText) (k j : Nat)
    (clock : Nat → Bool) (s : KingbusServer) (hsaved : s.Saved) (i : Nat) :
    (∃ s', s.applyLog clock i (proposedLog flavor stream text k j) = .ok s' ∧
        ∀ t, .trx t ∈ stream → s'.binlogProgress.executedGtidSet.Mem t.gtid.sid t.gtid.gno) ↔
      (∀ e ∈ streamEvents stream, e.Taken) ∧ text.sets.length ≤ 1 ∧
      (∀ g, leftOver s.binlogProgress.toTrxProgress stream k = some g → Storable g.gno) ∧
      ∀ before t after, Interrupts flavor k stream before t after →
        s.binlogProgress.executedGtidSet.Mem t.gtid.sid t.gtid.gno ∨
          text.Mem t.gtid.sid t.gtid.gno ∨
          (∃ g, leftOver s.binlogProgress.toTrxProgress stream k = some g ∧
            g.Adds t.gtid.sid t.gtid.gno) ∨
          ∃ t', (.trx t' ∈ before ∨ .trx t' ∈ after) ∧
            t.gtid.sid = t'.gtid.sid ∧ t.gtid.gno = t'.gtid.gno := by
  constructor
  · rintro ⟨s', hs', hall⟩
    obtain ⟨htaken, hlen, hstore⟩ := of_applyLog_proposedLog hs'
    obtain ⟨s'', hs'', hexec⟩ := applyLog_proposedLog hxid hsaved htaken hlen hstore
    cases hs'.symm.trans hs''
    refine ⟨htaken, hlen, hstore, fun before t after hin => ?_⟩
    have ht : .trx t ∈ stream := hin.stream_eq ▸ List.mem_append_right _ List.mem_cons_self
    exact ((hexec _ _).mp (hall t ht)).of_interrupts hin
  · rintro ⟨htaken, hlen, hstore, hinterrupted⟩
    obtain ⟨s', hs', hexec⟩ := applyLog_proposedLog hxid hsaved htaken hlen hstore
    refine ⟨s', hs', fun t ht => (hexec _ _).mpr ?_⟩
    rcases executedThen_or_interrupts text k s ht with h | ⟨before, after, hin⟩
    · exact h
    rcases hinterrupted before t after hin with h | h | h | ⟨t', ht', hsid, hgno⟩
    · exact .inl (.inl (.inl (.inl h)))
    · exact .inl (.inr h)
    · exact .inl (.inl (.inl (.inr h)))
    · rw [hsid, hgno]
      exact executedThen_of_other htaken hin ht'

/-- Two transactions, with `MasterGtidPurged` between them and `MasterInfo` in the second one. -/
theorem order_loses_no_gtid_iff_between :
    ∃ s', (KingbusServer.start .fresh).applyLog (fun _ => false) 1
        (proposedLog .mySQL [.trx trxOne, .trx trxTwo] purgedNothing 3 4) = .ok s' ∧
      ∀ t, .trx t ∈ [StreamItem.trx trxOne, .trx trxTwo] →
        s'.binlogProgress.executedGtidSet.Mem t.gtid.sid t.gtid.gno := by
  have hxid : ∀ t, .trx t ∈ [StreamItem.trx trxOne, .trx trxTwo] → t.body.endsWithXid = true := by
    intro t ht
    rcases List.mem_cons.mp ht with ht | ht
    · cases ht
      decide +kernel
    · cases List.mem_singleton.mp ht
      decide +kernel
  have hiff := order_loses_no_gtid_iff .mySQL [.trx trxOne, .trx trxTwo] hxid purgedNothing 3 4
    (fun _ => false) (.start .fresh) (fun g hg => absurd hg.symm (Option.some_ne_none g)) 1
  have htaken : ∀ e ∈ streamEvents [.trx trxOne, .trx trxTwo], e.Taken := by decide +kernel
  have hleft : leftOver (KingbusServer.start .fresh).binlogProgress.toTrxProgress
      [.trx trxOne, .trx trxTwo] 3 = none := rfl
  refine hiff.mpr ⟨htaken, by decide, fun g hg => ?_, fun before t after hin => ?_⟩
  · rw [hleft] at hg
    cases hg
  -- neither transaction is interrupted: the first one has three entries, and two before its end
  · obtain ⟨heq, hbegun, hunfinished⟩ := hin
    cases before with
    | nil =>
        cases (List.cons.inj heq).1
        exact absurd hunfinished (by decide +kernel)
    | cons x before =>
        obtain ⟨rfl, hrest⟩ := List.cons.inj heq
        cases before with
        | nil => exact absurd hbegun (by decide +kernel)
        | cons y before =>
            have hnil := (List.cons.inj hrest).2
            exact absurd hnil.symm
              (List.append_ne_nil_of_right_ne_nil before (List.cons_ne_nil _ _))

/-- **A GTID that is lost**: the proposer takes the GTID event of a transaction, then
`MasterGtidPurged` and `MasterInfo`, then the rest of the transaction. -/
theorem order_loses_gtid :
    ∃ s', (KingbusServer.start .fresh).applyLog (fun _ => false) 1
        (proposedLog .mySQL [.trx trxOne] purgedNothing 1 1) = .ok s' ∧
      ¬ s'.binlogProgress.executedGtidSet.Mem trxOne.gtid.sid trxOne.gtid.gno :=
  exists_of_eval (by decide +kernel)

end Kingbus
