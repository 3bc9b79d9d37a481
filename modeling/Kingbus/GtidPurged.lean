import Kingbus.DumpStart

/-! # `gtid_purged` of the master

`applyMasterGtidPurged`: when a syncer starts, the `gtid_purged` of its master is added to
the stored `gtid_purged` and to the executed set.  To the stored set go only identifiers
it does not have, while the executed set is joined with all of it.  So what a later master
has purged of a known identifier is claimed as executed, and is neither in the log nor
declared. -/

namespace Kingbus

/-- Add the sets of the identifiers that are missing. -/
def MysqlGTIDSet.addMissing (s : MysqlGTIDSet) : List (Sid × List (HalfOpenInterval Int)) → MysqlGTIDSet
  | [] => s
  | u :: us => (if u.1 ∈ s.sets.map Prod.fst then s else s.addSet u.1 u.2).addMissing us

namespace KingbusServer

/-- `BinlogProgress.reset`. -/
def reset (s : KingbusServer) (gtids : GtidText) : Except EventFailure KingbusServer :=
  let p : BinlogProgress :=
    { s.binlogProgress with
      trxBoundaryParser := .none
      currentGtid := none
      lastBinlogFile := []
      lastFilePosition := 0
      persistentAppliedIndex := 0 }
  if gtids.sets = [] then .ok { s with binlogProgress := p }
  else
    (p.executedGtidSet.updateText gtids.sets).map fun executed =>
      { binlogProgress := { p with executedGtidSet := executed }
        store := { s.store with executedGtidSet := executed } }

/-- `applyMasterGtidPurged`. -/
def applyMasterGtidPurged (s : KingbusServer) (gtidPurged : GtidText) :
    Except EventFailure KingbusServer :=
  match parseSets gtidPurged.sets .empty with
  | .error _ => .error (.fatal "gomysql.ParseGTIDSet error,err: %s, gtids: %s")
  | .ok masterGtidPurged =>
      fatalOn "binlogProgress reset error,err: %s, gtids: %s"
        ({ s with store :=
          { s.store with
            gtidPurged := s.store.gtidPurged.addMissing masterGtidPurged.sets } }.reset gtidPurged)

end KingbusServer

/-! ## What the entry does -/

namespace MysqlGTIDSet

theorem sets_addSet_of_not_mem {s : MysqlGTIDSet} {sid : Sid} {l : List (HalfOpenInterval Int)}
    (h : sid ∉ s.sets.map Prod.fst) : (s.addSet sid l).sets = s.sets ++ [(sid, l)] := by
  rw [addSet, dif_neg h]

theorem mem_addMissing_of_mem {s : MysqlGTIDSet} {us : List (Sid × List (HalfOpenInterval Int))}
    {sid : Sid} {n : Int} (h : s.Mem sid n) : (s.addMissing us).Mem sid n := by
  induction us generalizing s with
  | nil => exact h
  | cons u us ih =>
      rw [addMissing]
      refine ih ?_
      split
      · exact h
      · exact mem_addSet.mpr (.inl h)

/-- An identifier that is missing is added with all its numbers. -/
theorem mem_addMissing {s : MysqlGTIDSet} {us : List (Sid × List (HalfOpenInterval Int))}
    {u : Sid × List (HalfOpenInterval Int)} {n : Int} (hnodup : (us.map Prod.fst).Nodup) (hu : u ∈ us)
    (hmissing : u.1 ∉ s.sets.map Prod.fst) (hn : HalfOpenInterval.MemList n u.2) :
    (s.addMissing us).Mem u.1 n := by
  induction us generalizing s with
  | nil => cases hu
  | cons v us ih =>
      rw [List.map_cons, List.nodup_cons] at hnodup
      rw [addMissing]
      rcases List.mem_cons.mp hu with rfl | hu
      · rw [if_neg hmissing]
        exact mem_addMissing_of_mem (mem_addSet.mpr (.inr ⟨rfl, hn⟩))
      · refine ih hnodup.2 hu ?_
        split
        · exact hmissing
        · next hv =>
          have hne : u.1 ≠ v.1 := fun heq => hnodup.1 (heq ▸ List.mem_map_of_mem hu)
          rw [sets_addSet_of_not_mem hv, List.map_append, List.mem_append, not_or]
          exact ⟨hmissing, fun h => hne (List.mem_singleton.mp h)⟩

end MysqlGTIDSet

/-- Parsing a text gives its identifiers in order. -/
theorem parseSets_eq {l : List (Sid × List (HalfOpenInterval Int))}
    (h : ∀ u ∈ l, u.2 ≠ [] ∧ ∀ i ∈ u.2, PrintableInterval i) : ∀ s : MysqlGTIDSet,
    (l.map Prod.fst).Nodup → (∀ u ∈ l, u.1 ∉ s.sets.map Prod.fst) →
    ∃ s', parseSets l s = .ok s' ∧
      s'.sets = s.sets ++ l.map fun u => (u.1, HalfOpenInterval.normalize u.2) := by
  induction l with
  | nil => exact fun s _ _ => ⟨s, rfl, (List.append_nil _).symm⟩
  | cons u l ih =>
      intro s hnodup hnew
      rw [List.map_cons, List.nodup_cons] at hnodup
      obtain ⟨hne, hu⟩ := h u (List.mem_cons_self ..)
      have hsets := MysqlGTIDSet.sets_addSet_of_not_mem (l := HalfOpenInterval.normalize u.2)
        (hnew u (List.mem_cons_self ..))
      obtain ⟨s', hs', heq⟩ := ih (fun v hv => h v (List.mem_cons_of_mem _ hv))
        (s.addSet u.1 (HalfOpenInterval.normalize u.2)) hnodup.2 (fun v hv => by
          rw [hsets, List.map_append, List.mem_append, not_or]
          refine ⟨hnew v (List.mem_cons_of_mem _ hv), fun hv' => hnodup.1 ?_⟩
          rw [← List.mem_singleton.mp hv']
          exact List.mem_map_of_mem hv)
      refine ⟨s', ?_, ?_⟩
      · rw [parseSets, parseUUIDSet_eq hne hu]
        exact hs'
      · rw [heq, hsets, List.append_assoc]
        rfl

namespace KingbusServer
variable {s s' : KingbusServer} {text : GtidText}

/-- What a reset that succeeds leaves: no transaction, and the executed set joined with
the text. -/
structure ResetBy (text : GtidText) (s s' : KingbusServer) : Prop where
  current : s'.binlogProgress.currentGtid = none
  parser : s'.binlogProgress.trxBoundaryParser = .none
  lastSave : s'.binlogProgress.lastSaveGtid = s.binlogProgress.lastSaveGtid
  executed : ∀ sid n, s'.binlogProgress.executedGtidSet.Mem sid n ↔
    s.binlogProgress.executedGtidSet.Mem sid n ∨ text.Mem sid n
  store : s'.store =
    if text.sets = [] then s.store
    else { s.store with executedGtidSet := s'.binlogProgress.executedGtidSet }

/-- A text with two identifiers is refused. -/
theorem reset_error (h : 1 < text.sets.length) : ∃ f, s.reset text = .error (.error f) := by
  have hne : text.sets ≠ [] := by
    intro heq
    rw [heq] at h
    cases h
  rw [reset, if_neg hne]
  cases hsets : text.sets with
  | nil => exact absurd hsets hne
  | cons u us =>
      cases us with
      | nil =>
          rw [hsets] at h
          exact absurd h (Nat.lt_irrefl 1)
      | cons v us => exact ⟨_, rfl⟩

/-- One with at most one identifier is taken. -/
theorem reset_ok (h : text.sets.length ≤ 1) : ∃ s', s.reset text = .ok s' ∧ ResetBy text s s' := by
  rw [reset]
  cases hsets : text.sets with
  | nil =>
      refine ⟨_, if_pos rfl, rfl, rfl, rfl, fun sid n => ⟨.inl, ?_⟩, by rw [if_pos hsets]⟩
      rintro (h | ⟨u, hu, -⟩)
      · exact h
      · rw [hsets] at hu
        cases hu
  | cons u us =>
      have hus : us = [] := by
        rw [hsets, List.length_cons] at h
        exact List.eq_nil_of_length_eq_zero (by omega)
      subst hus
      obtain ⟨hne, hu⟩ := text.printable u (hsets ▸ List.mem_singleton_self u)
      rw [if_neg (List.cons_ne_nil _ _), MysqlGTIDSet.updateText_singleton _ hne hu]
      refine ⟨_, rfl, rfl, rfl, rfl, fun sid n => ?_, ?_⟩
      · rw [MysqlGTIDSet.mem_addSet, HalfOpenInterval.memList_normalize, GtidText.Mem, hsets]
        simp only [List.mem_singleton, exists_eq_left, eq_comm (a := sid)]
      · rw [hsets, if_neg (List.cons_ne_nil _ _)]

theorem resetBy_of_reset (h : s.reset text = .ok s') : ResetBy text s s' := by
  have hlen : text.sets.length ≤ 1 := by
    by_contra hlt
    obtain ⟨f, hf⟩ := reset_error (s := s) (Nat.lt_of_not_le hlt)
    rw [h] at hf
    cases hf
  obtain ⟨s'', hs'', hr⟩ := reset_ok (s := s) hlen
  rw [h] at hs''
  cases hs''
  exact hr

theorem of_fatalOn {α : Type} {x : Except EventFailure α} {text : String} {a : α}
    (h : fatalOn text x = .ok a) : x = .ok a := by
  unfold fatalOn at h
  split at h
  · cases h
  · exact h

/-- The entry: first the stored `gtid_purged`, then the reset. -/
theorem applyMasterGtidPurged_cases (s : KingbusServer) (text : GtidText) :
    ∃ m, (∀ sid n, s.store.gtidPurged.Mem sid n → MysqlGTIDSet.Mem m sid n) ∧
      (∀ u ∈ text.sets, u.1 ∉ s.store.gtidPurged.sets.map Prod.fst →
        ∀ n, HalfOpenInterval.MemList n u.2 → m.Mem u.1 n) ∧
      s.applyMasterGtidPurged text = fatalOn "binlogProgress reset error,err: %s, gtids: %s"
        ({ s with store := { s.store with gtidPurged := m } }.reset text) := by
  obtain ⟨master, hparse, hsets⟩ := parseSets_eq text.printable .empty text.keys_nodup
    (fun _ _ => List.not_mem_nil)
  refine ⟨s.store.gtidPurged.addMissing master.sets, fun _ _ => MysqlGTIDSet.mem_addMissing_of_mem,
    fun u hu hmissing n hn => ?_, ?_⟩
  · have hmem : (u.1, HalfOpenInterval.normalize u.2) ∈ master.sets := by
      rw [hsets]
      exact List.mem_append_right _ (List.mem_map_of_mem (f := fun u => (u.1, HalfOpenInterval.normalize u.2))
        hu)
    exact MysqlGTIDSet.mem_addMissing (u := (u.1, HalfOpenInterval.normalize u.2)) master.keys_nodup hmem
      hmissing ((HalfOpenInterval.memList_normalize u.2).mpr hn)
  · rw [applyMasterGtidPurged, hparse]

end KingbusServer

/-! ## Logs of transactions and `gtid_purged` entries -/

/-- A part of a log. -/
inductive LogItem where
  | stream (item : StreamItem)
  | masterGtidPurged (text : GtidText)

/-- Apply a part of a log, from an index on. -/
def LogItem.apply (flavor : Flavor) (clock : Nat → Bool) (s : KingbusServer) (i : Nat) :
    LogItem → Except EventFailure KingbusServer
  | stream item => s.applyEvents flavor clock i item.events
  | masterGtidPurged text => s.applyMasterGtidPurged text

/-- The index behind a part of a log. -/
def LogItem.next (i : Nat) : LogItem → Nat
  | stream item => nextIndex i item.events
  | masterGtidPurged _ => i + 1

/-- A log that was applied to a server without metadata, with a condition that each step
met in the state before it. -/
inductive AppliedLog (P : KingbusServer → LogItem → Prop) (flavor : Flavor) (clock : Nat → Bool) :
    List LogItem → Nat → KingbusServer → Prop
  | nil (i : Nat) : AppliedLog P flavor clock [] i (.start .fresh)
  | step {items : List LogItem} {i : Nat} {s s' : KingbusServer} {item : LogItem}
      (log : AppliedLog P flavor clock items i s) (h : P s item)
      (applied : item.apply flavor clock s i = .ok s') :
      AppliedLog P flavor clock (items ++ [item]) (item.next i) s'

/-- The log has the complete transaction of the GTID. -/
def HasTrx (items : List LogItem) (sid : Sid) (n : Int) : Prop :=
  ∃ t, .stream (.trx t) ∈ items ∧ t.gtid.sid = sid ∧ t.gtid.gno = n

/-- Each identifier of a `gtid_purged` entry is new to the stored set, or all its numbers
are executed. -/
def KingbusServer.Declares (s : KingbusServer) : LogItem → Prop
  | .stream _ => True
  | .masterGtidPurged text => ∀ u ∈ text.sets, u.1 ∈ s.store.gtidPurged.sets.map Prod.fst →
      ∀ n, HalfOpenInterval.MemList n u.2 → s.binlogProgress.executedGtidSet.Mem u.1 n

namespace TrxProgress

/-- Everything that can be recorded is the current GTID, or that of an event. -/
theorem run_subset {es : List ParsedEvent} {G : Gtid → Prop} (hG : ∀ g, G g → 0 ≤ g.gno)
    (hes : ∀ e ∈ es, ∀ g, e.gtid? = some g → G g) :
    ∀ {p p' : TrxProgress}, (∀ g, p.currentGtid = some g → G g) → p.run es = .ok p' →
      (∀ g, p'.currentGtid = some g → G g) ∧
      ∀ sid n, p'.executedGtidSet.Mem sid n →
        p.executedGtidSet.Mem sid n ∨ ∃ g, G g ∧ g.sid = sid ∧ g.gno = n := by
  induction es with
  | nil =>
      intro p p' hp h
      cases h
      exact ⟨hp, fun _ _ => .inl⟩
  | cons e es ih =>
      intro p q hp h
      obtain ⟨p', hstep, hrun⟩ := run_cons.mp h
      have hnew := hes e (List.mem_cons_self ..)
      have hone : (∀ g, p'.currentGtid = some g → G g) ∧
          ∀ sid n, p'.executedGtidSet.Mem sid n →
            p.executedGtidSet.Mem sid n ∨ ∃ g, G g ∧ g.sid = sid ∧ g.gno = n := by
        obtain ⟨r, hobs, hr⟩ := step_cases hstep
        have hobs' : (∀ g, r.1.currentGtid = some g → G g) ∧
            ∀ sid n, r.1.executedGtidSet.Mem sid n →
              p.executedGtidSet.Mem sid n ∨ ∃ g, G g ∧ g.sid = sid ∧ g.gno = n := by
          cases hobs with
          | partialTrx _ =>
              exact ⟨fun g hg => absurd hg.symm (Option.some_ne_none g), fun _ _ => .inl⟩
          | @recorded g hdue _ =>
              refine ⟨hp, fun sid n hm => (MysqlGTIDSet.mem_addSet.mp hm).imp id ?_⟩
              rintro ⟨rfl, hnum⟩
              have hg := hp g hdue.2.1
              exact ⟨g, hg, rfl, ((MysqlGTIDSet.memList_gnoInterval (hG g hg)).mp hnum).symm⟩
          | moved _ _ => exact ⟨hp, fun _ _ => .inl⟩
        rcases hr with ⟨-, rfl⟩ | ⟨g, hg, rfl⟩
        · exact hobs'
        · refine ⟨fun g' hg' => ?_, hobs'.2⟩
          cases hg'
          exact hnew g hg
      obtain ⟨hcur, hexec⟩ := ih (fun x hx => hes x (List.mem_cons_of_mem _ hx)) hone.1 hrun
      refine ⟨hcur, fun sid n hm => ?_⟩
      rcases hexec sid n hm with hm | hm
      · exact hone.2 sid n hm
      · exact .inr hm

end TrxProgress

/-- The only GTID of a transaction is its own. -/
theorem Trx.gtid_of_mem {t : Trx} {e : ParsedEvent} (he : e ∈ t.events) {g : Gtid}
    (hg : e.gtid? = some g) : g = t.gtid := by
  have hb := e.boundary_of_isGtid (e.isGtid_of_gtid? hg)
  rcases List.mem_cons.mp he with rfl | he
  · rw [t.gtid_eq] at hg
    exact (Option.some_inj.mp hg).symm
  · exfalso
    cases hbody : t.body with
    | ddl vars query vars_ok query_ok =>
        rw [hbody] at he
        rcases List.mem_append.mp he with he | he
        · rw [ParsedEvent.boundary_isVar (vars_ok e he)] at hb
          cases hb
        · rw [List.mem_singleton.mp he, ParsedEvent.boundary_other query_ok] at hb
          cases hb
    | dml opening statements ending opening_ok statements_ok ending_ok =>
        rw [hbody] at he
        rcases List.mem_cons.mp he with rfl | he
        · rw [ParsedEvent.boundary_opens opening_ok] at hb
          split at hb <;> cases hb
        · rcases List.mem_append.mp he with he | he
          · rw [ParsedEvent.boundary_isStatement (statements_ok e he)] at hb
            repeat (first | (split at hb) | cases hb)
          · have := ParsedEvent.boundary_isEnding ending_ok
            rw [← List.mem_singleton.mp he, hb] at this
            split at this
            · cases this
            · rcases this with this | this <;> cases this

namespace ParsedEvent
variable {event : ParsedEvent} {flavor : Flavor} {clock : Nat → Bool} {s s' : KingbusServer}
  {i : Nat}

/-- Binlog events leave `gtid_purged` alone. -/
theorem Applied.gtidPurged (h : event.Applied clock i s s') :
    s'.store.gtidPurged = s.store.gtidPurged := by
  have hsave : ∀ {p recorded logPos}, (s.saveProgress i (clock i) p recorded logPos).store.gtidPurged =
      s.store.gtidPurged := by
    intro p recorded logPos
    rw [KingbusServer.saveProgress]
    split <;> rfl
  have hwrites : ∀ {s₀ s₁ : KingbusServer}, s₀.store.gtidPurged = s.store.gtidPurged →
      s₀.Writes i event s₁ → s₁.store.gtidPurged = s.store.gtidPurged := by
    intro s₀ s₁ h₀ hw
    cases hw with
    | previousGtids _ _ =>
        rw [← h₀]
        simp only [MetaStore.setPreviousGtidSet]
        split <;> rfl
    | _ => exact h₀
  cases h with
  | one _ hw => exact hwrites hsave hw
  | two _ hw _ =>
      have := hwrites hsave hw
      rw [withEmptyPart]
      split <;> exact this

theorem applyEvents_gtidPurged {es : List ParsedEvent}
    (h : s.applyEvents flavor clock i es = .ok s') : s'.store.gtidPurged = s.store.gtidPurged := by
  induction es generalizing s i with
  | nil => cases h; rfl
  | cons e es ih =>
      obtain ⟨s₁, h₁, hrest⟩ := applyEvents_cons.mp h
      rw [ih hrest, (of_applyTo h₁).2.gtidPurged]

end ParsedEvent

/-- The log has the transaction. -/
def Logged (items : List LogItem) (g : Gtid) : Prop :=
  ∃ t, .stream (.trx t) ∈ items ∧ t.gtid = g

/-- What is executed is declared or in the log, and the current GTID is in the log. -/
structure Accounted (items : List LogItem) (s : KingbusServer) : Prop where
  executed : ∀ sid n, s.binlogProgress.executedGtidSet.Mem sid n →
    s.store.gtidPurged.Mem sid n ∨ HasTrx items sid n
  current : ∀ g, s.binlogProgress.currentGtid = some g → Logged items g

theorem HasTrx.append {items rest : List LogItem} {sid : Sid} {n : Int}
    (h : HasTrx items sid n) : HasTrx (items ++ rest) sid n := by
  obtain ⟨t, ht, h⟩ := h
  exact ⟨t, List.mem_append_left _ ht, h⟩

/-- **Transactions and what is between them.** -/
theorem Accounted.stream {items : List LogItem} {s s' : KingbusServer} {item : StreamItem}
    {flavor : Flavor} {clock : Nat → Bool} {i : Nat} (h : Accounted items s)
    (happly : s.applyEvents flavor clock i item.events = .ok s') :
    Accounted (items ++ [.stream item]) s' := by
  have hevents : ∀ e ∈ item.events, ∀ g, e.gtid? = some g → Logged (items ++ [.stream item]) g := by
    intro e he g hg
    cases item with
    | trx t =>
        rw [Trx.gtid_of_mem he hg]
        exact ⟨t, List.mem_append_right _ (List.mem_singleton_self _), rfl⟩
    | between event hb =>
        have := e.boundary_of_isGtid (e.isGtid_of_gtid? hg)
        rw [List.mem_singleton.mp he, ParsedEvent.boundary_isBetween hb] at this
        cases this
  obtain ⟨hcur, hexec⟩ := TrxProgress.run_subset (G := Logged (items ++ [.stream item]))
    (by rintro g ⟨t, -, rfl⟩; exact Int.le_of_lt t.gno_pos) hevents
    (fun g hg => by
      obtain ⟨t, ht, heq⟩ := h.current g hg
      exact ⟨t, List.mem_append_left _ ht, heq⟩)
    (ParsedEvent.run_of_applyEvents happly).1
  refine ⟨fun sid n hm => ?_, hcur⟩
  rw [ParsedEvent.applyEvents_gtidPurged happly]
  rcases hexec sid n hm with hm | ⟨g, ⟨t, ht, rfl⟩, rfl, rfl⟩
  · exact (h.executed sid n hm).imp id .append
  · exact .inr ⟨t, ht, rfl, rfl⟩

/-- **The `gtid_purged` of a master.** -/
theorem Accounted.masterGtidPurged {items : List LogItem} {s s' : KingbusServer}
    {text : GtidText} (h : Accounted items s) (hdeclares : s.Declares (.masterGtidPurged text))
    (happly : s.applyMasterGtidPurged text = .ok s') :
    Accounted (items ++ [.masterGtidPurged text]) s' := by
  obtain ⟨m, hkeep, hadd, heq⟩ := s.applyMasterGtidPurged_cases text
  rw [heq] at happly
  have hreset := KingbusServer.resetBy_of_reset (KingbusServer.of_fatalOn happly)
  have hpurged : s'.store.gtidPurged = m := by
    rw [hreset.store]
    split <;> rfl
  refine ⟨fun sid n hm => ?_, fun g hg => ?_⟩
  · rw [hpurged]
    rcases (hreset.executed sid n).mp hm with hm | ⟨u, hu, rfl, hn⟩
    · exact (h.executed sid n hm).imp (hkeep sid n) .append
    · by_cases hkey : u.1 ∈ s.store.gtidPurged.sets.map Prod.fst
      · exact (h.executed u.1 n (hdeclares u hu hkey n hn)).imp (hkeep u.1 n) .append
      · exact .inl (hadd u hu hkey n hn)
  · rw [hreset.current] at hg
    cases hg

/-- **Everything executed is stored or declared purged**, and a slave that lacks what kingbus
never received is rejected, in every log whose `gtid_purged` entries declare what they add. -/
theorem executed_is_accounted (flavor : Flavor) (clock : Nat → Bool) (items : List LogItem)
    (i : Nat) (s : KingbusServer)
    (log : AppliedLog KingbusServer.Declares flavor clock items i s) :
    (∀ sid n, s.binlogProgress.executedGtidSet.Mem sid n →
        s.store.gtidPurged.Mem sid n ∨ HasTrx items sid n) ∧
      ∀ slave sid n, s.binlogProgress.executedGtidSet.Mem sid n → ¬ HasTrx items sid n →
        ¬ slave.Mem sid n → s.checkGtidSet slave ≠ .ok () := by
  have haccounted : Accounted items s := by
    induction log with
    | nil i =>
        exact ⟨fun sid n hm => absurd hm (MysqlGTIDSet.not_mem_empty sid n),
          fun g hg => absurd hg.symm (Option.some_ne_none g)⟩
    | @step items i s s' item _ h applied ih =>
        cases item with
        | stream item => exact ih.stream applied
        | masterGtidPurged text => exact ih.masterGtidPurged h applied
  refine ⟨haccounted.executed, fun slave sid n hm hno hlack hcheck => ?_⟩
  -- what was never received is declared, and the slave must have what is declared
  have hpurged := (haccounted.executed sid n hm).resolve_right hno
  rw [KingbusServer.checkGtidSet] at hcheck
  split at hcheck
  · cases hcheck
  · split at hcheck
    · next hcontain => exact hlack (MysqlGTIDSet.subset_of_contain hcontain sid n hpurged)
    · cases hcheck

/-! ## Two masters of one identifier -/

/-- The `gtid_purged` of a master that has purged its first transaction. -/
def purgedOne : GtidText where
  sets := [(sidA, [⟨1, 2⟩])]

/-- The `gtid_purged` of the same master, or of a replica, once both are purged. -/
def purgedTwo : GtidText where
  sets := [(sidA, [⟨1, 3⟩])]

/-- A server that has applied the given part of a log. -/
def afterItem (s : KingbusServer) (i : Nat) (item : LogItem) : KingbusServer :=
  (item.apply .mySQL (fun _ => false) s i).toOption.getD s

theorem apply_eq_afterItem {s : KingbusServer} {i : Nat} {item : LogItem}
    (h : (item.apply .mySQL (fun _ => false) s i).isOk = true) :
    item.apply .mySQL (fun _ => false) s i = .ok (afterItem s i item) := by
  obtain ⟨s', hs'⟩ := exists_of_isOk h
  rw [afterItem, hs']
  rfl

/-- A server behind the first of the two entries. -/
def afterPurgedOne : KingbusServer :=
  afterItem (.start .fresh) 1 (.masterGtidPurged purgedOne)

theorem appliedLog_purgedOne {P : KingbusServer → LogItem → Prop}
    (h : P (.start .fresh) (.masterGtidPurged purgedOne)) :
    AppliedLog P .mySQL (fun _ => false) ([] ++ [.masterGtidPurged purgedOne]) 2 afterPurgedOne :=
  .step (.nil 1) h (apply_eq_afterItem (by decide +kernel))

theorem executed_is_accounted_purgedOne :
    AppliedLog KingbusServer.Declares .mySQL (fun _ => false)
        ([] ++ [.masterGtidPurged purgedOne] ++ [.stream (.trx trxTwo)]) 5
        (afterItem afterPurgedOne 2 (.stream (.trx trxTwo))) ∧
      ∀ sid n, (afterItem afterPurgedOne 2 (.stream (.trx trxTwo))).binlogProgress.executedGtidSet.Mem
          sid n →
        (afterItem afterPurgedOne 2 (.stream (.trx trxTwo))).store.gtidPurged.Mem sid n ∨
          HasTrx ([] ++ [.masterGtidPurged purgedOne] ++ [.stream (.trx trxTwo)]) sid n := by
  have log : AppliedLog KingbusServer.Declares .mySQL (fun _ => false)
      ([] ++ [.masterGtidPurged purgedOne] ++ [.stream (.trx trxTwo)]) 5
      (afterItem afterPurgedOne 2 (.stream (.trx trxTwo))) :=
    .step (appliedLog_purgedOne fun _ _ hkey => absurd hkey List.not_mem_nil) trivial
      (apply_eq_afterItem (by decide +kernel))
  exact ⟨log, (executed_is_accounted _ _ _ _ _ log).1⟩

/-- A server behind both entries. -/
def afterPurgedTwo : KingbusServer := afterItem afterPurgedOne 2 (.masterGtidPurged purgedTwo)

/-- **The second transaction is claimed as executed**: it is neither in the log nor
declared, and a slave that lacks it is accepted. -/
theorem later_purge_is_not_declared :
    AppliedLog (fun _ _ => True) .mySQL (fun _ => false)
        ([] ++ [.masterGtidPurged purgedOne] ++ [.masterGtidPurged purgedTwo]) 3 afterPurgedTwo ∧
      afterPurgedTwo.binlogProgress.executedGtidSet.Mem sidA 2 ∧
      ¬ afterPurgedTwo.store.gtidPurged.Mem sidA 2 ∧
      ¬ HasTrx ([] ++ [.masterGtidPurged purgedOne] ++ [.masterGtidPurged purgedTwo]) sidA 2 ∧
      ¬ firstOfA.Mem sidA 2 ∧ afterPurgedTwo.checkGtidSet firstOfA = .ok () := by
  have hcheck : (afterPurgedTwo.checkGtidSet firstOfA).isOk = true := by decide +kernel
  obtain ⟨⟨⟩, hcheck⟩ := exists_of_isOk hcheck
  refine ⟨.step (appliedLog_purgedOne trivial) trivial (apply_eq_afterItem (by decide +kernel)),
    by decide +kernel, by decide +kernel, ?_, by decide +kernel, hcheck⟩
  rintro ⟨t, ht, -⟩
  simp only [List.nil_append, List.cons_append, List.mem_cons, reduceCtorEq, List.not_mem_nil,
    or_self] at ht

end Kingbus
