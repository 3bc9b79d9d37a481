import Kingbus.LeaderReset

/-! # Streams that are cut at an entry

A stream of transactions reaches a replica as raft entries, one or two for each event, and a cut
behind the first `k` entries may fall anywhere.  Before the cut, the transactions are recorded
whose recording event has an entry among the `k` (`Records`, `exists_records`); behind a cut at which the
current GTID is forgotten, those that have not begun (`Idle.rest`, `carries_drop`). -/

namespace Kingbus

/-- The transaction ends with an `XID_EVENT`. -/
def TrxBody.endsWithXid : TrxBody → Bool
  | ddl .. => false
  | dml _ _ ending _ _ _ => ending.eventType = .xid

/-- Only an end with a statement `COMMIT` can lose the GTID. -/
theorem TrxBody.lost_eq_false {body : TrxBody} (h : body.endsWithXid = true) :
    body.lost = false := by
  cases body with
  | ddl => rfl
  | dml opening statements ending _ _ _ =>
      rw [TrxBody.endsWithXid, decide_eq_true_eq] at h
      refine decide_eq_false fun hlost => ?_
      have hquery := (ParsedEvent.isQuery_iff.mp hlost.2.2).1
      rw [h] at hquery
      cases hquery

/-- The entries of a part of a stream. -/
def StreamItem.entries (item : StreamItem) (flavor : Flavor) : List LogEntry :=
  item.events.flatMap (·.entries flavor)

/-- The entries of a stream. -/
def streamEntries (flavor : Flavor) (stream : List StreamItem) : List LogEntry :=
  stream.flatMap (·.entries flavor)

/-- The parts that begin behind the first `k` entries. -/
def notBegun (flavor : Flavor) : List StreamItem → Nat → List StreamItem
  | [], _ => []
  | item :: stream, k =>
      if k = 0 then item :: stream else notBegun flavor stream (k - (item.entries flavor).length)

/-- The events of a body behind which the parser still takes the transaction for open: `ROLLBACK TO`
is taken for its end, and a begin that is not known for a statement. -/
def TrxBody.openEvents : TrxBody → List ParsedEvent
  | ddl vars _ _ _ => vars
  | dml opening statements _ _ _ _ =>
      if toUpper opening.queryText = ascii "BEGIN" ∨ toUpper opening.queryText = ascii "XA START"
      then opening :: statements.takeWhile fun e => !e.isQuery [.rollbackTo]
      else []

/-- The entries of a transaction behind which its GTID is not recorded yet. -/
def Trx.openEntries (t : Trx) (flavor : Flavor) : List LogEntry :=
  (t.gtidEvent :: t.body.openEvents).flatMap (·.entries flavor)

/-- The stream begins with an event between transactions. -/
def startsBetween : List StreamItem → Bool
  | .between _ _ :: _ => true
  | _ => false

/-- What recording a GTID adds to a set. -/
def Gtid.Adds (g : Gtid) (sid : Sid) (n : Int) : Prop :=
  sid = g.sid ∧ HalfOpenInterval.MemList n (HalfOpenInterval.normalize [gnoInterval g.gno])

theorem length_streamEntries_cons {flavor : Flavor} {item : StreamItem} {stream : List StreamItem} :
    (streamEntries flavor (item :: stream)).length =
      (item.entries flavor).length + (streamEntries flavor stream).length := by
  rw [streamEntries, List.flatMap_cons, List.length_append]
  rfl

/-- They stand behind at least `k` entries. -/
theorem mem_notBegun {flavor : Flavor} {item : StreamItem} {stream : List StreamItem} {k : Nat} :
    item ∈ notBegun flavor stream k ↔
      ∃ before after, stream = before ++ item :: after ∧
        k ≤ (streamEntries flavor before).length := by
  induction stream generalizing k with
  | nil =>
      refine iff_of_false List.not_mem_nil ?_
      rintro ⟨before, after, heq, -⟩
      exact List.append_ne_nil_of_right_ne_nil before (List.cons_ne_nil _ _) heq.symm
  | cons first stream ih =>
      rw [notBegun]
      by_cases hk : k = 0
      · rw [if_pos hk, hk, List.mem_iff_append]
        exact exists_congr fun before => exists_congr fun after =>
          (and_iff_left (Nat.zero_le _)).symm
      · rw [if_neg hk, ih]
        constructor
        · rintro ⟨before, after, rfl, hle⟩
          refine ⟨first :: before, after, rfl, ?_⟩
          rw [length_streamEntries_cons]
          omega
        · rintro ⟨before, after, heq, hle⟩
          cases before with
          | nil => exact absurd (Nat.le_zero.mp hle) hk
          | cons x before =>
              obtain ⟨rfl, hrest⟩ := List.cons.inj heq
              rw [length_streamEntries_cons] at hle
              exact ⟨before, after, hrest, by omega⟩

/-! ## Entries and events -/

/-- The entries do to the progress what the events do. -/
inductive Carries : List LogEntry → List ParsedEvent → Prop
  | nil : Carries [] []
  | whole {e : BinlogEvent} {event : ParsedEvent} {entries : List LogEntry}
      {events : List ParsedEvent} (hc : e.Consistent) (hwhole : event.Whole e)
      (h : Carries entries events) : Carries (.binlog e :: entries) (event :: events)
  | inert {entry : LogEntry} {entries : List LogEntry} {events : List ParsedEvent}
      (hinert : ∀ s elapsed i, ∃ s', KingbusServer.applyEntry s elapsed i entry = .ok s' ∧
        s'.binlogProgress.toTrxProgress = s.binlogProgress.toTrxProgress)
      (h : Carries entries events) : Carries (entry :: entries) events

namespace Carries
variable {entries entries' : List LogEntry} {events events' : List ParsedEvent}
  {clock : Nat → Bool} {s s' : KingbusServer} {i : Nat} {p : TrxProgress}

theorem append (h : Carries entries events) (h' : Carries entries' events') :
    Carries (entries ++ entries') (events ++ events') := by
  induction h with
  | nil => exact h'
  | whole hc hwhole _ ih => exact .whole hc hwhole ih
  | inert hinert _ ih => exact .inert hinert ih

/-- A cut through the entries is a cut through the events. -/
theorem split (h : Carries (entries ++ entries') events) :
    ∃ before after, events = before ++ after ∧ Carries entries before ∧
      Carries entries' after := by
  induction entries generalizing events with
  | nil => exact ⟨[], events, rfl, .nil, h⟩
  | cons entry entries ih =>
      cases h with
      | @whole e event _ events hc hwhole h =>
          obtain ⟨before, after, rfl, hb, ha⟩ := ih h
          exact ⟨event :: before, after, rfl, .whole hc hwhole hb, ha⟩
      | inert hinert h =>
          obtain ⟨before, after, rfl, hb, ha⟩ := ih h
          exact ⟨before, after, rfl, .inert hinert hb, ha⟩

theorem other (h : Carries entries events) : Carries (.other :: entries) events :=
  .inert (fun s _ _ => ⟨s, rfl, rfl⟩) h

theorem applyLog_of_run (h : Carries entries events) (hp : s.binlogProgress.run events = .ok p) :
    ∃ s', s.applyLog clock i entries = .ok s' ∧ s'.binlogProgress.toTrxProgress = p := by
  induction h generalizing s i with
  | nil => cases hp; exact ⟨s, rfl, rfl⟩
  | @whole e event _ _ hc hwhole _ ih =>
      obtain ⟨p₁, hstep, hrun⟩ := TrxProgress.run_cons.mp hp
      cases hobs : s.binlogProgress.observe event.boundary with
      | error f => rw [TrxProgress.step, hobs] at hstep; cases hstep
      | ok r =>
          obtain ⟨s₁, hs₁, hw⟩ : ∃ s₁, s.applyStored (clock i) i e = .ok s₁ ∧ _ :=
            hwhole.applyStored_ok hobs
          have hp₁ : s₁.binlogProgress.toTrxProgress = p₁ := by
            rw [TrxProgress.step, hobs] at hstep
            rw [hw.toTrxProgress, KingbusServer.saveProgress_toTrxProgress]
            exact Except.ok.inj hstep
          obtain ⟨s', hs', hq⟩ := ih (s := s₁) (i := i + 1) (by rw [hp₁]; exact hrun)
          refine ⟨s', KingbusServer.applyLog_cons.mpr ⟨s₁, ?_, hs'⟩, hq⟩
          rw [KingbusServer.applyEntry_binlog hc]
          exact hs₁
  | inert hinert _ ih =>
      obtain ⟨s₁, hs₁, heq⟩ := hinert s (clock i) i
      obtain ⟨s', hs', hq⟩ := ih (s := s₁) (i := i + 1) (by rw [heq]; exact hp)
      exact ⟨s', KingbusServer.applyLog_cons.mpr ⟨s₁, hs₁, hs'⟩, hq⟩

end Carries

namespace ParsedEvent
variable {event : ParsedEvent}

/-- An event of `MaxPayloadLen - 1` bytes is divided in two. -/
theorem parts_exact (flavor : Flavor) (hlen : event.rawData.length + 1 = maxPayloadLen) :
    event.parts flavor = [event.part 2 0 event.rawData, event.part 2 1 []] := by
  rw [MasterEvent.parts, MasterEvent.proposeBinlogEvent_exact flavor hlen]

theorem consistent_of_mem_parts {flavor : Flavor} {e : BinlogEvent} (h : e ∈ event.parts flavor) :
    e.Consistent :=
  BinlogEvent.FromSyncer.consistent ⟨event.toMasterEvent, flavor, event.header_eq, h⟩

/-- The entries of an event that is taken: one with all of it, and perhaps one that does
nothing to the progress. -/
theorem entries_of_taken (flavor : Flavor) (h : event.Taken) :
    ∃ e rest, event.entries flavor = .binlog e :: rest ∧ e.Consistent ∧ event.Whole e ∧
      Carries rest [] := by
  rcases h with hfits | ⟨hlen, hsliced⟩
  · have hparts : event.parts flavor = [event.undivided flavor] := by
      rw [MasterEvent.parts, MasterEvent.proposeBinlogEvent, if_pos hfits]
    refine ⟨event.undivided flavor, [], by rw [entries, hparts]; rfl, ?_,
      event.whole_undivided flavor, .nil⟩
    exact consistent_of_mem_parts (hparts ▸ List.mem_singleton_self _)
  · have hparts := parts_exact flavor hlen
    refine ⟨event.part 2 0 event.rawData, [.binlog (event.part 2 1 [])],
      by rw [entries, hparts]; rfl, consistent_of_mem_parts (hparts ▸ List.mem_cons_self ..),
      event.whole_part (by decide) (by decide), .inert (fun s elapsed i => ?_) .nil⟩
    have hc : (event.part 2 1 []).Consistent := @consistent_of_mem_parts event flavor _
      (hparts ▸ List.mem_cons_of_mem _ (List.mem_singleton_self _))
    refine ⟨event.withEmptyPart s i, ?_, by rw [withEmptyPart_binlogProgress]⟩
    rw [KingbusServer.applyEntry_binlog hc, event.applyStored_empty s elapsed i (by decide)
      (by decide), hsliced]
    rfl

/-- An event that is not taken has an entry that no replica survives. -/
theorem entries_of_not_taken (flavor : Flavor) (h : ¬ event.Taken) :
    ∃ entry ∈ event.entries flavor, ∀ s elapsed i, ∃ f,
      KingbusServer.applyEntry s elapsed i entry = .error f := by
  rw [Taken, not_or, not_and, Bool.not_eq_false] at h
  obtain ⟨hfits, hsliced⟩ := h
  by_cases hlen : event.rawData.length + 1 = maxPayloadLen
  · have hmem : event.part 2 1 [] ∈ event.parts flavor :=
      parts_exact flavor hlen ▸ List.mem_cons_of_mem _ (List.mem_singleton_self _)
    refine ⟨.binlog (event.part 2 1 []), List.mem_map_of_mem hmem, fun s elapsed i =>
      ⟨outOfRange, ?_⟩⟩
    rw [KingbusServer.applyEntry_binlog (consistent_of_mem_parts hmem),
      event.applyStored_empty s elapsed i (by decide) (by decide), hsliced hlen]
    rfl
  · obtain ⟨ds, hdivide, -⟩ := MasterEvent.divideBinlogEvent_head hfits
    have hmem : event.part event.dividedCount 0 (event.rawData.take (maxPayloadLen - 1)) ∈
        event.parts flavor := by
      rw [MasterEvent.parts, MasterEvent.proposeBinlogEvent, if_neg hfits, hdivide]
      exact List.mem_cons_self ..
    have hle := (MasterEvent.not_fits hfits).1
    have hpos := maxPayloadLen_pos
    refine ⟨.binlog _, List.mem_map_of_mem hmem, fun s elapsed i => ?_⟩
    rw [KingbusServer.applyEntry_binlog (consistent_of_mem_parts hmem)]
    exact ⟨_, event.applyStored_short (by decide) (by omega)⟩

end ParsedEvent

section
variable (flavor : Flavor) {events : List ParsedEvent} {stream : List StreamItem}

theorem carries_events (h : ∀ e ∈ events, e.Taken) :
    Carries (events.flatMap (·.entries flavor)) events := by
  induction events with
  | nil => exact .nil
  | cons event events ih =>
      obtain ⟨e, rest, heq, hc, hwhole, hrest⟩ :=
        ParsedEvent.entries_of_taken flavor (h event (List.mem_cons_self ..))
      rw [List.flatMap_cons, heq]
      exact .whole hc hwhole (hrest.append (ih fun x hx => h x (List.mem_cons_of_mem _ hx)))

/-- The first `k` entries of a list of events do what its first events do.  An event is among them
when one of its entries is. -/
theorem carries_take (h : ∀ e ∈ events, e.Taken) : ∀ k,
    ∃ n, Carries ((events.flatMap (·.entries flavor)).take k) (events.take n) ∧
      (∀ m, m < events.length →
        (m < n ↔ ((events.take m).flatMap (·.entries flavor)).length < k)) ∧
      ((events.flatMap (·.entries flavor)).length ≤ k → events.length ≤ n) := by
  induction events with
  | nil =>
      intro k
      rw [List.flatMap_nil, List.take_nil]
      exact ⟨0, .nil, fun m hm => absurd hm (Nat.not_lt_zero m), fun _ => Nat.le_refl 0⟩
  | cons event events ih =>
      intro k
      obtain ⟨e, rest, heq, hc, hwhole, hrest⟩ :=
        ParsedEvent.entries_of_taken flavor (h event (List.mem_cons_self ..))
      cases k with
      | zero =>
          refine ⟨0, .nil, fun m _ => iff_of_false (Nat.not_lt_zero m) (Nat.not_lt_zero _), ?_⟩
          rw [List.flatMap_cons, heq]
          exact fun hle => absurd hle (Nat.not_succ_le_zero _)
      | succ k =>
          obtain ⟨n, hcarries, hn, hfull⟩ := ih (fun x hx => h x (List.mem_cons_of_mem _ hx))
            (k - rest.length)
          have hcut : Carries (rest.take k) [] := by
            rw [← List.take_append_drop k rest] at hrest
            obtain ⟨before, after, hnil, hbefore, -⟩ := hrest.split
            rwa [(List.append_eq_nil_iff.mp hnil.symm).1] at hbefore
          refine ⟨n + 1, ?_, fun m hm => ?_, fun hle => Nat.succ_le_succ (hfull ?_)⟩
          · rw [List.flatMap_cons, heq, List.cons_append, List.take_succ_cons, List.take_append,
              List.take_succ_cons]
            exact .whole hc hwhole (hcut.append hcarries)
          · cases m with
            | zero => exact iff_of_true (Nat.succ_pos n) (Nat.succ_pos k)
            | succ m =>
                have hm' := hn m (Nat.lt_of_succ_lt_succ hm)
                rw [List.take_succ_cons, List.flatMap_cons, heq, List.length_append,
                  List.length_cons]
                omega
          · rw [List.flatMap_cons, heq, List.length_append, List.length_cons] at hle
            omega

/-- Behind its first entry, what is left of a list of events does without the first one. -/
theorem carries_tail {event : ParsedEvent} (h : ∀ e ∈ event :: events, e.Taken) (k : Nat) :
    ∃ rest, rest <:+ events ∧
      Carries (((event :: events).flatMap (·.entries flavor)).drop (k + 1)) rest := by
  obtain ⟨e, r, heq, -, -, hr⟩ :=
    ParsedEvent.entries_of_taken flavor (h event (List.mem_cons_self ..))
  have htail : Carries (r ++ events.flatMap (·.entries flavor)) events :=
    hr.append (carries_events flavor fun x hx => h x (List.mem_cons_of_mem _ hx))
  rw [← List.take_append_drop k (r ++ _)] at htail
  obtain ⟨before, after, rfl, -, hafter⟩ := htail.split
  refine ⟨after, List.suffix_append before after, ?_⟩
  rw [List.flatMap_cons, heq, List.cons_append, List.drop_succ_cons]
  exact hafter

/-- What the entries behind the first `k` do: the rest of a part that has begun, then the
parts that have not. -/
theorem carries_drop (htaken : ∀ e ∈ streamEvents stream, e.Taken) : ∀ k,
    ∃ rest, Carries ((streamEntries flavor stream).drop k)
        (rest ++ streamEvents (notBegun flavor stream k)) ∧
      (rest = [] ∨ ∃ t, .trx t ∈ stream ∧ rest <:+ t.body.events) := by
  induction stream with
  | nil => exact fun k => ⟨[], by rw [streamEntries, List.flatMap_nil, List.drop_nil]; exact .nil,
      .inl rfl⟩
  | cons item stream ih =>
      have hitem : ∀ e ∈ item.events, e.Taken := fun e he =>
        htaken e (List.mem_flatMap.mpr ⟨item, List.mem_cons_self .., he⟩)
      have hstream : ∀ e ∈ streamEvents stream, e.Taken := fun e he => by
        obtain ⟨x, hx, hex⟩ := List.mem_flatMap.mp he
        exact htaken e (List.mem_flatMap.mpr ⟨x, List.mem_cons_of_mem _ hx, hex⟩)
      intro k
      rw [notBegun, streamEntries, List.flatMap_cons]
      have hall : Carries (streamEntries flavor stream) (streamEvents stream) := by
        have := carries_events flavor hstream
        rwa [streamEvents, List.flatMap_assoc] at this
      split
      · next h0 =>
        subst h0
        refine ⟨[], ?_, .inl rfl⟩
        rw [List.drop_zero, List.nil_append, streamEvents, List.flatMap_cons]
        exact (carries_events flavor hitem).append hall
      · next h0 =>
        rw [List.drop_append]
        by_cases hle : (item.entries flavor).length ≤ k
        · obtain ⟨rest, hrest, hcases⟩ := ih hstream (k - (item.entries flavor).length)
          refine ⟨rest, ?_, hcases.imp_right (Exists.imp fun t h =>
            h.imp_left (List.mem_cons_of_mem item))⟩
          rw [List.drop_of_length_le hle, List.nil_append]
          exact hrest
        · -- the cut is in this part, behind its first entry
          have hsub : k - (item.entries flavor).length = 0 := by omega
          obtain ⟨n, rfl⟩ := Nat.exists_eq_succ_of_ne_zero h0
          have hnot : notBegun flavor stream 0 = stream := by
            cases stream <;> rfl
          rw [hsub, List.drop_zero, hnot]
          cases item with
          | trx t =>
              obtain ⟨rest, hsuffix, hrest⟩ := carries_tail flavor hitem n
              exact ⟨rest, hrest.append hall, .inr ⟨t, List.mem_cons_self .., hsuffix⟩⟩
          | between event he =>
              obtain ⟨rest, hsuffix, hrest⟩ := carries_tail flavor hitem n
              cases List.suffix_nil.mp hsuffix
              exact ⟨[], hrest.append hall, .inl rfl⟩

end

/-! ## The rest of a transaction -/

namespace TrxProgress

/-- Without a current GTID. -/
structure Idle (E : Sid → Int → Prop) (p : TrxProgress) : Prop where
  holds : Holds E p
  current : p.currentGtid = none

variable {E : Sid → Int → Prop} {p : TrxProgress} {event : ParsedEvent} {es : List ParsedEvent}

/-- An event of a transaction whose GTID is forgotten records nothing. -/
theorem Idle.step (h : Idle E p) (hb : event.boundary ≠ .gtid) :
    ∃ p', p.step event = .ok p' ∧ Idle E p' ∧
      (event.boundary = .endTrx ∨ event.boundary = .endXaTrx → p'.trxBoundaryParser = .none) := by
  have hnot : ∀ g, ¬ p.Due event.boundary g := by
    intro g hdue
    exact absurd (hdue.2.1.symm.trans h.current) (Option.some_ne_none g)
  obtain ⟨r, hr, hobs⟩ := observe_ok fun g hdue => absurd hdue (hnot g)
  refine ⟨r.1, step_of_observe rfl hb hr, ?_⟩
  cases hobs with
  | partialTrx _ => exact ⟨⟨⟨h.holds.executed, h.holds.saved⟩, rfl⟩, fun _ => rfl⟩
  | recorded hdue _ => exact absurd hdue (hnot _)
  | moved hst _ =>
      refine ⟨⟨⟨h.holds.executed, h.holds.saved⟩, h.current⟩, fun hend => ?_⟩
      revert hst
      rcases hend with hend | hend <;> rw [hend] <;> cases p.trxBoundaryParser <;>
        intro hst <;> cases hst <;> rfl

theorem Idle.run (h : Idle E p) (hb : ∀ e ∈ es, e.boundary ≠ .gtid) :
    ∃ p', p.run es = .ok p' ∧ Idle E p' := by
  induction es generalizing p with
  | nil => exact ⟨p, rfl, h⟩
  | cons e es ih =>
      obtain ⟨p₁, hs₁, h₁, -⟩ := h.step (hb e (List.mem_cons_self ..))
      obtain ⟨p', hs', h'⟩ := ih h₁ fun x hx => hb x (List.mem_cons_of_mem _ hx)
      exact ⟨p', run_cons.mpr ⟨p₁, hs₁, hs'⟩, h'⟩

/-- **The rest of a transaction behind a reset**: nothing is recorded, and the parser is
outside of transactions again. -/
theorem Idle.rest {body : TrxBody} (h : Idle E p) (hp : p.trxBoundaryParser = .none)
    (hxid : body.endsWithXid = true) (hes : es = [] ∨ es <:+ body.events) :
    ∃ p', p.run es = .ok p' ∧ Between E p' := by
  have hbetween : ∀ {q}, Idle E q → q.trxBoundaryParser = .none → Between E q := fun hi hn =>
    ⟨hi.holds, .inr ⟨hn, fun hu => hu.1 hi.current⟩⟩
  rcases hes with rfl | hsuffix
  · exact ⟨p, rfl, hbetween h hp⟩
  · cases body with
    | ddl _ _ _ _ => cases hxid
    | dml opening statements ending opening_ok statements_ok ending_ok =>
        rcases List.suffix_concat_iff.mp hsuffix with rfl | ⟨before, rfl, hbefore⟩
        · exact ⟨p, rfl, hbetween h hp⟩
        · have hinner : ∀ e ∈ before, e.boundary ≠ .gtid := by
            intro e he
            rcases List.mem_cons.mp (hbefore.subset he) with rfl | he
            · rw [ParsedEvent.boundary_opens opening_ok]
              split <;> decide
            · rw [ParsedEvent.boundary_isStatement (statements_ok e he)]
              split
              · decide
              · split <;> decide
          have hend : ending.boundary = .endTrx ∨ ending.boundary = .endXaTrx := by
            have hb := ParsedEvent.boundary_isEnding ending_ok
            rw [if_neg] at hb
            · exact hb
            · intro hq
              have ht := (ParsedEvent.isQuery_iff.mp hq).1
              rw [TrxBody.endsWithXid, decide_eq_true_eq, ht] at hxid
              cases hxid
          obtain ⟨p₁, hs₁, h₁⟩ := h.run hinner
          have hne : ending.boundary ≠ .gtid := by
            rcases hend with hend | hend <;> rw [hend] <;> decide
          obtain ⟨p', hs', h', hnone⟩ := h₁.step hne
          refine ⟨p', ?_, hbetween h' (hnone hend)⟩
          rw [run_append, hs₁]
          exact run_cons.mpr ⟨p', hs', rfl⟩

/-! ## The beginning of a transaction -/

variable {g : Gtid} {statements : List ParsedEvent} {ending : ParsedEvent}

/-- Behind the recorded end of a transaction, any part of the rest changes nothing. -/
theorem Done.take (h : Done E p) (hes : ∀ e ∈ statements, e.isStatement = true)
    (he : ending.isEnding = true) (n : Nat) :
    ∃ p', p.run ((statements ++ [ending]).take n) = .ok p' ∧ Holds E p' := by
  by_cases hn : n ≤ statements.length
  · obtain ⟨p', hs, hdone⟩ := h.statements fun e he => hes e (List.mem_of_mem_take he)
    refine ⟨p', ?_, hdone.holds⟩
    rw [List.take_append_of_le_length hn]
    exact hs
  · obtain ⟨p₁, hs₁, hdone⟩ := h.statements hes
    obtain ⟨p', hs', hbetween⟩ := hdone.ending he
    refine ⟨p', ?_, hbetween.holds⟩
    rw [List.take_of_length_le (by rw [List.length_append, List.length_singleton]; omega),
      run_append, hs₁]
    exact run_cons.mpr ⟨p', hs', rfl⟩

/-- Behind the begin, the GTID is recorded with the first `ROLLBACK TO`, or at the end. -/
theorem Inside.take (h : Inside g E p) (hes : ∀ e ∈ statements, e.isStatement = true)
    (he : ending.isEnding = true) (hxid : ending.eventType = .xid) (hpos : 0 < g.gno)
    (hmax : g.gno < 2 ^ 63 - 1) (n : Nat) :
    ∃ p', p.run ((statements ++ [ending]).take n) = .ok p' ∧
      Holds (if n ≤ (statements.takeWhile fun e => !e.isQuery [.rollbackTo]).length then E
        else Joined E g) p' := by
  induction statements generalizing p n with
  | nil =>
      cases n with
      | zero => exact ⟨p, rfl, h.holds⟩
      | succ n =>
          have hb : ending.boundary = .endTrx ∨ ending.boundary = .endXaTrx := by
            have hcases := ParsedEvent.boundary_isEnding he
            rwa [if_neg] at hcases
            intro hquery
            have htype := (ParsedEvent.isQuery_iff.mp hquery).1
            rw [hxid] at htype
            cases htype
          obtain ⟨p', hs, hdone, -⟩ := h.ending hb hpos hmax
          refine ⟨p', ?_, ?_⟩
          · rw [List.nil_append, List.take_succ_cons, List.take_nil]
            exact run_cons.mpr ⟨p', hs, rfl⟩
          · rw [List.takeWhile_nil, List.length_nil, if_neg (Nat.not_succ_le_zero n)]
            exact hdone.holds
  | cons e es ih =>
      cases n with
      | zero => exact ⟨p, rfl, h.holds⟩
      | succ n =>
          have hrest : ∀ x ∈ es, x.isStatement = true := fun x hx =>
            hes x (List.mem_cons_of_mem _ hx)
          have hb := ParsedEvent.boundary_isStatement (hes e (List.mem_cons_self ..))
          rw [List.cons_append, List.take_succ_cons]
          by_cases hto : e.isQuery [.rollbackTo] = true
          · rw [if_pos hto] at hb
            obtain ⟨p₁, hs₁, hdone, -⟩ := h.ending (.inl hb) hpos hmax
            obtain ⟨p', hs', hholds⟩ := hdone.take hrest he n
            refine ⟨p', run_cons.mpr ⟨p₁, hs₁, hs'⟩, ?_⟩
            rw [List.takeWhile_cons_of_neg (by rw [hto]; decide), List.length_nil,
              if_neg (Nat.not_succ_le_zero n)]
            exact hholds
          · have hno : e.isQuery [.rollbackTo] = false := Bool.eq_false_of_not_eq_true hto
            have hstatement : e.boundary = .statement ∨ e.boundary = .preStatement := by
              rw [hb, if_neg hto]
              split
              · exact .inr rfl
              · exact .inl rfl
            obtain ⟨p₁, hs₁, hin⟩ := h.statement hstatement
            obtain ⟨p', hs', hholds⟩ := ih hin hrest n
            refine ⟨p', run_cons.mpr ⟨p₁, hs₁, hs'⟩, ?_⟩
            rw [List.takeWhile_cons_of_pos (by rw [hno]; decide), List.length_cons]
            simp only [Nat.succ_le_succ_iff]
            exact hholds

/-- A body records the GTID with the event behind its `openEvents`. -/
theorem Waiting.take {body : TrxBody} (h : Waiting g E p) (hddl : p.trxBoundaryParser ≠ .ddl)
    (hxid : body.endsWithXid = true) (hpos : 0 < g.gno) (hmax : g.gno < 2 ^ 63 - 1) (n : Nat) :
    ∃ p', p.run (body.events.take n) = .ok p' ∧
      Holds (if n ≤ body.openEvents.length then E else Joined E g) p' := by
  cases body with
  | ddl _ _ _ _ => cases hxid
  | dml opening statements ending opening_ok statements_ok ending_ok =>
      rw [TrxBody.endsWithXid, decide_eq_true_eq] at hxid
      cases n with
      | zero => exact ⟨p, rfl, by rw [if_pos (Nat.zero_le _)]; exact h.holds⟩
      | succ n =>
          have hb := ParsedEvent.boundary_opens opening_ok
          rw [TrxBody.events, List.cons_append, List.take_succ_cons, TrxBody.openEvents]
          by_cases hbegin : toUpper opening.queryText = ascii "BEGIN" ∨
              toUpper opening.queryText = ascii "XA START"
          · rw [if_pos hbegin] at hb ⊢
            obtain ⟨p₁, hs₁, hin⟩ := h.opening hddl hb
            obtain ⟨p', hs', hholds⟩ := hin.take statements_ok ending_ok hxid hpos hmax n
            refine ⟨p', run_cons.mpr ⟨p₁, hs₁, hs'⟩, ?_⟩
            rw [List.length_cons]
            simp only [Nat.succ_le_succ_iff]
            exact hholds
          · rw [if_neg hbegin] at hb ⊢
            obtain ⟨p₁, hs₁, hdone, -⟩ := h.statement hb hpos hmax
            obtain ⟨p', hs', hholds⟩ := hdone.take statements_ok ending_ok n
            refine ⟨p', run_cons.mpr ⟨p₁, hs₁, hs'⟩, ?_⟩
            rw [List.length_nil, if_neg (Nat.not_succ_le_zero n)]
            exact hholds

/-- A GTID event gives up whatever was open: the progress could as well have been between
transactions. -/
theorem Holds.exists_between (h : Holds E p) :
    ∃ q, Between E q ∧
      ∀ event g, ParsedEvent.gtid? event = some g → p.step event = q.step event := by
  by_cases hp : p.trxBoundaryParser = .none
  · refine ⟨{ p with currentGtid := none }, ⟨⟨h.executed, h.saved⟩, .inr ⟨hp, fun hu => hu.1 rfl⟩⟩,
      fun event g hg => ?_⟩
    have hb := event.boundary_of_isGtid (event.isGtid_of_gtid? hg)
    have hobs := @observe_moved p .gtid .gtid (by rw [hp]; rfl) ParserState.noConfusion
    have hobs' := @observe_moved { p with currentGtid := none } .gtid .gtid (by rw [hp]; rfl)
      ParserState.noConfusion
    rw [step, step, hb, hobs, hobs', hg]
    rfl
  · refine ⟨{ p with trxBoundaryParser := .dml }, ⟨⟨h.executed, h.saved⟩, .inl rfl⟩,
      fun event g hg => ?_⟩
    have hb := event.boundary_of_isGtid (event.isGtid_of_gtid? hg)
    have herr : (p.trxBoundaryParser.updateState .gtid).2 = true := by
      cases hparser : p.trxBoundaryParser with
      | none => exact absurd hparser hp
      | gtid => rfl
      | ddl => rfl
      | dml => rfl
      | error => rfl
    have hobs : p.observe .gtid =
        .ok ({ p with trxBoundaryParser := .none, currentGtid := none }, false) := if_pos herr
    have hobs' : { p with trxBoundaryParser := .dml }.observe .gtid =
        .ok ({ p with trxBoundaryParser := .none, currentGtid := none }, false) := if_pos rfl
    rw [step, step, hb, hobs, hobs']

/-- **The beginning of a transaction**, in any state: the GTID is recorded with the event behind
the open ones. -/
theorem Holds.take (h : Holds E p) (t : Trx) (hxid : t.body.endsWithXid = true) (n : Nat) :
    ∃ p', p.run (t.events.take n) = .ok p' ∧
      Holds (if n ≤ t.body.openEvents.length + 1 then E else Joined E t.gtid) p' := by
  cases n with
  | zero => exact ⟨p, rfl, h⟩
  | succ n =>
      obtain ⟨q, hbetween, hsame⟩ := h.exists_between
      obtain ⟨p₁, hs₁, hwait, hddl⟩ := hbetween.gtid t.gtid_eq
      obtain ⟨p', hs', hholds⟩ := hwait.take hddl hxid t.gno_pos t.gno_max n
      refine ⟨p', ?_, ?_⟩
      · rw [Trx.events, List.take_succ_cons]
        exact run_cons.mpr ⟨p₁, (hsame _ _ t.gtid_eq).trans hs₁, hs'⟩
      · simp only [Nat.succ_le_succ_iff]
        exact hholds

theorem Holds.congr {E' : Sid → Int → Prop} (h : Holds E p) (hE : ∀ sid n, E sid n ↔ E' sid n) :
    Holds E' p :=
  ⟨fun sid n => (h.executed sid n).trans (hE sid n),
    fun g hpos hg => (hE _ _).mp (h.saved g hpos hg)⟩

theorem Between.pending_eq_none (h : Between E p) : p.pending = none := by
  rw [pending]
  rcases h.parser with hp | ⟨-, hrec⟩
  · exact if_neg fun hc => by rw [hp] at hc; cases hc.1
  · by_cases hcond : p.trxBoundaryParser = .none ∧ p.lastSaveGtid ≠ p.currentGtid
    · rw [if_pos hcond]
      by_contra hsome
      exact hrec ⟨hsome, hcond.2.symm⟩
    · exact if_neg hcond

/-- A whole transaction, in any state. -/
theorem Holds.trx (h : Holds E p) (t : Trx) (hxid : t.body.endsWithXid = true) :
    ∃ p', p.run t.events = .ok p' ∧ Holds (Joined E t.gtid) p' ∧ p'.pending = none := by
  obtain ⟨q, hbetween, hsame⟩ := h.exists_between
  obtain ⟨p', hrun, hb⟩ := hbetween.trx t
  rw [TrxBody.lost_eq_false hxid, if_neg Bool.false_ne_true] at hb
  refine ⟨p', ?_, hb.holds, hb.pending_eq_none⟩
  rw [Trx.events, run, hsame _ _ t.gtid_eq]
  exact hrun

/-- An event between transactions changes nothing, unless a GTID is left over. -/
theorem step_between (hp : p.pending = none) (he : event.isBetween = true) :
    p.step event = .ok p := by
  have hst : p.trxBoundaryParser.updateState .ignore = (p.trxBoundaryParser, false) := rfl
  have hobs := observe_moved hst fun hnone hun => ?_
  · exact step_of_observe (ParsedEvent.boundary_isBetween he) (by decide) hobs
  · rw [pending, if_pos ⟨hnone, hun.2.symm⟩] at hp
    exact hun.1 hp

/-- A GTID that is left over is recorded with the next event between transactions. -/
theorem Holds.leftOver (h : Holds E p) (hp : p.pending = some g) (hs : Storable g.gno)
    (he : event.isBetween = true) :
    ∃ p', p.step event = .ok p' ∧ p'.pending = none ∧
      Holds (fun sid n => E sid n ∨ g.Adds sid n) p' := by
  have hdue : p.Due .ignore g := by
    obtain ⟨hnone, hcurrent, hlast⟩ := pending_eq_some.mp hp
    exact ⟨by rw [hnone]; rfl, hcurrent, hlast⟩
  obtain ⟨r, hr, hobs⟩ := @observe_ok p .ignore fun g' hdue' => by
    cases hdue.2.1.symm.trans hdue'.2.1
    exact hs
  refine ⟨r.1, step_of_observe (ParsedEvent.boundary_isBetween he) (by decide) hr, ?_⟩
  cases hobs with
  | partialTrx herr => cases herr
  | moved _ hnot => exact absurd hdue (hnot g)
  | @recorded g' hdue' _ =>
      cases hdue.2.1.symm.trans hdue'.2.1
      refine ⟨?_, fun sid n => ?_, fun g' hpos hg' => ?_⟩
      · exact if_neg fun hc => hc.2 hdue.2.1.symm
      · rw [MysqlGTIDSet.mem_addSet, h.executed]
        rfl
      · cases hg'
        exact .inr ⟨rfl, (MysqlGTIDSet.memList_gnoInterval (Int.le_of_lt hpos)).mpr rfl⟩

/-- Unless its number cannot be stored. -/
theorem step_leftOver_error (hp : p.pending = some g) (hs : ¬ Storable g.gno)
    (he : event.isBetween = true) : ∃ text, p.observe event.boundary = .error (.error text) := by
  obtain ⟨hnone, hcurrent, hlast⟩ := pending_eq_some.mp hp
  rw [ParsedEvent.boundary_isBetween he]
  exact observe_error ⟨by rw [hnone]; rfl, hcurrent, hlast⟩ hs

end TrxProgress

/-! ## What is recorded before the reset -/

/-- The first `k` entries of the stream record the GTID of one of its transactions. -/
def RecordedBefore (flavor : Flavor) (stream : List StreamItem) (k : Nat) (sid : Sid) (n : Int) :
    Prop :=
  ∃ before t after, stream = before ++ .trx t :: after ∧
    (streamEntries flavor before).length + (t.openEntries flavor).length < k ∧
    sid = t.gtid.sid ∧ n = t.gtid.gno

section
variable {flavor : Flavor} {item : StreamItem} {stream : List StreamItem} {k : Nat} {sid : Sid}
  {n : Int}

theorem recordedBefore_cons :
    RecordedBefore flavor (item :: stream) k sid n ↔
      (∃ t, item = .trx t ∧ (t.openEntries flavor).length < k ∧ sid = t.gtid.sid ∧
        n = t.gtid.gno) ∨
      RecordedBefore flavor stream (k - (item.entries flavor).length) sid n := by
  constructor
  · rintro ⟨before, t, after, heq, hlt, hgtid⟩
    cases before with
    | nil =>
        rw [streamEntries, List.flatMap_nil, List.length_nil, Nat.zero_add] at hlt
        exact .inl ⟨t, (List.cons.inj heq).1, hlt, hgtid⟩
    | cons x before =>
        obtain ⟨rfl, hrest⟩ := List.cons.inj heq
        rw [length_streamEntries_cons] at hlt
        exact .inr ⟨before, t, after, hrest, by omega, hgtid⟩
  · rintro (⟨t, rfl, hlt, hgtid⟩ | ⟨before, t, after, rfl, hlt, hgtid⟩)
    · refine ⟨[], t, stream, rfl, ?_, hgtid⟩
      rw [streamEntries, List.flatMap_nil, List.length_nil, Nat.zero_add]
      exact hlt
    · refine ⟨item :: before, t, after, rfl, ?_, hgtid⟩
      rw [length_streamEntries_cons]
      omega

theorem not_recordedBefore_zero : ¬ RecordedBefore flavor stream 0 sid n := by
  rintro ⟨_, _, _, -, hlt, -⟩
  exact Nat.not_lt_zero _ hlt

theorem Carries.eq_nil {events : List ParsedEvent} (h : Carries [] events) : events = [] := by
  cases h
  rfl

/-- Behind the open events comes the one that records the GTID. -/
theorem TrxBody.events_eq_openEvents (body : TrxBody) :
    ∃ event rest, body.events = body.openEvents ++ event :: rest := by
  cases body with
  | ddl vars query _ _ => exact ⟨query, [], rfl⟩
  | dml opening statements ending _ _ _ =>
      rw [TrxBody.openEvents, TrxBody.events]
      split
      · have hsplit := List.takeWhile_append_dropWhile
          (p := fun e : ParsedEvent => !e.isQuery [.rollbackTo]) (l := statements)
        cases hdrop : statements.dropWhile fun e => !e.isQuery [.rollbackTo] with
        | nil =>
            rw [hdrop, List.append_nil] at hsplit
            exact ⟨ending, [], by rw [List.cons_append, hsplit, List.cons_append]⟩
        | cons event rest =>
            rw [hdrop] at hsplit
            refine ⟨event, rest ++ [ending], ?_⟩
            conv_lhs => rw [← hsplit]
            rw [List.cons_append, List.cons_append, List.append_assoc, List.cons_append]
      · exact ⟨opening, statements ++ [ending], rfl⟩

theorem Trx.take_events (t : Trx) :
    t.body.openEvents.length + 1 < t.events.length ∧
      t.events.take (t.body.openEvents.length + 1) = t.gtidEvent :: t.body.openEvents := by
  obtain ⟨event, rest, heq⟩ := t.body.events_eq_openEvents
  rw [Trx.events, heq, List.length_cons, List.length_append, List.length_cons,
    List.take_succ_cons, List.take_left' rfl]
  exact ⟨by omega, rfl⟩

theorem not_recordedBefore_nil : ¬ RecordedBefore flavor [] k sid n := by
  rintro ⟨before, t, after, heq, -⟩
  exact List.append_ne_nil_of_right_ne_nil before (List.cons_ne_nil _ _) heq.symm

/-- The events do what the first `k` entries of the stream do, in any state that has no GTID left
over where it matters: they record the GTIDs of the transactions that they complete. -/
structure Records (flavor : Flavor) (stream : List StreamItem) (k : Nat)
    (events : List ParsedEvent) : Prop where
  carries : Carries ((streamEntries flavor stream).take k) events
  first : ∀ e he rest, stream = .between e he :: rest → 0 < k → ∃ es, events = e :: es
  run : ∀ E p, TrxProgress.Holds E p → (startsBetween stream = true → p.pending = none) →
    ∃ p', p.run events = .ok p' ∧
      TrxProgress.Holds (fun sid n => E sid n ∨ RecordedBefore flavor stream k sid n) p'

theorem records_nil (flavor : Flavor) (k : Nat) : Records flavor [] k [] where
  carries := by
    rw [streamEntries, List.flatMap_nil, List.take_nil]
    exact .nil
  first _ _ _ heq := absurd heq.symm (List.cons_ne_nil _ _)
  run E p h _ := by
    refine ⟨p, rfl, ?_⟩
    simp only [not_recordedBefore_nil, or_false]
    exact h

namespace Records
variable {rest : List ParsedEvent}

theorem carries_cons (h : Records flavor stream (k - (item.entries flavor).length) rest) {m : Nat}
    (hitem : Carries ((item.entries flavor).take k) (item.events.take m)) :
    Carries ((streamEntries flavor (item :: stream)).take k) (item.events.take m ++ rest) := by
  rw [streamEntries, List.flatMap_cons, List.take_append]
  exact hitem.append h.carries

/-- Behind a cut in the first item there is nothing. -/
theorem eq_nil_of_le (h : Records flavor stream (k - (item.entries flavor).length) rest)
    (hle : k ≤ (item.entries flavor).length) : rest = [] ∧
      ∀ sid n, ¬ RecordedBefore flavor stream (k - (item.entries flavor).length) sid n := by
  have hcarries := h.carries
  rw [Nat.sub_eq_zero_of_le hle] at hcarries ⊢
  exact ⟨hcarries.eq_nil, fun _ _ => not_recordedBefore_zero⟩

/-- An event between transactions in front. -/
theorem between {e : ParsedEvent} {he : e.isBetween = true}
    (h : Records flavor stream (k - (StreamItem.entries (.between e he) flavor).length) rest)
    (htaken : e.Taken) : ∃ events, Records flavor (.between e he :: stream) k events := by
  obtain ⟨m, hcarries, hm, -⟩ :=
    @carries_take flavor [e] (fun x hx => List.mem_singleton.mp hx ▸ htaken) k
  have hpos : 0 < m ↔ 0 < k := hm 0 Nat.zero_lt_one
  refine ⟨[e].take m ++ rest, h.carries_cons hcarries, ?_, fun E p hholds hp => ?_⟩
  · rintro e' he' rest' heq hk
    cases heq
    obtain ⟨m, rfl⟩ := Nat.exists_eq_succ_of_ne_zero (Nat.ne_of_gt (hpos.mpr hk))
    exact ⟨_, by rw [List.take_succ_cons]; rfl⟩
  · simp only [recordedBefore_cons, reduceCtorEq, false_and, exists_false, false_or]
    by_cases hk : 0 < k
    · obtain ⟨m, rfl⟩ := Nat.exists_eq_succ_of_ne_zero (Nat.ne_of_gt (hpos.mpr hk))
      obtain ⟨p', hs', h'⟩ := h.run E p hholds fun _ => hp rfl
      refine ⟨p', ?_, h'⟩
      rw [List.take_succ_cons, List.take_nil, List.singleton_append]
      exact TrxProgress.run_cons.mpr ⟨p, TrxProgress.step_between (hp rfl) he, hs'⟩
    · obtain ⟨hnil, hnone⟩ := h.eq_nil_of_le (by omega)
      obtain rfl : m = 0 := by omega
      refine ⟨p, by rw [hnil]; rfl, ?_⟩
      simp only [hnone, or_false]
      exact hholds

/-- A transaction in front, taken as a whole or cut. -/
theorem trx {t : Trx}
    (h : Records flavor stream (k - ((StreamItem.trx t).entries flavor).length) rest)
    (htaken : ∀ e ∈ t.events, e.Taken) (hxid : t.body.endsWithXid = true) :
    ∃ events, Records flavor (.trx t :: stream) k events := by
  obtain ⟨m, hcarries, hm, hfull⟩ := carries_take flavor htaken k
  -- its GTID is recorded behind the entries of its open events
  have hopen : t.body.openEvents.length + 1 < m ↔ (t.openEntries flavor).length < k := by
    have hopen := hm _ t.take_events.1
    rwa [t.take_events.2] at hopen
  refine ⟨t.events.take m ++ rest, h.carries_cons hcarries, nofun, fun E p hholds _ => ?_⟩
  simp only [recordedBefore_cons, StreamItem.trx.injEq, exists_eq_left']
  by_cases hk : ((StreamItem.trx t).entries flavor).length ≤ k
  · obtain ⟨p₁, hs₁, h₁, hp₁⟩ := hholds.trx t hxid
    obtain ⟨p', hs', h'⟩ := h.run _ p₁ h₁ fun _ => hp₁
    have hlen := hfull hk
    have hrecorded := hopen.mp (Nat.lt_of_lt_of_le t.take_events.1 hlen)
    refine ⟨p', ?_, h'.congr fun sid n => ?_⟩
    · rw [List.take_of_length_le hlen, TrxProgress.run_append, hs₁]
      exact hs'
    · rw [Joined, or_assoc, and_iff_right hrecorded]
  · obtain ⟨hnil, hnone⟩ := h.eq_nil_of_le (Nat.le_of_not_le hk)
    obtain ⟨p', hs', h'⟩ := hholds.take t hxid m
    refine ⟨p', by rw [hnil, List.append_nil]; exact hs', ?_⟩
    simp only [hnone, or_false]
    refine h'.congr fun sid n => ?_
    by_cases hle : m ≤ t.body.openEvents.length + 1
    · have hnot : ¬ (t.openEntries flavor).length < k := fun hlt =>
        Nat.not_lt.mpr hle (hopen.mpr hlt)
      rw [if_pos hle]
      simp only [hnot, false_and, or_false]
    · have hrecorded := hopen.mp (Nat.not_le.mp hle)
      rw [if_neg hle, Joined, and_iff_right hrecorded]

end Records

/-- **What the first `k` entries do.** -/
theorem exists_records (hxid : ∀ t, .trx t ∈ stream → t.body.endsWithXid = true)
    (htaken : ∀ e ∈ streamEvents stream, e.Taken) : ∀ k, ∃ events, Records flavor stream k events := by
  induction stream with
  | nil => exact fun k => ⟨[], records_nil flavor k⟩
  | cons item stream ih =>
      intro k
      have hitem : ∀ e ∈ item.events, e.Taken := fun e he =>
        htaken e (List.mem_flatMap.mpr ⟨item, List.mem_cons_self .., he⟩)
      obtain ⟨rest, hrest⟩ := ih (fun t ht => hxid t (List.mem_cons_of_mem _ ht))
        (fun e he => by
          obtain ⟨x, hx, hex⟩ := List.mem_flatMap.mp he
          exact htaken e (List.mem_flatMap.mpr ⟨x, List.mem_cons_of_mem _ hx, hex⟩))
        (k - (item.entries flavor).length)
      cases item with
      | between e he => exact hrest.between (hitem e (List.mem_singleton_self e))
      | trx t => exact hrest.trx hitem (hxid t (List.mem_cons_self ..))

end

end Kingbus
