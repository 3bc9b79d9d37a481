import Kingbus.EventRuns

/-! # GTIDs are recorded when their transaction is complete

Which event ends a transaction is said here in terms of event types and query texts
(`endsTrx`), without the boundary parser.  The parser takes some other events for the
end of a transaction: `ROLLBACK TO` a savepoint, `XA START` with an identifier, row
events outside of `BEGIN`, and every ignorable event when a GTID has come while it was
in no state of a transaction, as it does after a stream was cut off.  Where none of these
meets a GTID that is not recorded, a recorded GTID has a complete transaction
(`recorded_is_complete`). -/

namespace Kingbus

/-! ## Ends of transactions -/

/-- The statements that control transactions. -/
inductive QueryKind where
  | beginTrx
  | commit
  | rollback
  | rollbackTo
  | xaRollback
  | other
  deriving DecidableEq, Repr

/-- What a query text is. -/
def queryKind (query : Bytes) : QueryKind :=
  if toUpper query = ascii "BEGIN" ∨ ascii "XA START" <+: toUpper query then .beginTrx
  else if toUpper query = ascii "COMMIT" then .commit
  else if ascii "ROLLBACK TO" <+: toUpper query then .rollbackTo
  else if ascii "ROLLBACK" <+: toUpper query then .rollback
  else if ascii "XA ROLLBACK" <+: toUpper query then .xaRollback
  else .other

namespace ParsedEvent

/-- The text of a query event. -/
def queryText (event : ParsedEvent) : Bytes := (decodeQuery event.body).toOption.getD []

/-- A `GTID_EVENT` or an `ANONYMOUS_GTID_EVENT`. -/
def isGtid (event : ParsedEvent) : Bool :=
  event.eventType = .gtid ∨ event.eventType = .anonymousGtid

/-- A query that opens a transaction. -/
def opens (event : ParsedEvent) : Bool :=
  event.eventType = .query ∧ queryKind event.queryText = .beginTrx

/-- The event ends the transaction of a GTID event that the given events follow. -/
def endsTrx (between : List ParsedEvent) (event : ParsedEvent) : Bool :=
  match event.eventType with
  | .xid | .xaPrepareLog | .incident => true
  | .query =>
      match queryKind event.queryText with
      | .commit | .rollback | .xaRollback => true
      -- the single statement of a DDL
      | .other => between.all fun e => !e.opens
      | .beginTrx | .rollbackTo => false
  | _ => false

end ParsedEvent

/-- Among the events is the one of the GTID, and behind it, before any other GTID event,
one that ends its transaction. -/
def Completed (es : List ParsedEvent) (sid : Sid) (n : Int) : Prop :=
  ∃ pre ge between e post g, es = pre ++ ge :: between ++ e :: post ∧
    ge.gtid? = some g ∧ g.sid = sid ∧ g.gno = n ∧
    (∀ x ∈ between, x.isGtid = false) ∧ e.endsTrx between = true

theorem Completed.append {es fs : List ParsedEvent} {sid : Sid} {n : Int}
    (h : Completed es sid n) : Completed (es ++ fs) sid n := by
  obtain ⟨pre, ge, between, e, post, g, rfl, h⟩ := h
  exact ⟨pre, ge, between, e, post ++ fs, g, by simp only [List.append_assoc, List.cons_append], h⟩

/-! ## The parser on query texts -/

theorem not_prefix_of_prefix {a b u : Bytes} (ha : a <+: u) (hab : ¬ a <+: b ∧ ¬ b <+: a) :
    ¬ b <+: u := fun hb => (List.prefix_or_prefix_of_prefix ha hb).elim hab.1 hab.2

/-- A text that opens a transaction, by the parser or not. -/
theorem queryBoundary_beginTrx {q : Bytes} (h : queryKind q = .beginTrx) :
    queryBoundary q = .beginTrx ∨ queryBoundary q = .statement := by
  unfold queryKind at h
  split at h
  · next hb =>
    rw [queryBoundary]
    split
    · exact .inl rfl
    · next hnot =>
      have hxa : ascii "XA START" <+: toUpper q := hb.resolve_left fun hb => hnot (.inl hb)
      have h1 : ¬ ascii "ROLLBACK" <+: toUpper q := not_prefix_of_prefix hxa (by decide +kernel)
      have h2 : ¬ ascii "ROLLBACK TO " <+: toUpper q := not_prefix_of_prefix hxa (by decide +kernel)
      have h3 : ¬ ascii "XA ROLLBACK" <+: toUpper q := not_prefix_of_prefix hxa (by decide +kernel)
      rw [if_neg (not_or.mpr ⟨h1, h2⟩), if_neg h3]
      exact .inr rfl
  · repeat (first | (split at h) | cases h)

theorem queryBoundary_cases (q : Bytes) : queryBoundary q = .beginTrx ∨
    queryBoundary q = .endTrx ∨ queryBoundary q = .endXaTrx ∨ queryBoundary q = .statement := by
  rw [queryBoundary]
  repeat' split
  all_goals simp only [true_or, or_true, reduceCtorEq]

/-- What the parser takes for the end of a transaction. -/
theorem queryKind_of_endTrx {q : Bytes} (h : queryBoundary q = .endTrx) :
    queryKind q = .rollback ∨ queryKind q = .rollbackTo := by
  unfold queryBoundary at h
  split at h
  · cases h
  · split at h
    · next hroll =>
      have hroll : ascii "ROLLBACK" <+: toUpper q :=
        hroll.elim id fun hto => List.IsPrefix.trans (by decide +kernel) hto
      have h1 : toUpper q ≠ ascii "BEGIN" := by
        intro heq
        rw [heq] at hroll
        exact absurd hroll (by decide +kernel)
      have h2 : ¬ ascii "XA START" <+: toUpper q := not_prefix_of_prefix hroll (by decide +kernel)
      have h3 : toUpper q ≠ ascii "COMMIT" := by
        intro heq
        rw [heq] at hroll
        exact absurd hroll (by decide +kernel)
      rw [queryKind, if_neg (not_or.mpr ⟨h1, h2⟩), if_neg h3, if_pos hroll]
      split
      · exact .inr rfl
      · exact .inl rfl
    · split at h <;> cases h

theorem queryKind_of_endXaTrx {q : Bytes} (h : queryBoundary q = .endXaTrx) :
    queryKind q = .xaRollback := by
  unfold queryBoundary at h
  split at h
  · cases h
  · split at h
    · cases h
    · split at h
      · next hxa =>
        have h1 : toUpper q ≠ ascii "BEGIN" := by
          intro heq
          rw [heq] at hxa
          exact absurd hxa (by decide +kernel)
        have h2 : ¬ ascii "XA START" <+: toUpper q := not_prefix_of_prefix hxa (by decide +kernel)
        have h3 : toUpper q ≠ ascii "COMMIT" := by
          intro heq
          rw [heq] at hxa
          exact absurd hxa (by decide +kernel)
        have h4 : ¬ ascii "ROLLBACK TO" <+: toUpper q :=
          not_prefix_of_prefix hxa (by decide +kernel)
        have h5 : ¬ ascii "ROLLBACK" <+: toUpper q := not_prefix_of_prefix hxa (by decide +kernel)
        rw [queryKind, if_neg (not_or.mpr ⟨h1, h2⟩), if_neg h3, if_neg h4, if_neg h5, if_pos hxa]
      · cases h

/-- A statement is no rollback. -/
theorem queryKind_of_statement {q : Bytes} (h : queryBoundary q = .statement) :
    queryKind q = .beginTrx ∨ queryKind q = .commit ∨ queryKind q = .other := by
  unfold queryBoundary at h
  split at h
  · cases h
  · split at h
    · cases h
    · next hroll =>
      split at h
      · cases h
      · next hxa =>
        have hto : ¬ ascii "ROLLBACK TO" <+: toUpper q := fun hto =>
          hroll (.inl (List.IsPrefix.trans (by decide +kernel) hto))
        rw [queryKind, if_neg hto, if_neg fun h => hroll (.inl h), if_neg hxa]
        split
        · exact .inl rfl
        · split
          · exact .inr (.inl rfl)
          · exact .inr (.inr rfl)

namespace ParsedEvent
variable (event : ParsedEvent)

theorem boundary_query (h : event.eventType = .query) :
    event.boundary = queryBoundary event.queryText := by
  have hd := event.decodes
  change bodyDecodes event.eventType event.body = true at hd
  rw [h] at hd
  obtain ⟨q, hq⟩ := exists_of_isOk hd
  have hb := event.boundary_eq
  unfold eventType at h
  rw [getEventBoundaryType, h] at hb
  simp only [hq] at hb
  rw [queryText, hq]
  exact (Except.ok.inj hb).symm

theorem boundary_of_isGtid (h : event.isGtid = true) : event.boundary = .gtid := by
  have hb := event.boundary_eq
  rw [isGtid, decide_eq_true_eq] at h
  unfold eventType at h
  rcases h with h | h <;> rw [getEventBoundaryType, h] at hb <;> exact (Except.ok.inj hb).symm

theorem isGtid_of_gtid? {g : Gtid} (h : event.gtid? = some g) : event.isGtid = true := by
  rw [isGtid, decide_eq_true_eq]
  by_contra hne
  rw [event.gtid?_eq_none fun ht => hne (.inl ht)] at h
  cases h

/-- The kinds of events, by what the parser takes them for. -/
theorem boundary_cases :
    (event.isGtid = true ∧ event.boundary = .gtid) ∨
      (event.eventType = .query ∧ event.boundary = queryBoundary event.queryText) ∨
      ((event.eventType = .xid ∨ event.eventType = .xaPrepareLog) ∧ event.boundary = .endTrx) ∨
      ((event.eventType = .intvar ∨ event.eventType = .rand ∨ event.eventType = .userVar) ∧
        event.boundary = .preStatement) ∨
      (event.eventType ≠ .query ∧ event.boundary = .statement) ∨
      (event.eventType = .incident ∧ event.boundary = .incident) ∨
      event.boundary = .ignore ∨ event.boundary = .error := by
  by_cases hquery : event.eventType = .query
  · exact .inr (.inl ⟨hquery, event.boundary_query hquery⟩)
  have hb := event.boundary_eq
  unfold isGtid
  unfold eventType at hquery ⊢
  unfold getEventBoundaryType at hb
  split at hb <;> rename_i ht
  all_goals first
    | exact absurd ht hquery
    | replace hb := (Except.ok.inj hb).symm
  -- the groups of the `switch` of `GetEventBoundaryType`, one after the other
  all_goals first
    | exact .inl ⟨by rw [ht]; rfl, hb⟩
    | exact .inr (.inr (.inl ⟨by rw [ht]; decide, hb⟩))
    | exact .inr (.inr (.inr (.inl ⟨by rw [ht]; decide, hb⟩)))
    | exact .inr (.inr (.inr (.inr (.inl ⟨by rw [ht]; decide, hb⟩))))
    | exact .inr (.inr (.inr (.inr (.inr (.inl ⟨ht, hb⟩)))))
    | exact .inr (.inr (.inr (.inr (.inr (.inr (.inl hb))))))
    | split at hb
      · exact .inr (.inr (.inr (.inr (.inr (.inr (.inl hb))))))
      · exact .inr (.inr (.inr (.inr (.inr (.inr (.inr hb))))))

end ParsedEvent

/-! ## The condition -/

/-- The current GTID is not recorded. -/
def TrxProgress.Unrecorded (p : TrxProgress) : Prop :=
  p.currentGtid ≠ none ∧ p.currentGtid ≠ p.lastSaveGtid

instance (p : TrxProgress) : Decidable p.Unrecorded := inferInstanceAs (Decidable (_ ∧ _))

/-- Events that end no transaction and that the parser can take for the end of one:
ignorable events, row and load events, `ROLLBACK TO` and `XA START`. -/
def ParsedEvent.isMisread (event : ParsedEvent) : Bool :=
  event.boundary = .ignore ∨ (event.boundary = .statement ∧ event.eventType ≠ .query) ∨
    (event.eventType = .query ∧
      (queryKind event.queryText = .rollbackTo ∨ queryKind event.queryText = .beginTrx))

/-- While a GTID is not recorded, no event that ends no transaction takes the parser to its
state outside of transactions, and no anonymous transaction begins there.  Transaction
numbers are not negative. -/
def TrxProgress.Clear (p : TrxProgress) (event : ParsedEvent) : Prop :=
  (event.isMisread = true → p.trxBoundaryParser.updateState event.boundary = (.none, false) →
    ¬ p.Unrecorded) ∧
  (event.eventType = .anonymousGtid → p.trxBoundaryParser = .none → ¬ p.Unrecorded) ∧
  ∀ g ∈ event.gtid?, 0 ≤ g.gno

instance (p : TrxProgress) (event : ParsedEvent) : Decidable (p.Clear event) :=
  inferInstanceAs (Decidable (_ ∧ _ ∧ _))

/-! ## The invariant -/

/-- After the given events: recorded GTIDs have complete transactions, and a current GTID
that is not recorded is that of the last GTID event, with no begin behind it unless the
parser is in a transaction. -/
structure TrxProgress.Sound (initial : MysqlGTIDSet) (es : List ParsedEvent) (p : TrxProgress) :
    Prop where
  recorded : ∀ sid n, p.executedGtidSet.Mem sid n → initial.Mem sid n ∨ Completed es sid n
  current : ∀ g, p.currentGtid = some g → p.lastSaveGtid ≠ some g →
    0 ≤ g.gno ∧ ∃ pre ge between, es = pre ++ ge :: between ∧ ge.gtid? = some g ∧
      (∀ x ∈ between, x.isGtid = false) ∧
      (p.trxBoundaryParser ≠ .dml → ∀ x ∈ between, x.opens = false)

theorem ParserState.updateState_ne_none {s : ParserState} {b : EventBoundaryType}
    (h : b = .gtid ∨ b = .beginTrx ∨ b = .preStatement ∨ b = .error) :
    s.updateState b ≠ (.none, false) := by
  rcases h with rfl | rfl | rfl | rfl <;> cases s <;> decide

namespace TrxProgress
variable {p : TrxProgress} {event : ParsedEvent} {g : Gtid}

theorem Due.unrecorded {b : EventBoundaryType} (h : p.Due b g) : p.Unrecorded :=
  ⟨by rw [h.2.1]; exact Option.some_ne_none g, by rw [h.2.1]; exact h.2.2.symm⟩

/-- **Where a GTID is recorded, a transaction ends.** -/
theorem Due.endsTrx {between : List ParsedEvent} (h : p.Due event.boundary g)
    (hclear : p.Clear event) (hopen : p.trxBoundaryParser ≠ .dml → ∀ x ∈ between, x.opens = false) :
    event.endsTrx between = true := by
  have hst := h.1
  have hread : ¬ event.isMisread = true := fun hm => hclear.1 hm hst h.unrecorded
  rw [ParsedEvent.isMisread, decide_eq_true_eq, not_or, not_or, not_and, not_and, not_not] at hread
  obtain ⟨hignore, hrows, hquery⟩ := hread
  rcases event.boundary_cases with ⟨-, hb⟩ | ⟨ht, hb⟩ | ⟨ht, hb⟩ | ⟨-, hb⟩ | ⟨ht, hb⟩ | ⟨ht, hb⟩ |
    hb | hb
  · exact absurd (hb ▸ hst) (ParserState.updateState_ne_none (.inl rfl))
  · rw [hb] at hst
    obtain ⟨hto, hbegin⟩ := not_or.mp (hquery ht)
    rw [ParsedEvent.endsTrx, ht]
    simp only
    rcases queryBoundary_cases event.queryText with hq | hq | hq | hq
    · exact absurd (hq ▸ hst) (ParserState.updateState_ne_none (.inr (.inl rfl)))
    · rw [(queryKind_of_endTrx hq).resolve_right hto]
    · rw [queryKind_of_endXaTrx hq]
    · rcases queryKind_of_statement hq with hk | hk | hk
      · exact absurd hk hbegin
      · rw [hk]
      · -- a statement inside of `BEGIN` would leave the parser there
        have hdml : p.trxBoundaryParser ≠ .dml := by
          intro hp
          rw [hq, hp] at hst
          cases hst
        rw [hk]
        simp only [List.all_eq_true]
        exact fun x hx => by rw [hopen hdml x hx]; rfl
  · rcases ht with ht | ht <;> rw [ParsedEvent.endsTrx, ht]
  · exact absurd (hb ▸ hst) (ParserState.updateState_ne_none (.inr (.inr (.inl rfl))))
  · exact absurd (hrows hb) ht
  · rw [ParsedEvent.endsTrx, ht]
  · exact absurd hb hignore
  · exact absurd (hb ▸ hst) (ParserState.updateState_ne_none (.inr (.inr (.inr rfl))))

/-- Without a record, a GTID that is not recorded stays behind the begin of its
transaction. -/
theorem opens_of_moved {state : ParserState} {between : List ParsedEvent}
    (hst : p.trxBoundaryParser.updateState event.boundary = (state, false))
    (hnot : ¬ p.Due event.boundary g) (hg : p.currentGtid = some g)
    (hl : p.lastSaveGtid ≠ some g)
    (hopen : p.trxBoundaryParser ≠ .dml → ∀ x ∈ between, x.opens = false)
    (hdml : state ≠ .dml) : ∀ x ∈ between ++ [event], x.opens = false := by
  have hnone : state ≠ .none := by
    rintro rfl
    exact hnot ⟨hst, hg, hl⟩
  have hp : p.trxBoundaryParser ≠ .dml := by
    intro hp
    rw [hp] at hst
    cases hb : event.boundary <;> rw [hb] at hst <;> cases hst <;>
      first | exact hdml rfl | exact hnone rfl
  have hevent : event.opens = false := by
    rw [ParsedEvent.opens, decide_eq_false_iff_not]
    rintro ⟨ht, hk⟩
    rw [event.boundary_query ht] at hst
    rcases queryBoundary_beginTrx hk with hq | hq <;> rw [hq] at hst
    · have := congrArg Prod.fst hst
      cases hpar : p.trxBoundaryParser <;> rw [hpar] at this <;> exact hdml this.symm
    · cases hpar : p.trxBoundaryParser <;> rw [hpar] at hst <;> cases hst <;>
        first | exact hp hpar | exact hnone rfl
  intro x hx
  rcases List.mem_append.mp hx with hx | hx
  · exact hopen hp x hx
  · rw [List.mem_singleton.mp hx, hevent]

/-- The parser takes a GTID event without an error only outside of transactions, where an
anonymous one is not clear. -/
theorem isGtid_of_moved {state : ParserState}
    (hst : p.trxBoundaryParser.updateState event.boundary = (state, false))
    (hclear : p.Clear event) (hgtid : event.gtid? = none) (hun : p.Unrecorded) :
    event.isGtid = false := by
  by_contra hne
  have hgt : event.isGtid = true := Bool.not_eq_false _ ▸ hne
  rcases of_decide_eq_true hgt with ht | ht
  · obtain ⟨g', -, hg'⟩ := event.decodeGtid_eq ht
    rw [hg'] at hgtid
    cases hgtid
  · have hp : p.trxBoundaryParser = .none := by
      rw [event.boundary_of_isGtid hgt] at hst
      cases hp : p.trxBoundaryParser <;> rw [hp] at hst <;> first | rfl | cases hst
    exact hclear.2.1 ht hp hun

section Sound
variable {initial : MysqlGTIDSet} {es : List ParsedEvent} {q : TrxProgress}

theorem Sound.keep (h : Sound initial es p) (hset : q.executedGtidSet = p.executedGtidSet) :
    ∀ sid n, q.executedGtidSet.Mem sid n → initial.Mem sid n ∨ Completed (es ++ [event]) sid n :=
  fun sid n hm => (h.recorded sid n (hset ▸ hm)).imp id .append

/-- A GTID event is the last one, with nothing behind it. -/
theorem Sound.at_gtid (h : Sound initial es p) (hclear : p.Clear event)
    (hg : event.gtid? = some g) (hset : q.executedGtidSet = p.executedGtidSet)
    (hcurrent : q.currentGtid = some g) : Sound initial (es ++ [event]) q where
  recorded := h.keep hset
  current g' hg' _ := by
    obtain rfl : g = g' := Option.some.inj (hcurrent.symm.trans hg')
    exact ⟨hclear.2.2 g hg, es, event, [], rfl, hg, List.forall_mem_nil _,
      fun _ => List.forall_mem_nil _⟩

/-- **One event.** -/
theorem Sound.step (h : Sound initial es p) (hclear : p.Clear event)
    (hstep : p.step event = .ok q) : Sound initial (es ++ [event]) q := by
  obtain ⟨r, hobs, hr⟩ := step_cases hstep
  cases hobs with
  | partialTrx herr =>
      rcases hr with ⟨-, rfl⟩ | ⟨g, hg, rfl⟩
      · exact ⟨h.keep rfl, fun g hg _ => absurd hg.symm (Option.some_ne_none g)⟩
      · exact h.at_gtid hclear hg rfl rfl
  | @recorded g hdue hs =>
      obtain ⟨h0, pre, ge, between, hes, hge, hno, hopen⟩ := h.current g hdue.2.1 hdue.2.2
      have hcomplete : Completed (es ++ [event]) g.sid g.gno :=
        ⟨pre, ge, between, event, [], g, by rw [hes], hge, rfl, rfl, hno,
          hdue.endsTrx hclear hopen⟩
      rcases hr with ⟨-, rfl⟩ | ⟨g', hg', -⟩
      · refine ⟨fun sid n hm => ?_, fun g' hg' hl => ?_⟩
        · rcases MysqlGTIDSet.mem_addSet.mp hm with hm | ⟨rfl, hnum⟩
          · exact h.keep rfl sid n hm
          · rw [(MysqlGTIDSet.memList_gnoInterval h0).mp hnum]
            exact .inr hcomplete
        · exact absurd (hdue.2.1.symm.trans hg') hl
      · exact absurd hdue.1 (ParserState.updateState_ne_none
          (.inl (event.boundary_of_isGtid (event.isGtid_of_gtid? hg'))))
  | @moved state hst hnot =>
      rcases hr with ⟨hgtid, rfl⟩ | ⟨g, hg, rfl⟩
      · refine ⟨h.keep rfl, fun g hg hl => ?_⟩
        obtain ⟨h0, pre, ge, between, hes, hge, hno, hopen⟩ := h.current g hg hl
        have hun : p.Unrecorded :=
          ⟨by rw [hg]; exact Option.some_ne_none g, by rw [hg]; exact Ne.symm hl⟩
        refine ⟨h0, pre, ge, between ++ [event], by rw [hes, List.append_assoc]; rfl, hge, ?_, ?_⟩
        · intro x hx
          rcases List.mem_append.mp hx with hx | hx
          · exact hno x hx
          · rw [List.mem_singleton.mp hx, isGtid_of_moved hst hclear hgtid hun]
        · exact opens_of_moved hst (hnot g) hg hl hopen
      · exact h.at_gtid hclear hg rfl rfl

end Sound

end TrxProgress

/-- **No GTID is recorded before its transaction is complete**, in every run of events
from a fresh progress whose steps are all clear. -/
theorem recorded_is_complete (flavor : Flavor) (clock : Nat → Bool) (store : MetaStore) (i : Nat)
    (es : List ParsedEvent) (s' : KingbusServer)
    (hrun : (KingbusServer.start store).applyEvents flavor clock i es = .ok s')
    (hclear : TrxProgress.Along TrxProgress.Clear (newBinlogProgress store).toTrxProgress es) :
    ∀ sid n, s'.binlogProgress.executedGtidSet.Mem sid n →
      store.executedGtidSet.Mem sid n ∨ Completed es sid n := by
  have hinit : TrxProgress.Sound store.executedGtidSet []
      (newBinlogProgress store).toTrxProgress :=
    ⟨fun _ _ h => .inl h, fun g hg _ => absurd hg.symm (Option.some_ne_none g)⟩
  exact (TrxProgress.Along.invariant (fun h hc hs => h.step hc hs) hinit hclear
    (ParsedEvent.run_of_applyEvents hrun).1).recorded

/-! ## A stream that is cut off twice -/

/-- An identifier. -/
def sidA : Sid := ⟨List.replicate 16 0xaa, by decide⟩

/-- The content of a `GTID_EVENT`. -/
def gtidContent (sid : Sid) (gno : Nat) : Bytes := 0 :: sid.bytes ++ Bytes.leBytes 8 gno

/-- The content of a query event without status variables and schema. -/
def queryContent (text : String) : Bytes := Bytes.zeros 14 ++ ascii text

theorem ofByte_rotate : EventType.ofByte EventType.rotate.toByte = .rotate := by decide

theorem ofByte_previousGtids :
    EventType.ofByte EventType.previousGtids.toByte = .previousGtids := by decide

theorem ofByte_query : EventType.ofByte EventType.query.toByte = .query := by decide

/-- The events of the samples. -/
def rotateEvent : ParsedEvent := .of .rotate (Bytes.zeros 8 ++ ascii "binlog.000001")

def fdeEvent : ParsedEvent := .of .formatDescription []

def previousEmpty : ParsedEvent := .of .previousGtids (Bytes.zeros 8)

def gtidOne : ParsedEvent := .of .gtid (gtidContent sidA 1)

def gtidTwo : ParsedEvent := .of .gtid (gtidContent sidA 2)

def beginEvent : ParsedEvent := .of .query (queryContent "BEGIN")

def xidEvent : ParsedEvent := .of .xid (Bytes.zeros 8)

/-- The events with which every stream begins, the set of the `PREVIOUS_GTIDS` event
being empty. -/
def streamHead : List ParsedEvent :=
  [rotateEvent, fdeEvent, previousEmpty]

/-- A stream with one transaction. -/
def smallStream : List ParsedEvent :=
  streamHead ++ [gtidOne, beginEvent, .of .writeRowsV2 [], xidEvent]

theorem recorded_is_complete_smallStream :
    ∃ s', (KingbusServer.start .fresh).applyEvents .mySQL (fun _ => false) 1 smallStream = .ok s' ∧
      s'.binlogProgress.executedGtidSet.Mem sidA 1 ∧ Completed smallStream sidA 1 := by
  obtain ⟨s', hs', hmem⟩ := exists_of_eval
    (x := (KingbusServer.start .fresh).applyEvents .mySQL (fun _ => false) 1 smallStream)
    (P := fun s' => s'.binlogProgress.executedGtidSet.Mem sidA 1) (by decide +kernel)
  have hclear : TrxProgress.Along TrxProgress.Clear (newBinlogProgress .fresh).toTrxProgress
      smallStream := by decide +kernel
  have hcases := recorded_is_complete .mySQL (fun _ => false) .fresh 1 smallStream s' hs' hclear
    sidA 1 hmem
  exact ⟨s', hs', hmem, hcases.resolve_left (MysqlGTIDSet.not_mem_empty sidA 1)⟩

/-- A stream that is cut off in the middle of a first transaction, and again behind the
GTID of a second one. -/
def cutStream : List ParsedEvent :=
  [gtidOne, beginEvent] ++ streamHead ++ [gtidTwo] ++ streamHead

theorem ParsedEvent.endsTrx_nil {between : List ParsedEvent} {event : ParsedEvent}
    (h : event.endsTrx between = true) : event.endsTrx [] = true := by
  unfold endsTrx at h ⊢
  split at h
  case h_4 =>
    cases hk : queryKind event.queryText <;> rw [hk] at h <;> first | rfl | cases h
  case h_5 => cases h
  all_goals rfl

theorem not_completed_of_all {es : List ParsedEvent} {sid : Sid} {n : Int}
    (h : ∀ e ∈ es, e.endsTrx [] = false) : ¬ Completed es sid n := by
  rintro ⟨pre, ge, between, e, post, g, rfl, -, -, -, -, hends⟩
  have hnil := h e (List.mem_append_right _ (List.mem_cons_self ..))
  rw [ParsedEvent.endsTrx_nil hends] at hnil
  cases hnil

/-- **The second GTID is recorded** at the `ROTATE` event of the third session, with
nothing of its transaction in the log. -/
theorem cutStream_records_early :
    ∃ s', (KingbusServer.start .fresh).applyEvents .mySQL (fun _ => false) 1 cutStream = .ok s' ∧
      s'.binlogProgress.executedGtidSet.Mem sidA 2 ∧
      ¬ MetaStore.fresh.executedGtidSet.Mem sidA 2 ∧ ¬ Completed cutStream sidA 2 := by
  obtain ⟨s', hs', hmem⟩ := exists_of_eval
    (x := (KingbusServer.start .fresh).applyEvents .mySQL (fun _ => false) 1 cutStream)
    (P := fun s' => s'.binlogProgress.executedGtidSet.Mem sidA 2) (by decide +kernel)
  exact ⟨s', hs', hmem, MysqlGTIDSet.not_mem_empty sidA 2,
    not_completed_of_all (by decide +kernel)⟩

end Kingbus
