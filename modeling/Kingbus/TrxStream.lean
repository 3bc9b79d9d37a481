import Kingbus.TrxRecording

/-! # Streams of complete transactions

The grammar of transactions that the comment above `TransactionBoundaryParser` documents,
and what applying a stream of them records.  The parser takes a query `COMMIT` for a
statement, so a transaction between `BEGIN` and `COMMIT` stays open and is not recorded;
the GTID event of the next transaction only resets the parser. -/

namespace Kingbus

/-! ## The grammar -/

namespace ParsedEvent

/-- An event in front of a statement: `INTVAR`, `RAND` or `USER_VAR`. -/
def isVar (event : ParsedEvent) : Bool :=
  event.eventType = .intvar ∨ event.eventType = .rand ∨ event.eventType = .userVar

/-- A query of one of the given kinds. -/
def isQuery (event : ParsedEvent) (kinds : List QueryKind) : Bool :=
  event.eventType = .query ∧ queryKind event.queryText ∈ kinds

/-- An event inside of `BEGIN`: a variable, a query that neither opens nor ends a
transaction, or rows, a table map and the like. -/
def isStatement (event : ParsedEvent) : Bool :=
  event.isVar ∨ event.isQuery [.other, .rollbackTo] ∨
    (event.eventType ≠ .query ∧ event.boundary = .statement)

/-- The event behind the statements. -/
def isEnding (event : ParsedEvent) : Bool :=
  event.isQuery [.commit, .rollback, .xaRollback] ∨ event.eventType = .xid ∨
    event.eventType = .xaPrepareLog

/-- An event between transactions. -/
def isBetween (event : ParsedEvent) : Bool :=
  event.eventType = .rotate ∨ event.eventType = .formatDescription ∨
    event.eventType = .previousGtids

end ParsedEvent

/-- What follows the GTID of a transaction. -/
inductive TrxBody where
  | ddl (vars : List ParsedEvent) (query : ParsedEvent)
      (vars_ok : ∀ e ∈ vars, e.isVar = true) (query_ok : query.isQuery [.other] = true)
  | dml (opening : ParsedEvent) (statements : List ParsedEvent) (ending : ParsedEvent)
      (opening_ok : opening.opens = true) (statements_ok : ∀ e ∈ statements, e.isStatement = true)
      (ending_ok : ending.isEnding = true)

/-- The events of a body. -/
def TrxBody.events : TrxBody → List ParsedEvent
  | ddl vars query _ _ => vars ++ [query]
  | dml opening statements ending _ _ _ => opening :: statements ++ [ending]

/-- A complete transaction, with a number as a server assigns them. -/
structure Trx where
  gtidEvent : ParsedEvent
  gtid : Gtid
  body : TrxBody
  gtid_eq : gtidEvent.gtid? = some gtid
  gno_pos : 0 < gtid.gno
  gno_max : gtid.gno < 2 ^ 63 - 1

/-- The events of a transaction. -/
def Trx.events (t : Trx) : List ParsedEvent := t.gtidEvent :: t.body.events

/-- The parts of a stream. -/
inductive StreamItem where
  | trx (t : Trx)
  | between (event : ParsedEvent) (h : event.isBetween = true)

/-- The events of a part. -/
def StreamItem.events : StreamItem → List ParsedEvent
  | trx t => t.events
  | between event _ => [event]

/-- The events of a stream. -/
def streamEvents (stream : List StreamItem) : List ParsedEvent :=
  stream.flatMap StreamItem.events

/-- The body is never taken for complete: the parser knows its begin, no `ROLLBACK TO` is
taken for its end, and a query `COMMIT` is its end. -/
def TrxBody.lost : TrxBody → Bool
  | ddl .. => false
  | dml opening statements ending _ _ _ =>
      (toUpper opening.queryText = ascii "BEGIN" ∨ toUpper opening.queryText = ascii "XA START") ∧
        (∀ e ∈ statements, e.isQuery [.rollbackTo] = false) ∧ ending.isQuery [.commit] = true

/-! ## Boundary types of the grammar -/

theorem queryKind_of_beginTrx {q : Bytes} (h : queryBoundary q = .beginTrx) :
    queryKind q = .beginTrx := by
  unfold queryBoundary at h
  split at h
  · next hb =>
    refine if_pos (hb.imp id fun hxa => ?_)
    rw [hxa]
  · repeat (first | (split at h) | cases h)

/-- The boundary type of a query that opens no transaction. -/
theorem queryBoundary_of_kind (q : Bytes) :
    (queryKind q = .other ∨ queryKind q = .commit → queryBoundary q = .statement) ∧
      (queryKind q = .rollback ∨ queryKind q = .rollbackTo → queryBoundary q = .endTrx) ∧
      (queryKind q = .xaRollback → queryBoundary q = .endXaTrx) := by
  rcases queryBoundary_cases q with hb | hb | hb | hb
  · rw [queryKind_of_beginTrx hb, hb]
    decide
  · rw [hb]
    rcases queryKind_of_endTrx hb with hk | hk <;> rw [hk] <;> decide
  · rw [queryKind_of_endXaTrx hb, hb]
    decide
  · rw [hb]
    rcases queryKind_of_statement hb with hk | hk | hk <;> rw [hk] <;> decide

namespace ParsedEvent
variable {event : ParsedEvent}

theorem isQuery_iff {kinds : List QueryKind} : event.isQuery kinds = true ↔
    event.eventType = .query ∧ queryKind event.queryText ∈ kinds := by
  rw [isQuery, decide_eq_true_eq]

theorem boundary_isVar (h : event.isVar = true) : event.boundary = .preStatement := by
  have hb := event.boundary_eq
  rw [isVar, decide_eq_true_eq] at h
  unfold eventType at h
  rcases h with h | h | h <;> rw [getEventBoundaryType, h] at hb <;> exact (Except.ok.inj hb).symm

theorem boundary_isBetween (h : event.isBetween = true) : event.boundary = .ignore := by
  have hb := event.boundary_eq
  rw [isBetween, decide_eq_true_eq] at h
  unfold eventType at h
  rcases h with h | h | h <;> rw [getEventBoundaryType, h] at hb <;> exact (Except.ok.inj hb).symm

theorem boundary_other (h : event.isQuery [.other] = true) : event.boundary = .statement := by
  obtain ⟨ht, hk⟩ := isQuery_iff.mp h
  rw [event.boundary_query ht]
  exact (queryBoundary_of_kind _).1 (.inl (List.mem_singleton.mp hk))

/-- A begin that the parser knows, and one that it takes for a statement. -/
theorem boundary_opens (h : event.opens = true) :
    event.boundary =
      if toUpper event.queryText = ascii "BEGIN" ∨ toUpper event.queryText = ascii "XA START"
      then .beginTrx else .statement := by
  rw [opens, decide_eq_true_eq] at h
  rw [event.boundary_query h.1]
  split
  · next hb => exact if_pos hb
  · next hb =>
    refine (queryBoundary_beginTrx h.2).resolve_left fun hbegin => ?_
    rw [queryBoundary, if_neg hb] at hbegin
    repeat (first | (split at hbegin) | cases hbegin)

/-- Statements, but for `ROLLBACK TO`. -/
theorem boundary_isStatement (h : event.isStatement = true) :
    event.boundary = if event.isQuery [.rollbackTo] = true then .endTrx
      else if event.isVar = true then .preStatement else .statement := by
  split
  · next hto =>
    obtain ⟨ht, hk⟩ := isQuery_iff.mp hto
    rw [event.boundary_query ht]
    exact (queryBoundary_of_kind _).2.1 (.inr (List.mem_singleton.mp hk))
  · next hto =>
    split
    · next hvar => exact boundary_isVar hvar
    · next hvar =>
      rw [isStatement, decide_eq_true_eq] at h
      rcases h.resolve_left hvar with hq | ⟨-, hb⟩
      · obtain ⟨ht, hk⟩ := isQuery_iff.mp hq
        refine boundary_other (isQuery_iff.mpr ⟨ht, ?_⟩)
        rcases List.mem_cons.mp hk with hk | hk
        · exact List.mem_singleton.mpr hk
        · exact absurd (isQuery_iff.mpr ⟨ht, hk⟩) hto
      · exact hb

/-- Ends of transactions, but for `COMMIT`. -/
theorem boundary_isEnding (h : event.isEnding = true) :
    if event.isQuery [.commit] = true then event.boundary = .statement
    else event.boundary = .endTrx ∨ event.boundary = .endXaTrx := by
  split
  · next hc =>
    obtain ⟨ht, hk⟩ := isQuery_iff.mp hc
    rw [event.boundary_query ht]
    exact (queryBoundary_of_kind _).1 (.inr (List.mem_singleton.mp hk))
  · next hc =>
    rw [isEnding, decide_eq_true_eq] at h
    rcases h with hq | ht
    · obtain ⟨ht, hk⟩ := isQuery_iff.mp hq
      rw [event.boundary_query ht]
      simp only [List.mem_cons, List.not_mem_nil, or_false] at hk
      rcases hk with hk | hk | hk
      · exact absurd (isQuery_iff.mpr ⟨ht, List.mem_singleton.mpr hk⟩) hc
      · exact .inl ((queryBoundary_of_kind _).2.1 (.inl hk))
      · exact .inr ((queryBoundary_of_kind _).2.2 hk)
    · left
      have hb := event.boundary_eq
      unfold eventType at ht
      rcases ht with ht | ht <;> rw [getEventBoundaryType, ht] at hb <;>
        exact (Except.ok.inj hb).symm

end ParsedEvent

/-! ## What the events of a transaction do -/

/-- A set of GTIDs with one more. -/
def Joined (E : Sid → Int → Prop) (g : Gtid) (sid : Sid) (n : Int) : Prop :=
  E sid n ∨ (sid = g.sid ∧ n = g.gno)

namespace TrxProgress

/-- The executed set is the given one, and the GTID recorded last is in it, when its
number is one that a server assigns. -/
structure Holds (E : Sid → Int → Prop) (p : TrxProgress) : Prop where
  executed : ∀ sid n, p.executedGtidSet.Mem sid n ↔ E sid n
  saved : ∀ g, 0 < g.gno → p.lastSaveGtid = some g → E g.sid g.gno

/-- Behind the GTID of a transaction that has not begun. -/
structure Waiting (g : Gtid) (E : Sid → Int → Prop) (p : TrxProgress) : Prop where
  holds : Holds E p
  current : p.currentGtid = some g
  parser : p.trxBoundaryParser = .none ∨ p.trxBoundaryParser = .gtid ∨ p.trxBoundaryParser = .ddl

/-- In a transaction. -/
structure Inside (g : Gtid) (E : Sid → Int → Prop) (p : TrxProgress) : Prop where
  holds : Holds E p
  current : p.currentGtid = some g
  parser : p.trxBoundaryParser = .dml

/-- Behind the event that is taken for the end of the transaction. -/
structure Done (E : Sid → Int → Prop) (p : TrxProgress) : Prop where
  holds : Holds E p
  recorded : ¬ p.Unrecorded
  parser : p.trxBoundaryParser = .none ∨ p.trxBoundaryParser = .ddl

/-- Between transactions, the last of which the parser may take for open. -/
structure Between (E : Sid → Int → Prop) (p : TrxProgress) : Prop where
  holds : Holds E p
  parser : p.trxBoundaryParser = .dml ∨ (p.trxBoundaryParser = .none ∧ ¬ p.Unrecorded)

variable {p : TrxProgress} {b : EventBoundaryType} {g : Gtid} {E : Sid → Int → Prop}
  {event : ParsedEvent}

theorem observe_moved {state : ParserState}
    (hst : p.trxBoundaryParser.updateState b = (state, false))
    (hnone : state = .none → ¬ p.Unrecorded) :
    p.observe b = .ok ({ p with trxBoundaryParser := state }, false) := by
  have hnot : ∀ g, ¬ p.Due b g := by
    intro g hdue
    exact hnone (congrArg Prod.fst (hst.symm.trans hdue.1)) hdue.unrecorded
  obtain ⟨r, hr, hobs⟩ := observe_ok fun g hdue => absurd hdue (hnot g)
  rw [hr]
  cases hobs with
  | partialTrx herr => rw [hst] at herr; cases herr
  | recorded hdue _ => exact absurd hdue (hnot _)
  | moved hst' _ => rw [hst] at hst'; cases hst'; rfl

/-- The end of a transaction records its GTID, or finds it recorded. -/
theorem observe_recorded (hst : p.trxBoundaryParser.updateState b = (.none, false))
    (hg : p.currentGtid = some g) (h : Holds E p) (hpos : 0 < g.gno) (hmax : g.gno < 2 ^ 63 - 1) :
    ∃ r, p.observe b = .ok r ∧ Done (Joined E g) r.1 ∧ r.1.trxBoundaryParser = .none := by
  have hs : Storable g.gno := ⟨by omega, hmax⟩
  by_cases hl : p.lastSaveGtid = some g
  · have hrec : ¬ p.Unrecorded := fun hu => hu.2 (hg.trans hl.symm)
    refine ⟨_, observe_moved hst fun _ => hrec,
      ⟨⟨fun sid n => ?_, fun g' hpos' hg' => ?_⟩, hrec, .inl rfl⟩, rfl⟩
    · rw [h.executed]
      refine ⟨.inl, ?_⟩
      rintro (he | ⟨rfl, rfl⟩)
      · exact he
      · exact h.saved g hpos hl
    · exact .inl (h.saved g' hpos' hg')
  · obtain ⟨r, hr, hobs⟩ := observe_ok (p := p) (b := b) fun g' hdue => by
      rw [Option.some_inj.mp (hdue.2.1.symm.trans hg)]
      exact hs
    refine ⟨r, hr, ?_⟩
    cases hobs with
    | partialTrx herr => rw [hst] at herr; cases herr
    | moved _ hnot => exact absurd ⟨hst, hg, hl⟩ (hnot g)
    | @recorded g' hdue _ =>
        cases hdue.2.1.symm.trans hg
        refine ⟨⟨⟨fun sid n => ?_, fun g' _ hg' => ?_⟩, fun hu => hu.2 hg, .inl rfl⟩, rfl⟩
        · rw [MysqlGTIDSet.mem_addSet, MysqlGTIDSet.memList_gnoInterval (Int.le_of_lt hpos),
            h.executed]
          rfl
        · cases hg'
          exact .inr ⟨rfl, rfl⟩

/-- An event that is no GTID event only observes its boundary. -/
theorem step_of_observe {r : TrxProgress × Bool} (hb : event.boundary = b) (hne : b ≠ .gtid)
    (hobs : p.observe b = .ok r) : p.step event = .ok r.1 := by
  have hgtid : event.gtid? = none := by
    cases hg : event.gtid? with
    | none => rfl
    | some g => exact absurd (hb ▸ event.boundary_of_isGtid (event.isGtid_of_gtid? hg)) hne
  rw [step, hb, hobs, hgtid]
  rfl

theorem Between.gtid (h : Between E p) (hg : event.gtid? = some g) :
    ∃ p', p.step event = .ok p' ∧ Waiting g E p' ∧ p'.trxBoundaryParser ≠ .ddl := by
  have hb := event.boundary_of_isGtid (event.isGtid_of_gtid? hg)
  rcases h.parser with hp | ⟨hp, hrec⟩
  · -- the transaction that is taken for open is given up
    have hobs : p.observe .gtid =
        .ok ({ p with trxBoundaryParser := .none, currentGtid := none }, false) := by
      rw [observe, hp]
      rfl
    exact ⟨{ p with trxBoundaryParser := .none, currentGtid := some g },
      by rw [step, hb, hobs, hg]; rfl, ⟨⟨h.holds.executed, h.holds.saved⟩, rfl, .inl rfl⟩,
      ParserState.noConfusion⟩
  · have hobs := @observe_moved p .gtid .gtid (by rw [hp]; rfl) ParserState.noConfusion
    exact ⟨{ p with trxBoundaryParser := .gtid, currentGtid := some g },
      by rw [step, hb, hobs, hg]; rfl, ⟨⟨h.holds.executed, h.holds.saved⟩, rfl, .inr (.inl rfl)⟩,
      ParserState.noConfusion⟩

theorem Between.ignore (h : Between E p) (he : event.isBetween = true) :
    ∃ p', p.step event = .ok p' ∧ Between E p' := by
  have hst : p.trxBoundaryParser.updateState .ignore = (p.trxBoundaryParser, false) := rfl
  have hobs := observe_moved hst fun hp => h.parser.elim (fun hd => by rw [hd] at hp; cases hp) (·.2)
  exact ⟨_, step_of_observe (ParsedEvent.boundary_isBetween he) (by decide) hobs,
    ⟨⟨h.holds.executed, h.holds.saved⟩, h.parser⟩⟩

theorem Waiting.var (h : Waiting g E p) (he : event.isVar = true) :
    ∃ p', p.step event = .ok p' ∧ Waiting g E p' := by
  have hst : p.trxBoundaryParser.updateState .preStatement = (.ddl, false) := by
    rcases h.parser with hp | hp | hp <;> rw [hp] <;> rfl
  exact ⟨_, step_of_observe (ParsedEvent.boundary_isVar he) (by decide) (observe_moved hst nofun),
    ⟨⟨h.holds.executed, h.holds.saved⟩, h.current, .inr (.inr rfl)⟩⟩

theorem Waiting.statement (h : Waiting g E p) (hb : event.boundary = .statement)
    (hpos : 0 < g.gno) (hmax : g.gno < 2 ^ 63 - 1) :
    ∃ p', p.step event = .ok p' ∧ Done (Joined E g) p' ∧ p'.trxBoundaryParser = .none := by
  have hst : p.trxBoundaryParser.updateState .statement = (.none, false) := by
    rcases h.parser with hp | hp | hp <;> rw [hp] <;> rfl
  obtain ⟨r, hobs, hdone⟩ := observe_recorded hst h.current h.holds hpos hmax
  exact ⟨_, step_of_observe hb (by decide) hobs, hdone⟩

theorem Waiting.opening (h : Waiting g E p) (hp : p.trxBoundaryParser ≠ .ddl)
    (hb : event.boundary = .beginTrx) : ∃ p', p.step event = .ok p' ∧ Inside g E p' := by
  have hst : p.trxBoundaryParser.updateState .beginTrx = (.dml, false) := by
    rcases h.parser with hp' | hp' | hp'
    · rw [hp']; rfl
    · rw [hp']; rfl
    · exact absurd hp' hp
  exact ⟨_, step_of_observe hb (by decide) (observe_moved hst nofun),
    ⟨⟨h.holds.executed, h.holds.saved⟩, h.current, rfl⟩⟩

theorem Inside.statement (h : Inside g E p)
    (hb : event.boundary = .statement ∨ event.boundary = .preStatement) :
    ∃ p', p.step event = .ok p' ∧ Inside g E p' := by
  have hst : ∀ b, (b = .statement ∨ b = .preStatement) →
      p.trxBoundaryParser.updateState b = (.dml, false) := by
    rintro b (rfl | rfl) <;> rw [h.parser] <;> rfl
  have hne : event.boundary ≠ .gtid := by
    rcases hb with hb | hb <;> rw [hb] <;> decide
  exact ⟨_, step_of_observe rfl hne (observe_moved (hst _ hb) nofun),
    ⟨⟨h.holds.executed, h.holds.saved⟩, h.current, rfl⟩⟩

theorem Inside.ending (h : Inside g E p)
    (hb : event.boundary = .endTrx ∨ event.boundary = .endXaTrx)
    (hpos : 0 < g.gno) (hmax : g.gno < 2 ^ 63 - 1) :
    ∃ p', p.step event = .ok p' ∧ Done (Joined E g) p' ∧ p'.trxBoundaryParser = .none := by
  have hst : p.trxBoundaryParser.updateState event.boundary = (.none, false) := by
    rcases hb with hb | hb <;> rw [hb, h.parser] <;> rfl
  have hne : event.boundary ≠ .gtid := by
    rcases hb with hb | hb <;> rw [hb] <;> decide
  obtain ⟨r, hobs, hdone⟩ := observe_recorded hst h.current h.holds hpos hmax
  exact ⟨_, step_of_observe rfl hne hobs, hdone⟩

/-- Behind the recorded end of a transaction, what is left of it changes nothing. -/
theorem Done.step (h : Done E p)
    (hb : event.boundary = .statement ∨ event.boundary = .preStatement ∨
      event.boundary = .endTrx ∨ event.boundary = .endXaTrx) :
    ∃ p', p.step event = .ok p' ∧ Done E p' ∧
      (event.boundary ≠ .preStatement → p'.trxBoundaryParser = .none) := by
  have hne : event.boundary ≠ .gtid := by
    rcases hb with hb | hb | hb | hb <;> rw [hb] <;> decide
  have hmoved : ∀ {state}, p.trxBoundaryParser.updateState event.boundary = (state, false) →
      p.step event = .ok { p with trxBoundaryParser := state } := fun hst =>
    step_of_observe rfl hne (observe_moved hst fun _ => h.recorded)
  rcases hb with hb | hb | hb
  · refine ⟨_, @hmoved .none ?_, ⟨⟨h.holds.executed, h.holds.saved⟩, h.recorded, .inl rfl⟩,
      fun _ => rfl⟩
    rcases h.parser with hp | hp <;> rw [hb, hp] <;> rfl
  · refine ⟨_, @hmoved .ddl ?_, ⟨⟨h.holds.executed, h.holds.saved⟩, h.recorded, .inr rfl⟩,
      fun hne => absurd hb hne⟩
    rcases h.parser with hp | hp <;> rw [hb, hp] <;> rfl
  · have herr : (p.trxBoundaryParser.updateState event.boundary).2 = true := by
      rcases hb with hb | hb <;> rcases h.parser with hp | hp <;> rw [hb, hp] <;> rfl
    have hobs : p.observe event.boundary =
        .ok ({ p with trxBoundaryParser := .none, currentGtid := none }, false) := if_pos herr
    exact ⟨_, step_of_observe rfl hne hobs,
      ⟨⟨h.holds.executed, h.holds.saved⟩, fun hu => hu.1 rfl, .inl rfl⟩, fun _ => rfl⟩

/-! ## Bodies -/

variable {q : TrxProgress} {es : List ParsedEvent}

theorem Waiting.vars (h : Waiting g E p) (hes : ∀ e ∈ es, e.isVar = true) :
    ∃ p', p.run es = .ok p' ∧ Waiting g E p' := by
  induction es generalizing p with
  | nil => exact ⟨p, rfl, h⟩
  | cons e es ih =>
      obtain ⟨p', hs, h'⟩ := h.var (hes e (List.mem_cons_self ..))
      obtain ⟨q, hq, hw⟩ := ih h' fun x hx => hes x (List.mem_cons_of_mem _ hx)
      exact ⟨q, run_cons.mpr ⟨p', hs, hq⟩, hw⟩

theorem Done.statements (h : Done E p) (hes : ∀ e ∈ es, e.isStatement = true) :
    ∃ p', p.run es = .ok p' ∧ Done E p' := by
  induction es generalizing p with
  | nil => exact ⟨p, rfl, h⟩
  | cons e es ih =>
      have hb : e.boundary = .statement ∨ e.boundary = .preStatement ∨ e.boundary = .endTrx ∨
          e.boundary = .endXaTrx := by
        rw [ParsedEvent.boundary_isStatement (hes e (List.mem_cons_self ..))]
        split
        · exact .inr (.inr (.inl rfl))
        · split
          · exact .inr (.inl rfl)
          · exact .inl rfl
      obtain ⟨p', hs, h', -⟩ := h.step hb
      obtain ⟨q, hq, hd⟩ := ih h' fun x hx => hes x (List.mem_cons_of_mem _ hx)
      exact ⟨q, run_cons.mpr ⟨p', hs, hq⟩, hd⟩

/-- Statements leave the transaction open, unless a `ROLLBACK TO` is among them. -/
theorem Inside.statements (h : Inside g E p) (hes : ∀ e ∈ es, e.isStatement = true)
    (hpos : 0 < g.gno) (hmax : g.gno < 2 ^ 63 - 1) :
    ∃ p', p.run es = .ok p' ∧
      if ∀ e ∈ es, e.isQuery [.rollbackTo] = false then Inside g E p' else Done (Joined E g) p' := by
  induction es generalizing p with
  | nil => exact ⟨p, rfl, by rw [if_pos (List.forall_mem_nil _)]; exact h⟩
  | cons e es ih =>
      have hrest : ∀ x ∈ es, x.isStatement = true := fun x hx => hes x (List.mem_cons_of_mem _ hx)
      have hb := ParsedEvent.boundary_isStatement (hes e (List.mem_cons_self ..))
      by_cases hto : e.isQuery [.rollbackTo] = true
      · rw [if_pos hto] at hb
        obtain ⟨p', hs, hdone, -⟩ := h.ending (.inl hb) hpos hmax
        obtain ⟨q, hq, hd⟩ := hdone.statements hrest
        refine ⟨q, run_cons.mpr ⟨p', hs, hq⟩, ?_⟩
        rw [if_neg fun hall => by rw [hall e (List.mem_cons_self ..)] at hto; cases hto]
        exact hd
      · rw [if_neg hto] at hb
        have hstatement : e.boundary = .statement ∨ e.boundary = .preStatement := by
          rw [hb]
          split
          · exact .inr rfl
          · exact .inl rfl
        obtain ⟨p', hs, h'⟩ := h.statement hstatement
        obtain ⟨q, hq, hd⟩ := ih h' hrest
        refine ⟨q, run_cons.mpr ⟨p', hs, hq⟩, ?_⟩
        simp only [List.forall_mem_cons, Bool.eq_false_of_not_eq_true hto, true_and]
        exact hd

/-- The end of a transaction that is recorded already. -/
theorem Done.ending (h : Done E p) (he : event.isEnding = true) :
    ∃ p', p.step event = .ok p' ∧ Between E p' := by
  have hb := ParsedEvent.boundary_isEnding he
  have hcases : event.boundary = .statement ∨ event.boundary = .endTrx ∨
      event.boundary = .endXaTrx := by
    split at hb
    · exact .inl hb
    · exact .inr hb
  obtain ⟨p', hs, hdone, hnone⟩ := h.step (hcases.imp id .inr)
  refine ⟨p', hs, ⟨hdone.holds, .inr ⟨hnone ?_, hdone.recorded⟩⟩⟩
  rcases hcases with hb | hb | hb <;> rw [hb] <;> decide

/-- The end of an open transaction: all ends but `COMMIT` are seen. -/
theorem Inside.isEnding (h : Inside g E p) (he : event.isEnding = true)
    (hpos : 0 < g.gno) (hmax : g.gno < 2 ^ 63 - 1) :
    ∃ p', p.step event = .ok p' ∧
      Between (if event.isQuery [.commit] = true then E else Joined E g) p' := by
  have hb := ParsedEvent.boundary_isEnding he
  split at hb
  · next hc =>
    obtain ⟨p', hs, h'⟩ := h.statement (.inl hb)
    exact ⟨p', hs, by rw [if_pos hc]; exact ⟨h'.holds, .inl h'.parser⟩⟩
  · next hc =>
    obtain ⟨p', hs, h', hnone⟩ := h.ending hb hpos hmax
    exact ⟨p', hs, by rw [if_neg hc]; exact ⟨h'.holds, .inr ⟨hnone, h'.recorded⟩⟩⟩

/-- **One transaction.** -/
theorem Between.trx (h : Between E p) (t : Trx) :
    ∃ p', p.run t.events = .ok p' ∧ Between (if t.body.lost then E else Joined E t.gtid) p' := by
  obtain ⟨p₁, hs₁, hw, hddl⟩ := h.gtid t.gtid_eq
  have hrun : ∀ {q}, p₁.run t.body.events = .ok q → p.run t.events = .ok q :=
    fun hq => run_cons.mpr ⟨p₁, hs₁, hq⟩
  cases hbody : t.body with
  | ddl vars query vars_ok query_ok =>
      rw [hbody] at hrun
      obtain ⟨p₂, hs₂, hw₂⟩ := hw.vars vars_ok
      obtain ⟨p₃, hs₃, hdone, hnone⟩ := hw₂.statement (ParsedEvent.boundary_other query_ok) t.gno_pos
        t.gno_max
      refine ⟨p₃, hrun ?_, hdone.holds, .inr ⟨hnone, hdone.recorded⟩⟩
      rw [TrxBody.events, run_append, hs₂]
      exact run_cons.mpr ⟨p₃, hs₃, rfl⟩
  | dml opening statements ending opening_ok statements_ok ending_ok =>
      rw [hbody] at hrun
      -- what is left once the parser has seen the begin
      have hfinish : ∀ {p₂ p₃ p₄ : TrxProgress}, p₁.step opening = .ok p₂ →
          p₂.run statements = .ok p₃ → p₃.step ending = .ok p₄ → p.run t.events = .ok p₄ := by
        intro p₂ p₃ p₄ h₂ h₃ h₄
        refine hrun (run_cons.mpr ⟨p₂, h₂, ?_⟩)
        rw [List.append_eq, run_append, h₃]
        exact run_cons.mpr ⟨p₄, h₄, rfl⟩
      have hb := ParsedEvent.boundary_opens opening_ok
      by_cases hbegin : toUpper opening.queryText = ascii "BEGIN" ∨
          toUpper opening.queryText = ascii "XA START"
      · rw [if_pos hbegin] at hb
        obtain ⟨p₂, hs₂, hin⟩ := hw.opening hddl hb
        obtain ⟨p₃, hs₃, hcases⟩ := hin.statements statements_ok t.gno_pos t.gno_max
        by_cases hto : ∀ e ∈ statements, e.isQuery [.rollbackTo] = false
        · rw [if_pos hto] at hcases
          obtain ⟨p₄, hs₄, hbetween⟩ := hcases.isEnding ending_ok t.gno_pos t.gno_max
          refine ⟨p₄, hfinish hs₂ hs₃ hs₄, ?_⟩
          have hlost : TrxBody.lost (.dml opening statements ending opening_ok statements_ok
              ending_ok) = ending.isQuery [.commit] := by
            rw [Bool.eq_iff_iff, TrxBody.lost, decide_eq_true_eq]
            exact ⟨fun h => h.2.2, fun h => ⟨hbegin, hto, h⟩⟩
          rw [hlost]
          exact hbetween
        · rw [if_neg hto] at hcases
          obtain ⟨p₄, hs₄, hbetween⟩ := hcases.ending ending_ok
          refine ⟨p₄, hfinish hs₂ hs₃ hs₄, ?_⟩
          have hlost : TrxBody.lost (.dml opening statements ending opening_ok statements_ok
              ending_ok) = false := decide_eq_false fun hl => hto hl.2.1
          rw [hlost]
          exact hbetween
      · rw [if_neg hbegin] at hb
        obtain ⟨p₂, hs₂, hdone, -⟩ := hw.statement hb t.gno_pos t.gno_max
        obtain ⟨p₃, hs₃, hdone₃⟩ := hdone.statements statements_ok
        obtain ⟨p₄, hs₄, hbetween⟩ := hdone₃.ending ending_ok
        refine ⟨p₄, hfinish hs₂ hs₃ hs₄, ?_⟩
        have hlost : TrxBody.lost (.dml opening statements ending opening_ok statements_ok
            ending_ok) = false := decide_eq_false fun hl => hbegin hl.1
        rw [hlost]
        exact hbetween

/-- **A stream**: every transaction that is not lost is recorded. -/
theorem Between.stream {stream : List StreamItem} (h : Between E p) :
    ∃ p', p.run (streamEvents stream) = .ok p' ∧
      Between (fun sid n => E sid n ∨ ∃ t, .trx t ∈ stream ∧ t.body.lost = false ∧
        sid = t.gtid.sid ∧ n = t.gtid.gno) p' := by
  induction stream generalizing p E with
  | nil =>
      refine ⟨p, rfl, ?_⟩
      simp only [List.not_mem_nil, false_and, exists_false, or_false]
      exact h
  | cons item stream ih =>
      have hitem : ∃ p', p.run item.events = .ok p' ∧
          Between (fun sid n => E sid n ∨ ∃ t, item = .trx t ∧ t.body.lost = false ∧
            sid = t.gtid.sid ∧ n = t.gtid.gno) p' := by
        cases item with
        | trx t =>
            obtain ⟨p', hs, h'⟩ := h.trx t
            refine ⟨p', hs, ?_⟩
            simp only [StreamItem.trx.injEq, exists_eq_left']
            cases hl : t.body.lost with
            | true =>
                simp only [Bool.true_eq_false, false_and, or_false]
                rwa [hl, if_pos rfl] at h'
            | false =>
                simp only [true_and]
                rwa [hl, if_neg Bool.false_ne_true] at h'
        | between event he =>
            obtain ⟨p', hs, h'⟩ := h.ignore he
            refine ⟨p', run_cons.mpr ⟨p', hs, rfl⟩, ?_⟩
            simp only [reduceCtorEq, false_and, exists_false, or_false]
            exact h'
      obtain ⟨p₁, hs₁, h₁⟩ := hitem
      obtain ⟨p', hs', h'⟩ := ih h₁
      refine ⟨p', ?_, ?_⟩
      · rw [streamEvents, List.flatMap_cons, run_append, hs₁]
        exact hs'
      · have heq : (fun sid n => (E sid n ∨ ∃ t, item = .trx t ∧ t.body.lost = false ∧
              sid = t.gtid.sid ∧ n = t.gtid.gno) ∨ ∃ t, .trx t ∈ stream ∧ t.body.lost = false ∧
              sid = t.gtid.sid ∧ n = t.gtid.gno) =
            fun sid n => E sid n ∨ ∃ t, .trx t ∈ item :: stream ∧ t.body.lost = false ∧
              sid = t.gtid.sid ∧ n = t.gtid.gno := by
          funext sid n
          simp only [List.mem_cons, or_and_right, exists_or, or_assoc, eq_comm (a := item)]
        rwa [heq] at h'

theorem between_start (store : MetaStore) :
    Between store.executedGtidSet.Mem (newBinlogProgress store).toTrxProgress where
  holds := ⟨fun _ _ => Iff.rfl, fun g _ hg => absurd hg.symm (Option.some_ne_none g)⟩
  parser := .inr ⟨rfl, fun hu => hu.1 rfl⟩

end TrxProgress

/-- **Which streams are recorded completely**: those of events that are taken, in which
every transaction that the parser takes for open has a GTID that is executed before, or
that some other transaction of the stream has. -/
theorem stream_recorded_iff (stream : List StreamItem) (flavor : Flavor) (clock : Nat → Bool)
    (store : MetaStore) (i : Nat) :
    (∃ s', (KingbusServer.start store).applyEvents flavor clock i (streamEvents stream) = .ok s' ∧
        ∀ sid n, s'.binlogProgress.executedGtidSet.Mem sid n ↔
          store.executedGtidSet.Mem sid n ∨
            ∃ t, .trx t ∈ stream ∧ sid = t.gtid.sid ∧ n = t.gtid.gno) ↔
      (∀ e ∈ streamEvents stream, e.Taken) ∧
      ∀ t, .trx t ∈ stream → t.body.lost = true →
        store.executedGtidSet.Mem t.gtid.sid t.gtid.gno ∨
          ∃ t', .trx t' ∈ stream ∧ t'.body.lost = false ∧ t'.gtid = t.gtid := by
  obtain ⟨p, hrun, hbetween⟩ : ∃ p, TrxProgress.run _ (streamEvents stream) = .ok p ∧ _ :=
    (TrxProgress.between_start store).stream
  have hmem := hbetween.holds.executed
  have hgtid : ∀ {g g' : Gtid}, g'.sid = g.sid → g'.gno = g.gno → g = g' := by
    rintro ⟨_, _, _, _⟩ ⟨_, _, _, _⟩ rfl rfl
    rfl
  constructor
  · rintro ⟨s', hs', hall⟩
    obtain ⟨hrun', htaken⟩ := ParsedEvent.run_of_applyEvents hs'
    cases hrun.symm.trans hrun'
    refine ⟨htaken, fun t ht _ => ?_⟩
    rcases (hmem _ _).mp ((hall _ _).mpr (.inr ⟨t, ht, rfl, rfl⟩)) with h | ⟨t', ht', hl, hsid, hn⟩
    · exact .inl h
    · exact .inr ⟨t', ht', hl, hgtid hsid hn⟩
  · rintro ⟨htaken, hlost⟩
    obtain ⟨s', hs', hp⟩ : ∃ s', (KingbusServer.start store).applyEvents flavor clock i
        (streamEvents stream) = .ok s' ∧ s'.binlogProgress.toTrxProgress = p :=
      ParsedEvent.applyEvents_of_run htaken hrun
    refine ⟨s', hs', fun sid n => ?_⟩
    rw [hp, hmem]
    constructor
    · exact Or.imp id fun ⟨t, ht, _, h⟩ => ⟨t, ht, h⟩
    · rintro (h | ⟨t, ht, rfl, rfl⟩)
      · exact .inl h
      · cases hl : t.body.lost with
        | false => exact .inr ⟨t, ht, hl, rfl, rfl⟩
        | true =>
            refine (hlost t ht hl).imp id fun ⟨t', ht', hl', heq⟩ => ⟨t', ht', hl', ?_⟩
            rw [heq]
            exact ⟨rfl, rfl⟩

/-! ## A transaction that is committed by a query -/

theorem opens_beginEvent : beginEvent.opens = true := by decide +kernel

/-- The first transaction of an identifier, committed by a query. -/
def committedTrx : Trx where
  gtidEvent := gtidOne
  gtid := ⟨sidA, 1, by decide, by decide⟩
  body := .dml beginEvent
    [.of .query (queryContent "INSERT INTO t VALUES (1)") (by decide) ofByte_query]
    (.of .query (queryContent "COMMIT") (by decide) ofByte_query)
    opens_beginEvent (by decide +kernel) (by decide +kernel)
  gtid_eq := by decide +kernel
  gno_pos := by decide
  gno_max := by decide

/-- **Its GTID is not recorded.** -/
theorem committedTrx_is_lost :
    ∃ s', (KingbusServer.start .fresh).applyEvents .mySQL (fun _ => false) 1
        (streamEvents [.trx committedTrx]) = .ok s' ∧
      ¬ s'.binlogProgress.executedGtidSet.Mem committedTrx.gtid.sid committedTrx.gtid.gno :=
  exists_of_eval (by decide +kernel)

end Kingbus
