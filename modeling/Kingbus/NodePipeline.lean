import Kingbus.NodeRestart
import Kingbus.Lib.Runs

/-! # The two loops of a node

`Node.Run` (`raft/raft.go`) takes one `Ready` after the other: it updates the leader and the
committed index, a leader sends its messages, the hard state and the entries are stored, the
committed entries are handed to the loop of `runRaft` (`server/server.go`), and a follower sends
its messages.  That loop applies the entries (`applyAll`, `server/apply.go`) and then writes to
`Notifyc`.  The channel between them has no buffer, so `Node.Run` waits there while the other
loop is busy, and a follower waits for `Notifyc` if a configuration change was committed.

The steps of the two loops interleave freely.  `pipeline_safe` says what holds of every such
interleaving, `pipeline_progress` that neither loop waits for the other forever. -/

namespace Kingbus

/-! ## Messages -/

/-- `raftpb.MessageType`. -/
inductive MessageType where
  | hup | beat | prop | app | appResp | vote | voteResp | snap | heartbeat | heartbeatResp
  | unreachable | snapStatus | checkQuorum | transferLeader | timeoutNow | readIndex
  | readIndexResp | preVote | preVoteResp
  deriving DecidableEq, Repr

/-- `raftpb.Message`; nothing looks at the other fields. -/
structure Message where
  type : MessageType
  toID : Nat
  body : Bytes
  deriving DecidableEq, Repr

/-- `maxInFlightMsgSnap`. -/
def maxInFlightMsgSnap : Nat := 16

/-- What the loop of `processMessages` leaves of the messages from one on. -/
structure Swept where
  messages : List Message
  sentAppResp : Bool
  /-- `msgSnapC`. -/
  snaps : List Message
  deriving DecidableEq

/-- A message to a member that is removed has no receiver. -/
def dropRemoved (isIDRemoved : Nat → Bool) (m : Message) : Message :=
  { m with toID := if isIDRemoved m.toID then 0 else m.toID }

/-- The loop of `processMessages`; it goes from the last message to the first. -/
def processFrom (isIDRemoved : Nat → Bool) (snaps : List Message) : List Message → Swept
  | [] => ⟨[], false, snaps⟩
  | m :: ms =>
      let r := processFrom isIDRemoved snaps ms
      let m' := dropRemoved isIDRemoved m
      if m.type = .appResp then
        if r.sentAppResp then { r with messages := { m' with toID := 0 } :: r.messages }
        else { r with messages := m' :: r.messages, sentAppResp := true }
      else if m.type = .snap then
        { r with
          messages := { m' with toID := 0 } :: r.messages
          -- a full channel drops the message
          snaps := if r.snaps.length < maxInFlightMsgSnap then r.snaps ++ [m'] else r.snaps }
      else { r with messages := m' :: r.messages }

/-- `processMessages`. -/
def processMessages (isIDRemoved : Nat → Bool) (snaps ms : List Message) :
    List Message × List Message :=
  ((processFrom isIDRemoved snaps ms).messages, (processFrom isIDRemoved snaps ms).snaps)

section Messages
variable (isIDRemoved : Nat → Bool)

/-- The receiver of a message that others follow: none, if the receiver is removed, if it is a
snapshot, or if it acknowledges entries and is not the last one that does. -/
def receiver (m : Message) (later : List Message) : Nat :=
  if isIDRemoved m.toID ∨ m.type = .snap ∨ (m.type = .appResp ∧ ∃ l ∈ later, l.type = .appResp) then 0
  else m.toID

/-- The messages with their receivers. -/
def receivers : List Message → List Message
  | [] => []
  | m :: ms => { m with toID := receiver isIDRemoved m ms } :: receivers ms

/-- What `msgSnapC` is offered, in the order of the loop. -/
def offered (ms : List Message) : List Message :=
  (ms.reverse.filter fun m => m.type = .snap).map (dropRemoved isIDRemoved)

end Messages

/-! ## The loops -/

/-- `raft.SoftState`: the leader, and whether this node is the leader. -/
structure SoftState where
  lead : Nat
  leader : Bool
  deriving DecidableEq

/-- A `Ready` as `Node.Run` takes it. -/
structure RunReady extends Ready where
  softState : Option SoftState
  messages : List Message
  deriving DecidableEq

/-- `raftpb.EntryConfChange`. -/
def Entry.isConfChange (e : Entry) : Bool := e.type = 1

/-- Whether a follower waits for the entries to be applied. -/
def RunReady.waitApply (rd : RunReady) : Bool := rd.committedEntries.any Entry.isConfChange

/-- Where `Node.Run` stands. -/
inductive RunPhase where
  | idle
  | taken (rd : RunReady)
  | replicated (rd : RunReady)
  | hardStateSaved (rd : RunReady)
  | appended (rd : RunReady)
  | handed (rd : RunReady)
  | stopped
  deriving DecidableEq

/-- Where the loop of `runRaft` stands. -/
inductive Applier where
  | idle
  | received (entries : List Entry)
  | applying (entries : List Entry)
  | panicked
  deriving DecidableEq

/-- What the loops do to the disk, the network and the state machine. -/
inductive Act where
  | save (rd : RunReady)
  | append (rd : RunReady)
  | handOver (rd : RunReady)
  | send (byLeader : Bool) (rd : RunReady) (ms : List Message)
  | advance (rd : RunReady)
  | apply (e : Entry)
  deriving DecidableEq

/-- Both loops.  `raftApplied` is how far the raft library has handed out committed entries. -/
structure Pipeline where
  phase : RunPhase
  isLead : Bool
  committedIndex : Nat
  appliedIndex : Nat
  raftApplied : Nat
  applier : Applier
  notified : Bool
  snaps : List Message
  trace : List Act
  deriving DecidableEq

/-- A step of one of the loops, or the arrival of a `Ready`. -/
inductive PipeEvent where
  | ready (rd : RunReady)
  | run (isIDRemoved : Nat → Bool)
  | stop
  | apply

namespace Pipeline

/-- After a start with an applied index. -/
def start (appliedIndex : Nat) : Pipeline where
  phase := .idle
  isLead := false
  committedIndex := 0
  appliedIndex := appliedIndex
  raftApplied := appliedIndex
  applier := .idle
  notified := false
  snaps := []
  trace := []

/-- `updateCommittedIndex` and the handler of `UpdateCommittedIndex`. -/
def updateCommittedIndex (committedIndex : Nat) (entries : List Entry) : Nat :=
  match entries.getLast? with
  | none => committedIndex
  | some e => if e.index ≠ 0 ∧ committedIndex < e.index then e.index else committedIndex

/-- `r.Transport.Send(r.processMessages(rd.Messages))`. -/
def send (n : Pipeline) (isIDRemoved : Nat → Bool) (rd : RunReady) : Pipeline :=
  let r := processMessages isIDRemoved n.snaps rd.messages
  { n with snaps := r.2, trace := n.trace ++ [.send n.isLead rd r.1] }

/-- The next step of `Node.Run` with the `Ready` it took; `none` while it waits. -/
def runStep (n : Pipeline) (isIDRemoved : Nat → Bool) : Option Pipeline :=
  match n.phase with
  | .idle | .stopped => none
  | .taken rd =>
      some { (if n.isLead then n.send isIDRemoved rd else n) with phase := .replicated rd }
  | .replicated rd =>
      some { n with
        phase := .hardStateSaved rd
        trace := if rd.hardState = .empty then n.trace else n.trace ++ [.save rd] }
  | .hardStateSaved rd =>
      some { n with
        phase := .appended rd
        trace := if rd.entries = [] then n.trace else n.trace ++ [.append rd] }
  | .appended rd =>
      -- the channel has no buffer
      if n.applier = .idle then
        some { n with
          phase := .handed rd
          applier := .received rd.committedEntries
          notified := false
          trace := n.trace ++ [.handOver rd] }
      else none
  | .handed rd =>
      if n.isLead then
        some { n with
          phase := .idle
          raftApplied := n.raftApplied + rd.committedEntries.length
          trace := n.trace ++ [.advance rd] }
      else if rd.waitApply ∧ ¬ n.notified then none
      else
        let n := n.send isIDRemoved rd
        some { n with
          phase := .idle
          raftApplied := n.raftApplied + rd.committedEntries.length
          trace := n.trace ++ [.advance rd] }

/-- The next step of `applyAll`. -/
def applyStep (n : Pipeline) : Option Pipeline :=
  match n.applier with
  | .idle | .panicked => none
  | .received entries =>
      match applyEntries n.appliedIndex entries with
      | .error _ => some { n with applier := .panicked }
      | .ok ents => some { n with applier := .applying ents }
  | .applying [] => some { n with applier := .idle, notified := true }
  | .applying (e :: rest) =>
      some { n with
        applier := .applying rest
        appliedIndex := e.index
        trace := n.trace ++ [.apply e] }

/-- The steps of the two loops. -/
def step (n : Pipeline) : PipeEvent → Option Pipeline
  | .ready rd =>
      if n.phase = .idle then
        some { n with
          phase := .taken rd
          isLead := match rd.softState with | none => n.isLead | some s => s.leader
          committedIndex := updateCommittedIndex n.committedIndex rd.committedEntries }
      else none
  | .run isIDRemoved => n.runStep isIDRemoved
  | .stop =>
      match n.phase with
      | .idle | .appended _ => some { n with phase := .stopped }
      | _ => none
  | .apply => n.applyStep

end Pipeline

/-! ## What `processMessages` does -/

section Messages
variable {isIDRemoved : Nat → Bool}

theorem processFrom_sentAppResp (snaps ms : List Message) :
    (processFrom isIDRemoved snaps ms).sentAppResp = ms.any fun m => m.type = .appResp := by
  induction ms with
  | nil => rfl
  | cons m ms ih =>
      rw [processFrom, List.any_cons]
      by_cases hresp : m.type = .appResp
      · rw [if_pos hresp, decide_eq_true hresp, Bool.true_or]
        split
        · next hsent => exact hsent
        · rfl
      · rw [if_neg hresp, decide_eq_false hresp, Bool.false_or, ← ih]
        split <;> rfl

theorem processFrom_messages (snaps ms : List Message) :
    (processFrom isIDRemoved snaps ms).messages = receivers isIDRemoved ms := by
  induction ms with
  | nil => rfl
  | cons m ms ih =>
      have hlater : (processFrom isIDRemoved snaps ms).sentAppResp = true ↔
          ∃ l ∈ ms, l.type = .appResp := by
        rw [processFrom_sentAppResp, List.any_eq_true]
        simp only [decide_eq_true_eq]
      rw [processFrom, receivers, receiver]
      simp only [hlater]
      by_cases hresp : m.type = .appResp
      · have hsnap : m.type ≠ .snap := by rw [hresp]; decide
        rw [if_pos hresp]
        by_cases hl : ∃ l ∈ ms, l.type = .appResp
        · rw [if_pos hl, if_pos (show _ ∨ _ from .inr (.inr ⟨hresp, hl⟩)), ih]
          rfl
        · simp only [hl, hsnap, if_false, and_false, or_false, ih]
          rfl
      · rw [if_neg hresp]
        by_cases hsnap : m.type = .snap
        · rw [if_pos hsnap, if_pos (show _ ∨ _ from .inr (.inl hsnap)), ih]
          rfl
        · simp only [hsnap, hresp, if_false, false_and, or_false, ih]
          rfl

theorem offered_cons (m : Message) (ms : List Message) :
    offered isIDRemoved (m :: ms) = offered isIDRemoved ms ++
      if m.type = .snap then [dropRemoved isIDRemoved m] else [] := by
  rw [offered, offered, List.reverse_cons, List.filter_append, List.map_append]
  by_cases hsnap : m.type = .snap
  · simp [hsnap]
  · simp [hsnap]

theorem processFrom_snaps (snaps ms : List Message) :
    (processFrom isIDRemoved snaps ms).snaps =
      snaps ++ (offered isIDRemoved ms).take (maxInFlightMsgSnap - snaps.length) := by
  induction ms with
  | nil =>
      rw [offered, List.reverse_nil, List.filter_nil, List.map_nil, List.take_nil, List.append_nil]
      rfl
  | cons m ms ih =>
      rw [processFrom, offered_cons]
      by_cases hresp : m.type = .appResp
      · have hsnap : m.type ≠ .snap := by rw [hresp]; decide
        rw [if_pos hresp, if_neg hsnap, List.append_nil, ← ih]
        split <;> rfl
      rw [if_neg hresp]
      by_cases hsnap : m.type = .snap
      · rw [if_pos hsnap, if_pos hsnap]
        simp only [ih, List.length_append, List.length_take]
        by_cases hroom : (offered isIDRemoved ms).length < maxInFlightMsgSnap - snaps.length
        · rw [if_pos (by omega), List.take_of_length_le (by omega), List.take_of_length_le,
            List.append_assoc]
          rw [List.length_append, List.length_singleton]
          omega
        · rw [if_neg (by omega), List.take_append_of_le_length (by omega)]
      · rw [if_neg hsnap, if_neg hsnap, List.append_nil, ih]

/-- **What `processMessages` does to a batch of messages**: it only takes receivers away, and
`msgSnapC` gets as many of the snapshots, the last one first, as there is room for. -/
theorem processMessages_eq (isIDRemoved : Nat → Bool) (snaps ms : List Message) :
    processMessages isIDRemoved snaps ms = (receivers isIDRemoved ms,
      snaps ++ (offered isIDRemoved ms).take (maxInFlightMsgSnap - snaps.length)) := by
  rw [processMessages, processFrom_messages, processFrom_snaps]

end Messages

/-! ## What holds of every interleaving -/

/-- What the raft library guarantees of a `Ready`: its committed entries follow those it has
handed out. -/
def PipeEvent.Valid (n : Pipeline) : PipeEvent → Prop
  | .ready rd => Numbered Entry.index (n.raftApplied + 1) rd.committedEntries
  | _ => True

instance PipeEvent.decidableValid (n : Pipeline) : ∀ ev : PipeEvent, Decidable (ev.Valid n)
  | .ready _ => Numbered.decidable ..
  | .run _ | .stop | .apply => inferInstanceAs (Decidable True)

namespace Act

/-- The acts of `Node.Run`. -/
def ofRun : Act → Bool
  | .apply _ => false
  | _ => true

/-- The entries that were handed over, in their order. -/
def handed (t : List Act) : List Entry :=
  t.flatMap fun a => match a with
    | .handOver rd => rd.committedEntries
    | _ => []

/-- The entries that were applied, in their order. -/
def applied (t : List Act) : List Entry :=
  t.filterMap fun a => match a with
    | .apply e => some e
    | _ => none

end Act

/-- What is stored of a `Ready`. -/
def RunReady.stored (rd : RunReady) : List Act :=
  (if rd.hardState = .empty then [] else [.save rd]) ++
    if rd.entries = [] then [] else [.append rd]

/-- When an act may happen: entries are handed over right after the `Ready` is stored; a message
of a node that does not lead leaves after both, and behind a configuration change only when all
that was handed over is applied; an entry is applied after it was handed over, and no entry is
left out or applied again. -/
def Act.InOrder (start : Nat) (pre : List Act) : Act → Prop
  | .handOver rd => rd.stored <:+ pre.filter Act.ofRun
  | .send false rd _ => rd.stored ++ [.handOver rd] <:+ pre.filter Act.ofRun ∧
      (rd.waitApply = true → Act.applied pre = Act.handed pre)
  | .apply e => Act.applied pre ++ [e] <+: Act.handed pre ∧
      e.index = start + (Act.applied pre).length + 1
  | _ => True

namespace Pipeline

/-- The acts of the current `Ready` that stand at the end of those of `Node.Run`. -/
def lastActs : RunPhase → List Act
  | .hardStateSaved rd => if rd.hardState = .empty then [] else [.save rd]
  | .appended rd => rd.stored
  | .handed rd => rd.stored ++ [.handOver rd]
  | _ => []

/-- The committed entries of the current `Ready` that are not handed over yet. -/
def due : RunPhase → List Entry
  | .taken rd | .replicated rd | .hardStateSaved rd | .appended rd => rd.committedEntries
  | _ => []

/-- The entries of a `Ready` that were handed over before the raft library was told. -/
def untold : RunPhase → Nat
  | .handed rd => rd.committedEntries.length
  | _ => 0

/-- What the other loop has left to apply. -/
def left : Applier → List Entry
  | .received entries | .applying entries => entries
  | _ => []

/-- The invariant of the two loops. -/
structure Inv (start : Nat) (n : Pipeline) : Prop where
  inOrder : Guarded (Act.InOrder start) n.trace
  last : lastActs n.phase <:+ n.trace.filter Act.ofRun
  handed : Act.handed n.trace = Act.applied n.trace ++ left n.applier
  numbered : Numbered Entry.index (start + 1) (Act.handed n.trace ++ due n.phase)
  applied : n.appliedIndex = start + (Act.applied n.trace).length
  raft : n.phase ≠ .stopped →
    n.raftApplied + untold n.phase = start + (Act.handed n.trace).length
  committed : n.phase ≠ .stopped → n.committedIndex =
    if Act.handed n.trace ++ due n.phase = [] then 0
    else start + (Act.handed n.trace ++ due n.phase).length
  handed_le : Act.handed n.trace ≠ [] → start + (Act.handed n.trace).length ≤ n.committedIndex
  notified : ∀ rd, n.phase = .handed rd → (n.notified = true ↔ n.applier = .idle)
  running : n.applier ≠ .panicked

variable {start : Nat} {n n' : Pipeline} {rd : RunReady}

theorem inv_start (start : Nat) : Inv start (Pipeline.start start) where
  inOrder := guarded_nil
  last := List.suffix_rfl
  handed := rfl
  numbered := trivial
  applied := rfl
  raft := fun _ => rfl
  committed := fun _ => rfl
  handed_le := fun h => absurd rfl h
  notified := fun _ h => by cases h
  running := by simp [Pipeline.start]

/-! ### Traces -/

theorem handed_append (t t' : List Act) :
    Act.handed (t ++ t') = Act.handed t ++ Act.handed t' := List.flatMap_append

theorem applied_append (t t' : List Act) :
    Act.applied (t ++ t') = Act.applied t ++ Act.applied t' := List.filterMap_append

/-- An act of `Node.Run` that hands nothing over. -/
theorem trace_concat {a : Act} (t : List Act) (hrun : a.ofRun = true)
    (hhand : ∀ rd, a ≠ .handOver rd) :
    Act.handed (t ++ [a]) = Act.handed t ∧ Act.applied (t ++ [a]) = Act.applied t ∧
      (t ++ [a]).filter Act.ofRun = t.filter Act.ofRun ++ [a] := by
  rw [handed_append, applied_append, List.filter_append]
  cases a with
  | handOver rd => exact absurd rfl (hhand rd)
  | apply e => cases hrun
  | save rd => exact ⟨List.append_nil _, List.append_nil _, rfl⟩
  | append rd => exact ⟨List.append_nil _, List.append_nil _, rfl⟩
  | send b rd ms => exact ⟨List.append_nil _, List.append_nil _, rfl⟩
  | advance rd => exact ⟨List.append_nil _, List.append_nil _, rfl⟩

theorem suffix_concat {l m : List Act} (h : l <:+ m) (a : Act) : l ++ [a] <:+ m ++ [a] := by
  obtain ⟨r, rfl⟩ := h
  exact ⟨r, by rw [List.append_assoc]⟩

/-! ### The steps -/

theorem updateCommittedIndex_eq {committed first : Nat} {es : List Entry}
    (h : Numbered Entry.index (first + 1) es) (hle : committed ≤ first) :
    updateCommittedIndex committed es = if es = [] then committed else first + es.length := by
  rw [updateCommittedIndex]
  cases hlast : es.getLast? with
  | none =>
      rw [if_pos (List.getLast?_eq_none_iff.mp hlast)]
  | some e =>
      have hne : es ≠ [] := by
        rintro rfl
        cases hlast
      have hindex := h.getLast? hlast
      have hpos : 0 < es.length := List.length_pos_of_ne_nil hne
      rw [if_neg hne]
      simp only
      rw [if_pos ⟨by omega, by omega⟩]
      omega

/-- A `Ready` is taken. -/
theorem Inv.ready (h : Inv start n) (hidle : n.phase = .idle)
    (hvalid : Numbered Entry.index (n.raftApplied + 1) rd.committedEntries) (isLead : Bool) :
    Inv start { n with
      phase := .taken rd
      isLead := isLead
      committedIndex := updateCommittedIndex n.committedIndex rd.committedEntries } := by
  have hraft := h.raft (by rw [hidle]; simp)
  have hcommitted := h.committed (by rw [hidle]; simp)
  have hnumbered := h.numbered
  simp only [hidle, untold, due, Nat.add_zero, List.append_nil] at hraft hcommitted hnumbered
  rw [hraft] at hvalid
  have hle : n.committedIndex ≤ start + (Act.handed n.trace).length := by
    rw [hcommitted]
    split <;> omega
  have hupdate := updateCommittedIndex_eq hvalid hle
  refine { h with
    last := List.nil_suffix
    numbered := hnumbered.append (by rwa [Nat.add_right_comm])
    raft := fun _ => hraft
    committed := fun _ => ?_
    handed_le := fun hne => ?_
    notified := fun _ heq => by cases heq }
  · change updateCommittedIndex n.committedIndex rd.committedEntries =
      if Act.handed n.trace ++ rd.committedEntries = [] then 0
      else start + (Act.handed n.trace ++ rd.committedEntries).length
    rw [hupdate, hcommitted]
    by_cases hes : rd.committedEntries = []
    · rw [if_pos hes, hes, List.append_nil]
    · rw [if_neg hes, if_neg (fun heq => hes (List.append_eq_nil_iff.mp heq).2), List.length_append]
      omega
  · have hbefore := h.handed_le hne
    change start + (Act.handed n.trace).length ≤
      updateCommittedIndex n.committedIndex rd.committedEntries
    rw [hupdate]
    split <;> omega

/-- A step of `Node.Run` before the entries are handed over: an act is added, or none. -/
theorem Inv.keep (h : Inv start n) {phase : RunPhase} {trace : List Act} (snaps : List Message)
    (hphase : due phase = due n.phase) (huntold : untold phase = untold n.phase)
    (hstop : n.phase ≠ .stopped) (hhanded : ∀ rd, phase ≠ .handed rd)
    (hlast : lastActs phase <:+ trace.filter Act.ofRun)
    (horder : Guarded (Act.InOrder start) trace)
    (htrace : Act.handed trace = Act.handed n.trace ∧ Act.applied trace = Act.applied n.trace) :
    Inv start { n with phase := phase, trace := trace, snaps := snaps } where
  inOrder := horder
  last := hlast
  handed := by
    rw [htrace.1, htrace.2]
    exact h.handed
  numbered := by
    rw [htrace.1, hphase]
    exact h.numbered
  applied := by
    rw [htrace.2]
    exact h.applied
  raft := fun _ => by
    rw [htrace.1, huntold]
    exact h.raft hstop
  committed := fun _ => by
    rw [htrace.1, hphase]
    exact h.committed hstop
  handed_le := by
    rw [htrace.1]
    exact h.handed_le
  notified := fun rd heq => absurd heq (hhanded rd)
  running := h.running

theorem Inv.taken (h : Inv start n) (hphase : n.phase = .taken rd) (isIDRemoved : Nat → Bool) :
    Inv start { (if n.isLead then n.send isIDRemoved rd else n) with phase := .replicated rd } := by
  have hlast : lastActs (.replicated rd) = [] := rfl
  by_cases hlead : n.isLead = true
  · obtain ⟨hh, ha, -⟩ := trace_concat n.trace (a := .send n.isLead rd
      (processMessages isIDRemoved n.snaps rd.messages).1) rfl (by simp)
    rw [if_pos hlead]
    refine h.keep _ (by rw [hphase]; rfl) (by rw [hphase]; rfl) (by rw [hphase]; simp) (by simp)
      (by rw [hlast]; exact List.nil_suffix) (h.inOrder.concat ?_) ⟨hh, ha⟩
    rw [hlead]
    trivial
  · rw [if_neg hlead]
    exact h.keep n.snaps (by rw [hphase]; rfl) (by rw [hphase]; rfl)
      (by rw [hphase]; simp) (by simp) (by rw [hlast]; exact List.nil_suffix) h.inOrder ⟨rfl, rfl⟩

theorem Inv.replicated (h : Inv start n) (hphase : n.phase = .replicated rd) :
    Inv start { n with
      phase := .hardStateSaved rd
      trace := if rd.hardState = .empty then n.trace else n.trace ++ [.save rd] } := by
  obtain ⟨hh, ha, hf⟩ := trace_concat n.trace (a := .save rd) rfl (by simp)
  refine h.keep n.snaps (by rw [hphase]; rfl) (by rw [hphase]; rfl)
    (by rw [hphase]; simp) (by simp) ?_ ?_ ?_
  · rw [lastActs]
    split
    · exact List.nil_suffix
    · rw [hf]
      exact List.suffix_append _ _
  · split
    · exact h.inOrder
    · exact h.inOrder.concat trivial
  · split
    · exact ⟨rfl, rfl⟩
    · exact ⟨hh, ha⟩

theorem Inv.hardStateSaved (h : Inv start n) (hphase : n.phase = .hardStateSaved rd) :
    Inv start { n with
      phase := .appended rd
      trace := if rd.entries = [] then n.trace else n.trace ++ [.append rd] } := by
  obtain ⟨hh, ha, hf⟩ := trace_concat n.trace (a := .append rd) rfl (by simp)
  have hlast := h.last
  rw [hphase, lastActs] at hlast
  refine h.keep n.snaps (by rw [hphase]; rfl) (by rw [hphase]; rfl)
    (by rw [hphase]; simp) (by simp) ?_ ?_ ?_
  · rw [lastActs, RunReady.stored]
    by_cases hes : rd.entries = []
    · rw [if_pos hes, if_pos hes, List.append_nil]
      exact hlast
    · rw [if_neg hes, if_neg hes, hf]
      exact suffix_concat hlast _
  · split
    · exact h.inOrder
    · exact h.inOrder.concat trivial
  · split
    · exact ⟨rfl, rfl⟩
    · exact ⟨hh, ha⟩

/-- The other loop takes the entries. -/
theorem Inv.appended (h : Inv start n) (hphase : n.phase = .appended rd)
    (hidle : n.applier = .idle) :
    Inv start { n with
      phase := .handed rd
      applier := .received rd.committedEntries
      notified := false
      trace := n.trace ++ [.handOver rd] } := by
  have hlast := h.last
  have hnumbered := h.numbered
  have hcommitted := h.committed (by rw [hphase]; simp)
  have hraft := h.raft (by rw [hphase]; simp)
  have hhanded := h.handed
  rw [hphase] at hlast hnumbered hcommitted hraft
  rw [hidle] at hhanded
  have hh : Act.handed (n.trace ++ [.handOver rd]) =
      Act.handed n.trace ++ rd.committedEntries := by
    rw [handed_append]
    exact congrArg _ (List.append_nil _)
  have ha : Act.applied (n.trace ++ [.handOver rd]) = Act.applied n.trace := by
    rw [applied_append]
    exact List.append_nil _
  have hf : (n.trace ++ [Act.handOver rd]).filter Act.ofRun =
      n.trace.filter Act.ofRun ++ [.handOver rd] := List.filter_append ..
  exact {
    inOrder := h.inOrder.concat hlast
    last := by
      rw [hf]
      exact suffix_concat hlast _
    handed := by
      rw [hh, ha, hhanded]
      exact congrArg (· ++ rd.committedEntries) (List.append_nil _)
    numbered := by
      rw [hh]
      exact (List.append_nil (Act.handed n.trace ++ rd.committedEntries)).symm ▸ hnumbered
    applied := by
      rw [ha]
      exact h.applied
    raft := fun _ => by
      rw [hh, List.length_append, ← Nat.add_assoc, ← hraft]
      rfl
    committed := fun _ => by
      rw [hh]
      exact (List.append_nil (Act.handed n.trace ++ rd.committedEntries)).symm ▸ hcommitted
    handed_le := fun hne => by
      rw [hh] at hne ⊢
      exact Nat.le_of_eq (hcommitted.trans (if_neg hne)).symm
    notified := fun _ _ => by simp
    running := by simp }

/-- Back to the raft library, which counts the entries. -/
theorem Inv.advance (h : Inv start n) (hphase : n.phase = .handed rd) {trace : List Act}
    (snaps : List Message) (horder : Guarded (Act.InOrder start) trace)
    (htrace : Act.handed trace = Act.handed n.trace ∧ Act.applied trace = Act.applied n.trace) :
    Inv start { n with
      phase := .idle
      raftApplied := n.raftApplied + rd.committedEntries.length
      snaps := snaps
      trace := trace } := by
  have hraft := h.raft (by rw [hphase]; simp)
  have hnumbered := h.numbered
  have hcommitted := h.committed (by rw [hphase]; simp)
  rw [hphase] at hraft hnumbered hcommitted
  exact {
    inOrder := horder
    last := List.nil_suffix
    handed := by
      rw [htrace.1, htrace.2]
      exact h.handed
    numbered := by
      rw [htrace.1]
      exact hnumbered
    applied := by
      rw [htrace.2]
      exact h.applied
    raft := fun _ => by
      rw [htrace.1]
      exact hraft
    committed := fun _ => by
      rw [htrace.1]
      exact hcommitted
    handed_le := by
      rw [htrace.1]
      exact h.handed_le
    notified := fun _ heq => by cases heq
    running := h.running }

theorem Inv.run (h : Inv start n) {isIDRemoved : Nat → Bool}
    (hstep : n.runStep isIDRemoved = some n') : Inv start n' := by
  rw [runStep] at hstep
  split at hstep
  · cases hstep
  · cases hstep
  · next rd hphase =>
    cases hstep
    exact h.taken hphase isIDRemoved
  · next rd hphase =>
    cases hstep
    exact h.replicated hphase
  · next rd hphase =>
    cases hstep
    exact h.hardStateSaved hphase
  · next rd hphase =>
    split at hstep
    · next hidle =>
      cases hstep
      exact h.appended hphase hidle
    · cases hstep
  · next rd hphase =>
    obtain ⟨hadv, hadva, -⟩ := trace_concat n.trace (a := .advance rd) rfl (by simp)
    split at hstep
    · cases hstep
      exact h.advance hphase n.snaps (h.inOrder.concat trivial) ⟨hadv, hadva⟩
    · next hlead =>
      split at hstep
      · cases hstep
      · next hwait =>
        cases hstep
        -- all that was handed over is applied when `Notifyc` was read
        have hall : rd.waitApply = true → Act.applied n.trace = Act.handed n.trace := by
          intro hw
          have hnotified : n.notified = true := by
            by_contra hno
            exact hwait ⟨hw, hno⟩
          have hhanded := h.handed
          rw [(h.notified rd hphase).mp hnotified] at hhanded
          rw [hhanded]
          exact (List.append_nil _).symm
        have hlast := h.last
        rw [hphase] at hlast
        have hfollower : n.isLead = false := by simpa using hlead
        obtain ⟨hs, hsa, -⟩ := trace_concat n.trace (a := .send n.isLead rd
          (processMessages isIDRemoved n.snaps rd.messages).1) rfl (by simp)
        obtain ⟨ht, hta, -⟩ := trace_concat (n.trace ++ [.send n.isLead rd
          (processMessages isIDRemoved n.snaps rd.messages).1]) (a := .advance rd) rfl (by simp)
        refine h.advance hphase _ (Guarded.concat (h.inOrder.concat ?_) trivial)
          ⟨ht.trans hs, hta.trans hsa⟩
        rw [hfollower]
        exact ⟨hlast, hall⟩

/-- What is left to apply follows what is applied. -/
theorem Inv.left_numbered (h : Inv start n) :
    Numbered Entry.index (n.appliedIndex + 1) (left n.applier) := by
  have hall := (Numbered.append_iff.mp h.numbered).1
  rw [h.handed] at hall
  rw [h.applied, Nat.add_right_comm]
  exact (Numbered.append_iff.mp hall).2

/-- So `applyEntries` applies all that was handed over. -/
theorem Inv.applyEntries_received (h : Inv start n) {entries : List Entry}
    (happlier : n.applier = .received entries) :
    applyEntries n.appliedIndex entries = .ok entries := by
  have hleft := h.left_numbered
  rw [happlier] at hleft
  exact applyEntries_eq hleft

theorem Inv.apply (h : Inv start n) (hstep : n.applyStep = some n') : Inv start n' := by
  have hhanded := h.handed
  have hleft := h.left_numbered
  rw [applyStep] at hstep
  split at hstep
  · cases hstep
  · cases hstep
  · next entries happlier =>
    rw [happlier] at hhanded
    rw [h.applyEntries_received happlier] at hstep
    cases hstep
    exact { h with
      handed := hhanded
      notified := fun rd hrd => by
        have := h.notified rd hrd
        simpa [happlier] using this
      running := by simp }
  · next happlier =>
    cases hstep
    rw [happlier] at hhanded
    exact { h with
      handed := hhanded
      notified := fun rd _ => by simp
      running := by simp }
  · next e rest happlier =>
    cases hstep
    rw [happlier] at hhanded hleft
    have hindex : e.index = start + (Act.applied n.trace).length + 1 := by
      rw [← h.applied]
      exact hleft.1
    have hh : Act.handed (n.trace ++ [.apply e]) = Act.handed n.trace := by
      rw [handed_append]
      exact List.append_nil _
    have ha : Act.applied (n.trace ++ [.apply e]) = Act.applied n.trace ++ [e] := applied_append ..
    have hf : (n.trace ++ [Act.apply e]).filter Act.ofRun = n.trace.filter Act.ofRun := by
      rw [List.filter_append]
      exact List.append_nil _
    exact {
      inOrder := h.inOrder.concat ⟨⟨rest, by rw [hhanded]; simp [left]⟩, hindex⟩
      last := by
        rw [hf]
        exact h.last
      handed := by
        rw [hh, ha, hhanded, List.append_assoc]
        rfl
      numbered := by
        rw [hh]
        exact h.numbered
      applied := by
        rw [ha, List.length_append]
        exact hindex
      raft := fun hne => by
        rw [hh]
        exact h.raft hne
      committed := fun hne => by
        rw [hh]
        exact h.committed hne
      handed_le := by
        rw [hh]
        exact h.handed_le
      notified := fun rd hrd => by
        have := h.notified rd hrd
        simpa [happlier] using this
      running := by simp }

/-- `Node.Run` ends; the other loop goes on with what it has. -/
theorem Inv.stop (h : Inv start n) : Inv start { n with phase := .stopped } := by
  have hnumbered := (Numbered.append_iff.mp h.numbered).1
  exact { h with
    last := List.nil_suffix
    numbered := (List.append_nil (Act.handed n.trace)).symm ▸ hnumbered
    raft := fun hne => absurd rfl hne
    committed := fun hne => absurd rfl hne
    notified := fun _ heq => by cases heq }

/-- **Every step keeps the invariant.** -/
theorem Inv.step {ev : PipeEvent} (h : Inv start n) (hvalid : ev.Valid n)
    (hstep : n.step ev = some n') : Inv start n' := by
  cases ev with
  | ready rd =>
      rw [Pipeline.step] at hstep
      split at hstep
      · next hidle =>
        cases hstep
        exact h.ready hidle hvalid _
      · cases hstep
  | run isIDRemoved => exact h.run hstep
  | stop =>
      rw [Pipeline.step] at hstep
      split at hstep
      · cases hstep
        exact h.stop
      · cases hstep
        exact h.stop
      · cases hstep
  | apply => exact h.apply hstep

/-! ### No deadlock -/

/-- The other loop finishes what it has, and writes to `Notifyc`. -/
theorem drain_applying {entries : List Entry} : ∀ {n : Pipeline}, n.applier = .applying entries →
    ∃ n', Runs.exec step n (List.replicate (entries.length + 1) .apply) = some n' ∧
      n'.applier = .idle ∧ n'.notified = true ∧ n'.phase = n.phase ∧ n'.isLead = n.isLead := by
  induction entries with
  | nil =>
      intro n happlier
      refine ⟨{ n with applier := .idle, notified := true }, ?_, rfl, rfl, rfl, rfl⟩
      rw [List.length_nil, List.replicate_succ, Runs.exec_cons, step, applyStep, happlier]
      rfl
  | cons e rest ih =>
      intro n happlier
      obtain ⟨n', hexec, hrest⟩ := ih (n := { n with
        applier := .applying rest
        appliedIndex := e.index
        trace := n.trace ++ [.apply e] }) rfl
      refine ⟨n', ?_, hrest⟩
      rw [List.length_cons, List.replicate_succ, Runs.exec_cons, step, applyStep, happlier]
      exact hexec

theorem drain (h : Inv start n) (hbusy : n.applier ≠ .idle) :
    ∃ k n', k ≤ (left n.applier).length + 2 ∧
      Runs.exec step n (List.replicate k .apply) = some n' ∧
      n'.applier = .idle ∧ n'.notified = true ∧ n'.phase = n.phase ∧ n'.isLead = n.isLead := by
  cases happlier : n.applier with
  | idle => exact absurd happlier hbusy
  | panicked => exact absurd happlier h.running
  | applying entries =>
      obtain ⟨n', hexec, hrest⟩ := drain_applying happlier
      exact ⟨_, n', Nat.le_succ _, hexec, hrest⟩
  | received entries =>
      -- the first step cuts off what is applied already, which is nothing
      have hstep : n.applyStep = some { n with applier := .applying entries } := by
        rw [applyStep, happlier]
        simp only [h.applyEntries_received happlier]
      obtain ⟨n', hexec, hrest⟩ := drain_applying (n := { n with applier := .applying entries }) rfl
      refine ⟨entries.length + 2, n', Nat.le_refl _, ?_, hrest⟩
      rw [List.replicate_succ, Runs.exec_cons, step, hstep]
      exact hexec

end Pipeline

/-- **Safety of the two loops**, for every interleaving and whenever `Node.Run` is stopped: acts
happen in order (`Act.InOrder`), entries are applied in the order of the log, each one once and
only after it was handed over, the committed index is never behind the applied one once
something was committed, and `applyEntries` does not panic. -/
theorem pipeline_safe {start : Nat} {n : Pipeline}
    (h : Runs Pipeline.step (fun n ev => ev.Valid n) (Pipeline.start start) n) :
    Guarded (Act.InOrder start) n.trace ∧
    Act.applied n.trace <+: Act.handed n.trace ∧
    Numbered Entry.index (start + 1) (Act.applied n.trace) ∧
    n.appliedIndex = start + (Act.applied n.trace).length ∧
    (Act.handed n.trace ≠ [] → n.appliedIndex ≤ n.committedIndex) ∧
    n.applier ≠ .panicked := by
  have hinv : n.Inv start := h.invariant (Pipeline.inv_start start) fun hi hv hs => hi.step hv hs
  have hprefix : Act.applied n.trace <+: Act.handed n.trace := ⟨_, hinv.handed.symm⟩
  refine ⟨hinv.inOrder, hprefix, ?_, hinv.applied, fun hne => ?_, hinv.running⟩
  · have hall := (Numbered.append_iff.mp hinv.numbered).1
    rw [hinv.handed] at hall
    exact (Numbered.append_iff.mp hall).1
  · have hle := hprefix.length_le
    have hcommitted := hinv.handed_le hne
    rw [hinv.applied]
    omega

theorem confChangeType_lt : 1 < 2 ^ 32 := by decide

/-- An entry that changes the configuration. -/
def changeEntry : Entry := { small11 with type := 1, type_lt := confChangeType_lt }

/-- The first `Ready` of a follower. -/
def followerReady : RunReady where
  hardState := ⟨1, 0, 1⟩
  entries := [changeEntry]
  committedEntries := [changeEntry]
  softState := some ⟨2, false⟩
  messages := [⟨.appResp, 2, []⟩]

/-- It sends its message when the entry is applied. -/
theorem pipeline_safe_follower :
    ∃ n, Runs Pipeline.step (fun n ev => ev.Valid n) (Pipeline.start 0) n ∧
      n.trace = [.save followerReady, .append followerReady, .handOver followerReady,
        .apply changeEntry,
        .send false followerReady [⟨.appResp, 2, []⟩], .advance followerReady] ∧
      Guarded (Act.InOrder 0) n.trace := by
  obtain ⟨n, hexec, htrace⟩ : ∃ n, Runs.exec (fun n (ev : PipeEvent) =>
        if ev.Valid n then n.step ev else none) (Pipeline.start 0)
        [.ready followerReady, .run fun _ => false, .run fun _ => false, .run fun _ => false,
          .run fun _ => false, .apply, .apply, .apply, .run fun _ => false] = some n ∧
      n.trace = [.save followerReady, .append followerReady, .handOver followerReady,
        .apply changeEntry,
        .send false followerReady [⟨.appResp, 2, []⟩], .advance followerReady] :=
    Runs.exists_of_eval (by decide +kernel)
  have hrun : Runs Pipeline.step (fun n ev => ev.Valid n) (Pipeline.start 0) n := .of_exec _ hexec
  exact ⟨n, hrun, htrace, (pipeline_safe hrun).1⟩

/-- **No deadlock**: where `Node.Run` has a `Ready` to finish, it can take its next step after at
most as many steps of the other loop as that has entries left, and two. -/
theorem pipeline_progress {start : Nat} {n : Pipeline}
    (h : Runs Pipeline.step (fun n ev => ev.Valid n) (Pipeline.start start) n)
    (hphase : n.phase ≠ .idle ∧ n.phase ≠ .stopped) (isIDRemoved : Nat → Bool) :
    ∃ k n' n'', k ≤ (Pipeline.left n.applier).length + 2 ∧
      Runs.exec Pipeline.step n (List.replicate k .apply) = some n' ∧
      n'.runStep isIDRemoved = some n'' := by
  have hinv : n.Inv start := h.invariant (Pipeline.inv_start start) fun hi hv hs => hi.step hv hs
  cases hrun : n.runStep isIDRemoved with
  | some n'' => exact ⟨0, n, n'', Nat.zero_le _, rfl, hrun⟩
  | none =>
      rw [Pipeline.runStep] at hrun
      split at hrun
      · next hidle => exact absurd hidle hphase.1
      · next hstopped => exact absurd hstopped hphase.2
      · cases hrun
      · cases hrun
      · cases hrun
      · next rd hrd =>
        split at hrun
        · cases hrun
        · next hbusy =>
          obtain ⟨k, n', hk, hexec, hidle, -, hsame, -⟩ := Pipeline.drain hinv hbusy
          refine ⟨k, n', ?_⟩
          simp only [Pipeline.runStep, hsame, hrd, if_pos hidle]
          exact ⟨_, hk, hexec, rfl⟩
      · next rd hrd =>
        split at hrun
        · cases hrun
        · next hlead =>
          split at hrun
          · next hwait =>
            have hbusy : n.applier ≠ .idle :=
              fun hidle => hwait.2 ((hinv.notified rd hrd).mpr hidle)
            obtain ⟨k, n', hk, hexec, -, hnotified, hsame, hsameLead⟩ := Pipeline.drain hinv hbusy
            refine ⟨k, n', ?_⟩
            have hgo : ¬ (rd.waitApply = true ∧ ¬ n'.notified = true) := fun hno => hno.2 hnotified
            simp only [Pipeline.runStep, hsame, hrd, hsameLead, if_neg hlead, if_neg hgo]
            exact ⟨_, hk, hexec, rfl⟩
          · cases hrun

/-- The follower waits for its entry. -/
theorem pipeline_progress_follower :
    ∃ n, Runs Pipeline.step (fun n ev => ev.Valid n) (Pipeline.start 0) n ∧
      n.runStep (fun _ => false) = none ∧
      ∃ k n' n'', k ≤ 3 ∧ Runs.exec Pipeline.step n (List.replicate k .apply) = some n' ∧
        n'.runStep (fun _ => false) = some n'' := by
  obtain ⟨n, hexec, hphase, happlier, hwait⟩ : ∃ n, Runs.exec (fun n (ev : PipeEvent) =>
        if ev.Valid n then n.step ev else none) (Pipeline.start 0)
        [.ready followerReady, .run fun _ => false, .run fun _ => false, .run fun _ => false,
          .run fun _ => false] = some n ∧
      n.phase = .handed followerReady ∧ n.applier = .received followerReady.committedEntries ∧
      n.runStep (fun _ => false) = none :=
    Runs.exists_of_eval (by decide +kernel)
  have hrun : Runs Pipeline.step (fun n ev => ev.Valid n) (Pipeline.start 0) n := .of_exec _ hexec
  obtain ⟨k, n', n'', hk, hrest⟩ := pipeline_progress hrun (by rw [hphase]; simp) fun _ => false
  rw [happlier] at hk
  exact ⟨n, hrun, hwait, k, n', n'', hk, hrest⟩

end Kingbus
