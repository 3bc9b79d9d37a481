import Kingbus.CrashPoints

/-! # What a restarted node finds

`Node.Run` of `raft/raft.go` persists a `Ready` in steps: the hard state, the
entries, then the committed entries go to the apply loop, which now and then
persists the applied index; the purger drops old segments meanwhile.  A restart
hands the persisted values to the raft library, whose constructor panics unless
`FirstIndex - 1 ≤ AppliedIndex ≤ Commit ≤ LastIndex`.

The hard state is saved before the entries it may refer to, and the purger does
not look at the applied index, so the chain can be broken.  It holds in every run
in which no hard state is saved ahead of its entries, no purge passes the applied
index, and no batch goes back into a segment that a restart opened read-only. -/

namespace Kingbus

/-- `raftpb.HardState`. -/
structure HardState where
  term : Nat
  vote : Nat
  commit : Nat
  deriving DecidableEq, Repr

/-- `emptyState`. -/
def HardState.empty : HardState := ⟨0, 0, 0⟩

/-- The parts of a `Ready` that `Node.Run` persists or applies. -/
structure Ready where
  hardState : HardState
  entries : List Entry
  committedEntries : List Entry
  deriving DecidableEq

/-- The hard state on disk after `SaveHardState`, which is skipped for an empty
one. -/
def Ready.saved (rd : Ready) (persisted : HardState) : HardState :=
  if rd.hardState = .empty then persisted else rd.hardState

/-! ## The raft library at a restart -/

/-- `raftLog`, as far as a restart sets it up. -/
structure RaftLog where
  committed : Nat
  applied : Nat
  lastIndex : Nat
  deriving DecidableEq, Repr

namespace RaftLog

/-- `newLog`. -/
def newLog (s : DiskStorage) : RaftLog where
  committed := (s.firstIndex + (2 ^ 64 - 1)) % 2 ^ 64
  applied := (s.firstIndex + (2 ^ 64 - 1)) % 2 ^ 64
  lastIndex := s.lastIndex

/-- `loadState`. -/
def loadState (l : RaftLog) (state : HardState) : Except Failure RaftLog :=
  if state.commit < l.committed ∨ state.commit > l.lastIndex then
    .error (.panic "%x state.commit %d is out of range [%d, %d]")
  else .ok { l with committed := state.commit }

/-- `appliedTo`. -/
def appliedTo (l : RaftLog) (i : Nat) : Except Failure RaftLog :=
  if i = 0 then .ok l
  else if l.committed < i ∨ i < l.applied then
    .error (.panic "applied(%d) is out of range [prevApplied(%d), committed(%d)]")
  else .ok { l with applied := i }

/-- `newRaft`, on the persisted values. -/
def newRaft (s : DiskStorage) (hs : HardState) (applied : Nat) : Except Failure RaftLog :=
  (if hs = .empty then .ok (newLog s) else (newLog s).loadState hs).bind fun l =>
    if 0 < applied then l.appliedTo applied else .ok l

/-- **The chain of inequalities is what the library asks for.** -/
theorem newRaft_ok {s : DiskStorage} {hs : HardState} {applied : Nat}
    (hpos : 1 ≤ s.firstIndex) (hlt : s.firstIndex ≤ 2 ^ 64) (hfirst : s.firstIndex - 1 ≤ applied)
    (happlied : applied ≤ hs.commit) (hcommit : hs.commit ≤ s.lastIndex) :
    ∃ l, newRaft s hs applied = .ok l ∧ l.applied = applied := by
  have hsub : (s.firstIndex + (2 ^ 64 - 1)) % 2 ^ 64 = s.firstIndex - 1 := by omega
  have hload : (if hs = .empty then .ok (newLog s) else (newLog s).loadState hs) =
      (.ok ⟨hs.commit, s.firstIndex - 1, s.lastIndex⟩ : Except Failure RaftLog) := by
    split
    · next hempty =>
      have h0 : hs.commit = 0 := by rw [hempty]; rfl
      rw [newLog, hsub, h0, show s.firstIndex - 1 = 0 by omega]
    · rw [loadState, newLog, hsub, if_neg (by simp only; omega)]
  rw [newRaft, hload, Except.bind]
  split
  · next h0 =>
    rw [appliedTo, if_neg (by omega), if_neg (by simp only; omega)]
    exact ⟨_, rfl, rfl⟩
  · exact ⟨_, rfl, by simp only; omega⟩

end RaftLog

/-! ## The node -/

/-- Where `Node.Run` stands with the current `Ready`. -/
inductive Phase where
  | waiting
  | hardStateSaved (rd : Ready)
  | appended (rd : Ready)
  deriving DecidableEq

/-- A node.  `storage`, `hardState` and `savedAppliedIndex` are persisted.
`applying` is what the apply loop has left of the entries handed to it, and
`raftApplied` how far the raft library has handed them out. -/
structure Node where
  storage : DiskStorage
  hardState : HardState
  savedAppliedIndex : Nat
  phase : Phase
  applying : List Entry
  appliedIndex : Nat
  raftApplied : Nat
  deriving DecidableEq

/-- `applyEntries`: the entries that are not applied yet. -/
def applyEntries (appliedIndex : Nat) (entries : List Entry) : Except Failure (List Entry) :=
  match entries with
  | [] => .ok []
  | e :: _ =>
      if e.index > appliedIndex + 1 then
        .error (.panic "first index of committed entry[%d] should <= appliedIndex[%d] + 1")
      else if appliedIndex + 1 - e.index < entries.length then
        .ok (entries.drop (appliedIndex + 1 - e.index))
      else .ok []

/-- A step of the node. -/
inductive NodeEvent where
  | saveHardState (rd : Ready)
  | appendEntries
  | handOver
  | apply (persist : Bool)
  | purge (reserveSegmentCount : Nat)
  | restart

namespace Node

/-- A node that has never run. -/
def fresh : Node where
  storage := .empty
  hardState := .empty
  savedAppliedIndex := 0
  phase := .waiting
  applying := []
  appliedIndex := 0
  raftApplied := 0

/-- The steps of `Node.Run` in their order, those of the apply loop and of the
purger at any time, and a crash with a restart at any time. -/
inductive Step (c : Config) : Node → NodeEvent → Node → Prop
  | saveHardState {n : Node} (rd : Ready) : n.phase = .waiting →
      Step c n (.saveHardState rd)
        { n with hardState := rd.saved n.hardState, phase := .hardStateSaved rd }
  | appendEntries {n : Node} {rd : Ready} {s : DiskStorage} : n.phase = .hardStateSaved rd →
      n.storage.appendRaftEntries c rd.entries = (s, .ok ()) →
      Step c n .appendEntries { n with storage := s, phase := .appended rd }
  | handOver {n : Node} {rd : Ready} {ents : List Entry} : n.phase = .appended rd →
      n.applying = [] → applyEntries n.appliedIndex rd.committedEntries = .ok ents →
      Step c n .handOver { n with
        phase := .waiting
        applying := ents
        raftApplied := n.raftApplied + rd.committedEntries.length }
  | apply {n : Node} {e : Entry} {rest : List Entry} (persist : Bool) : n.applying = e :: rest →
      Step c n (.apply persist) { n with
        applying := rest
        appliedIndex := e.index
        savedAppliedIndex := if persist then e.index else n.savedAppliedIndex }
  | purge {n : Node} (reserveSegmentCount : Nat) :
      Step c n (.purge reserveSegmentCount)
        { n with storage := n.storage.purge reserveSegmentCount }
  | restart {n : Node} {s : DiskStorage} {l : RaftLog} :
      DiskStorage.newDiskStorage c n.storage.files true = .ok s →
      RaftLog.newRaft s n.hardState n.savedAppliedIndex = .ok l →
      Step c n .restart { n with
        storage := s
        phase := .waiting
        applying := []
        appliedIndex := n.savedAppliedIndex
        raftApplied := l.applied }

end Node

/-- The last index, with the entries of a `Ready` counted in. -/
def lastIndexWith (last : Nat) (entries : List Entry) : Nat :=
  match entries.getLast? with
  | none => last
  | some e => e.index

/-- What the raft library guarantees of a `Ready`: the commit index does not go back
and is at most the last index including the new entries; the entries are
consecutive, replace nothing that is committed and leave no gap; the committed
entries follow those handed out before. -/
structure Ready.Produced (c : Config) (n : Node) (rd : Ready) : Prop where
  commit_mono : n.hardState.commit ≤ (rd.saved n.hardState).commit
  commit_le : (rd.saved n.hardState).commit ≤ lastIndexWith n.storage.lastIndex rd.entries
  entries : rd.entries ≠ [] → Numbered Entry.index (startIndex rd.entries) rd.entries ∧
    n.hardState.commit < startIndex rd.entries ∧
    startIndex rd.entries ≤ n.storage.lastIndex + 1 ∧
    (entriesToRecords rd.entries).2 ≤ c.segmentSize
  committed : Numbered Entry.index (n.raftApplied + 1) rd.committedEntries ∧
    n.raftApplied + rd.committedEntries.length ≤ (rd.saved n.hardState).commit

namespace NodeEvent

/-- What the library and the configuration guarantee of a step. -/
def Valid (c : Config) (n : Node) : NodeEvent → Prop
  | saveHardState rd => rd.Produced c n
  | purge reserveSegmentCount => 1 ≤ reserveSegmentCount
  | _ => True

/-- No hard state ahead of the stored entries, no batch into a segment that a
restart opened read-only, no purge of a segment past the saved applied index. -/
def Careful (n : Node) : NodeEvent → Prop
  | saveHardState rd => (rd.saved n.hardState).commit ≤ n.storage.lastIndex
  | appendEntries => ∀ rd, n.phase = .hardStateSaved rd →
      (Op.truncate (startIndex rd.entries)).Warm n.storage
  | purge reserveSegmentCount =>
      ∀ seg ∈ n.storage.segments.take (n.storage.segments.length - reserveSegmentCount),
        seg.lastIndex ≤ n.savedAppliedIndex
  | _ => True

end NodeEvent

/-- The nodes that come about when every step meets a condition. -/
inductive Node.Reached (c : Config) (P : Node → NodeEvent → Prop) : Node → Prop
  | fresh : Reached c P .fresh
  | step {n n' : Node} {ev : NodeEvent} : Reached c P n → Node.Step c n ev n' → ev.Valid c n →
      P n ev → Reached c P n'

/-! ## The invariant -/

/-- What a `Ready` whose entries are not stored yet has pending. -/
structure Ready.Pending (c : Config) (rd : Ready) (n : Node) (v : SegLog) : Prop where
  entries : rd.entries ≠ [] → Numbered Entry.index (startIndex rd.entries) rd.entries ∧
    n.raftApplied < startIndex rd.entries ∧ startIndex rd.entries ≤ v.next ∧
    (encode rd.entries).length ≤ c.segmentSize ∧
    n.hardState.commit < startIndex rd.entries + rd.entries.length

/-- The committed entries of a `Ready` that are not handed over yet. -/
structure Ready.Following (rd : Ready) (n : Node) : Prop where
  numbered : Numbered Entry.index (n.raftApplied + 1) rd.committedEntries
  le_commit : n.raftApplied + rd.committedEntries.length ≤ n.hardState.commit

/-- The phase agrees with the rest of the node. -/
def Node.PhaseInv (c : Config) (n : Node) (v : SegLog) : Phase → Prop
  | .waiting => True
  | .hardStateSaved rd => rd.Pending c n v ∧ rd.Following n
  | .appended rd => rd.Following n

/-- The order of all the indexes a node keeps. -/
structure Node.Inv (c : Config) (n : Node) (v : SegLog) : Prop where
  rep : n.storage.Rep c true v
  wf : v.WF
  full : v.Full
  start_le : v.start ≤ n.savedAppliedIndex + 1
  saved_le : n.savedAppliedIndex ≤ n.appliedIndex
  applying : Numbered Entry.index (n.appliedIndex + 1) n.applying
  handed : n.raftApplied = n.appliedIndex + n.applying.length
  handed_le : n.raftApplied ≤ n.hardState.commit
  commit_lt : n.hardState.commit < v.next
  phase : n.PhaseInv c v n.phase

section Invariant
variable {c : Config} {n n' : Node} {v : SegLog} {rd : Ready}

theorem SegLog.WF.next_pos (hwf : v.WF) : 1 ≤ v.next := by
  rw [hwf.next_eq]
  exact Nat.le_trans v.start_pos (Nat.le_add_right _ _)

theorem lastIndexWith_eq {es : List Entry} {k : Nat} (last : Nat) (hne : es ≠ [])
    (h : Numbered Entry.index k es) : lastIndexWith last es + 1 = k + es.length := by
  obtain ⟨e, he⟩ : ∃ e, es.getLast? = some e := ⟨_, List.getLast?_eq_some_getLast hne⟩
  rw [lastIndexWith, he]
  exact h.getLast? he

/-- Committed entries that follow the applied ones are all to be applied. -/
theorem applyEntries_eq {appliedIndex : Nat} {entries : List Entry}
    (h : Numbered Entry.index (appliedIndex + 1) entries) :
    applyEntries appliedIndex entries = .ok entries := by
  cases entries with
  | nil => rfl
  | cons e rest =>
      have he : e.index = appliedIndex + 1 := h.1
      rw [applyEntries, he, if_neg (Nat.lt_irrefl _), Nat.sub_self,
        if_pos (by rw [List.length_cons]; omega), List.drop_zero]

/-- The log starts behind the segments that a purge drops. -/
theorem purge_start_le {s : DiskStorage} {z : Bool} {reserve bound : Nat} (hrep : s.Rep c z v)
    (hwf : v.WF) (hr : 1 ≤ reserve) (hstart : v.start ≤ bound + 1)
    (hdrop : ∀ seg ∈ s.segments.take (s.segments.length - reserve), seg.lastIndex ≤ bound) :
    (v.purge reserve).start ≤ bound + 1 := by
  have hmoved : (v.purge reserve).start = v.start + v.dropped reserve :=
    congrArg PlainLog.first (hwf.purge reserve).2
  cases v with
  | empty => exact Nat.succ_le_succ (Nat.zero_le bound)
  | segs d w =>
      obtain ⟨init, last, hs, hinit, -⟩ := hrep
      have hlen : init.length = d.length := hinit.length_eq
      have hk : d.length + 1 - reserve ≤ init.length := by omega
      rw [hs, List.length_append, List.length_singleton, hlen, List.take_append_of_le_length hk]
        at hdrop
      have hsealed := List.forall₂_take (d.length + 1 - reserve) hinit
      have hchain : Chunks.Chained SegView.first SegView.es (SegLog.segs d w).start
          (d.take (d.length + 1 - reserve) ++ (d.drop (d.length + 1 - reserve) ++ [w])) := by
        rw [← List.append_assoc, List.take_append_drop]
        exact hwf.chained
      rw [hmoved, SegLog.dropped, SegLog.done]
      generalize d.take (d.length + 1 - reserve) = out at hsealed hchain ⊢
      rcases List.eq_nil_or_concat out with rfl | ⟨pre, u, rfl⟩
      · exact hstart
      · -- the last segment that is dropped ends where the log then starts
        rw [List.concat_eq_append] at hsealed hchain ⊢
        obtain ⟨before, seg, behind, htake, -, hu, -⟩ := forall₂_split hsealed
        have hlast := hdrop seg (htake ▸ List.mem_append_right before List.mem_cons_self)
        rw [hu.lastIndex, SegView.next] at hlast
        rw [List.append_assoc] at hchain
        have hfirst := Chunks.Chained.first_eq hchain
        rw [List.flatMap_append, List.length_append, List.flatMap_singleton]
        omega

namespace Node.Inv

theorem saveHardState (h : n.Inv c v) (hprod : rd.Produced c n)
    (hcareful : (NodeEvent.saveHardState rd).Careful n) :
    Node.Inv c
      { n with hardState := rd.saved n.hardState, phase := .hardStateSaved rd } v := by
  have hlast := h.rep.lastIndex h.full
  have hnext := h.wf.next_pos
  have hmono := hprod.commit_mono
  have hhanded := h.handed_le
  have hcommit : (rd.saved n.hardState).commit ≤ v.next - 1 := hlast ▸ hcareful
  refine { h with
    handed_le := Nat.le_trans hhanded hmono
    commit_lt := ?_
    phase := ⟨⟨fun hne => ?_⟩, hprod.committed.1, hprod.committed.2⟩ }
  · change (rd.saved n.hardState).commit < v.next
    omega
  · obtain ⟨hnum, hstart, hgap, hfit⟩ := hprod.entries hne
    rw [hlast] at hgap
    rw [entriesToRecords_eq] at hfit
    have hle := hprod.commit_le
    have hend := lastIndexWith_eq n.storage.lastIndex hne hnum
    refine ⟨hnum, ?_, by omega, hfit, ?_⟩
    · change n.raftApplied < startIndex rd.entries
      omega
    · change (rd.saved n.hardState).commit < _
      omega

theorem appendEntries {s : DiskStorage} (h : n.Inv c v) (hphase : n.phase = .hardStateSaved rd)
    (hcareful : NodeEvent.appendEntries.Careful n)
    (happ : n.storage.appendRaftEntries c rd.entries = (s, .ok ())) :
    ∃ v', Node.Inv c { n with storage := s, phase := .appended rd } v' := by
  have hp := h.phase
  rw [hphase] at hp
  obtain ⟨hpend, hfollow⟩ := hp
  by_cases hne : rd.entries = []
  · rw [hne] at happ
    cases happ
    exact ⟨v, { h with phase := ⟨hfollow.numbered, hfollow.le_commit⟩ }⟩
  · obtain ⟨hnum, hstart, hgap, hfit, hcommit⟩ := hpend.entries hne
    have hlo := h.start_le
    have hsaved := h.saved_le
    have hhanded := h.handed
    have hb : SegLog.Batch c v rd.entries (startIndex rd.entries) :=
      ⟨hne, hnum, by omega, hgap, hfit⟩
    have hpos : 1 ≤ startIndex rd.entries := by omega
    obtain ⟨s', hs', hrep⟩ := h.rep.appendRaftEntries h.wf h.full hb fun _ =>
      cuttable_of_warm h.rep hpos (hcareful rd hphase)
    rw [happ] at hs'
    cases hs'
    obtain ⟨hwf, hfull, -⟩ := hb.append_spec h.wf
    obtain ⟨hs, hn⟩ := hb.append_bounds h.wf
    exact ⟨_, { h with
      rep := hrep
      wf := hwf
      full := hfull
      start_le := hs ▸ h.start_le
      commit_lt := hn ▸ hcommit
      phase := ⟨hfollow.numbered, hfollow.le_commit⟩ }⟩

theorem handOver {ents : List Entry} (h : n.Inv c v) (hphase : n.phase = .appended rd)
    (hidle : n.applying = []) (hents : applyEntries n.appliedIndex rd.committedEntries = .ok ents) :
    Node.Inv c { n with
      phase := .waiting
      applying := ents
      raftApplied := n.raftApplied + rd.committedEntries.length } v := by
  have hfollow := h.phase
  rw [hphase] at hfollow
  have happlied : n.raftApplied = n.appliedIndex := by
    rw [h.handed, hidle, List.length_nil, Nat.add_zero]
  have hnum := hfollow.numbered
  rw [happlied] at hnum
  rw [applyEntries_eq hnum] at hents
  cases hents
  exact { h with
    applying := hnum
    handed := by simp only [happlied]
    handed_le := hfollow.le_commit
    phase := trivial }

theorem apply {e : Entry} {rest : List Entry} (h : n.Inv c v) (happ : n.applying = e :: rest)
    (persist : Bool) :
    Node.Inv c { n with
      applying := rest
      appliedIndex := e.index
      savedAppliedIndex := if persist then e.index else n.savedAppliedIndex } v := by
  have hnum := h.applying
  have hhanded := h.handed
  have hsaved := h.saved_le
  have hstart := h.start_le
  rw [happ] at hnum
  rw [happ, List.length_cons] at hhanded
  have he : e.index = n.appliedIndex + 1 := hnum.1
  refine { h with
    start_le := ?_
    saved_le := ?_
    applying := by simp only [he]; exact hnum.2
    handed := by simp only [he]; omega
    phase := ?_ }
  · simp only
    split
    · omega
    · exact hstart
  · simp only
    split
    · exact Nat.le_refl _
    · omega
  · have hphase := h.phase
    simp only
    cases hp : n.phase with
    | waiting => trivial
    | hardStateSaved rd =>
        rw [hp] at hphase
        exact ⟨⟨hphase.1.entries⟩, hphase.2.numbered, hphase.2.le_commit⟩
    | appended rd =>
        rw [hp] at hphase
        exact ⟨hphase.numbered, hphase.le_commit⟩

theorem purge {reserve : Nat} (h : n.Inv c v) (hr : 1 ≤ reserve)
    (hcareful : (NodeEvent.purge reserve).Careful n) :
    Node.Inv c { n with storage := n.storage.purge reserve } (v.purge reserve) := by
  have hrep := h.rep.purge hr
  have hfull : (v.purge reserve).Full := fun u hu => h.full u (SegLog.mem_views_of_purge hu)
  have hnext : (v.purge reserve).next = v.next := by cases v <;> rfl
  refine { h with
    rep := hrep
    wf := (h.wf.purge reserve).1
    full := hfull
    start_le := purge_start_le h.rep h.wf hr h.start_le hcareful
    commit_lt := hnext ▸ h.commit_lt
    phase := ?_ }
  have hphase := h.phase
  simp only
  cases hp : n.phase with
  | waiting => trivial
  | hardStateSaved rd =>
      rw [hp] at hphase
      exact ⟨⟨hnext ▸ hphase.1.entries⟩, hphase.2.numbered, hphase.2.le_commit⟩
  | appended rd =>
      rw [hp] at hphase
      exact ⟨hphase.numbered, hphase.le_commit⟩

/-- What a restart finds, and that the library takes it. -/
theorem reopen (h : n.Inv c v) :
    ∃ s, DiskStorage.newDiskStorage c n.storage.files true = .ok s ∧ s.Rep c true v.reopened ∧
      s.firstIndex - 1 ≤ n.savedAppliedIndex ∧ n.savedAppliedIndex ≤ n.hardState.commit ∧
      n.hardState.commit ≤ s.lastIndex ∧
      ∃ l, RaftLog.newRaft s n.hardState n.savedAppliedIndex = .ok l ∧
        l.applied = n.savedAppliedIndex := by
  have hfiles : filesOf n.storage.segments [] = n.storage.files := by
    rw [filesOf, List.append_nil]
    rfl
  have hdir := restartable_self h.rep h.wf h.full allReadonly_nil
  rw [hfiles] at hdir
  obtain ⟨s, hs, hrep⟩ := hdir.recoverable.recover h.wf
  have hlike := SegLog.like_reopened h.rep.writable_hot
  have hfirst := hrep.firstIndex (hlike.full h.full)
  have hlast := hrep.lastIndex (hlike.full h.full)
  rw [← hlike.start_eq] at hfirst
  rw [← hlike.next_eq] at hlast
  have hpos := v.start_pos
  have hbound := Refines.next_le h.full
  have hnext := h.wf.next_eq
  have hstart := h.start_le
  have hsaved := h.saved_le
  have hhanded := h.handed
  have hle := h.handed_le
  have hlt := h.commit_lt
  exact ⟨s, hs, hrep, by omega, by omega, by omega,
    RaftLog.newRaft_ok (by omega) (by omega) (by omega) (by omega) (by omega)⟩

theorem restart {s : DiskStorage} {l : RaftLog} (h : n.Inv c v)
    (hs : DiskStorage.newDiskStorage c n.storage.files true = .ok s)
    (hl : RaftLog.newRaft s n.hardState n.savedAppliedIndex = .ok l) :
    Node.Inv c { n with
      storage := s
      phase := .waiting
      applying := []
      appliedIndex := n.savedAppliedIndex
      raftApplied := l.applied } v.reopened := by
  obtain ⟨s', hs', hrep, -, hsaved, -, l', hl', happlied⟩ := h.reopen
  rw [hs] at hs'
  cases hs'
  rw [hl] at hl'
  cases hl'
  have hlike := SegLog.like_reopened h.rep.writable_hot
  exact {
    rep := hrep
    wf := hlike.wf h.wf
    full := hlike.full h.full
    start_le := hlike.start_eq ▸ h.start_le
    saved_le := Nat.le_refl _
    applying := trivial
    handed := happlied
    handed_le := happlied ▸ hsaved
    commit_lt := hlike.next_eq ▸ h.commit_lt
    phase := trivial }

/-- A careful step keeps the order of the indexes. -/
theorem step {ev : NodeEvent} (h : n.Inv c v) (hvalid : ev.Valid c n) (hcareful : ev.Careful n)
    (hstep : Node.Step c n ev n') : ∃ v', n'.Inv c v' := by
  cases hstep with
  | saveHardState rd _ => exact ⟨v, h.saveHardState hvalid hcareful⟩
  | appendEntries hphase happ => exact h.appendEntries hphase hcareful happ
  | handOver hphase hidle hents => exact ⟨v, h.handOver hphase hidle hents⟩
  | apply persist happ => exact ⟨v, h.apply happ persist⟩
  | purge reserve => exact ⟨_, h.purge hvalid hcareful⟩
  | restart hs hl => exact ⟨_, h.restart hs hl⟩

end Node.Inv

theorem Node.fresh_inv : Node.fresh.Inv c .empty where
  rep := rfl
  wf := SegLog.empty_wf
  full := nofun
  start_le := Nat.le_refl _
  saved_le := Nat.le_refl _
  applying := trivial
  handed := rfl
  handed_le := Nat.le_refl _
  commit_lt := Nat.one_pos
  phase := trivial

theorem Node.Reached.inv (h : Node.Reached c (fun n ev => ev.Careful n) n) : ∃ v, n.Inv c v := by
  induction h with
  | fresh => exact ⟨_, Node.fresh_inv⟩
  | step _ hstep hvalid hcareful ih =>
      obtain ⟨v, hinv⟩ := ih
      exact hinv.step hvalid hcareful hstep

/-- **What a careful node has persisted passes every check of a restart**: the log
opens, the indexes are in order, the library takes them, and the committed entries
that it then hands out pass `applyEntries`. -/
theorem persisted_passes_restart_checks (h : Node.Reached c (fun n ev => ev.Careful n) n) :
    ∃ s, DiskStorage.newDiskStorage c n.storage.files true = .ok s ∧
      s.firstIndex - 1 ≤ n.savedAppliedIndex ∧ n.savedAppliedIndex ≤ n.hardState.commit ∧
      n.hardState.commit ≤ s.lastIndex ∧
      ∃ l, RaftLog.newRaft s n.hardState n.savedAppliedIndex = .ok l ∧
        ∀ entries, Numbered Entry.index (l.applied + 1) entries →
          applyEntries n.savedAppliedIndex entries = .ok entries := by
  obtain ⟨v, hinv⟩ := h.inv
  obtain ⟨s, hs, -, hfirst, happlied, hcommit, l, hl, heq⟩ := hinv.reopen
  exact ⟨s, hs, hfirst, happlied, hcommit, l, hl, fun entries hnum =>
    applyEntries_eq (heq ▸ hnum)⟩

end Invariant

theorem Node.Reached.mono {c : Config} {P Q : Node → NodeEvent → Prop} {n : Node}
    (h : Node.Reached c P n) (hPQ : ∀ n ev, P n ev → Q n ev) : Node.Reached c Q n := by
  induction h with
  | fresh => exact .fresh
  | step _ hstep hvalid hP ih => exact .step ih hstep hvalid (hPQ _ _ hP)

theorem Node.Reached.saveHardState {c : Config} {P : Node → NodeEvent → Prop} {n : Node}
    {rd : Ready} (h : Node.Reached c P n) (hwait : n.phase = .waiting) (hprod : rd.Produced c n)
    (hP : P n (.saveHardState rd)) : Node.Reached c P
      { n with hardState := rd.saved n.hardState, phase := .hardStateSaved rd } :=
  h.step (.saveHardState rd hwait) hprod hP

/-- A `Ready` that goes through as a whole. -/
theorem Node.Reached.ready {c : Config} {n : Node} {rd : Ready} {s : DiskStorage}
    {ents : List Entry} (h : Node.Reached c (fun n ev => ev.Careful n) n)
    (hwait : n.phase = .waiting) (hidle : n.applying = []) (hprod : rd.Produced c n)
    (hcommit : (rd.saved n.hardState).commit ≤ n.storage.lastIndex)
    (hwarm : (Op.truncate (startIndex rd.entries)).Warm n.storage)
    (happ : n.storage.appendRaftEntries c rd.entries = (s, .ok ()))
    (hents : applyEntries n.appliedIndex rd.committedEntries = .ok ents) :
    Node.Reached c (fun n ev => ev.Careful n) { n with
      storage := s
      hardState := rd.saved n.hardState
      phase := .waiting
      applying := ents
      raftApplied := n.raftApplied + rd.committedEntries.length } := by
  have hsaved := h.saveHardState hwait hprod hcommit
  have hcareful : NodeEvent.appendEntries.Careful
      { n with hardState := rd.saved n.hardState, phase := .hardStateSaved rd } := by
    intro rd' hrd
    cases hrd
    exact hwarm
  have hstored := hsaved.step (.appendEntries rfl happ) trivial hcareful
  exact hstored.step (.handOver rfl hidle hents) trivial trivial

/-- A log that holds entry 1.  Comparing nodes must not evaluate it. -/
@[irreducible] def smallStored : DiskStorage :=
  (DiskStorage.empty.appendRaftEntries .small [small11]).1

/-- A node that has stored entry 1. -/
def smallNode : Node where
  storage := smallStored
  hardState := ⟨1, 0, 0⟩
  savedAppliedIndex := 0
  phase := .waiting
  applying := []
  appliedIndex := 0
  raftApplied := 0

theorem smallNode_reached : Node.Reached .small (fun n ev => ev.Careful n) smallNode := by
  let rd : Ready := ⟨⟨1, 0, 0⟩, [.small 1 1], []⟩
  have hprod : rd.Produced .small .fresh :=
    ⟨by decide, by decide, fun _ => by decide +kernel, by decide⟩
  have happ : DiskStorage.empty.appendRaftEntries .small [.small 1 1] = (smallStored, .ok ()) := by
    decide +kernel
  exact Node.Reached.ready .fresh rfl rfl hprod (by decide) (by decide +kernel) happ rfl

/-- The same node once entry 1 is committed and applied. -/
def smallApplied : Node :=
  { smallNode with
    hardState := ⟨1, 0, 1⟩
    savedAppliedIndex := 1
    appliedIndex := 1
    raftApplied := 1 }

theorem persisted_passes_restart_checks_smallApplied :
    ∃ s, DiskStorage.newDiskStorage .small smallApplied.storage.files true = .ok s ∧
      s.firstIndex - 1 ≤ smallApplied.savedAppliedIndex ∧
      smallApplied.savedAppliedIndex ≤ smallApplied.hardState.commit ∧
      smallApplied.hardState.commit ≤ s.lastIndex ∧
      ∃ l, RaftLog.newRaft s smallApplied.hardState smallApplied.savedAppliedIndex = .ok l ∧
        ∀ entries, Numbered Entry.index (l.applied + 1) entries →
          applyEntries smallApplied.savedAppliedIndex entries = .ok entries := by
  let rd : Ready := ⟨⟨1, 0, 1⟩, [], [.small 1 1]⟩
  have hprod : rd.Produced .small smallNode :=
    ⟨by decide, by decide +kernel, fun h => absurd rfl h, by decide⟩
  have hhanded := smallNode_reached.ready rfl rfl hprod (by decide +kernel) (by decide +kernel)
    rfl (applyEntries_eq (by decide))
  have happlied := hhanded.step (.apply true rfl) trivial trivial
  exact persisted_passes_restart_checks (n := smallApplied) happlied

/-- **A hard state can get ahead of the log**: entry 2 arrives together with the news
that it is committed, and a crash between the two writes leaves a commit index that
the library refuses. -/
theorem commit_ahead_of_log_panics :
    ∃ n s, Node.Reached .small (fun _ _ => True) n ∧
      DiskStorage.newDiskStorage .small n.storage.files true = .ok s ∧
      s.lastIndex < n.hardState.commit ∧
      RaftLog.newRaft s n.hardState n.savedAppliedIndex =
        .error (.panic "%x state.commit %d is out of range [%d, %d]") := by
  let rd : Ready := ⟨⟨1, 0, 2⟩, [.small 1 2], [.small 1 1, .small 1 2]⟩
  have hprod : rd.Produced .small smallNode :=
    ⟨by decide, by decide +kernel, fun _ => by decide +kernel, by decide⟩
  have hreached := (smallNode_reached.mono fun _ _ _ => trivial).saveHardState rfl hprod trivial
  have hopen : ∃ s, DiskStorage.newDiskStorage .small smallStored.files true = .ok s ∧
      s.lastIndex = 1 := by
    refine ⟨smallStored, ?_, ?_⟩ <;> decide +kernel
  obtain ⟨s, hs, hlast⟩ := hopen
  have hpanic : RaftLog.newRaft s ⟨1, 0, 2⟩ 0 =
      .error (.panic "%x state.commit %d is out of range [%d, %d]") := by
    rw [RaftLog.newRaft, if_neg (by decide), RaftLog.loadState,
      if_pos (.inr (by rw [RaftLog.newLog, hlast]; exact Nat.lt_succ_self 1))]
    rfl
  exact ⟨_, s, hreached, hs, by rw [hlast]; decide, hpanic⟩

end Kingbus
