import Kingbus.MembershipAgreement
import Kingbus.Lib.Runs

/-! # Calls that wait for a configuration change

`configure` (`server/server.go`) gives a change an id, registers the id, proposes the change and
waits until the apply loop triggers the id.  The ids come from `idutil.Generator`: the low 16 bits
of the member id, then a counter that starts at the time in milliseconds.  Every server applies
every change, so each one triggers the ids of all.

Here is a cluster of servers with any number of such calls on each.  The steps of the calls, of
the apply loops and of raft interleave freely; `Trigger` has two steps, since it sends after it
has given up its lock.

* `configure_answers`: while ids do not repeat, a call gets the response to its own change.
* `configure_answers_another`: two servers with the same generator answer for each other. -/

namespace Kingbus

/-! ## Ids of requests -/

/-- `lowbit`. -/
def lowbit (x : UInt64) (n : UInt64) : UInt64 := x &&& (0xFFFFFFFFFFFFFFFF >>> (64 - n))

/-- `idutil.Generator`; the low bits of the prefix are zero. -/
structure Generator where
  idPrefix : UInt64
  idSuffix : UInt64
  high : 2 ^ 48 ∣ idPrefix.toNat
  deriving DecidableEq

theorem toNat_lowbit (x : UInt64) : (lowbit x 48).toNat = x.toNat % 2 ^ 48 := by
  rw [lowbit, UInt64.toNat_and]
  exact Nat.and_two_pow_sub_one_eq_mod x.toNat 48

theorem toNat_idPrefix (memberID : UInt16) :
    (memberID.toUInt64 <<< 48).toNat = memberID.toNat * 2 ^ 48 := by
  have hlt := memberID.toNat_lt
  rw [UInt64.toNat_shiftLeft, UInt16.toNat_toUInt64, Nat.shiftLeft_eq]
  exact Nat.mod_eq_of_lt (by simp; omega)

namespace Generator

/-- `NewGenerator`, with the time in nanoseconds. -/
def newGenerator (memberID : UInt16) (now : Int64) : Generator where
  idPrefix := memberID.toUInt64 <<< 48
  idSuffix := lowbit (now.toUInt64 / 1000000) 40 <<< 8
  high := ⟨memberID.toNat, by rw [toNat_idPrefix, Nat.mul_comm]⟩

/-- `Next`. -/
def next (g : Generator) : UInt64 × Generator :=
  let idSuffix := g.idSuffix + 1
  (g.idPrefix ||| lowbit idSuffix 48, { g with idSuffix := idSuffix })

/-- The ids that are still to come before the counter runs into the prefix. -/
def Mine (g : Generator) (id : UInt64) : Prop :=
  g.idPrefix.toNat + g.idSuffix.toNat < id.toNat ∧ id.toNat < g.idPrefix.toNat + 2 ^ 48

instance (g : Generator) (id : UInt64) : Decidable (g.Mine id) :=
  inferInstanceAs (Decidable (_ ∧ _))

variable {g g' : Generator} {id : UInt64}

theorem next_suffix (h : g.idSuffix.toNat + 1 < 2 ^ 48) :
    g.next.2.idSuffix.toNat = g.idSuffix.toNat + 1 := by
  rw [next, UInt64.toNat_add]
  exact Nat.mod_eq_of_lt (by simp; omega)

theorem next_id (h : g.idSuffix.toNat + 1 < 2 ^ 48) :
    g.next.1.toNat = g.idPrefix.toNat + g.idSuffix.toNat + 1 := by
  have hsuffix := next_suffix h
  obtain ⟨k, hk⟩ := g.high
  change (g.idPrefix ||| lowbit g.next.2.idSuffix 48).toNat = _
  rw [UInt64.toNat_or, toNat_lowbit, hsuffix, Nat.mod_eq_of_lt h, hk, Nat.add_assoc]
  exact (Nat.two_pow_add_eq_or_of_lt h k).symm

/-- Generators with other prefixes have other ids. -/
theorem Mine.of_ne (hne : g.idPrefix ≠ g'.idPrefix) (h : g.Mine id) : ¬ g'.Mine id := by
  obtain ⟨k, hk⟩ := g.high
  obtain ⟨k', hk'⟩ := g'.high
  have hkk : k ≠ k' := by
    rintro rfl
    exact hne (UInt64.toNat_inj.mp (hk.trans hk'.symm))
  rintro ⟨hlow, hhigh⟩
  obtain ⟨hlow', hhigh'⟩ := h
  omega

end Generator

/-! ## The calls of a server -/

/-- `confChangeResponse`.  `Members` sorts by the ids, so the map says it all. -/
structure ConfChangeResponse where
  membs : MembersMap
  err : Option ConfChangeError
  deriving DecidableEq

/-- What `configure` returns. -/
inductive ConfigureResult where
  | response (r : ConfChangeResponse)
  | proposeError
  | ctxError
  | stopping
  deriving DecidableEq

/-- Where a call stands.  `duplicate` and `nilResponse` are the two panics. -/
inductive CallPhase where
  | proposing
  | waiting
  | dropping (ch : Option Nat) (result : ConfigureResult)
  | returned (result : ConfigureResult)
  | duplicate
  | nilResponse
  deriving DecidableEq

/-- A call of `configure`.  `chan` is what was sent to its channel, which is then closed, and
`committed` whether raft has committed the change. -/
structure ConfCall where
  id : UInt64
  change : ConfChange
  phase : CallPhase
  chan : Option (Option ConfChangeResponse)
  committed : Bool
  deriving DecidableEq

/-- A server.  `table` is the map of `wait`, from ids to calls; `sending` is what the apply loop
has in its hands between the two steps of `Trigger`. -/
structure ConfServer where
  gen : Generator
  calls : List ConfCall
  table : List (UInt64 × Nat)
  node : RaftNode
  applied : Nat
  sending : Option (Option Nat × ConfChangeResponse)
  stopping : Bool
  crashed : Bool
  deriving DecidableEq

/-- What a server starts with: `applied` counts the changes of the log. -/
structure ConfStart where
  gen : Generator
  node : RaftNode
  applied : Nat

/-- The response to a change. -/
def RaftNode.respond (n : RaftNode) (cc : ConfChange) : ConfChangeResponse where
  membs := (n.applyConfChange cc).cluster.membersMap
  err := match n.validate cc with
    | .ok _ => none
    | .error e => some e

/-- A step of a server. -/
inductive ServerEvent where
  | configure (cc : ConfChange)
  | proposed (c : Nat)
  | proposeFails (c : Nat)
  | receive (c : Nat)
  | cancel (c : Nat)
  | drop (c : Nat)
  | stop
  | stopped (c : Nat)
  | apply
  | send

/-- The changes of the log, with their ids. -/
abbrev ConfLog := List (UInt64 × ConfChange)

namespace ConfServer

/-- A server before its first call. -/
def start (st : ConfStart) : ConfServer where
  gen := st.gen
  calls := []
  table := []
  node := st.node
  applied := st.applied
  sending := none
  stopping := false
  crashed := false

/-- A call goes on. -/
def setPhase (s : ConfServer) (c : Nat) (phase : CallPhase) : ConfServer :=
  { s with calls := s.calls.modify c fun call => { call with phase := phase } }

/-- `cc.ID = s.reqIDGen.Next()` and `Register`. -/
def configure (s : ConfServer) (cc : ConfChange) : ConfServer :=
  let (id, gen) := s.gen.next
  match s.table.lookup id with
  | some _ => { s with gen := gen, calls := s.calls ++ [⟨id, cc, .duplicate, none, false⟩] }
  | none =>
      { s with
        gen := gen
        calls := s.calls ++ [⟨id, cc, .proposing, none, false⟩]
        table := (id, s.calls.length) :: s.table }

/-- The first step of `Trigger`: the channel leaves the map. -/
def take (s : ConfServer) (id : UInt64) : ConfServer :=
  { s with table := s.table.filter fun e => e.1 ≠ id }

/-- The second step: the value is sent, and the channel closed. -/
def put (s : ConfServer) (ch : Option Nat) (x : Option ConfChangeResponse) : ConfServer :=
  match ch with
  | none => s
  | some c =>
      if (s.calls[c]?).any fun call => call.chan.isSome then { s with crashed := true }
      else { s with calls := s.calls.modify c fun call => { call with chan := some x } }

/-- `Trigger(cc.ID, nil)` before an error is returned. -/
def giveUp (s : ConfServer) (c : Nat) (id : UInt64) (result : ConfigureResult) : ConfServer :=
  (s.take id).setPhase c (.dropping (s.table.lookup id) result)

/-- The steps of a server. -/
def step (log : ConfLog) (s : ConfServer) : ServerEvent → Option ConfServer
  | .configure cc => some (s.configure cc)
  | .proposed c =>
      (s.calls[c]?).bind fun call =>
        if call.phase = .proposing then some (s.setPhase c .waiting) else none
  | .proposeFails c =>
      (s.calls[c]?).bind fun call =>
        if call.phase = .proposing then some (s.giveUp c call.id .proposeError) else none
  | .receive c =>
      (s.calls[c]?).bind fun call =>
        if call.phase = .waiting then
          call.chan.map fun x => match x with
            | none => s.setPhase c .nilResponse
            | some r => s.setPhase c (.returned (.response r))
        else none
  | .cancel c =>
      (s.calls[c]?).bind fun call =>
        if call.phase = .waiting then some (s.giveUp c call.id .ctxError) else none
  | .drop c =>
      (s.calls[c]?).bind fun call =>
        match call.phase with
        | .dropping ch result => some ((s.put ch none).setPhase c (.returned result))
        | _ => none
  | .stop => some { s with stopping := true }
  | .stopped c =>
      (s.calls[c]?).bind fun call =>
        -- the id stays in the map
        if call.phase = .waiting ∧ s.stopping = true then
          some (s.setPhase c (.returned .stopping))
        else none
  | .apply =>
      if s.sending = none then
        (log[s.applied]?).map fun e =>
          { s.take e.1 with
            node := s.node.applyConfChange e.2
            applied := s.applied + 1
            sending := some (s.table.lookup e.1, s.node.respond e.2) }
      else none
  | .send =>
      s.sending.map fun x => { s.put x.1 (some x.2) with sending := none }

end ConfServer

/-! ## The cluster -/

/-- Servers and the changes that raft has committed. -/
structure ConfCluster where
  servers : List ConfServer
  log : ConfLog
  deriving DecidableEq

/-- A step of a server, or of raft.  A `foreign` change comes from the bootstrap, or from a server
before it was restarted. -/
inductive ClusterEvent where
  | server (s : Nat) (ev : ServerEvent)
  | commit (s c : Nat)
  | foreign (id : UInt64) (cc : ConfChange)

namespace ConfCluster

/-- A cluster before the first call. -/
def start (starts : List ConfStart) (log : ConfLog) : ConfCluster :=
  ⟨starts.map ConfServer.start, log⟩

/-- The steps of the cluster.  Raft commits a change once at most. -/
def step (cl : ConfCluster) : ClusterEvent → Option ConfCluster
  | .server s ev =>
      (cl.servers[s]?).bind fun sv =>
        (sv.step cl.log ev).map fun sv' => { cl with servers := cl.servers.set s sv' }
  | .commit s c =>
      (cl.servers[s]?).bind fun sv =>
        (sv.calls[c]?).bind fun call =>
          if call.phase ≠ .duplicate ∧ call.committed = false then
            some
              { servers := cl.servers.set s
                  { sv with calls := sv.calls.modify c fun call => { call with committed := true } }
                log := cl.log ++ [(call.id, call.change)] }
          else none
  | .foreign id cc => some { cl with log := cl.log ++ [(id, cc)] }

end ConfCluster

/-- Ids do not repeat: the counter of a server stays below its prefix, and foreign changes do not
have the ids that servers give. -/
def ClusterEvent.Valid (starts : List ConfStart) (cl : ConfCluster) : ClusterEvent → Prop
  | .server s (.configure _) => ∀ sv ∈ cl.servers[s]?, sv.gen.idSuffix.toNat + 1 < 2 ^ 48
  | .foreign id _ => ∀ st ∈ starts, ¬ st.gen.Mine id
  | _ => True

instance ClusterEvent.decidableValid (starts : List ConfStart) (cl : ConfCluster) :
    ∀ ev : ClusterEvent, Decidable (ev.Valid starts cl)
  | .server s (.configure _) =>
      inferInstanceAs (Decidable (∀ sv ∈ cl.servers[s]?, sv.gen.idSuffix.toNat + 1 < 2 ^ 48))
  | .foreign id _ => inferInstanceAs (Decidable (∀ st ∈ starts, ¬ st.gen.Mine id))
  | .commit .. | .server _ (.proposed _) | .server _ (.proposeFails _) | .server _ (.receive _)
  | .server _ (.cancel _) | .server _ (.drop _) | .server _ .stop | .server _ (.stopped _)
  | .server _ .apply | .server _ .send => inferInstanceAs (Decidable True)

/-- The servers have different prefixes, and the log has none of their ids. -/
structure ConfStart.Distinct (starts : List ConfStart) (log : ConfLog) : Prop where
  prefixes : starts.Pairwise fun st st' => st.gen.idPrefix ≠ st'.gen.idPrefix
  suffixes : ∀ st ∈ starts, st.gen.idSuffix.toNat < 2 ^ 48
  applied : ∀ st ∈ starts, st.applied ≤ log.length
  foreign : ∀ st ∈ starts, ∀ e ∈ log, ¬ st.gen.Mine e.1

/-! ## Where the channel of a call is -/

/-- A result without a response. -/
def ConfigureResult.Failed (result : ConfigureResult) : Prop := ∀ r, result ≠ .response r

theorem ConfigureResult.failed_proposeError : proposeError.Failed := by
  intro r h
  cases h

theorem ConfigureResult.failed_ctxError : ctxError.Failed := by
  intro r h
  cases h

theorem ConfigureResult.failed_stopping : stopping.Failed := by
  intro r h
  cases h

/-- The phases of a call that the apply loop has triggered and that has not read its channel. -/
inductive CallPhase.Unread : CallPhase → Prop where
  | proposing : Unread .proposing
  | waiting : Unread .waiting
  | dropping {result : ConfigureResult} : result.Failed → Unread (.dropping none result)
  | returned {result : ConfigureResult} : result.Failed → Unread (.returned result)

namespace ConfServer

/-- The apply loop has the channel. -/
def Holds (s : ConfServer) (c : Nat) : Prop := ∃ r, s.sending = some (some c, r)

/-- The id is not registered. -/
def Free (s : ConfServer) (id : UInt64) : Prop := ∀ d, (id, d) ∉ s.table

/-- The channel of a call is in the map, with the apply loop, with the call itself when it gives
up, or something was sent to it. -/
inductive Placed (own : ConfChangeResponse → Prop) (s : ConfServer) (c : Nat) (call : ConfCall) :
    Prop where
  | table (htable : (call.id, c) ∈ s.table) (hchan : call.chan = none) (hloop : ¬ s.Holds c)
      (hphase : call.phase = .proposing ∨ call.phase = .waiting ∨
        call.phase = .returned .stopping ∧ s.stopping = true)
  | loop (r : ConfChangeResponse) (hfree : s.Free call.id) (hchan : call.chan = none)
      (hloop : s.sending = some (some c, r)) (hown : own r) (hphase : call.phase.Unread)
  | sent (r : ConfChangeResponse) (hfree : s.Free call.id) (hchan : call.chan = some (some r))
      (hloop : ¬ s.Holds c) (hown : own r)
      (hphase : call.phase.Unread ∨ call.phase = .returned (.response r))
  | taken (result : ConfigureResult) (hfree : s.Free call.id) (hchan : call.chan = none)
      (hloop : ¬ s.Holds c) (hphase : call.phase = .dropping (some c) result)
      (hresult : result.Failed)
  | dropped (result : ConfigureResult) (hfree : s.Free call.id) (hchan : call.chan = some none)
      (hloop : ¬ s.Holds c) (hphase : call.phase = .returned result) (hresult : result.Failed)

/-- The response is the one to the change of the call, where it stands in the log. -/
def Own (st : ConfStart) (log : ConfLog) (applied : Nat) (call : ConfCall)
    (r : ConfChangeResponse) : Prop :=
  ∃ pre post, log = pre ++ (call.id, call.change) :: post ∧ st.applied ≤ pre.length ∧
    pre.length < applied ∧
    r = (st.node.applyConfChanges ((pre.drop st.applied).map Prod.snd)).respond call.change

/-- The invariant of a server. -/
structure Inv (st : ConfStart) (log : ConfLog) (s : ConfServer) : Prop where
  gen : s.gen.idPrefix = st.gen.idPrefix
  count : s.gen.idSuffix.toNat = st.gen.idSuffix.toNat + s.calls.length
  bound : s.gen.idSuffix.toNat < 2 ^ 48
  ids : ∀ c call, s.calls[c]? = some call →
    call.id.toNat = st.gen.idPrefix.toNat + st.gen.idSuffix.toNat + c + 1
  started : st.applied ≤ s.applied
  applied : s.applied ≤ log.length
  node : s.node = st.node.applyConfChanges (((log.take s.applied).drop st.applied).map Prod.snd)
  /-- A change with an id of this server is that of the call. -/
  logged : ∀ e ∈ log, st.gen.Mine e.1 → ∃ (c : Nat) (call : ConfCall), s.calls[c]? = some call ∧
    call.id = e.1 ∧ call.change = e.2 ∧ call.committed = true
  once : ∀ id, st.gen.Mine id → (log.map Prod.fst).count id ≤ 1
  registered : ∀ e ∈ s.table, ∃ call, s.calls[e.2]? = some call ∧ call.id = e.1
  holds : ∀ c, s.Holds c → ∃ call, s.calls[c]? = some call
  placed : ∀ c call, s.calls[c]? = some call → Placed (Own st log s.applied call) s c call
  running : s.crashed = false

variable {st : ConfStart} {log : ConfLog} {s s' : ConfServer}

theorem inv_start (hsuffix : st.gen.idSuffix.toNat < 2 ^ 48) (happlied : st.applied ≤ log.length)
    (hforeign : ∀ e ∈ log, ¬ st.gen.Mine e.1) : Inv st log (start st) where
  gen := rfl
  count := rfl
  bound := hsuffix
  ids := by
    intro c call h
    cases h
  started := Nat.le_refl _
  applied := happlied
  node := by
    have hle : (log.take st.applied).length ≤ st.applied := by
      rw [List.length_take]
      exact Nat.min_le_left ..
    change st.node = st.node.applyConfChanges (((log.take st.applied).drop st.applied).map Prod.snd)
    rw [List.drop_of_length_le hle]
    rfl
  logged := fun e he hmine => absurd hmine (hforeign e he)
  once := by
    intro id hmine
    have hnot : id ∉ log.map Prod.fst := by
      intro hmem
      obtain ⟨e, he, rfl⟩ := List.mem_map.mp hmem
      exact hforeign e he hmine
    rw [List.count_eq_zero_of_not_mem hnot]
    exact Nat.zero_le _
  registered := by
    intro e he
    cases he
  holds := by
    rintro c ⟨r, hr⟩
    cases hr
  placed := by
    intro c call h
    cases h
  running := rfl

/-- Calls are told apart by their ids. -/
theorem Inv.id_inj (h : Inv st log s) {c d : Nat} {call call' : ConfCall}
    (hc : s.calls[c]? = some call) (hd : s.calls[d]? = some call') (hid : call.id = call'.id) :
    c = d := by
  have hcid := h.ids c call hc
  have hdid := h.ids d call' hd
  rw [hid] at hcid
  omega

/-- The ids of the calls are those of the generator. -/
theorem Inv.mine (h : Inv st log s) {c : Nat} {call : ConfCall} (hc : s.calls[c]? = some call) :
    st.gen.Mine call.id := by
  have hid := h.ids c call hc
  have hlt := (List.getElem?_eq_some_iff.mp hc).1
  have hcount := h.count
  have hbound := h.bound
  exact ⟨by omega, by omega⟩

/-- What the map says of the id of a call. -/
theorem Inv.lookup_eq (h : Inv st log s) {c : Nat} {call : ConfCall}
    (hc : s.calls[c]? = some call) :
    ((call.id, c) ∈ s.table ∧ s.table.lookup call.id = some c) ∨
      (s.Free call.id ∧ s.table.lookup call.id = none) := by
  cases hl : s.table.lookup call.id with
  | none =>
      refine .inr ⟨fun d hd => ?_, rfl⟩
      simpa using List.lookup_eq_none_iff.mp hl _ hd
  | some d =>
      obtain ⟨l₁, l₂, hsplit, -⟩ := List.lookup_eq_some_iff.mp hl
      have hmem : (call.id, d) ∈ s.table := by
        rw [hsplit]
        exact List.mem_append_right _ List.mem_cons_self
      obtain ⟨call', hd, hid⟩ := h.registered _ hmem
      obtain rfl : d = c := h.id_inj hd hc hid
      exact .inl ⟨hmem, rfl⟩

/-! ### The steps of a server -/

/-- The channel of a call stays where it is. -/
theorem Placed.frame {own own' : ConfChangeResponse → Prop} {c : Nat} {call : ConfCall}
    (h : Placed own s c call) (hown : ∀ r, own r → own' r)
    (htable : ∀ d, (call.id, d) ∈ s'.table ↔ (call.id, d) ∈ s.table)
    (hloop : ∀ r, s'.sending = some (some c, r) ↔ s.sending = some (some c, r))
    (hstop : s.stopping = true → s'.stopping = true) : Placed own' s' c call := by
  have hholds : ¬ s.Holds c → ¬ s'.Holds c := by
    rintro hno ⟨r, hr⟩
    exact hno ⟨r, (hloop r).mp hr⟩
  have hfree : s.Free call.id → s'.Free call.id := by
    intro hno d hd
    exact hno d ((htable d).mp hd)
  cases h with
  | table ht hchan hl hphase =>
      exact .table ((htable c).mpr ht) hchan (hholds hl)
        (hphase.imp_right fun hp => hp.imp_right fun hp => ⟨hp.1, hstop hp.2⟩)
  | loop r hf hchan hl ho hphase =>
      exact .loop r (hfree hf) hchan ((hloop r).mpr hl) (hown r ho) hphase
  | sent r hf hchan hl ho hphase =>
      exact .sent r (hfree hf) hchan (hholds hl) (hown r ho) hphase
  | taken result hf hchan hl hphase hresult =>
      exact .taken result (hfree hf) hchan (hholds hl) hphase hresult
  | dropped result hf hchan hl hphase hresult =>
      exact .dropped result (hfree hf) hchan (hholds hl) hphase hresult

/-- A step that changes one call, takes at most its id out of the map and its channel from the
apply loop. -/
theorem Inv.update (h : Inv st log s) {c : Nat} {call call' : ConfCall}
    (hc : s.calls[c]? = some call) (hcalls : s'.calls = s.calls.set c call')
    (hid : call'.id = call.id) (hchange : call'.change = call.change)
    (hcommitted : call.committed = true → call'.committed = true)
    (hgen : s'.gen = s.gen) (hnode : s'.node = s.node) (happlied : s'.applied = s.applied)
    (hcrashed : s'.crashed = s.crashed) (hstop : s'.stopping = s.stopping)
    (htable : ∀ e ∈ s'.table, e ∈ s.table)
    (htable' : ∀ e ∈ s.table, e.1 ≠ call.id → e ∈ s'.table)
    (hloop : ∀ d r, d ≠ c → (s'.sending = some (some d, r) ↔ s.sending = some (some d, r)))
    (hplaced : Placed (Own st log s.applied call) s' c call') : Inv st log s' := by
  have hlt : c < s.calls.length := (List.getElem?_eq_some_iff.mp hc).1
  have hself : s'.calls[c]? = some call' := by
    rw [hcalls, List.getElem?_set_self hlt]
  have hother : ∀ d, d ≠ c → s'.calls[d]? = s.calls[d]? := by
    intro d hd
    rw [hcalls, List.getElem?_set_ne (Ne.symm hd)]
  have hold : ∀ (d : Nat) (x : ConfCall), s.calls[d]? = some x → ∃ x' : ConfCall, s'.calls[d]? = some x' ∧
      x'.id = x.id ∧ x'.change = x.change ∧ (x.committed = true → x'.committed = true) := by
    intro d x hd
    by_cases hdc : d = c
    · subst hdc
      rw [hc] at hd
      cases hd
      exact ⟨call', hself, hid, hchange, hcommitted⟩
    · exact ⟨x, by rw [hother d hdc, hd], rfl, rfl, id⟩
  have hown : ∀ {x x' : ConfCall} {r}, x'.id = x.id → x'.change = x.change →
      Own st log s.applied x r → Own st log s'.applied x' r := by
    intro x x' r hx hx' ho
    rw [Own, hx, hx', happlied]
    exact ho
  refine
    { gen := by rw [hgen, h.gen]
      count := by rw [hgen, h.count, hcalls, List.length_set]
      bound := by rw [hgen]; exact h.bound
      ids := ?_
      started := by rw [happlied]; exact h.started
      applied := by rw [happlied]; exact h.applied
      node := by rw [hnode, happlied, h.node]
      logged := ?_
      once := h.once
      registered := ?_
      holds := ?_
      placed := ?_
      running := hcrashed.trans h.running }
  · intro d x hd
    by_cases hdc : d = c
    · subst hdc
      rw [hself] at hd
      cases hd
      rw [hid]
      exact h.ids d call hc
    · rw [hother d hdc] at hd
      exact h.ids d x hd
  · intro e he hmine
    obtain ⟨d, x, hd, hxid, hxchange, hxcommitted⟩ := h.logged e he hmine
    obtain ⟨x', hd', hid', hchange', hcommitted'⟩ := hold d x hd
    exact ⟨d, x', hd', hid'.trans hxid, hchange'.trans hxchange, hcommitted' hxcommitted⟩
  · intro e he
    obtain ⟨x, hd, hxid⟩ := h.registered e (htable e he)
    obtain ⟨x', hd', hid', -⟩ := hold e.2 x hd
    exact ⟨x', hd', hid'.trans hxid⟩
  · rintro d ⟨r, hr⟩
    by_cases hdc : d = c
    · exact ⟨call', hdc ▸ hself⟩
    · obtain ⟨x, hd⟩ := h.holds d ⟨r, (hloop d r hdc).mp hr⟩
      exact ⟨x, by rw [hother d hdc, hd]⟩
  · intro d x hd
    by_cases hdc : d = c
    · subst hdc
      rw [hself] at hd
      cases hd
      exact hplaced.frame (fun r ho => hown hid hchange ho) (fun _ => Iff.rfl) (fun _ => Iff.rfl) id
    · rw [hother d hdc] at hd
      have hne : x.id ≠ call.id := fun heq => hdc (h.id_inj hd hc heq)
      exact (h.placed d x hd).frame (fun r ho => hown rfl rfl ho)
        (fun k => ⟨fun hk => htable _ hk, fun hk => htable' _ hk hne⟩)
        (fun r => hloop d r hdc) (fun hs => hstop.trans hs)

theorem modify_eq_set {α : Type} {l : List α} {c : Nat} {x : α} (h : l[c]? = some x) (f : α → α) :
    l.modify c f = l.set c (f x) := by
  refine List.ext_getElem? fun d => ?_
  rw [List.getElem?_modify, List.getElem?_set]
  by_cases hd : c = d
  · subst hd
    rw [if_pos rfl, if_pos (List.getElem?_eq_some_iff.mp h).1, h]
    simp
  · simp [hd]

variable {c : Nat} {call : ConfCall}

/-- A call goes on and nothing else changes. -/
theorem Inv.setPhase (h : Inv st log s) (hc : s.calls[c]? = some call) {phase : CallPhase}
    (hplaced : Placed (Own st log s.applied call) s c { call with phase := phase }) :
    Inv st log (s.setPhase c phase) :=
  h.update hc (modify_eq_set hc _) rfl rfl id rfl rfl rfl rfl rfl (fun _ he => he)
    (fun _ he _ => he) (fun _ _ _ => Iff.rfl)
    (hplaced.frame (fun _ ho => ho) (fun _ => Iff.rfl) (fun _ => Iff.rfl) id)

theorem Inv.proposed (h : Inv st log s) (hc : s.calls[c]? = some call)
    (hphase : call.phase = .proposing) : Inv st log (s.setPhase c .waiting) := by
  refine h.setPhase hc ?_
  cases h.placed c call hc with
  | table ht hchan hl _ => exact .table ht hchan hl (.inr (.inl rfl))
  | loop r hf hchan hl ho _ => exact .loop r hf hchan hl ho .waiting
  | sent r hf hchan hl ho _ => exact .sent r hf hchan hl ho (.inl .waiting)
  | taken result _ _ _ hp _ =>
      rw [hphase] at hp
      cases hp
  | dropped result _ _ _ hp _ =>
      rw [hphase] at hp
      cases hp

/-- What a call that waits finds in its channel is the response to its change. -/
theorem Inv.receive (h : Inv st log s) (hc : s.calls[c]? = some call)
    (hphase : call.phase = .waiting) {x : Option ConfChangeResponse} (hchan : call.chan = some x) :
    ∃ r, x = some r ∧ Inv st log (s.setPhase c (.returned (.response r))) := by
  cases h.placed c call hc with
  | table _ hno _ _ =>
      rw [hchan] at hno
      cases hno
  | loop r _ hno _ _ _ =>
      rw [hchan] at hno
      cases hno
  | taken result _ hno _ _ _ =>
      rw [hchan] at hno
      cases hno
  | dropped result _ _ _ hp _ =>
      rw [hphase] at hp
      cases hp
  | sent r hf hr hl ho _ =>
      rw [hchan] at hr
      cases hr
      exact ⟨r, rfl, h.setPhase hc (.sent r hf hchan hl ho (.inr rfl))⟩

theorem Inv.stopped (h : Inv st log s) (hc : s.calls[c]? = some call)
    (hphase : call.phase = .waiting) (hstop : s.stopping = true) :
    Inv st log (s.setPhase c (.returned .stopping)) := by
  have hfailed := ConfigureResult.failed_stopping
  refine h.setPhase hc ?_
  cases h.placed c call hc with
  | table ht hchan hl _ => exact .table ht hchan hl (.inr (.inr ⟨rfl, hstop⟩))
  | loop r hf hchan hl ho _ => exact .loop r hf hchan hl ho (.returned hfailed)
  | sent r hf hchan hl ho _ => exact .sent r hf hchan hl ho (.inl (.returned hfailed))
  | taken result _ _ _ hp _ =>
      rw [hphase] at hp
      cases hp
  | dropped result _ _ _ hp _ =>
      rw [hphase] at hp
      cases hp

theorem mem_take {e : UInt64 × Nat} {id : UInt64} :
    e ∈ (s.take id).table ↔ e ∈ s.table ∧ e.1 ≠ id := by
  rw [take, List.mem_filter]
  simp

theorem free_take (s : ConfServer) (id : UInt64) : (s.take id).Free id := by
  intro d hd
  exact (mem_take.mp hd).2 rfl

/-- A call gives up. -/
theorem Inv.giveUp (h : Inv st log s) (hc : s.calls[c]? = some call)
    (hphase : call.phase = .proposing ∨ call.phase = .waiting) {result : ConfigureResult}
    (hfailed : result.Failed) : Inv st log (s.giveUp c call.id result) := by
  refine h.update hc (modify_eq_set hc _) rfl rfl id rfl rfl rfl rfl rfl
    (fun e he => (mem_take.mp he).1) (fun e he hne => mem_take.mpr ⟨he, hne⟩)
    (fun _ _ _ => Iff.rfl) ?_
  have hfree : (s.giveUp c call.id result).Free call.id := free_take s call.id
  rcases h.lookup_eq hc with ⟨ht, hlookup⟩ | ⟨hno, hlookup⟩
  · rw [hlookup]
    cases h.placed c call hc with
    | table _ hchan hl _ => exact .taken result hfree hchan hl rfl hfailed
    | loop r hf _ _ _ _ => exact absurd ht (hf c)
    | sent r hf _ _ _ _ => exact absurd ht (hf c)
    | taken _ hf _ _ _ _ => exact absurd ht (hf c)
    | dropped _ hf _ _ _ _ => exact absurd ht (hf c)
  · rw [hlookup]
    cases h.placed c call hc with
    | table ht _ _ _ => exact absurd ht (hno c)
    | loop r _ hchan hl ho _ => exact .loop r hfree hchan hl ho (.dropping hfailed)
    | sent r _ hchan hl ho _ => exact .sent r hfree hchan hl ho (.inl (.dropping hfailed))
    | taken _ _ _ _ hp _ =>
        rw [hp] at hphase
        rcases hphase with hp | hp <;> cases hp
    | dropped _ _ _ _ hp _ =>
        rw [hp] at hphase
        rcases hphase with hp | hp <;> cases hp

/-- A channel that nothing was sent to takes the value. -/
theorem put_some (hc : s.calls[c]? = some call) (hchan : call.chan = none)
    (x : Option ConfChangeResponse) :
    s.put (some c) x = { s with calls := s.calls.set c { call with chan := some x } } := by
  have hno : ¬ ((s.calls[c]?).any fun call => call.chan.isSome) = true := by
    rw [hc, Option.any_some, hchan]
    exact Bool.false_ne_true
  change (if _ then _ else _) = _
  rw [if_neg hno, modify_eq_set hc]

/-- A call that has given up returns. -/
theorem Inv.drop (h : Inv st log s) (hc : s.calls[c]? = some call) {ch : Option Nat}
    {result : ConfigureResult} (hphase : call.phase = .dropping ch result) :
    Inv st log ((s.put ch none).setPhase c (.returned result)) := by
  have hlt : c < s.calls.length := (List.getElem?_eq_some_iff.mp hc).1
  cases h.placed c call hc with
  | table _ _ _ hp =>
      rw [hphase] at hp
      rcases hp with hp | hp | ⟨hp, -⟩ <;> cases hp
  | loop r hf hchan hl ho hp =>
      rw [hphase] at hp
      cases hp with
      | dropping hfailed => exact h.setPhase hc (.loop r hf hchan hl ho (.returned hfailed))
  | sent r hf hchan hl ho hp =>
      rw [hphase] at hp
      rcases hp with hp | hp
      · cases hp with
        | dropping hfailed =>
            exact h.setPhase hc (.sent r hf hchan hl ho (.inl (.returned hfailed)))
      · cases hp
  | taken result' hf hchan hl hp hfailed =>
      rw [hphase] at hp
      cases hp
      -- the call sends to its own channel, which nobody reads
      rw [put_some hc hchan]
      have hset : (s.calls.set c { call with chan := some none })[c]? =
          some { call with chan := some none } := List.getElem?_set_self hlt
      have hcalls : ((({ s with
          calls := s.calls.set c { call with chan := some none } } : ConfServer)).setPhase c
            (.returned result)).calls =
          s.calls.set c { call with phase := .returned result, chan := some none } := by
        change List.modify _ _ _ = _
        rw [modify_eq_set hset, List.set_set]
      exact h.update hc hcalls rfl rfl id rfl rfl rfl rfl rfl (fun _ he => he) (fun _ he _ => he)
        (fun _ _ _ => Iff.rfl) (.dropped result hf rfl hl rfl hfailed)
  | dropped _ _ _ _ hp _ =>
      rw [hphase] at hp
      cases hp

/-- The apply loop sends. -/
theorem Inv.send (h : Inv st log s) {ch : Option Nat} {r : ConfChangeResponse}
    (hsending : s.sending = some (ch, r)) :
    Inv st log { s.put ch (some r) with sending := none } := by
  cases ch with
  | none =>
      refine { h with
        holds := ?_
        placed := ?_ }
      · rintro d ⟨r', hr'⟩
        cases hr'
      · intro d x hd
        refine (h.placed d x hd).frame (fun _ ho => ho) (fun _ => Iff.rfl) (fun r' => ?_) id
        rw [hsending]
        simp
  | some c =>
      obtain ⟨call, hc⟩ := h.holds c ⟨r, hsending⟩
      have hholds : s.Holds c := ⟨r, hsending⟩
      cases h.placed c call hc with
      | table _ _ hl _ => exact absurd hholds hl
      | sent _ _ _ hl _ _ => exact absurd hholds hl
      | taken _ _ _ hl _ _ => exact absurd hholds hl
      | dropped _ _ _ hl _ _ => exact absurd hholds hl
      | loop r' hf hchan hl ho hphase =>
          rw [hsending] at hl
          cases hl
          rw [put_some hc hchan]
          refine h.update hc rfl rfl rfl id rfl rfl rfl rfl rfl (fun _ he => he)
            (fun _ he _ => he) ?_ (.sent r hf rfl ?_ ho (.inl hphase))
          · intro d r' hne
            rw [hsending]
            constructor
            · intro heq
              cases heq
            · intro heq
              cases heq
              exact absurd rfl hne
          · rintro ⟨r', hr'⟩
            cases hr'

/-- A response stays that of its change. -/
theorem Own.mono {r : ConfChangeResponse} {applied applied' : Nat}
    (h : Own st log applied call r) (more : ConfLog) (hle : applied ≤ applied') :
    Own st (log ++ more) applied' call r := by
  obtain ⟨pre, post, rfl, hstart, hlt, hr⟩ := h
  exact ⟨pre, post ++ more, by rw [List.append_assoc, List.cons_append], hstart, by omega, hr⟩

/-- The apply loop applies a change and takes the channel. -/
theorem Inv.apply (h : Inv st log s) (hsending : s.sending = none) {e : UInt64 × ConfChange}
    (he : log[s.applied]? = some e) :
    Inv st log { s.take e.1 with
      node := s.node.applyConfChange e.2
      applied := s.applied + 1
      sending := some (s.table.lookup e.1, s.node.respond e.2) } := by
  obtain ⟨hlt, hget⟩ := List.getElem?_eq_some_iff.mp he
  have hsplit : log = log.take s.applied ++ e :: log.drop (s.applied + 1) := by
    rw [← hget, List.cons_getElem_drop_succ, List.take_append_drop]
  have hlen : (log.take s.applied).length = s.applied := by
    rw [List.length_take]
    omega
  have hheld : ∀ {d}, s.table.lookup e.1 = some d → (e.1, d) ∈ s.table := by
    intro d hd
    obtain ⟨l₁, l₂, hl, -⟩ := List.lookup_eq_some_iff.mp hd
    rw [hl]
    exact List.mem_append_right _ List.mem_cons_self
  refine { h with
    started := Nat.le_succ_of_le h.started
    applied := hlt
    node := ?_
    registered := fun e' he' => h.registered e' (mem_take.mp he').1
    holds := ?_
    placed := ?_ }
  · rw [List.take_add_one, he, Option.toList_some, List.drop_append_of_le_length
      (by rw [hlen]; exact h.started), List.map_append, RaftNode.applyConfChanges_append, ← h.node]
    rfl
  · rintro d ⟨r, hr⟩
    obtain ⟨call, hc, -⟩ := h.registered _ (hheld (Prod.mk.inj (Option.some.inj hr)).1)
    exact ⟨call, hc⟩
  · intro d call hd
    change s.calls[d]? = some call at hd
    have hmono : ∀ r, Own st log s.applied call r → Own st log (s.applied + 1) call r := by
      intro r ho
      have hlog := ho.mono [] (Nat.le_succ s.applied)
      rwa [List.append_nil] at hlog
    by_cases hid : call.id = e.1
    · obtain ⟨c', call', hc', hid', hchange, -⟩ := h.logged e (List.mem_of_getElem? he)
        (hid ▸ h.mine hd)
      obtain rfl : d = c' := h.id_inj hd hc' (hid.trans hid'.symm)
      rw [hd] at hc'
      cases hc'
      have hfree : (s.take e.1).Free call.id := by
        rw [hid]
        exact free_take s e.1
      have hlookup := h.lookup_eq hd
      rw [hid] at hlookup
      rcases hlookup with ⟨ht, hlookup⟩ | ⟨hno, hlookup⟩
      · have hown : Own st log (s.applied + 1) call (s.node.respond e.2) := by
          refine ⟨log.take s.applied, log.drop (s.applied + 1), ?_, ?_, ?_, ?_⟩
          · rw [hid, hchange]
            exact hsplit
          · rw [hlen]
            exact h.started
          · rw [hlen]
            exact Nat.lt_succ_self _
          · rw [← h.node, hchange]
        cases h.placed d call hd with
        | table _ hchan _ hphase =>
            have hunread : call.phase.Unread := by
              rcases hphase with hp | hp | ⟨hp, -⟩
              · exact hp ▸ .proposing
              · exact hp ▸ .waiting
              · exact hp ▸ .returned ConfigureResult.failed_stopping
            exact .loop _ hfree hchan (by rw [hlookup]) hown hunread
        | loop _ hf _ _ _ _ => exact absurd ht (hid ▸ hf d)
        | sent _ hf _ _ _ _ => exact absurd ht (hid ▸ hf d)
        | taken _ hf _ _ _ _ => exact absurd ht (hid ▸ hf d)
        | dropped _ hf _ _ _ _ => exact absurd ht (hid ▸ hf d)
      · refine (h.placed d call hd).frame hmono (fun k => ?_) (fun r => ?_) id
        · rw [hid]
          exact iff_of_false (fun hk => (mem_take.mp hk).2 rfl) (hno k)
        · rw [hsending, hlookup]
          simp
    · refine (h.placed d call hd).frame hmono (fun k => ?_) (fun r => ?_) id
      · exact ⟨fun hk => (mem_take.mp hk).1, fun hk => mem_take.mpr ⟨hk, hid⟩⟩
      · rw [hsending]
        refine iff_of_false (fun hr => hid ?_) (by simp)
        obtain ⟨call', hd', hid'⟩ := h.registered _ (hheld (Prod.mk.inj (Option.some.inj hr)).1)
        rw [hd] at hd'
        cases hd'
        exact hid'

/-- A new call: its id is not registered. -/
theorem Inv.configure (h : Inv st log s) (hbound : s.gen.idSuffix.toNat + 1 < 2 ^ 48)
    (cc : ConfChange) : Inv st log (s.configure cc) := by
  have hid : s.gen.next.1.toNat =
      st.gen.idPrefix.toNat + st.gen.idSuffix.toNat + s.calls.length + 1 := by
    rw [Generator.next_id hbound, h.gen, h.count]
    omega
  have hnew : ∀ (d : Nat) (x : ConfCall), s.calls[d]? = some x → x.id ≠ s.gen.next.1 := by
    intro d x hd heq
    have hlt := (List.getElem?_eq_some_iff.mp hd).1
    have hx := h.ids d x hd
    rw [heq] at hx
    omega
  have hfree : s.table.lookup s.gen.next.1 = none := by
    rw [List.lookup_eq_none_iff]
    intro e he
    obtain ⟨x, hx, hxid⟩ := h.registered e he
    have hne := hnew e.2 x hx
    rw [hxid] at hne
    simpa using Ne.symm hne
  have hstep : s.configure cc = { s with
      gen := s.gen.next.2
      calls := s.calls ++ [⟨s.gen.next.1, cc, .proposing, none, false⟩]
      table := (s.gen.next.1, s.calls.length) :: s.table } := by
    rw [ConfServer.configure]
    simp only [hfree]
  have hold : ∀ {d : Nat} {x : ConfCall}, s.calls[d]? = some x →
      (s.calls ++ [⟨s.gen.next.1, cc, .proposing, none, false⟩])[d]? = some x := by
    intro d x hd
    rw [List.getElem?_append_left (List.getElem?_eq_some_iff.mp hd).1, hd]
  have hcases : ∀ {d : Nat} {x : ConfCall},
      (s.calls ++ [⟨s.gen.next.1, cc, .proposing, none, false⟩])[d]? = some x →
      s.calls[d]? = some x ∨ d = s.calls.length ∧ x = ⟨s.gen.next.1, cc, .proposing, none, false⟩ := by
    intro d x hd
    rcases Nat.lt_trichotomy d s.calls.length with hlt | heq | hgt
    · rw [List.getElem?_append_left hlt] at hd
      exact .inl hd
    · subst heq
      rw [List.getElem?_concat_length] at hd
      exact .inr ⟨rfl, (Option.some.inj hd).symm⟩
    · rw [List.getElem?_eq_none (by rw [List.length_append, List.length_singleton]; omega)] at hd
      cases hd
  have hfresh : ¬ s.Holds s.calls.length := by
    intro hh
    obtain ⟨x, hx⟩ := h.holds _ hh
    exact Nat.lt_irrefl _ (List.getElem?_eq_some_iff.mp hx).1
  rw [hstep]
  exact
    { gen := h.gen
      count := by
        rw [Generator.next_suffix hbound, h.count, List.length_append, List.length_singleton]
        omega
      bound := by
        rw [Generator.next_suffix hbound]
        exact hbound
      ids := by
        intro d x hd
        rcases hcases hd with hd | ⟨rfl, rfl⟩
        · exact h.ids d x hd
        · exact hid
      started := h.started
      applied := h.applied
      node := h.node
      logged := by
        intro e he hmine
        obtain ⟨d, x, hd, hx⟩ := h.logged e he hmine
        exact ⟨d, x, hold hd, hx⟩
      once := h.once
      registered := by
        intro e he
        rcases List.mem_cons.mp he with rfl | he
        · exact ⟨_, List.getElem?_concat_length, rfl⟩
        · obtain ⟨x, hx, hxid⟩ := h.registered e he
          exact ⟨x, hold hx, hxid⟩
      holds := by
        intro d hh
        obtain ⟨x, hx⟩ := h.holds d hh
        exact ⟨x, hold hx⟩
      placed := by
        intro d x hd
        rcases hcases hd with hd | ⟨rfl, rfl⟩
        · refine (h.placed d x hd).frame (fun _ ho => ho) (fun k => ?_) (fun _ => Iff.rfl) id
          rw [List.mem_cons]
          exact or_iff_right fun heq => hnew d x hd (Prod.mk.inj heq).1
        · exact .table List.mem_cons_self rfl hfresh (.inl rfl)
      running := h.running }

theorem Inv.stop (h : Inv st log s) : Inv st log { s with stopping := true } :=
  { h with
    placed := fun c call hc => (h.placed c call hc).frame (fun _ ho => ho) (fun _ => Iff.rfl)
      (fun _ => Iff.rfl) fun _ => rfl }

/-- **Every step of a server keeps its invariant.** -/
theorem Inv.step {ev : ServerEvent} (h : Inv st log s)
    (hvalid : ∀ cc, ev = .configure cc → s.gen.idSuffix.toNat + 1 < 2 ^ 48)
    (hstep : s.step log ev = some s') : Inv st log s' := by
  cases ev with
  | configure cc =>
      cases hstep
      exact h.configure (hvalid cc rfl) cc
  | proposed c =>
      obtain ⟨call, hc, hif⟩ := Option.bind_eq_some_iff.mp hstep
      obtain ⟨hphase, ⟨⟩⟩ := Option.ite_none_right_eq_some.mp hif
      exact h.proposed hc hphase
  | proposeFails c =>
      obtain ⟨call, hc, hif⟩ := Option.bind_eq_some_iff.mp hstep
      obtain ⟨hphase, ⟨⟩⟩ := Option.ite_none_right_eq_some.mp hif
      exact h.giveUp hc (.inl hphase) ConfigureResult.failed_proposeError
  | receive c =>
      obtain ⟨call, hc, hif⟩ := Option.bind_eq_some_iff.mp hstep
      obtain ⟨hphase, hchan⟩ := Option.ite_none_right_eq_some.mp hif
      obtain ⟨x, hx, rfl⟩ := Option.map_eq_some_iff.mp hchan
      obtain ⟨r, rfl, hinv⟩ := h.receive hc hphase hx
      exact hinv
  | cancel c =>
      obtain ⟨call, hc, hif⟩ := Option.bind_eq_some_iff.mp hstep
      obtain ⟨hphase, ⟨⟩⟩ := Option.ite_none_right_eq_some.mp hif
      exact h.giveUp hc (.inr hphase) ConfigureResult.failed_ctxError
  | drop c =>
      obtain ⟨call, hc, hmatch⟩ := Option.bind_eq_some_iff.mp hstep
      split at hmatch
      · next ch result hphase =>
        cases hmatch
        exact h.drop hc hphase
      · cases hmatch
  | stop =>
      cases hstep
      exact h.stop
  | stopped c =>
      obtain ⟨call, hc, hif⟩ := Option.bind_eq_some_iff.mp hstep
      obtain ⟨hphase, ⟨⟩⟩ := Option.ite_none_right_eq_some.mp hif
      exact h.stopped hc hphase.1 hphase.2
  | apply =>
      obtain ⟨hsending, hmap⟩ := Option.ite_none_right_eq_some.mp hstep
      obtain ⟨e, he, rfl⟩ := Option.map_eq_some_iff.mp hmap
      exact h.apply hsending he
  | send =>
      obtain ⟨x, hx, rfl⟩ := Option.map_eq_some_iff.mp hstep
      exact h.send hx

/-- The log grows by a change that is that of a call, if it has an id of the server. -/
theorem Inv.extend (h : Inv st log s) {e : UInt64 × ConfChange}
    (hlogged : st.gen.Mine e.1 → ∃ (c : Nat) (call : ConfCall), s.calls[c]? = some call ∧
      call.id = e.1 ∧ call.change = e.2 ∧ call.committed = true)
    (honce : st.gen.Mine e.1 → e.1 ∉ log.map Prod.fst) : Inv st (log ++ [e]) s :=
  { h with
    applied := by
      rw [List.length_append]
      exact Nat.le_trans h.applied (Nat.le_add_right ..)
    node := by
      rw [List.take_append_of_le_length h.applied]
      exact h.node
    logged := by
      intro e' he' hmine
      rcases List.mem_append.mp he' with he' | he'
      · exact h.logged e' he' hmine
      · obtain rfl := List.mem_singleton.mp he'
        exact hlogged hmine
    once := by
      intro id hmine
      rw [List.map_append, List.count_append, List.map_singleton, List.count_singleton]
      by_cases hid : e.1 = id
      · subst hid
        rw [List.count_eq_zero_of_not_mem (honce hmine)]
        simp
      · have hold := h.once id hmine
        simpa [hid] using hold
    placed := fun c call hc => (h.placed c call hc).frame
      (fun _ ho => ho.mono [e] (Nat.le_refl _)) (fun _ => Iff.rfl) (fun _ => Iff.rfl) id }

/-- Raft commits the change of a call. -/
theorem Inv.commit (h : Inv st log s) (hc : s.calls[c]? = some call)
    (hcommitted : call.committed = false) :
    Inv st (log ++ [(call.id, call.change)])
      { s with calls := s.calls.modify c fun call => { call with committed := true } } := by
  have hlt : c < s.calls.length := (List.getElem?_eq_some_iff.mp hc).1
  have hnew : call.id ∉ log.map Prod.fst := by
    intro hmem
    obtain ⟨e, he, hid⟩ := List.mem_map.mp hmem
    obtain ⟨d, x, hd, hxid, -, hx⟩ := h.logged e he (hid ▸ h.mine hc)
    obtain rfl : d = c := h.id_inj hd hc (hxid.trans hid)
    rw [hc] at hd
    cases hd
    rw [hcommitted] at hx
    cases hx
  have hmodify := modify_eq_set hc fun call => { call with committed := true }
  have hinv : Inv st log
      { s with calls := s.calls.modify c fun call => { call with committed := true } } :=
    h.update hc hmodify rfl rfl (fun _ => rfl) rfl rfl rfl rfl rfl (fun _ he => he)
      (fun _ he _ => he) (fun _ _ _ => Iff.rfl) (by
        cases h.placed c call hc with
        | table ht hchan hl hp => exact .table ht hchan hl hp
        | loop r hf hchan hl ho hp => exact .loop r hf hchan hl ho hp
        | sent r hf hchan hl ho hp => exact .sent r hf hchan hl ho hp
        | taken result hf hchan hl hp hr => exact .taken result hf hchan hl hp hr
        | dropped result hf hchan hl hp hr => exact .dropped result hf hchan hl hp hr)
  refine hinv.extend (fun _ => ⟨c, { call with committed := true }, ?_, rfl, rfl, rfl⟩) fun _ => hnew
  change (List.modify _ _ _)[c]? = _
  rw [hmodify, List.getElem?_set_self hlt]

end ConfServer

namespace ConfCluster

/-- Every server keeps its invariant. -/
def Inv (starts : List ConfStart) (cl : ConfCluster) : Prop :=
  ∀ (s : Nat) (sv : ConfServer), cl.servers[s]? = some sv →
    ∃ st, starts[s]? = some st ∧ sv.Inv st cl.log

variable {starts : List ConfStart} {log : ConfLog} {cl cl' : ConfCluster}

theorem inv_start (h : ConfStart.Distinct starts log) : Inv starts (start starts log) := by
  intro s sv hsv
  change (starts.map ConfServer.start)[s]? = some sv at hsv
  rw [List.getElem?_map] at hsv
  obtain ⟨st, hst, rfl⟩ := Option.map_eq_some_iff.mp hsv
  have hmem := List.mem_of_getElem? hst
  exact ⟨st, hst, ConfServer.inv_start (h.suffixes st hmem) (h.applied st hmem) (h.foreign st hmem)⟩

/-- A server changes and the log grows by at most one change. -/
theorem Inv.set (h : cl.Inv starts) {s : Nat} {st : ConfStart} {sv sv' : ConfServer} {log' : ConfLog}
    (hsv : cl.servers[s]? = some sv) (hst : starts[s]? = some st) (hinv : sv'.Inv st log')
    (hothers : ∀ s' st' (sv'' : ConfServer), s' ≠ s → starts[s']? = some st' → sv''.Inv st' cl.log →
      sv''.Inv st' log') : Inv starts ⟨cl.servers.set s sv', log'⟩ := by
  intro s' x hx
  by_cases hs : s' = s
  · subst hs
    change (cl.servers.set s' sv')[s']? = some x at hx
    rw [List.getElem?_set_self (List.getElem?_eq_some_iff.mp hsv).1] at hx
    cases hx
    exact ⟨st, hst, hinv⟩
  · change (cl.servers.set s sv')[s']? = some x at hx
    rw [List.getElem?_set_ne (Ne.symm hs)] at hx
    obtain ⟨st', hst', hx'⟩ := h s' x hx
    exact ⟨st', hst', hothers s' st' x hs hst' hx'⟩

/-- **Every step of the cluster keeps the invariant.** -/
theorem Inv.step {ev : ClusterEvent} (hdistinct : ConfStart.Distinct starts log)
    (h : cl.Inv starts) (hvalid : ev.Valid starts cl) (hstep : cl.step ev = some cl') :
    cl'.Inv starts := by
  cases ev with
  | server s ev =>
      obtain ⟨sv, hsv, hmap⟩ := Option.bind_eq_some_iff.mp hstep
      obtain ⟨sv', hsv', rfl⟩ := Option.map_eq_some_iff.mp hmap
      obtain ⟨st, hst, hinv⟩ := h s sv hsv
      refine h.set hsv hst (hinv.step ?_ hsv') fun _ _ _ _ _ hi => hi
      rintro cc rfl
      exact hvalid sv hsv
  | commit s c =>
      obtain ⟨sv, hsv, hbind⟩ := Option.bind_eq_some_iff.mp hstep
      obtain ⟨call, hc, hif⟩ := Option.bind_eq_some_iff.mp hbind
      obtain ⟨hcond, ⟨⟩⟩ := Option.ite_none_right_eq_some.mp hif
      obtain ⟨st, hst, hinv⟩ := h s sv hsv
      have hmine := hinv.mine hc
      refine h.set hsv hst (hinv.commit hc hcond.2) fun s' st' sv'' hs hst' hi => ?_
      -- the other servers have other prefixes
      have hprefix : st.gen.idPrefix ≠ st'.gen.idPrefix := by
        have hpair := List.pairwise_iff_getElem.mp hdistinct.prefixes
        obtain ⟨hlt, rfl⟩ := List.getElem?_eq_some_iff.mp hst
        obtain ⟨hlt', rfl⟩ := List.getElem?_eq_some_iff.mp hst'
        rcases Nat.lt_or_gt_of_ne hs with hlt'' | hgt
        · exact Ne.symm (hpair s' s hlt' hlt hlt'')
        · exact hpair s s' hlt hlt' hgt
      have hother := hmine.of_ne hprefix
      exact hi.extend (fun hm => absurd hm hother) fun hm => absurd hm hother
  | foreign id cc =>
      cases hstep
      intro s sv hsv
      obtain ⟨st, hst, hinv⟩ := h s sv hsv
      have hforeign := hvalid st (List.mem_of_getElem? hst)
      exact ⟨st, hst, hinv.extend (fun hm => absurd hm hforeign) fun hm => absurd hm hforeign⟩

end ConfCluster

/-- **A call gets the response to its own change.**  Whatever interleaves, as long as ids do not
repeat: no call panics; a response is that to the change of the call where it stands, once, in the
log; and until the server stops only calls that have not returned are registered. -/
theorem configure_answers {starts : List ConfStart} {log : ConfLog} {cl : ConfCluster}
    (hstart : ConfStart.Distinct starts log)
    (hrun : Runs ConfCluster.step (fun cl ev => ev.Valid starts cl) (.start starts log) cl)
    {s : Nat} {sv : ConfServer} {st : ConfStart} (hsv : cl.servers[s]? = some sv)
    (hst : starts[s]? = some st) :
    sv.crashed = false ∧
    (∀ (c : Nat) (call : ConfCall), sv.calls[c]? = some call →
      call.phase ≠ .duplicate ∧ call.phase ≠ .nilResponse ∧
      ∀ r, call.phase = .returned (.response r) →
        ∃ pre post, cl.log = pre ++ (call.id, call.change) :: post ∧
          call.id ∉ (pre ++ post).map Prod.fst ∧
          r = (st.node.applyConfChanges ((pre.drop st.applied).map Prod.snd)).respond call.change) ∧
    (sv.stopping = false → ∀ e ∈ sv.table, ∃ call : ConfCall, sv.calls[e.2]? = some call ∧
      call.id = e.1 ∧ (call.phase = .proposing ∨ call.phase = .waiting)) := by
  have hinv : cl.Inv starts :=
    hrun.invariant (ConfCluster.inv_start hstart) fun hi hv hs => hi.step hstart hv hs
  obtain ⟨st', hst', hsv'⟩ := hinv s sv hsv
  rw [hst] at hst'
  cases hst'
  refine ⟨hsv'.running, fun c call hc => ?_, fun hstop e he => ?_⟩
  · have hunread : ∀ {p : CallPhase}, p.Unread → p ≠ .duplicate ∧ p ≠ .nilResponse ∧
        ∀ r, p ≠ .returned (.response r) := by
      rintro p (_ | _ | hfailed | hfailed)
      · simp
      · simp
      · simp
      · exact ⟨by simp, by simp, fun r hr => hfailed r (CallPhase.returned.inj hr)⟩
    cases hsv'.placed c call hc with
    | table _ _ _ hphase =>
        rcases hphase with hp | hp | ⟨hp, -⟩ <;> simp [hp]
    | loop r _ _ _ _ hphase =>
        obtain ⟨hdup, hnil, hresp⟩ := hunread hphase
        exact ⟨hdup, hnil, fun r hr => absurd hr (hresp r)⟩
    | taken result _ _ _ hphase _ => simp [hphase]
    | dropped result _ _ _ hphase hfailed =>
        refine ⟨by simp [hphase], by simp [hphase], fun r hr => ?_⟩
        rw [hphase] at hr
        exact absurd (CallPhase.returned.inj hr) (hfailed r)
    | sent r _ _ _ hown hphase =>
        rcases hphase with hphase | hphase
        · obtain ⟨hdup, hnil, hresp⟩ := hunread hphase
          exact ⟨hdup, hnil, fun r hr => absurd hr (hresp r)⟩
        · refine ⟨by simp [hphase], by simp [hphase], fun r' hr => ?_⟩
          rw [hphase] at hr
          cases hr
          obtain ⟨pre, post, hlog, -, -, hresponse⟩ := hown
          refine ⟨pre, post, hlog, ?_, hresponse⟩
          have honce := hsv'.once call.id (hsv'.mine hc)
          rw [hlog, List.map_append, List.map_cons, List.count_append, List.count_cons_self] at honce
          rw [List.map_append]
          intro hmem
          have hpos := List.count_pos_iff.mpr hmem
          rw [List.count_append] at hpos
          omega
  · obtain ⟨call, hc, hid⟩ := hsv'.registered e he
    refine ⟨call, hc, hid, ?_⟩
    have hreg : ¬ sv.Free call.id := fun hf => hf e.2 (hid ▸ he)
    cases hsv'.placed e.2 call hc with
    | table _ _ _ hphase =>
        rcases hphase with hp | hp | ⟨-, hp⟩
        · exact .inl hp
        · exact .inr hp
        · rw [hstop] at hp
          cases hp
    | loop _ hf _ _ _ _ => exact absurd hf hreg
    | sent _ hf _ _ _ _ => exact absurd hf hreg
    | taken _ hf _ _ _ _ => exact absurd hf hreg
    | dropped _ hf _ _ _ _ => exact absurd hf hreg

/-- Two servers of a cluster. -/
def confPair : List ConfStart :=
  [⟨.newGenerator 1 0, settledNode [memberA, memberB], 0⟩,
    ⟨.newGenerator 2 0, settledNode [memberA, memberB], 0⟩]

theorem confPair_distinct : ConfStart.Distinct confPair [] where
  prefixes := by decide
  suffixes := by decide
  applied := by decide
  foreign := by simp

/-- Both ask for a removal, and that of the first one is committed second. -/
theorem configure_answers_confPair :
    ∃ cl sv call, Runs ConfCluster.step (fun cl ev => ev.Valid confPair cl) (.start confPair []) cl ∧
      cl.servers[0]? = some sv ∧ sv.calls[0]? = some call ∧
      ∃ pre post, cl.log = pre ++ (call.id, call.change) :: post ∧
        call.id ∉ (pre ++ post).map Prod.fst ∧
        ((settledNode [memberA, memberB]).applyConfChange (.removeNode 1)).respond (.removeNode 2) =
          ((settledNode [memberA, memberB]).applyConfChanges
            ((pre.drop 0).map Prod.snd)).respond call.change := by
  obtain ⟨cl, hexec, hphase⟩ : ∃ cl, Runs.exec (fun cl (ev : ClusterEvent) =>
        if ev.Valid confPair cl then ConfCluster.step cl ev else none) (.start confPair [])
        [.server 0 (.configure (.removeNode 2)), .server 1 (.configure (.removeNode 1)),
          .server 0 (.proposed 0), .server 1 (.proposed 0), .commit 1 0, .commit 0 0,
          .server 0 .apply, .server 0 .send, .server 0 .apply, .server 0 .send,
          .server 0 (.receive 0)] = some cl ∧
      ((cl.servers[0]?).bind fun sv => (sv.calls[0]?).map ConfCall.phase) =
        some (.returned (.response (((settledNode [memberA, memberB]).applyConfChange
          (.removeNode 1)).respond (.removeNode 2)))) :=
    Runs.exists_of_eval (by decide +kernel)
  obtain ⟨sv, hsv, hmap⟩ := Option.bind_eq_some_iff.mp hphase
  obtain ⟨call, hc, hphase⟩ := Option.map_eq_some_iff.mp hmap
  have hrun : Runs ConfCluster.step (fun cl ev => ev.Valid confPair cl) (.start confPair []) cl :=
    .of_exec _ hexec
  have hanswer := (configure_answers confPair_distinct hrun hsv rfl).2.1 0 call hc
  exact ⟨cl, sv, call, hrun, hsv, hc, hanswer.2.2 _ hphase⟩

/-- **Two servers with the same generator answer for each other**: the low 16 bits of their ids
agree and they were started in the same millisecond.  The first server's call gets the response
to the change of the second, and its own change was never committed. -/
theorem configure_answers_another (memberID : UInt16) (now : Int64) (n n' : RaftNode)
    (cc cc' : ConfChange) :
    ∃ cl sv call, Runs.exec ConfCluster.step (.start [⟨.newGenerator memberID now, n, 0⟩,
          ⟨.newGenerator memberID now, n', 0⟩] [])
        [.server 0 (.configure cc), .server 1 (.configure cc'), .server 0 (.proposed 0),
          .server 1 (.proposed 0), .commit 1 0, .server 0 .apply, .server 0 .send,
          .server 0 (.receive 0)] = some cl ∧
      cl.servers[0]? = some sv ∧ sv.calls[0]? = some call ∧ call.change = cc ∧
      call.phase = .returned (.response (n.respond cc')) ∧ cl.log.map Prod.snd = [cc'] := by
  simp [Runs.exec, ConfCluster.step, ConfCluster.start, ConfServer.start, ConfServer.step,
    ConfServer.configure, ConfServer.setPhase, ConfServer.put, ConfServer.take]

end Kingbus
