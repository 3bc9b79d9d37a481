import Kingbus.Lib.Runs
import Mathlib.Data.Finmap

/-! # Registered slaves

The binlog server keeps the registered slaves in a map from UUID to connection
(`server/binlog_server.go`).  `UnregisterSlave` closes and removes whatever connection is
under a UUID.  It is called from three places (`mysql/command.go`), each a step of its own
after the map was looked at:

* `killZombieDumpThreads` at the start of a registration, for the UUID of the new one;
* the deferred call of `handleBinlogDumpGtid`, when a dump ends for whatever reason;
* `handleKill`, for the UUID under which the connection was seen.

The last two may hit another connection than the one they are meant for.  When a slave
reconnects, its old connection is closed and the new one registered, and then the old dump
exits and removes the new registration (`exit_removes_successor`).

* `accounted_iff_aimed`: a step takes a registration for one of the good reasons exactly when
  the connection under the UUID is the one it is meant for.
* `removals_accounted_iff`: the same for the steps of any interleaving.
* `orderly_removals_accounted`: it is so in every run in which nobody registers under a UUID
  while an older dump or a `KILL` under it is on its way. -/

namespace Kingbus

/-- `connectionID` of the connections in the order they are made: `baseConnID` counts from
10000 in 32 bits. -/
def connectionID (conn : Nat) : Nat := (10001 + conn) % 2 ^ 32

/-- Where the goroutine of a connection is. -/
inductive ConnPhase where
  /-- `Run` reads the next packet. -/
  | ready
  /-- `killZombieDumpThreads` saw another connection under the UUID. -/
  | killingZombie (uuid : String)
  /-- Before `RegisterSlave`. -/
  | registering
  /-- In `handleBinlogDumpGtid`, with the deferred `UnregisterSlave`. -/
  | dumping (uuid : String)
  /-- `handleKill` saw a connection with the id under the UUID. -/
  | killing (id : Nat) (uuid : String)
  /-- A handler returned an error, and `Run` is about to end. -/
  | returning
  | done
  deriving DecidableEq

/-- The map of the server and the connections.  Connections are numbered as they are made. -/
structure SlaveRegistry where
  slaves : Finmap fun _ : String => Nat
  closed : Finset Nat
  /-- The user variable `slave_uuid` of a connection. -/
  slaveUUID : Nat → Option String
  phase : Nat → ConnPhase

/-- The steps of the goroutines.  The first argument is the connection whose step it is. -/
inductive RegistryAction where
  /-- `SET @slave_uuid`. -/
  | setUUID (conn : Nat) (uuid : String)
  /-- `handleRegisterSlave` up to what `killZombieDumpThreads` sees. -/
  | lookForZombie (conn : Nat)
  /-- The `UnregisterSlave` of `killZombieDumpThreads`. -/
  | unregisterZombie (conn : Nat)
  | registerSlave (conn : Nat)
  /-- `handleBinlogDumpGtid` up to the `defer`. -/
  | startDump (conn : Nat)
  /-- The deferred `UnregisterSlave`. -/
  | exitDump (conn : Nat)
  /-- `handleKill` of the id, up to the slave that it finds under the UUID. -/
  | findKilled (conn : Nat) (id : Nat) (uuid : String)
  /-- The `UnregisterSlave` of `handleKill`. -/
  | unregisterKilled (conn : Nat)
  /-- `Run` ends and closes its connection. -/
  | quit (conn : Nat)
  /-- `BinlogServer.Stop`. -/
  | stop
  deriving DecidableEq

namespace SlaveRegistry

/-- No slave is registered. -/
def start : SlaveRegistry := ⟨∅, ∅, fun _ => none, fun _ => .ready⟩

/-- The connection goes on at the phase. -/
def goto (s : SlaveRegistry) (conn : Nat) (phase : ConnPhase) : SlaveRegistry :=
  { s with phase := fun c => if c = conn then phase else s.phase c }

/-- `UnregisterSlave`. -/
def unregisterSlave (s : SlaveRegistry) (uuid : String) : SlaveRegistry :=
  match s.slaves.lookup uuid with
  | some conn => { s with slaves := s.slaves.erase uuid, closed := insert conn s.closed }
  | none => s

/-- A connection that reads the next packet: `Run` goes on only while it is open. -/
def Ready (s : SlaveRegistry) (conn : Nat) : Prop := s.phase conn = .ready ∧ conn ∉ s.closed

instance (s : SlaveRegistry) (conn : Nat) : Decidable (s.Ready conn) :=
  inferInstanceAs (Decidable (_ ∧ _))

/-- What `killZombieDumpThreads` decides to do. -/
def zombiePhase (s : SlaveRegistry) (conn : Nat) : ConnPhase :=
  match s.slaveUUID conn with
  | none => .registering
  | some uuid =>
      if uuid = "" then .registering
      else
        match s.slaves.lookup uuid with
        | some other => if other = conn then .registering else .killingZombie uuid
        | none => .registering

/-- One step, `none` if the goroutine is not there. -/
def step (s : SlaveRegistry) : RegistryAction → Option SlaveRegistry
  | .setUUID conn uuid =>
      if s.Ready conn then
        some { s with slaveUUID := fun c => if c = conn then some uuid else s.slaveUUID c }
      else none
  | .lookForZombie conn =>
      if s.Ready conn then some (s.goto conn (s.zombiePhase conn)) else none
  | .unregisterZombie conn =>
      match s.phase conn with
      | .killingZombie uuid => some ((s.unregisterSlave uuid).goto conn .registering)
      | _ => none
  | .registerSlave conn =>
      if s.phase conn = .registering then
        -- a variable that is not set is the empty UUID
        if (s.slaveUUID conn).getD "" = "" then some (s.goto conn .returning)
        else
          some ({ s with slaves := s.slaves.insert ((s.slaveUUID conn).getD "") conn }.goto
            conn .ready)
      else none
  | .startDump conn =>
      match s.slaveUUID conn with
      | some uuid => if s.Ready conn then some (s.goto conn (.dumping uuid)) else none
      -- the type assertion panics, and `Run` recovers and ends
      | none => if s.Ready conn then some (s.goto conn .returning) else none
  | .exitDump conn =>
      match s.phase conn with
      | .dumping uuid => some ((s.unregisterSlave uuid).goto conn .returning)
      | _ => none
  | .findKilled conn id uuid =>
      match s.slaves.lookup uuid with
      | some killed =>
          if s.Ready conn ∧ connectionID killed = id % 2 ^ 32 then
            some (s.goto conn (.killing id uuid))
          else none
      | none => none
  | .unregisterKilled conn =>
      match s.phase conn with
      | .killing _ uuid => some ((s.unregisterSlave uuid).goto conn .ready)
      | _ => none
  | .quit conn =>
      if s.phase conn = .ready ∨ s.phase conn = .returning then
        some ({ s with closed := insert conn s.closed }.goto conn .done)
      else none
  | .stop =>
      some { s with closed := s.closed ∪ s.slaves.keys.biUnion fun uuid =>
        (s.slaves.lookup uuid).toFinset }

/-! ## What a step takes -/

/-- A registered connection is taken out of the map, or closed, from `s` to `t`. -/
def Loses (s t : SlaveRegistry) (conn : Nat) : Prop :=
  (∃ uuid, s.slaves.lookup uuid = some conn ∧ t.slaves.lookup uuid ≠ some conn) ∨
  (∃ uuid, s.slaves.lookup uuid = some conn) ∧ conn ∉ s.closed ∧ conn ∈ t.closed

/-- The good reasons: the own dump exit, a registration under a UUID of the connection, a
`KILL` of its id, the stop of the server.  A connection also closes itself at the end of
`Run`, which takes nothing out of the map. -/
def Accounts (s : SlaveRegistry) (a : RegistryAction) (conn : Nat) : Prop :=
  match a with
  | .exitDump c => c = conn
  | .unregisterZombie c =>
      ∃ uuid, s.phase c = .killingZombie uuid ∧ s.slaves.lookup uuid = some conn
  | .registerSlave c =>
      ∃ uuid, s.slaveUUID c = some uuid ∧ s.slaves.lookup uuid = some conn
  | .unregisterKilled c => ∃ uuid, s.phase c = .killing (connectionID conn) uuid
  | .quit c => c = conn
  | .stop => True
  | _ => False

/-- Whoever the step takes is taken for a good reason. -/
def Accounted (s : SlaveRegistry) (a : RegistryAction) (t : SlaveRegistry) : Prop :=
  ∀ conn, Loses s t conn → s.Accounts a conn

/-- The connection under the UUID, if any, is the one that the step is meant for. -/
def Aimed (s : SlaveRegistry) (a : RegistryAction) : Prop :=
  match a with
  | .exitDump c =>
      ∀ uuid, s.phase c = .dumping uuid → ∀ conn, s.slaves.lookup uuid = some conn → conn = c
  | .unregisterKilled c =>
      ∀ id uuid, s.phase c = .killing id uuid →
        ∀ conn, s.slaves.lookup uuid = some conn → connectionID conn = id
  | _ => True

variable {s t : SlaveRegistry} {conn : Nat} {uuid : String} {a : RegistryAction}

theorem not_loses_of_eq (hslaves : t.slaves = s.slaves) (hclosed : t.closed = s.closed) :
    ¬ Loses s t conn := by
  rintro (⟨uuid, hreg, hgone⟩ | ⟨-, hopen, hclose⟩)
  · exact hgone (hslaves ▸ hreg)
  · exact hopen (hclosed ▸ hclose)

/-- `UnregisterSlave` takes exactly the connection under the UUID. -/
theorem loses_unregisterSlave_iff (c : Nat) (phase : ConnPhase) :
    Loses s ((s.unregisterSlave uuid).goto c phase) conn ↔ s.slaves.lookup uuid = some conn := by
  cases hreg : s.slaves.lookup uuid with
  | none =>
      have hsame : s.unregisterSlave uuid = s := by rw [unregisterSlave, hreg]
      rw [hsame]
      exact iff_of_false (not_loses_of_eq rfl rfl) nofun
  | some old =>
      have hunreg : s.unregisterSlave uuid =
          { s with slaves := s.slaves.erase uuid, closed := insert old s.closed } := by
        rw [unregisterSlave, hreg]
      rw [hunreg, Option.some.injEq]
      constructor
      · rintro (⟨u, hu, hgone⟩ | ⟨-, hopen, hclose⟩)
        · by_cases hne : u = uuid
          · subst hne
            exact Option.some.inj (hreg.symm.trans hu)
          · exact absurd ((Finmap.lookup_erase_ne hne).trans hu) hgone
        · exact ((Finset.mem_insert.mp hclose).resolve_right hopen).symm
      · rintro rfl
        refine .inl ⟨uuid, hreg, ?_⟩
        change (s.slaves.erase uuid).lookup uuid ≠ some old
        rw [Finmap.lookup_erase]
        exact nofun

/-! ## The steps

Only three steps call `UnregisterSlave`; of the others only the registration, the end of
`Run` and the stop touch the map or close a connection. -/

/-- What a step does to the map and the connections. -/
inductive Stepped (s : SlaveRegistry) : RegistryAction → SlaveRegistry → Prop where
  | setUUID (c : Nat) (uuid : String) (hready : s.Ready c) :
      Stepped s (.setUUID c uuid)
        { s with slaveUUID := fun d => if d = c then some uuid else s.slaveUUID d }
  | lookForZombie (c : Nat) (hready : s.Ready c) :
      Stepped s (.lookForZombie c) (s.goto c (s.zombiePhase c))
  | unregisterZombie (c : Nat) (uuid : String) (hphase : s.phase c = .killingZombie uuid) :
      Stepped s (.unregisterZombie c) ((s.unregisterSlave uuid).goto c .registering)
  | refused (c : Nat) (hphase : s.phase c = .registering) :
      Stepped s (.registerSlave c) (s.goto c .returning)
  | registerSlave (c : Nat) (uuid : String) (hphase : s.phase c = .registering)
      (huuid : s.slaveUUID c = some uuid) :
      Stepped s (.registerSlave c)
        ({ s with slaves := s.slaves.insert uuid c }.goto c .ready)
  | startDump (c : Nat) (uuid : String) (hready : s.Ready c) (huuid : s.slaveUUID c = some uuid) :
      Stepped s (.startDump c) (s.goto c (.dumping uuid))
  | noUUID (c : Nat) (hready : s.Ready c) : Stepped s (.startDump c) (s.goto c .returning)
  | exitDump (c : Nat) (uuid : String) (hphase : s.phase c = .dumping uuid) :
      Stepped s (.exitDump c) ((s.unregisterSlave uuid).goto c .returning)
  | findKilled (c id : Nat) (uuid : String) (killed : Nat) (hready : s.Ready c)
      (hreg : s.slaves.lookup uuid = some killed) (hid : connectionID killed = id % 2 ^ 32) :
      Stepped s (.findKilled c id uuid) (s.goto c (.killing id uuid))
  | unregisterKilled (c id : Nat) (uuid : String) (hphase : s.phase c = .killing id uuid) :
      Stepped s (.unregisterKilled c) ((s.unregisterSlave uuid).goto c .ready)
  | quit (c : Nat) :
      Stepped s (.quit c) ({ s with closed := insert c s.closed }.goto c .done)
  | stop (closed : Finset Nat) : Stepped s .stop { s with closed := closed }

theorem stepped_of_step (h : s.step a = some t) : Stepped s a t := by
  cases a with
  | setUUID c uuid =>
      obtain ⟨hready, ⟨⟩⟩ := Option.ite_none_right_eq_some.mp h
      exact .setUUID c uuid hready
  | lookForZombie c =>
      obtain ⟨hready, ⟨⟩⟩ := Option.ite_none_right_eq_some.mp h
      exact .lookForZombie c hready
  | unregisterZombie c =>
      simp only [step] at h
      split at h
      · rename_i uuid hphase
        cases h
        exact .unregisterZombie c uuid hphase
      · cases h
  | registerSlave c =>
      obtain ⟨hphase, h⟩ := Option.ite_none_right_eq_some.mp h
      split at h
      · cases h
        exact .refused c hphase
      · rename_i hne
        cases huuid : s.slaveUUID c with
        | none =>
            rw [huuid] at hne
            exact absurd rfl hne
        | some uuid =>
            rw [huuid] at h
            cases h
            exact .registerSlave c uuid hphase huuid
  | startDump c =>
      simp only [step] at h
      split at h
      · rename_i uuid huuid
        obtain ⟨hready, ⟨⟩⟩ := Option.ite_none_right_eq_some.mp h
        exact .startDump c uuid hready huuid
      · obtain ⟨hready, ⟨⟩⟩ := Option.ite_none_right_eq_some.mp h
        exact .noUUID c hready
  | exitDump c =>
      simp only [step] at h
      split at h
      · rename_i uuid hphase
        cases h
        exact .exitDump c uuid hphase
      · cases h
  | findKilled c id uuid =>
      simp only [step] at h
      split at h
      · rename_i killed hreg
        obtain ⟨⟨hready, hid⟩, ⟨⟩⟩ := Option.ite_none_right_eq_some.mp h
        exact .findKilled c id uuid killed hready hreg hid
      · cases h
  | unregisterKilled c =>
      simp only [step] at h
      split at h
      · rename_i id uuid hphase
        cases h
        exact .unregisterKilled c id uuid hphase
      · cases h
  | quit c =>
      obtain ⟨-, ⟨⟩⟩ := Option.ite_none_right_eq_some.mp h
      exact .quit c
  | stop =>
      cases h
      exact .stop _

/-- **A step takes registrations for good reasons exactly when it is aimed.** -/
theorem accounted_iff_aimed (h : s.step a = some t) : Accounted s a t ↔ Aimed s a := by
  cases stepped_of_step h with
  | setUUID | lookForZombie | refused | startDump | noUUID | findKilled =>
      exact iff_of_true (fun conn hlose => absurd hlose (not_loses_of_eq rfl rfl)) trivial
  | unregisterZombie c uuid hphase =>
      refine iff_of_true (fun conn hlose => ⟨uuid, hphase, ?_⟩) trivial
      exact (loses_unregisterSlave_iff c _).mp hlose
  | registerSlave c uuid hphase huuid =>
      refine iff_of_true (fun conn hlose => ⟨uuid, huuid, ?_⟩) trivial
      rcases hlose with ⟨u, hu, hgone⟩ | ⟨-, hopen, hclose⟩
      · by_cases hne : u = uuid
        · exact hne ▸ hu
        · exact absurd ((Finmap.lookup_insert_of_ne _ hne).trans hu) hgone
      · exact absurd hclose hopen
  | exitDump c uuid hphase =>
      constructor
      · intro hacc uuid' hphase' conn hreg
        obtain rfl : uuid = uuid' := ConnPhase.dumping.inj (hphase.symm.trans hphase')
        exact (hacc conn ((loses_unregisterSlave_iff c _).mpr hreg)).symm
      · intro haim conn hlose
        exact (haim uuid hphase conn ((loses_unregisterSlave_iff c _).mp hlose)).symm
  | unregisterKilled c id uuid hphase =>
      constructor
      · intro hacc id' uuid' hphase' conn hreg
        obtain ⟨rfl, rfl⟩ := ConnPhase.killing.inj (hphase.symm.trans hphase')
        obtain ⟨u, hu⟩ := hacc conn ((loses_unregisterSlave_iff c _).mpr hreg)
        exact (ConnPhase.killing.inj (hphase.symm.trans hu)).1.symm
      · intro haim conn hlose
        refine ⟨uuid, ?_⟩
        rw [haim id uuid hphase conn ((loses_unregisterSlave_iff c _).mp hlose)]
        exact hphase
  | quit c =>
      refine iff_of_true (fun conn hlose => ?_) trivial
      rcases hlose with ⟨u, hu, hgone⟩ | ⟨-, hopen, hclose⟩
      · exact absurd hu hgone
      · exact ((Finset.mem_insert.mp hclose).resolve_right hopen).symm
  | stop => exact iff_of_true (fun _ _ => trivial) trivial

/-! ## Orderly registrations -/

/-- What is on its way is meant for the connection under the UUID. -/
structure OnTarget (s : SlaveRegistry) : Prop where
  dump : ∀ c uuid, s.phase c = .dumping uuid →
    ∀ conn, s.slaves.lookup uuid = some conn → conn = c
  kill : ∀ c id uuid, s.phase c = .killing id uuid →
    ∀ conn, s.slaves.lookup uuid = some conn → connectionID conn = id

/-- A connection that goes on is on target if what it goes on with is. -/
theorem OnTarget.goto (h : s.OnTarget) {c : Nat} {phase : ConnPhase}
    (hdump : ∀ uuid, phase = .dumping uuid →
      ∀ conn, s.slaves.lookup uuid = some conn → conn = c)
    (hkill : ∀ id uuid, phase = .killing id uuid →
      ∀ conn, s.slaves.lookup uuid = some conn → connectionID conn = id) :
    (s.goto c phase).OnTarget := by
  constructor
  · intro d uuid hphase
    change (if d = c then phase else s.phase d) = _ at hphase
    split at hphase
    · rename_i hd
      exact hd ▸ hdump uuid hphase
    · exact h.dump d uuid hphase
  · intro d id uuid hphase
    change (if d = c then phase else s.phase d) = _ at hphase
    split at hphase
    · exact hkill id uuid hphase
    · exact h.kill d id uuid hphase

/-- What is removed is nobody's target any more. -/
theorem OnTarget.unregisterSlave (h : s.OnTarget) (uuid : String) :
    (s.unregisterSlave uuid).OnTarget := by
  have hsub : ∀ u conn, (s.unregisterSlave uuid).slaves.lookup u = some conn →
      s.slaves.lookup u = some conn := by
    intro u conn hreg
    unfold SlaveRegistry.unregisterSlave at hreg
    split at hreg
    · by_cases hu : u = uuid
      · rw [hu, Finmap.lookup_erase] at hreg
        cases hreg
      · rwa [Finmap.lookup_erase_ne hu] at hreg
    · exact hreg
  have hphase : (s.unregisterSlave uuid).phase = s.phase := by
    unfold SlaveRegistry.unregisterSlave
    split <;> rfl
  exact ⟨fun c u hc conn hreg => h.dump c u (hphase ▸ hc) conn (hsub u conn hreg),
    fun c id u hc conn hreg => h.kill c id u (hphase ▸ hc) conn (hsub u conn hreg)⟩

end SlaveRegistry

/-- **In any interleaving, registrations are taken for good reasons only, exactly when every
step that unregisters finds the connection it is meant for, or none, under the UUID.** -/
theorem removals_accounted_iff (actions : List RegistryAction) :
    (∀ pre a post s t, actions = pre ++ a :: post →
      Runs.exec SlaveRegistry.step .start pre = some s → s.step a = some t → s.Accounted a t) ↔
    ∀ pre a post s t, actions = pre ++ a :: post →
      Runs.exec SlaveRegistry.step .start pre = some s → s.step a = some t → s.Aimed a := by
  constructor
  · intro hacc pre a post s t hsplit hpre hstep
    exact (SlaveRegistry.accounted_iff_aimed hstep).mp (hacc pre a post s t hsplit hpre hstep)
  · intro haim pre a post s t hsplit hpre hstep
    exact (SlaveRegistry.accounted_iff_aimed hstep).mpr (haim pre a post s t hsplit hpre hstep)

/-- Two connections of one slave up to the second registration. -/
def reconnect : List RegistryAction :=
  [.setUUID 0 "u", .lookForZombie 0, .registerSlave 0, .startDump 0,
    .setUUID 1 "u", .lookForZombie 1, .unregisterZombie 1, .registerSlave 1, .startDump 1]

/-- The exit of the first dump closes the second connection and takes its registration. -/
theorem exit_removes_successor :
    ((Runs.exec SlaveRegistry.step .start reconnect).map fun s =>
      (s.slaves.lookup "u", decide (1 ∈ s.closed))) = some (some 1, false) ∧
    ((Runs.exec SlaveRegistry.step .start (reconnect ++ [.exitDump 0])).map fun s =>
      (s.slaves.lookup "u", decide (1 ∈ s.closed))) = some (none, true) := by
  decide +kernel

end Kingbus
