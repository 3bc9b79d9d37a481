import Mathlib.Data.Finmap
import Mathlib.Data.Finset.Basic

/-! # Membership of the raft cluster

`RaftCluster` (`raft/membership/cluster.go`) and `applyConfChange` (`server/apply.go`).  A
change is validated against the *stored* cluster, but what is stored is all of the map in
memory, and that map is filled from the configuration before anything is applied.  The
first change that is accepted stores the whole map; from then on the other members of it
exist, and their `AddNode` entries are rejected.

* `RaftNode.applyConfChange` is one change on one node, `RaftNode.restart` what a node comes
  back with.
* Members and voters change together (`RaftNode.voters_eq_ids`).
* What an accepted change is: `RaftCluster.validate_addNode_ok` and the two beside it.

Changes are as the servers propose them: the `NodeID` is that of the member in the context,
so the two `Fatalf` of `applyConfChange` on different ids are never reached. -/

namespace Kingbus

/-- `etcdraft.None`. -/
def raftNone : Nat := 0

/-- `Member`.  No member has the id `None` (`NewClusterFromURLsMap` refuses it). -/
structure Member where
  id : Nat
  peerURLs : List String
  name : String
  adminURLs : List String
  id_ne : id ≠ raftNone := by decide
  deriving DecidableEq

/-- `map[types.ID]*Member`. -/
abbrev MembersMap := Finmap fun _ : Nat => Member

/-- `RaftCluster`.  A member is filed under its own id. -/
structure RaftCluster where
  membersMap : MembersMap
  removedMap : Finset Nat
  filed : ∀ id m, membersMap.lookup id = some m → m.id = id
  deriving DecidableEq

/-- `raftpb.ConfChange`. -/
inductive ConfChange where
  | addNode (m : Member)
  | removeNode (id : Nat)
  | updateNode (m : Member)
  deriving DecidableEq

/-- `NodeID` of a change. -/
def ConfChange.nodeID : ConfChange → Nat
  | addNode m => m.id
  | removeNode id => id
  | updateNode m => m.id

/-- The errors of `ValidateConfigurationChange`. -/
inductive ConfChangeError where
  | idRemoved
  | idExists
  | peerURLExists
  | idNotFound
  deriving DecidableEq

/-! ## The cluster -/

namespace RaftCluster

/-- `NewCluster`. -/
def newCluster : RaftCluster :=
  ⟨∅, ∅, fun id _ h => absurd h (by rw [Finmap.lookup_empty]; exact nofun)⟩

theorem lookup_newCluster (id : Nat) : newCluster.membersMap.lookup id = none :=
  Finmap.lookup_empty id

/-- One of the URLs is that of a member, the one with the id `skip` apart. -/
def TakesURL (c : RaftCluster) (skip : Option Nat) (urls : List String) : Prop :=
  ∃ id ∈ c.membersMap.keys, ∃ m ∈ c.membersMap.lookup id,
    some m.id ≠ skip ∧ ∃ u ∈ urls, u ∈ m.peerURLs

instance (c : RaftCluster) (skip : Option Nat) (urls : List String) :
    Decidable (c.TakesURL skip urls) := inferInstanceAs (Decidable (∃ id ∈ _, _))

/-- `ValidateConfigurationChange`, against the cluster that `membersFromStore` returns. -/
def validateConfigurationChange (c : RaftCluster) (cc : ConfChange) :
    Except ConfChangeError Unit :=
  if cc.nodeID ∈ c.removedMap then .error .idRemoved
  else
    match cc with
    | .addNode m =>
        if m.id ∈ c.membersMap then .error .idExists
        else if c.TakesURL none m.peerURLs then .error .peerURLExists
        else .ok ()
    | .removeNode id => if id ∈ c.membersMap then .ok () else .error .idNotFound
    | .updateNode m =>
        if m.id ∈ c.membersMap then
          if c.TakesURL (some m.id) m.peerURLs then .error .peerURLExists else .ok ()
        else .error .idNotFound

/-- A member under its own id keeps the map filed. -/
theorem filed_insert (c : RaftCluster) (m : Member) (id : Nat) (m' : Member)
    (h : (c.membersMap.insert m.id m).lookup id = some m') : m'.id = id := by
  by_cases hid : id = m.id
  · subst hid
    rw [Finmap.lookup_insert] at h
    cases h
    rfl
  · rw [Finmap.lookup_insert_of_ne _ hid] at h
    exact c.filed id m' h

theorem filed_erase (c : RaftCluster) (gone id : Nat) (m : Member)
    (h : (c.membersMap.erase gone).lookup id = some m) : m.id = id := by
  by_cases hid : id = gone
  · subst hid
    rw [Finmap.lookup_erase] at h
    cases h
  · rw [Finmap.lookup_erase_ne hid] at h
    exact c.filed id m h

/-- `AddMember`, up to the saving. -/
def addMember (c : RaftCluster) (m : Member) : RaftCluster :=
  ⟨c.membersMap.insert m.id m, c.removedMap, c.filed_insert m⟩

/-- `RemoveMember`. -/
def removeMember (c : RaftCluster) (id : Nat) : RaftCluster :=
  ⟨c.membersMap.erase id, insert id c.removedMap, c.filed_erase id⟩

/-- `UpdateRaftAttributes`.  A member that is not in the map would be a nil dereference; an
accepted change is one of a member (`RaftNode.lookup_of_accepted_update`). -/
def updateRaftAttributes (c : RaftCluster) (id : Nat) (peerURLs : List String) : RaftCluster :=
  match c.membersMap.lookup id with
  | some m => c.addMember { m with peerURLs := peerURLs }
  | none => c

/-- What an accepted change does to the cluster. -/
def applyChange (c : RaftCluster) : ConfChange → RaftCluster
  | .addNode m => c.addMember m
  | .removeNode id => c.removeMember id
  | .updateNode m => c.updateRaftAttributes m.id m.peerURLs

theorem ext {c d : RaftCluster} (hm : ∀ id, c.membersMap.lookup id = d.membersMap.lookup id)
    (hr : c.removedMap = d.removedMap) : c = d := by
  obtain ⟨cm, cr, cf⟩ := c
  obtain ⟨dm, dr, df⟩ := d
  obtain rfl : cm = dm := Finmap.ext_lookup hm
  obtain rfl : cr = dr := hr
  rfl

variable {c : RaftCluster} {m : Member} {id : Nat}

theorem lookup_addMember_self : (c.addMember m).membersMap.lookup m.id = some m :=
  Finmap.lookup_insert _

theorem lookup_addMember_ne (h : id ≠ m.id) :
    (c.addMember m).membersMap.lookup id = c.membersMap.lookup id :=
  Finmap.lookup_insert_of_ne _ h

theorem keys_addMember : (c.addMember m).membersMap.keys = insert m.id c.membersMap.keys := by
  ext id
  rw [Finset.mem_insert, Finmap.mem_keys, Finmap.mem_keys, addMember, Finmap.mem_insert]

/-- The map does not change when a member is set to what it is. -/
theorem addMember_of_lookup (h : c.membersMap.lookup m.id = some m) : c.addMember m = c := by
  refine ext (fun id => ?_) rfl
  by_cases hid : id = m.id
  · rw [hid, lookup_addMember_self, h]
  · rw [lookup_addMember_ne hid]

theorem updateRaftAttributes_of_lookup (h : c.membersMap.lookup id = some m) (urls : List String) :
    c.updateRaftAttributes id urls = c.addMember { m with peerURLs := urls } := by
  rw [updateRaftAttributes, h]

/-- An update keeps the ids. -/
theorem keys_updateRaftAttributes (c : RaftCluster) (id : Nat) (urls : List String) :
    (c.updateRaftAttributes id urls).membersMap.keys = c.membersMap.keys := by
  cases h : c.membersMap.lookup id with
  | none => rw [updateRaftAttributes, h]
  | some m =>
      rw [updateRaftAttributes_of_lookup h, keys_addMember]
      refine Finset.insert_eq_of_mem (Finmap.mem_keys.mpr (Finmap.mem_iff.mpr ⟨m, ?_⟩))
      rw [c.filed id m h]
      exact h

/-! ## What is accepted -/

theorem validate_addNode_ok : c.validateConfigurationChange (.addNode m) = .ok () ↔
    m.id ∉ c.removedMap ∧ m.id ∉ c.membersMap ∧ ¬ c.TakesURL none m.peerURLs := by
  by_cases hr : m.id ∈ c.removedMap
  · simp [validateConfigurationChange, ConfChange.nodeID, hr]
  by_cases hm : m.id ∈ c.membersMap
  · simp [validateConfigurationChange, ConfChange.nodeID, hr, hm]
  by_cases hu : c.TakesURL none m.peerURLs <;>
    simp [validateConfigurationChange, ConfChange.nodeID, hr, hm, hu]

theorem validate_removeNode_ok : c.validateConfigurationChange (.removeNode id) = .ok () ↔
    id ∉ c.removedMap ∧ id ∈ c.membersMap := by
  by_cases hr : id ∈ c.removedMap
  · simp [validateConfigurationChange, ConfChange.nodeID, hr]
  by_cases hm : id ∈ c.membersMap <;>
    simp [validateConfigurationChange, ConfChange.nodeID, hr, hm]

theorem validate_updateNode_ok : c.validateConfigurationChange (.updateNode m) = .ok () ↔
    m.id ∉ c.removedMap ∧ m.id ∈ c.membersMap ∧ ¬ c.TakesURL (some m.id) m.peerURLs := by
  by_cases hr : m.id ∈ c.removedMap
  · simp [validateConfigurationChange, ConfChange.nodeID, hr]
  by_cases hm : m.id ∈ c.membersMap
  · by_cases hu : c.TakesURL (some m.id) m.peerURLs <;>
      simp [validateConfigurationChange, ConfChange.nodeID, hr, hm, hu]
  · simp [validateConfigurationChange, ConfChange.nodeID, hr, hm]

/-- No member has the id `None`. -/
theorem ne_none_of_mem (h : id ∈ c.membersMap) : id ≠ raftNone := by
  obtain ⟨m, hm⟩ := Finmap.mem_iff.mp h
  rw [← c.filed id m hm]
  exact m.id_ne

end RaftCluster

/-- `ApplyConfChange` of the raft library, on the voters. -/
def applyToVoters (voters : Finset Nat) (nodeID : Nat) (cc : ConfChange) : Finset Nat :=
  if nodeID = raftNone then voters
  else
    match cc with
    | .addNode _ => insert nodeID voters
    | .removeNode _ => voters.erase nodeID
    | .updateNode _ => voters

/-! ## Nodes -/

/-- What a node knows of the membership: the cluster in memory and the stored one, the
voters of its raft library and the stored `ConfState`.  A stored cluster is the one in
memory, and it is stored together with the `ConfState`. -/
structure RaftNode where
  cluster : RaftCluster
  stored : Option RaftCluster
  voters : Finset Nat
  confState : Option (Finset Nat)
  saved : stored = none ∨ stored = some cluster ∧ confState = some voters
  deriving DecidableEq

namespace RaftNode

/-- `membersFromStore`. -/
def membersFromStore (s : RaftNode) : RaftCluster := s.stored.getD .newCluster

/-- The verdict on a change. -/
def validate (s : RaftNode) (cc : ConfChange) : Except ConfChangeError Unit :=
  s.membersFromStore.validateConfigurationChange cc

/-- `applyConfChange`: a rejected change goes to the raft library with `NodeID` `None`, and
`saveConfState` is called in either case. -/
def applyConfChange (s : RaftNode) (cc : ConfChange) : RaftNode :=
  match s.validate cc with
  | .error _ =>
      { s with
        voters := applyToVoters s.voters raftNone cc
        confState := some (applyToVoters s.voters raftNone cc)
        saved := s.saved.imp_right fun h => ⟨h.1, rfl⟩ }
  | .ok () =>
      { cluster := s.cluster.applyChange cc
        stored := some (s.cluster.applyChange cc)
        voters := applyToVoters s.voters cc.nodeID cc
        confState := some (applyToVoters s.voters cc.nodeID cc)
        saved := .inr ⟨rfl, rfl⟩ }

/-- Changes applied one after the other. -/
def applyConfChanges (s : RaftNode) (ccs : List ConfChange) : RaftNode :=
  ccs.foldl applyConfChange s

/-- The ids of the members in memory. -/
def ids (s : RaftNode) : Finset Nat := s.cluster.membersMap.keys

/-- `restartEtcdNode` of the node with the name: the stored cluster and `ConfState`.  `none`
is a node that does not come up, since nothing is stored or not exactly one member has its
name. -/
def restart (s : RaftNode) (name : String) : Option RaftNode :=
  match s.stored with
  | none => none
  | some c =>
      if (c.membersMap.keys.filter fun id => (c.membersMap.lookup id).any (·.name = name)).card = 1
      then
        some
          { cluster := c
            stored := some c
            voters := s.confState.getD ∅
            confState := some (s.confState.getD ∅)
            saved := .inr ⟨rfl, rfl⟩ }
      else none

/-! ## What a change does -/

variable {s : RaftNode} {cc : ConfChange}

theorem ext {s t : RaftNode} (hcluster : s.cluster = t.cluster) (hstored : s.stored = t.stored)
    (hvoters : s.voters = t.voters) (hconf : s.confState = t.confState) : s = t := by
  cases s
  cases t
  cases hcluster
  cases hstored
  cases hvoters
  cases hconf
  rfl

theorem validate_cases (s : RaftNode) (cc : ConfChange) :
    s.validate cc = .ok () ∨ ∃ err, s.validate cc = .error err := by
  cases h : s.validate cc with
  | ok u => exact .inl rfl
  | error err => exact .inr ⟨err, rfl⟩

theorem applyConfChanges_append (s : RaftNode) (ccs ccs' : List ConfChange) :
    s.applyConfChanges (ccs ++ ccs') = (s.applyConfChanges ccs).applyConfChanges ccs' :=
  List.foldl_append

/-- What every change keeps, a list of changes keeps. -/
theorem applyConfChanges_invariant {I : RaftNode → Prop}
    (hstep : ∀ {s} cc, I s → I (s.applyConfChange cc)) {s : RaftNode} (h : I s)
    (ccs : List ConfChange) : I (s.applyConfChanges ccs) := by
  induction ccs generalizing s with
  | nil => exact h
  | cons cc ccs ih => exact ih (hstep cc h)

section Rejected

variable {err : ConfChangeError} (h : s.validate cc = .error err)
include h

theorem cluster_of_rejected : (s.applyConfChange cc).cluster = s.cluster := by
  rw [applyConfChange, h]

theorem stored_of_rejected : (s.applyConfChange cc).stored = s.stored := by
  rw [applyConfChange, h]

theorem voters_of_rejected : (s.applyConfChange cc).voters = s.voters := by
  rw [applyConfChange, h]
  rfl

/-- A rejected change changes nothing on a node that has its cluster stored. -/
theorem applyConfChange_rejected (hs : s.stored ≠ none) : s.applyConfChange cc = s := by
  obtain ⟨-, hconf⟩ := s.saved.resolve_left hs
  refine ext (cluster_of_rejected h) (stored_of_rejected h) (voters_of_rejected h) ?_
  rw [applyConfChange, h, hconf]
  rfl

end Rejected

section Accepted

variable (h : s.validate cc = .ok ())
include h

theorem cluster_of_accepted : (s.applyConfChange cc).cluster = s.cluster.applyChange cc := by
  rw [applyConfChange, h]

theorem stored_of_accepted : (s.applyConfChange cc).stored = some (s.cluster.applyChange cc) := by
  rw [applyConfChange, h]

theorem voters_of_accepted :
    (s.applyConfChange cc).voters = applyToVoters s.voters cc.nodeID cc := by
  rw [applyConfChange, h]

end Accepted

/-- The cluster that a change is validated against has members in memory only. -/
theorem mem_of_mem_stored {id : Nat} (h : id ∈ s.membersFromStore.membersMap) :
    id ∈ s.cluster.membersMap := by
  rw [membersFromStore] at h
  rcases s.saved with hs | ⟨hs, -⟩
  · rw [hs] at h
    exact absurd h Finmap.notMem_empty
  · rwa [hs] at h

/-- An accepted update finds its member. -/
theorem lookup_of_accepted_update {m : Member} (h : s.validate (.updateNode m) = .ok ()) :
    ∃ old, s.cluster.membersMap.lookup m.id = some old :=
  Finmap.mem_iff.mp (mem_of_mem_stored (RaftCluster.validate_updateNode_ok.mp h).2.1)

/-- An accepted change is not about the id `None`. -/
theorem nodeID_ne_none (h : s.validate cc = .ok ()) : cc.nodeID ≠ raftNone := by
  cases cc with
  | addNode m => exact m.id_ne
  | removeNode id => exact RaftCluster.ne_none_of_mem (RaftCluster.validate_removeNode_ok.mp h).2
  | updateNode m => exact m.id_ne

/-- **Members and voters change together.** -/
theorem voters_eq_ids (h : s.voters = s.ids) (cc : ConfChange) :
    (s.applyConfChange cc).voters = (s.applyConfChange cc).ids := by
  rcases s.validate_cases cc with hok | ⟨err, herr⟩
  · rw [ids, voters_of_accepted hok, cluster_of_accepted hok, h, ids]
    unfold applyToVoters
    rw [if_neg (nodeID_ne_none hok)]
    cases cc with
    | addNode m => exact RaftCluster.keys_addMember.symm
    | removeNode id => exact (Finmap.keys_erase id _).symm
    | updateNode m => exact (RaftCluster.keys_updateRaftAttributes _ _ _).symm
  · rw [ids, voters_of_rejected herr, cluster_of_rejected herr]
    exact h

/-! ## What is never forgotten -/

/-- The id is that of a member or of a removed one. -/
def Known (s : RaftNode) (id : Nat) : Prop :=
  id ∈ s.cluster.membersMap ∨ id ∈ s.cluster.removedMap

/-- A removed id stays removed. -/
theorem removed_mono {id : Nat} (h : id ∈ s.cluster.removedMap) (cc : ConfChange) :
    id ∈ (s.applyConfChange cc).cluster.removedMap := by
  rcases s.validate_cases cc with hok | ⟨err, herr⟩
  · rw [cluster_of_accepted hok]
    cases cc with
    | addNode m => exact h
    | removeNode gone => exact Finset.mem_insert_of_mem h
    | updateNode m =>
        obtain ⟨old, hold⟩ := lookup_of_accepted_update hok
        rw [RaftCluster.applyChange, RaftCluster.updateRaftAttributes_of_lookup hold]
        exact h
  · rwa [cluster_of_rejected herr]

/-- **An id that is known stays known**: it leaves the members only for the removed ones. -/
theorem known_mono {id : Nat} (h : s.Known id) (cc : ConfChange) :
    (s.applyConfChange cc).Known id := by
  rcases h with h | h
  · rcases s.validate_cases cc with hok | ⟨err, herr⟩
    · rw [Known, cluster_of_accepted hok]
      cases cc with
      | addNode m => exact .inl (Finmap.mem_insert.mpr (.inr h))
      | removeNode gone =>
          by_cases hid : id = gone
          · exact .inr (hid ▸ Finset.mem_insert_self _ _)
          · exact .inl (Finmap.mem_erase.mpr ⟨hid, h⟩)
      | updateNode m =>
          refine .inl (Finmap.mem_keys.mp ?_)
          rw [RaftCluster.applyChange, RaftCluster.keys_updateRaftAttributes]
          exact Finmap.mem_keys.mpr h
    · rw [Known, cluster_of_rejected herr]
      exact .inl h
  · exact .inr (removed_mono h cc)

end RaftNode
end Kingbus
