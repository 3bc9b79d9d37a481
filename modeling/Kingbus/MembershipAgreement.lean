import Kingbus.Membership
import Mathlib.Data.List.Nodup
import Mathlib.Data.Finset.Dedup

/-! # Founding and joining nodes

A founding node starts with the founders as members and as voters (`etcdraft.StartNode`
with the peers), a joining node with the current member list and no voters (`StartNode`
with none).  Both then apply the committed changes from the first one on, and the first
ones are the `AddNode` of the founders.

On the founding node the first `AddNode` stores all founders and the others are rejected,
which is harmless, since they are voters already (`founding_adds`).  On the joining node
the first `AddNode` stores the whole member list, and every other member of the list stays
without a vote on that node (`shutOut_run`).  So the two agree exactly when the list has no
member besides the founder who is added first (`nodes_agree_iff`).

A node that joins has itself on the list (`hasLocalMember`) and at least one more member, whom
it asks for the cluster (`GetClusterFromRemotePeers`).  A list of two members never meets the
condition (`two_members_disagree`). -/

namespace Kingbus

namespace RaftCluster

/-- The cluster filled with the members one after the other. -/
def ofMembers (ms : List Member) : RaftCluster := ms.foldl addMember newCluster

theorem ofMembers_concat (ms : List Member) (m : Member) :
    ofMembers (ms ++ [m]) = (ofMembers ms).addMember m :=
  List.foldl_concat ..

theorem removedMap_ofMembers (ms : List Member) : (ofMembers ms).removedMap = ∅ := by
  induction ms using List.reverseRecOn with
  | nil => rfl
  | append_singleton ms m ih => rwa [ofMembers_concat]

theorem keys_ofMembers (ms : List Member) :
    (ofMembers ms).membersMap.keys = (ms.map Member.id).toFinset := by
  induction ms using List.reverseRecOn with
  | nil => rfl
  | append_singleton ms m ih =>
      ext id
      rw [ofMembers_concat, keys_addMember, ih, Finset.mem_insert, List.mem_toFinset,
        List.mem_toFinset, List.map_append, List.mem_append, or_comm]
      exact or_congr_right List.mem_singleton.symm

theorem mem_of_lookup_ofMembers {ms : List Member} {id : Nat} {m : Member}
    (h : (ofMembers ms).membersMap.lookup id = some m) : m ∈ ms := by
  induction ms using List.reverseRecOn with
  | nil => exact absurd (h.symm.trans (lookup_newCluster id)) (Option.some_ne_none m)
  | append_singleton ms last ih =>
      rw [ofMembers_concat] at h
      by_cases hid : id = last.id
      · rw [hid, lookup_addMember_self] at h
        cases h
        exact List.mem_concat_self
      · rw [lookup_addMember_ne hid] at h
        exact List.mem_append_left _ (ih h)

/-- With different ids every member of the list is found. -/
theorem lookup_ofMembers {ms : List Member} (hnodup : (ms.map Member.id).Nodup) {m : Member}
    (h : m ∈ ms) : (ofMembers ms).membersMap.lookup m.id = some m := by
  have hkey : m.id ∈ (ofMembers ms).membersMap := by
    rw [← Finmap.mem_keys, keys_ofMembers, List.mem_toFinset]
    exact List.mem_map_of_mem h
  obtain ⟨m', hm'⟩ := Finmap.mem_iff.mp hkey
  have hid : m'.id = m.id := (ofMembers ms).filed m.id m' hm'
  have heq : m' = m := List.inj_on_of_nodup_map hnodup (mem_of_lookup_ofMembers hm') h hid
  rw [hm', heq]

end RaftCluster

/-- The initial cluster of a new cluster: not empty, with different ids
(`NewClusterFromURLsMap`) and no URL used twice (`checkDuplicateURL`).  The order is that
of their `AddNode` entries. -/
structure Founders where
  first : Member
  others : List Member
  ids_nodup : ((first :: others).map Member.id).Nodup
  urls_disjoint : (first :: others).Pairwise fun m m' => ∀ u ∈ m.peerURLs, u ∉ m'.peerURLs

namespace Founders

/-- All founders. -/
def members (f : Founders) : List Member := f.first :: f.others

/-- The committed changes: the founders, then any others. -/
def committed (f : Founders) (later : List ConfChange) : List ConfChange :=
  f.members.map .addNode ++ later

end Founders

/-- A node of a new cluster. -/
def foundingNode (f : Founders) : RaftNode where
  cluster := .ofMembers f.members
  stored := none
  voters := (f.members.map Member.id).toFinset
  confState := none
  saved := .inl rfl

/-- A node that joins a cluster with the members. -/
def joiningNode (current : RaftCluster) : RaftNode where
  cluster := ⟨current.membersMap, ∅, current.filed⟩
  stored := none
  voters := ∅
  confState := none
  saved := .inl rfl

/-! ## The founders' entries -/

/-- A node that has the members stored, all of them voters. -/
def settledNode (ms : List Member) : RaftNode where
  cluster := .ofMembers ms
  stored := some (.ofMembers ms)
  voters := (ms.map Member.id).toFinset
  confState := some (ms.map Member.id).toFinset
  saved := .inr ⟨rfl, rfl⟩

/-- While nothing is stored every member is accepted. -/
theorem RaftNode.accepts_first {s : RaftNode} (h : s.stored = none) (m : Member) :
    s.validate (.addNode m) = .ok () := by
  rw [validate, membersFromStore, h]
  refine RaftCluster.validate_addNode_ok.mpr
    ⟨Finset.notMem_empty _, Finmap.notMem_empty, ?_⟩
  rintro ⟨id, hid, -⟩
  exact absurd hid (Finset.notMem_empty id)

/-- What an accepted `AddNode` leaves. -/
theorem RaftNode.applyConfChange_addNode {s : RaftNode} {ms : List Member} {m : Member}
    (h : s.validate (.addNode m) = .ok ()) (hcluster : s.cluster.addMember m = .ofMembers ms)
    (hvoters : insert m.id s.voters = (ms.map Member.id).toFinset) :
    s.applyConfChange (.addNode m) = settledNode ms := by
  have hv : applyToVoters s.voters m.id (.addNode m) = (ms.map Member.id).toFinset := by
    rw [applyToVoters, if_neg m.id_ne, hvoters]
  rw [applyConfChange, h]
  exact ext hcluster (congrArg some hcluster) hv (congrArg some hv)

theorem founding_first (f : Founders) :
    (foundingNode f).applyConfChange (.addNode f.first) = settledNode f.members := by
  refine RaftNode.applyConfChange_addNode (RaftNode.accepts_first rfl f.first) ?_ ?_
  · exact RaftCluster.addMember_of_lookup
      (RaftCluster.lookup_ofMembers f.ids_nodup List.mem_cons_self)
  · exact Finset.insert_eq_of_mem (List.mem_toFinset.mpr List.mem_cons_self)

/-- A member that is there already is rejected. -/
theorem settled_again {ms : List Member} {m : Member} (h : m ∈ ms) :
    (settledNode ms).applyConfChange (.addNode m) = settledNode ms := by
  rcases (settledNode ms).validate_cases (.addNode m) with hok | ⟨err, herr⟩
  · refine absurd ?_ (RaftCluster.validate_addNode_ok.mp hok).2.1
    change m.id ∈ (RaftCluster.ofMembers ms).membersMap
    rw [← Finmap.mem_keys, RaftCluster.keys_ofMembers, List.mem_toFinset]
    exact List.mem_map_of_mem h
  · exact RaftNode.applyConfChange_rejected herr (Option.some_ne_none _)

/-- **On a founding node the founders' entries leave the founders.** -/
theorem founding_adds (f : Founders) {adds : List Member} (h : ∀ m ∈ adds, m ∈ f.members) :
    (foundingNode f).applyConfChanges ((f.first :: adds).map .addNode) =
      settledNode f.members := by
  induction adds using List.reverseRecOn with
  | nil => exact founding_first f
  | append_singleton adds m ih =>
      have hadds : ∀ m ∈ adds, m ∈ f.members := fun m hm => h m (List.mem_append_left _ hm)
      rw [← List.cons_append, List.map_append, RaftNode.applyConfChanges_append, ih hadds]
      exact settled_again (h m List.mem_concat_self)

/-- A new member with new URLs is accepted. -/
theorem settled_add {ms : List Member} {m : Member} (hid : m.id ∉ ms.map Member.id)
    (hurls : ∀ m' ∈ ms, ∀ u ∈ m'.peerURLs, u ∉ m.peerURLs) :
    (settledNode ms).applyConfChange (.addNode m) = settledNode (ms ++ [m]) := by
  refine RaftNode.applyConfChange_addNode ?_ (RaftCluster.ofMembers_concat ms m).symm ?_
  · refine RaftCluster.validate_addNode_ok.mpr ⟨?_, ?_, ?_⟩
    · change m.id ∉ (RaftCluster.ofMembers ms).removedMap
      rw [RaftCluster.removedMap_ofMembers]
      exact Finset.notMem_empty _
    · change m.id ∉ (RaftCluster.ofMembers ms).membersMap
      rwa [← Finmap.mem_keys, RaftCluster.keys_ofMembers, List.mem_toFinset]
    · rintro ⟨id, -, m', hm', -, u, hu, hu'⟩
      exact hurls m' (RaftCluster.mem_of_lookup_ofMembers hm') u hu' hu
  · rw [← RaftCluster.keys_ofMembers, RaftCluster.ofMembers_concat, RaftCluster.keys_addMember,
      RaftCluster.keys_ofMembers]
    rfl

section Joining

variable {f : Founders} {current : RaftCluster}

theorem joining_first (h : ∀ id ∈ current.membersMap, id = f.first.id) :
    (joiningNode current).applyConfChange (.addNode f.first) = settledNode [f.first] := by
  refine RaftNode.applyConfChange_addNode (RaftNode.accepts_first rfl f.first) ?_ rfl
  refine RaftCluster.ext (fun id => ?_) rfl
  by_cases hid : id = f.first.id
  · rw [hid, RaftCluster.lookup_addMember_self]
    exact (RaftCluster.lookup_addMember_self).symm
  · rw [RaftCluster.lookup_addMember_ne hid]
    have hnone : current.membersMap.lookup id = none :=
      Finmap.lookup_eq_none.mpr fun hmem => hid (h id hmem)
    refine hnone.trans (Eq.symm ?_)
    exact (RaftCluster.lookup_addMember_ne hid).trans (RaftCluster.lookup_newCluster id)

/-- **A joining node that knows at most the first founder adds all of them.** -/
theorem joining_adds (h : ∀ id ∈ current.membersMap, id = f.first.id) {adds : List Member}
    (hpre : f.first :: adds <+: f.members) :
    (joiningNode current).applyConfChanges ((f.first :: adds).map .addNode) =
      settledNode (f.first :: adds) := by
  induction adds using List.reverseRecOn with
  | nil => exact joining_first h
  | append_singleton adds m ih =>
      rw [← List.cons_append] at hpre ⊢
      have hids := f.ids_nodup.sublist (hpre.sublist.map Member.id)
      have hurls := f.urls_disjoint.sublist hpre.sublist
      rw [List.map_append, RaftNode.applyConfChanges_append,
        ih ((List.prefix_append _ _).trans hpre)]
      rw [List.map_append, List.nodup_append] at hids
      rw [List.pairwise_append] at hurls
      refine settled_add (fun hmem => hids.2.2 _ hmem _ (List.mem_singleton_self _) rfl) ?_
      exact fun m' hm' => hurls.2.2 m' hm' m (List.mem_singleton_self m)

end Joining

/-! ## Who gets no vote -/

/-- The id is known to the node, which has its cluster stored, and has no vote. -/
structure RaftNode.ShutOut (s : RaftNode) (id : Nat) : Prop where
  stored : s.stored = some s.cluster
  known : s.Known id
  no_vote : id ∉ s.voters

/-- Who is known is not added, and so gets no vote any more. -/
theorem RaftNode.shutOut_step {s : RaftNode} {id : Nat} (h : s.ShutOut id) (cc : ConfChange) :
    (s.applyConfChange cc).ShutOut id := by
  rcases s.validate_cases cc with hok | ⟨err, herr⟩
  · refine ⟨?_, known_mono h.known cc, ?_⟩
    · rw [stored_of_accepted hok, cluster_of_accepted hok]
    · rw [voters_of_accepted hok]
      unfold applyToVoters
      rw [if_neg (nodeID_ne_none hok)]
      cases cc with
      | addNode m =>
          rw [validate, membersFromStore, h.stored] at hok
          obtain ⟨hr, hm, -⟩ := RaftCluster.validate_addNode_ok.mp hok
          refine Finset.mem_insert.not.mpr (not_or.mpr ⟨?_, h.no_vote⟩)
          rintro rfl
          exact h.known.elim hm hr
      | removeNode gone => exact fun hmem => h.no_vote (Finset.mem_of_mem_erase hmem)
      | updateNode m => exact h.no_vote
  · rw [applyConfChange_rejected herr (by rw [h.stored]; exact Option.some_ne_none _)]
    exact h

theorem RaftNode.shutOut_run {s : RaftNode} {id : Nat} (h : s.ShutOut id) (ccs : List ConfChange) :
    (s.applyConfChanges ccs).ShutOut id :=
  applyConfChanges_invariant (I := fun s => s.ShutOut id) (fun cc h => shutOut_step h cc) h ccs

/-- A member of the list other than the first founder is shut out by the first entry. -/
theorem joining_shutOut (f : Founders) {current : RaftCluster} {id : Nat}
    (h : id ∈ current.membersMap) (hne : id ≠ f.first.id) :
    ((joiningNode current).applyConfChange (.addNode f.first)).ShutOut id := by
  have hok : (joiningNode current).validate (.addNode f.first) = .ok () :=
    RaftNode.accepts_first rfl f.first
  refine ⟨?_, RaftNode.known_mono (.inl h) _, ?_⟩
  · rw [RaftNode.stored_of_accepted hok, RaftNode.cluster_of_accepted hok]
  · rw [RaftNode.voters_of_accepted hok]
    change id ∉ applyToVoters ∅ f.first.id (.addNode f.first)
    rw [applyToVoters, if_neg f.first.id_ne]
    exact fun hmem => hne (Finset.mem_singleton.mp hmem)

/-! ## Agreement -/

theorem RaftNode.voters_eq_ids_run {s : RaftNode} (h : s.voters = s.ids) (ccs : List ConfChange) :
    (s.applyConfChanges ccs).voters = (s.applyConfChanges ccs).ids :=
  applyConfChanges_invariant (I := fun s => s.voters = s.ids) (fun cc h => voters_eq_ids h cc) h ccs

theorem founding_voters_eq_ids (f : Founders) : (foundingNode f).voters = (foundingNode f).ids :=
  (RaftCluster.keys_ofMembers f.members).symm

/-- Up to the last founder's entry the members are the founders. -/
theorem founding_ids (f : Founders) (later : List ConfChange) {n : Nat} (h : n ≤ f.members.length) :
    ((foundingNode f).applyConfChanges ((f.committed later).take n)).ids =
      (RaftCluster.ofMembers f.members).membersMap.keys := by
  rw [Founders.committed, List.take_append_of_le_length (by rwa [List.length_map]), ← List.map_take]
  cases n with
  | zero => rfl
  | succ n =>
      have hmem : ∀ m ∈ f.others.take n, m ∈ f.members :=
        fun m hm => List.mem_cons_of_mem _ (List.mem_of_mem_take hm)
      rw [Founders.members, List.take_succ_cons, founding_adds f hmem]
      rfl

/-- The list is that of the founding node also once the founders are all added. -/
theorem exists_ids_eq {f : Founders} {later : List ConfChange} {p : Nat}
    (hp : p ≤ (f.committed later).length) {current : RaftCluster}
    (hcurrent : current.membersMap.keys =
      ((foundingNode f).applyConfChanges ((f.committed later).take p)).ids) :
    ∃ n, p ≤ n ∧ f.members.length ≤ n ∧ n ≤ (f.committed later).length ∧
      ((foundingNode f).applyConfChanges ((f.committed later).take n)).ids =
        current.membersMap.keys := by
  rcases Nat.le_total f.members.length p with hle | hle
  · exact ⟨p, le_refl p, hle, hp, hcurrent.symm⟩
  · refine ⟨f.members.length, hle, le_refl _, ?_, ?_⟩
    · rw [Founders.committed, List.length_append, List.length_map]
      exact Nat.le_add_right _ _
    · rw [hcurrent, founding_ids f later hle, founding_ids f later (le_refl _)]

/-- A listed member other than the founder who is added first has a vote on the founding node at
some point, and none on the joining node from the first change on. -/
theorem vote_of_listed {f : Founders} {later : List ConfChange} {p : Nat}
    (hp : p ≤ (f.committed later).length) {current : RaftCluster}
    (hcurrent : current.membersMap.keys =
      ((foundingNode f).applyConfChanges ((f.committed later).take p)).ids) {id : Nat}
    (hid : id ∈ current.membersMap) (hne : id ≠ f.first.id) :
    (∃ n, p ≤ n ∧ f.members.length ≤ n ∧ n ≤ (f.committed later).length ∧
      id ∈ ((foundingNode f).applyConfChanges ((f.committed later).take n)).voters) ∧
    ∀ n, 1 ≤ n → id ∉ ((joiningNode current).applyConfChanges ((f.committed later).take n)).voters := by
  constructor
  · obtain ⟨n, hpn, hkn, hn, hids⟩ := exists_ids_eq hp hcurrent
    refine ⟨n, hpn, hkn, hn, ?_⟩
    rw [RaftNode.voters_eq_ids_run (founding_voters_eq_ids f), hids]
    exact Finmap.mem_keys.mpr hid
  · intro n hn hvoter
    obtain ⟨k, rfl⟩ := Nat.exists_eq_add_of_le' hn
    exact (RaftNode.shutOut_run (joining_shutOut f hid hne) _).no_vote hvoter

/-- **The voters agree, with each other and with the members, exactly when the joining
node knows no member but the founder who is added first.**  The first `p` changes are those
that its member list reflects. -/
theorem nodes_agree_iff (f : Founders) (later : List ConfChange) (p : Nat)
    (hp : p ≤ (f.committed later).length) (current : RaftCluster)
    (hcurrent : current.membersMap.keys =
      ((foundingNode f).applyConfChanges ((f.committed later).take p)).ids) :
    (∀ n, p ≤ n → f.members.length ≤ n → n ≤ (f.committed later).length →
      let founding := (foundingNode f).applyConfChanges ((f.committed later).take n)
      let joining := (joiningNode current).applyConfChanges ((f.committed later).take n)
      joining.voters = founding.voters ∧ founding.voters = founding.ids ∧
        joining.voters = joining.ids) ↔
    ∀ id ∈ current.membersMap, id = f.first.id := by
  constructor
  · intro hagree id hid
    by_contra hne
    obtain ⟨⟨n, hpn, hkn, hn, hvoter⟩, hnone⟩ := vote_of_listed hp hcurrent hid hne
    obtain ⟨hsame, -⟩ := hagree n hpn hkn hn
    refine hnone n (Nat.le_trans ?_ hkn) (hsame ▸ hvoter)
    exact Nat.succ_le_succ (Nat.zero_le _)
  · intro hfirst n _ hkn _
    have hjoin : (joiningNode current).applyConfChanges ((f.committed later).take n) =
        (foundingNode f).applyConfChanges ((f.committed later).take n) := by
      obtain ⟨d, rfl⟩ := Nat.exists_eq_add_of_le hkn
      have htake : (f.committed later).take (f.members.length + d) =
          f.members.map .addNode ++ later.take d := by
        rw [Founders.committed, ← List.length_map ConfChange.addNode, List.take_length_add_append]
      rw [htake, RaftNode.applyConfChanges_append, RaftNode.applyConfChanges_append]
      have hf := founding_adds f fun m (hm : m ∈ f.others) => List.mem_cons_of_mem f.first hm
      have hj := joining_adds hfirst (List.prefix_refl f.members)
      exact congrArg (RaftNode.applyConfChanges · _) (hj.trans hf.symm)
    have hids := RaftNode.voters_eq_ids_run (founding_voters_eq_ids f) ((f.committed later).take n)
    exact ⟨congrArg RaftNode.voters hjoin, hids, by rw [hjoin, hids]⟩

/-- Two members with different ids and URLs. -/
def memberA : Member := ⟨1, ["http://a"], "a", [], by decide⟩

def memberB : Member := ⟨2, ["http://b"], "b", [], by decide⟩

/-- A cluster of one, and a list without the node that joins, which no configuration lets
through. -/
theorem nodes_agree_iff_alone :
    let f : Founders := ⟨memberA, [], by decide, by decide⟩
    let joining := (joiningNode (.ofMembers [memberA])).applyConfChanges
      ((f.committed [.addNode memberB]).take 2)
    joining.voters =
      ((foundingNode f).applyConfChanges ((f.committed [.addNode memberB]).take 2)).voters :=
  ((nodes_agree_iff ⟨memberA, [], by decide, by decide⟩ [.addNode memberB] 1 (by decide)
    (.ofMembers [memberA]) (by decide +kernel)).mpr (by decide +kernel)
      2 (by decide) (by decide) (by decide)).1

/-- Two founders, and a node that joins with the list of both: it has one voter. -/
theorem joining_voters_differ :
    let f : Founders := ⟨memberA, [memberB], by decide, by decide⟩
    let founding := (foundingNode f).applyConfChanges (f.committed [])
    let joining := (joiningNode (.ofMembers [memberA, memberB])).applyConfChanges (f.committed [])
    founding.ids = (RaftCluster.ofMembers [memberA, memberB]).membersMap.keys ∧
      founding.voters = [1, 2].toFinset ∧ joining.ids = [1, 2].toFinset ∧
      joining.voters = [1].toFinset := by
  decide +kernel

end Kingbus
