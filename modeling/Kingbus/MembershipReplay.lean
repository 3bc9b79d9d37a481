import Kingbus.MembershipAgreement

/-! # Replayed configuration changes

The applied index is persisted later than the membership, so a restarted node applies some
changes again, on the cluster that they led to.  Validation does not see that a change was
applied before.  What saves the replay is that ids are never used again: an `AddNode` that
was accepted is rejected as existing or removed, a `RemoveNode` as removed.

Two things are not covered by that.  A change that was rejected for its URLs is accepted in
the replay if the URLs are free by then (`rejected_change_is_accepted`).  And an `UpdateNode`
is accepted again only if no other member has its URLs by then.

* `Settled`: a change that is rejected by the ids alone.
* `settled_or_update`: what a replayed change can be.
* `Replaying`: how far the replay is from the state before the restart; only peer URLs
  differ, and they are those of the last replayed update.
* `last_update_kept`: in the first run the last update of a member is what it ends with. -/

namespace Kingbus

namespace RaftCluster

/-- The ids alone reject the change. -/
def Settled (c : RaftCluster) (cc : ConfChange) : Prop :=
  cc.nodeID ∈ c.removedMap ∨
    match cc with
    | .addNode m => m.id ∈ c.membersMap
    | .removeNode id => id ∉ c.membersMap
    | .updateNode m => m.id ∉ c.membersMap

variable {c : RaftCluster} {cc : ConfChange}

theorem rejected_of_settled (h : c.Settled cc) : c.validateConfigurationChange cc ≠ .ok () := by
  intro hok
  cases cc with
  | addNode m =>
      obtain ⟨hr, hm, -⟩ := validate_addNode_ok.mp hok
      exact h.elim hr hm
  | removeNode id =>
      obtain ⟨hr, hm⟩ := validate_removeNode_ok.mp hok
      exact h.elim hr fun hn => hn hm
  | updateNode m =>
      obtain ⟨hr, hm, -⟩ := validate_updateNode_ok.mp hok
      exact h.elim hr fun hn => hn hm

/-- A change that is rejected, and not for its URLs, is rejected by the ids. -/
theorem settled_of_rejected (hok : c.validateConfigurationChange cc ≠ .ok ())
    (hurl : c.validateConfigurationChange cc ≠ .error .peerURLExists) : c.Settled cc := by
  by_contra hnot
  obtain ⟨hr, hm⟩ := not_or.mp hnot
  unfold validateConfigurationChange at hok hurl
  rw [if_neg hr] at hok hurl
  cases cc with
  | addNode m =>
      simp only [if_neg hm] at hok hurl
      split at hurl
      · exact hurl rfl
      · simp_all
  | removeNode id => exact hok (if_pos (not_not.mp hm))
  | updateNode m =>
      simp only [if_pos (not_not.mp hm)] at hok hurl
      split at hurl
      · exact hurl rfl
      · simp_all

/-- A change leaves the other members alone. -/
theorem lookup_applyChange_ne {id : Nat} (h : id ≠ cc.nodeID) :
    (c.applyChange cc).membersMap.lookup id = c.membersMap.lookup id := by
  cases cc with
  | addNode m => exact lookup_addMember_ne h
  | removeNode gone => exact Finmap.lookup_erase_ne h
  | updateNode m =>
      rw [applyChange]
      cases hm : c.membersMap.lookup m.id with
      | none => rw [updateRaftAttributes, hm]
      | some old =>
          rw [updateRaftAttributes_of_lookup hm]
          exact lookup_addMember_ne fun hid => h (hid.trans (c.filed m.id old hm))

/-- The updated member has the new URLs. -/
theorem lookup_updateRaftAttributes {id : Nat} {m : Member} (h : c.membersMap.lookup id = some m)
    (urls : List String) :
    (c.updateRaftAttributes id urls).membersMap.lookup id = some { m with peerURLs := urls } := by
  rw [updateRaftAttributes_of_lookup h]
  obtain rfl : m.id = id := c.filed id m h
  exact lookup_addMember_self

end RaftCluster

/-! ## URLs in a list of changes -/

/-- The URLs of the last update of the member, if there is one. -/
def lastURLs (ccs : List ConfChange) (id : Nat) (urls : List String) : List String :=
  ccs.foldl (fun urls cc =>
    match cc with
    | .updateNode m => if m.id = id then m.peerURLs else urls
    | _ => urls) urls

/-- All URLs that a member gets by updates. -/
def updateURLs (ccs : List ConfChange) (id : Nat) : List String :=
  ccs.flatMap fun cc =>
    match cc with
    | .updateNode m => if m.id = id then m.peerURLs else []
    | _ => []

section URLs

variable {ccs : List ConfChange} {cc : ConfChange} {id : Nat} {urls : List String}

theorem lastURLs_concat_update {m : Member} (h : m.id = id) :
    lastURLs (ccs ++ [.updateNode m]) id urls = m.peerURLs := by
  rw [lastURLs, List.foldl_concat]
  exact if_pos h

theorem lastURLs_concat_ne (h : ∀ m, cc = .updateNode m → m.id ≠ id) :
    lastURLs (ccs ++ [cc]) id urls = lastURLs ccs id urls := by
  rw [lastURLs, List.foldl_concat]
  cases cc with
  | addNode m => rfl
  | removeNode gone => rfl
  | updateNode m => exact if_neg (h m rfl)

theorem lastURLs_eq (h : ∀ m, .updateNode m ∈ ccs → m.id ≠ id) : lastURLs ccs id urls = urls := by
  induction ccs using List.reverseRecOn with
  | nil => rfl
  | append_singleton ccs cc ih =>
      rw [lastURLs_concat_ne fun m hm => h m (hm ▸ List.mem_concat_self)]
      exact ih fun m hm => h m (List.mem_append_left _ hm)

theorem mem_updateURLs {m : Member} (h : .updateNode m ∈ ccs) {u : String} (hu : u ∈ m.peerURLs) :
    u ∈ updateURLs ccs m.id := by
  refine List.mem_flatMap.mpr ⟨_, h, ?_⟩
  simp only [if_true]
  exact hu

/-- The last URLs are the given ones or those of an update. -/
theorem mem_lastURLs {u : String} (h : u ∈ lastURLs ccs id urls) :
    u ∈ urls ∨ u ∈ updateURLs ccs id := by
  induction ccs using List.reverseRecOn with
  | nil => exact .inl h
  | append_singleton ccs cc ih =>
      rw [updateURLs, List.flatMap_append]
      by_cases hcc : ∀ m, cc = .updateNode m → m.id ≠ id
      · rw [lastURLs_concat_ne hcc] at h
        exact (ih h).imp_right (List.mem_append_left _)
      · push Not at hcc
        obtain ⟨m, rfl, rfl⟩ := hcc
        rw [lastURLs_concat_update rfl] at h
        exact .inr (List.mem_append_right _ (mem_updateURLs List.mem_cons_self h))

end URLs

/-! ## The condition -/

namespace RaftNode

/-- The URLs that a member has, or that one of the changes gives it. -/
def givenURLs (s : RaftNode) (ccs : List ConfChange) (id : Nat) : List String :=
  (s.cluster.membersMap.lookup id).elim [] Member.peerURLs ++ updateURLs ccs id

/-- What the replay of the changes needs.  What was rejected the first time is, in the state
before the restart, rejected by its id and not for its URLs.  And no two members
share a URL, of those they have before the restart and those the replayed updates give. -/
structure Replayable (s : RaftNode) (before replayed : List ConfChange) : Prop where
  rejected : ∀ i < replayed.length, ∀ cc ∈ replayed[i]?,
    (s.applyConfChanges (before ++ replayed.take i)).validate cc ≠ .ok () →
    (s.applyConfChanges (before ++ replayed)).validate cc ≠ .ok () ∧
      (s.applyConfChanges (before ++ replayed)).validate cc ≠ .error .peerURLExists
  urls : ∀ x ∈ (s.applyConfChanges (before ++ replayed)).ids,
    ∀ y ∈ (s.applyConfChanges (before ++ replayed)).ids, x ≠ y →
    ∀ u ∈ (s.applyConfChanges (before ++ replayed)).givenURLs replayed x,
      u ∉ (s.applyConfChanges (before ++ replayed)).givenURLs replayed y

theorem known_mono_run {s : RaftNode} {id : Nat} (h : s.Known id) (ccs : List ConfChange) :
    (s.applyConfChanges ccs).Known id :=
  applyConfChanges_invariant (I := fun s => s.Known id) (fun cc h => known_mono h cc) h ccs

theorem removed_mono_run {s : RaftNode} {id : Nat} (h : id ∈ s.cluster.removedMap)
    (ccs : List ConfChange) : id ∈ (s.applyConfChanges ccs).cluster.removedMap :=
  applyConfChanges_invariant (I := fun s => id ∈ s.cluster.removedMap)
    (fun cc h => removed_mono h cc) h ccs

theorem membersFromStore_eq {s : RaftNode} (h : s.stored ≠ none) :
    s.membersFromStore = s.cluster := by
  rw [membersFromStore, (s.saved.resolve_left h).1]
  rfl

/-- A run, split at one of its changes. -/
theorem applyConfChanges_split (s : RaftNode) {before replayed pre post : List ConfChange}
    {cc : ConfChange} (hsplit : replayed = pre ++ cc :: post) :
    s.applyConfChanges (before ++ replayed) =
      ((s.applyConfChanges (before ++ pre)).applyConfChange cc).applyConfChanges post := by
  rw [hsplit, ← List.append_assoc, applyConfChanges_append]
  rfl

/-- What an accepted `RemoveNode` removes is removed at the end of the run. -/
theorem removed_of_accepted {s : RaftNode} {before replayed pre post : List ConfChange} {id : Nat}
    (hsplit : replayed = pre ++ .removeNode id :: post)
    (hok : (s.applyConfChanges (before ++ pre)).validate (.removeNode id) = .ok ()) :
    id ∈ (s.applyConfChanges (before ++ replayed)).cluster.removedMap := by
  rw [applyConfChanges_split s hsplit]
  refine removed_mono_run ?_ post
  rw [cluster_of_accepted hok]
  exact Finset.mem_insert_self id _

section Replay

variable {s : RaftNode} {before replayed : List ConfChange} (h : Replayable s before replayed)
  (hstored : (s.applyConfChanges (before ++ replayed)).stored ≠ none)
include h hstored

/-- **What a replayed change is**: one that the ids reject, or an update of a member that
was accepted the first time. -/
theorem settled_or_update {pre post : List ConfChange} {cc : ConfChange}
    (hsplit : replayed = pre ++ cc :: post) :
    (s.applyConfChanges (before ++ replayed)).cluster.Settled cc ∨
      (s.applyConfChanges (before ++ pre)).validate cc = .ok () ∧ ∃ m, cc = .updateNode m := by
  by_cases hset : (s.applyConfChanges (before ++ replayed)).cluster.Settled cc
  · exact .inl hset
  have hok : (s.applyConfChanges (before ++ pre)).validate cc = .ok () := by
    by_contra hrej
    have htake : replayed.take pre.length = pre := by rw [hsplit, List.take_left]
    have hget : cc ∈ replayed[pre.length]? := by
      rw [hsplit, List.getElem?_append_right (le_refl _), Nat.sub_self]
      rfl
    have hlt : pre.length < replayed.length := by
      rw [hsplit, List.length_append, List.length_cons]
      omega
    obtain ⟨hno, hurl⟩ := h.rejected pre.length hlt cc hget (by rwa [htake])
    rw [validate, membersFromStore_eq hstored] at hno hurl
    exact hset (RaftCluster.settled_of_rejected hno hurl)
  cases cc with
  | addNode m =>
      refine absurd ?_ hset
      rw [applyConfChanges_split s hsplit]
      refine (known_mono_run (.inl ?_) post).symm
      rw [cluster_of_accepted hok]
      exact Finmap.mem_insert.mpr (.inl rfl)
  | removeNode id => exact absurd (.inl (removed_of_accepted hsplit hok)) hset
  | updateNode m => exact .inr ⟨hok, m, rfl⟩

/-- **In the first run a member ends with the URLs of its last update.** -/
theorem last_update_kept {id : Nat} (urls : List String)
    (hmem : id ∈ (s.applyConfChanges (before ++ replayed)).cluster.membersMap)
    (hgone : id ∉ (s.applyConfChanges (before ++ replayed)).cluster.removedMap)
    {pre post : List ConfChange} (hsplit : replayed = pre ++ post)
    (hupd : ∃ m, .updateNode m ∈ pre ∧ m.id = id) :
    (s.applyConfChanges (before ++ pre)).stored ≠ none ∧
      ∃ m, (s.applyConfChanges (before ++ pre)).cluster.membersMap.lookup id = some m ∧
        m.peerURLs = lastURLs pre id urls := by
  induction pre using List.reverseRecOn generalizing post with
  | nil =>
      obtain ⟨m, hm, -⟩ := hupd
      exact absurd hm List.not_mem_nil
  | append_singleton pre cc ih =>
      have hsplit' : replayed = pre ++ cc :: post := by
        rw [hsplit, List.append_assoc]
        rfl
      have hrun : s.applyConfChanges (before ++ (pre ++ [cc])) =
          (s.applyConfChanges (before ++ pre)).applyConfChange cc := by
        rw [← List.append_assoc, applyConfChanges_append]
        rfl
      rw [hrun]
      by_cases hthis : ∃ m, cc = .updateNode m ∧ m.id = id
      · -- the update is accepted, since the ids do not reject it
        obtain ⟨m, rfl, rfl⟩ := hthis
        have hok : (s.applyConfChanges (before ++ pre)).validate (.updateNode m) = .ok () := by
          rcases settled_or_update h hstored hsplit' with hset | ⟨hok, -⟩
          · exact absurd hset (not_or.mpr ⟨hgone, not_not.mpr hmem⟩)
          · exact hok
        obtain ⟨old, hold⟩ := lookup_of_accepted_update hok
        rw [stored_of_accepted hok, cluster_of_accepted hok, lastURLs_concat_update rfl]
        exact ⟨Option.some_ne_none _, _, RaftCluster.lookup_updateRaftAttributes hold _, rfl⟩
      · have hne : ∀ m, cc = .updateNode m → m.id ≠ id := fun m hm hid => hthis ⟨m, hm, hid⟩
        have hupd' : ∃ m, .updateNode m ∈ pre ∧ m.id = id := by
          obtain ⟨m, hm, hid⟩ := hupd
          rcases List.mem_append.mp hm with hm | hm
          · exact ⟨m, hm, hid⟩
          · exact absurd hid (hne m (List.mem_singleton.mp hm).symm)
        obtain ⟨hst, m, hm, hurls⟩ := ih hsplit' hupd'
        rw [lastURLs_concat_ne hne]
        rcases (s.applyConfChanges (before ++ pre)).validate_cases cc with hok | ⟨err, herr⟩
        · rw [stored_of_accepted hok, cluster_of_accepted hok]
          refine ⟨Option.some_ne_none _, m, ?_, hurls⟩
          rw [RaftCluster.lookup_applyChange_ne, hm]
          -- the member is not added again, and a removal would be for good
          rintro rfl
          cases cc with
          | addNode a =>
              rw [validate, membersFromStore_eq hst] at hok
              exact (RaftCluster.validate_addNode_ok.mp hok).2.1 (Finmap.mem_iff.mpr ⟨m, hm⟩)
          | removeNode gone => exact hgone (removed_of_accepted hsplit' hok)
          | updateNode a => exact hne a rfl rfl
        · rw [applyConfChange_rejected herr hst]
          exact ⟨hst, m, hm, hurls⟩

end Replay

/-! ## The replay -/

/-- A member in the replay: it has the URLs of its last replayed update. -/
def replayedMember (s : RaftNode) (pre : List ConfChange) (m : Member) : Member :=
  if m.id ∈ s.cluster.removedMap then m
  else { m with peerURLs := lastURLs pre m.id m.peerURLs }

/-- The node `τ` has replayed `pre` on the state `σ` before the restart: it differs from it
in peer URLs only. -/
structure Replaying (σ : RaftNode) (pre : List ConfChange) (τ : RaftNode) : Prop where
  stored : τ.stored ≠ none
  voters : τ.voters = σ.voters
  removed : τ.cluster.removedMap = σ.cluster.removedMap
  members : ∀ id, τ.cluster.membersMap.lookup id =
    (σ.cluster.membersMap.lookup id).map (σ.replayedMember pre)

variable {σ τ : RaftNode} {pre : List ConfChange} {cc : ConfChange}

/-- A change that is no update of a member leaves the replayed members as they are. -/
theorem replayedMember_concat {m : Member}
    (h : ∀ u, cc = .updateNode u → u.id = m.id → m.id ∈ σ.cluster.removedMap) :
    σ.replayedMember (pre ++ [cc]) m = σ.replayedMember pre m := by
  unfold replayedMember
  split
  · rfl
  · rename_i hr
    rw [lastURLs_concat_ne fun u hu hid => hr (h u hu hid)]

theorem replaying_nil (h : σ.stored ≠ none) : Replaying σ [] σ where
  stored := h
  voters := rfl
  removed := rfl
  members id := by
    have hsame : σ.replayedMember [] = fun m => m := by
      funext m
      exact ite_self m
    rw [hsame, Option.map_id']

namespace Replaying

theorem mem_iff (h : Replaying σ pre τ) (id : Nat) :
    id ∈ τ.cluster.membersMap ↔ id ∈ σ.cluster.membersMap := by
  rw [← Finmap.lookup_isSome, ← Finmap.lookup_isSome, h.members, Option.isSome_map]

theorem settled (h : Replaying σ pre τ) (hset : σ.cluster.Settled cc) : τ.cluster.Settled cc := by
  cases cc with
  | addNode m => exact hset.imp (h.removed ▸ ·) (h.mem_iff _).mpr
  | removeNode id => exact hset.imp (h.removed ▸ ·) (h.mem_iff _).not.mpr
  | updateNode m => exact hset.imp (h.removed ▸ ·) (h.mem_iff _).not.mpr

theorem rejects (h : Replaying σ pre τ) (hset : σ.cluster.Settled cc) :
    τ.validate cc ≠ .ok () := by
  rw [validate, membersFromStore_eq h.stored]
  exact RaftCluster.rejected_of_settled (h.settled hset)

/-- A change that the ids reject changes nothing. -/
theorem step_settled (h : Replaying σ pre τ) (hset : σ.cluster.Settled cc) :
    Replaying σ (pre ++ [cc]) (τ.applyConfChange cc) := by
  obtain ⟨err, herr⟩ := (τ.validate_cases cc).resolve_left (h.rejects hset)
  rw [applyConfChange_rejected herr h.stored]
  refine { h with members := fun id => (h.members id).trans ?_ }
  cases hm : σ.cluster.membersMap.lookup id with
  | none => rfl
  | some m =>
      refine congrArg some (replayedMember_concat ?_).symm
      rintro u rfl hid
      rw [← hid]
      refine hset.resolve_right fun hnot => hnot ?_
      rw [hid, σ.cluster.filed id m hm]
      exact Finmap.mem_iff.mpr ⟨m, hm⟩

/-- An accepted update gives the member its URLs. -/
theorem step_update {m : Member} (h : Replaying σ pre τ)
    (hok : τ.validate (.updateNode m) = .ok ()) :
    Replaying σ (pre ++ [.updateNode m]) (τ.applyConfChange (.updateNode m)) := by
  obtain ⟨old', hold'⟩ := lookup_of_accepted_update hok
  refine ⟨?_, ?_, ?_, fun id => ?_⟩
  · rw [stored_of_accepted hok]
    exact Option.some_ne_none _
  · rw [voters_of_accepted hok, applyToVoters, if_neg (nodeID_ne_none hok), h.voters]
  · rw [cluster_of_accepted hok, RaftCluster.applyChange,
      RaftCluster.updateRaftAttributes_of_lookup hold']
    exact h.removed
  · rw [cluster_of_accepted hok]
    by_cases hid : id = m.id
    · subst hid
      obtain ⟨old, hold, rfl⟩ := Option.map_eq_some_iff.mp ((h.members m.id).symm.trans hold')
      have hgone : old.id ∉ σ.cluster.removedMap := by
        rw [σ.cluster.filed _ _ hold, ← h.removed]
        rw [validate, membersFromStore_eq h.stored] at hok
        exact (RaftCluster.validate_updateNode_ok.mp hok).1
      rw [RaftCluster.applyChange, RaftCluster.lookup_updateRaftAttributes hold', hold]
      refine congrArg some ?_
      rw [replayedMember, replayedMember, if_neg hgone, if_neg hgone,
        lastURLs_concat_update (σ.cluster.filed _ _ hold).symm]
    · rw [RaftCluster.lookup_applyChange_ne hid, h.members]
      cases hm : σ.cluster.membersMap.lookup id with
      | none => rfl
      | some x =>
          refine congrArg some (replayedMember_concat ?_).symm
          rintro u hu hux
          cases hu
          exact absurd ((σ.cluster.filed id x hm).symm.trans hux.symm) hid

/-- The URLs of a replayed member are among those it is given. -/
theorem mem_givenURLs (h : Replaying σ pre τ) {post : List ConfChange} {id : Nat} {m : Member}
    (hm : τ.cluster.membersMap.lookup id = some m) {u : String} (hu : u ∈ m.peerURLs) :
    id ∈ σ.ids ∧ u ∈ σ.givenURLs (pre ++ post) id := by
  obtain ⟨old, hold, rfl⟩ := Option.map_eq_some_iff.mp ((h.members id).symm.trans hm)
  refine ⟨Finmap.mem_keys.mpr (Finmap.mem_iff.mpr ⟨old, hold⟩), ?_⟩
  rw [givenURLs, hold, updateURLs, List.flatMap_append]
  unfold replayedMember at hu
  split at hu
  · exact List.mem_append_left _ hu
  · rcases mem_lastURLs hu with hu | hu
    · exact List.mem_append_left _ hu
    · rw [σ.cluster.filed id old hold] at hu
      exact List.mem_append_right _ (List.mem_append_left _ hu)

end Replaying

section Replay

variable {s : RaftNode} {before replayed : List ConfChange} (h : Replayable s before replayed)
  (hσ : σ = s.applyConfChanges (before ++ replayed)) (hstored : σ.stored ≠ none)
include h hσ hstored

/-- No other member has the URLs of a replayed update. -/
theorem accepts_update {post : List ConfChange} {m : Member} (hr : Replaying σ pre τ)
    (hsplit : replayed = pre ++ .updateNode m :: post)
    (hnot : ¬ σ.cluster.Settled (.updateNode m)) : τ.validate (.updateNode m) = .ok () := by
  obtain ⟨hgone, hmem⟩ := not_or.mp hnot
  rw [validate, membersFromStore_eq hr.stored]
  refine RaftCluster.validate_updateNode_ok.mpr
    ⟨hr.removed ▸ hgone, (hr.mem_iff _).mpr (not_not.mp hmem), ?_⟩
  rintro ⟨id, -, m', hm', hne, u, hu, hu'⟩
  obtain ⟨hid, hgiven⟩ := hr.mem_givenURLs hm' hu'
  rw [← hsplit] at hgiven
  have hown : u ∈ σ.givenURLs replayed m.id := by
    refine List.mem_append_right _ (mem_updateURLs ?_ hu)
    rw [hsplit]
    exact List.mem_append_right _ List.mem_cons_self
  subst hσ
  refine h.urls id hid m.id (Finmap.mem_keys.mpr (not_not.mp hmem)) ?_ u hgiven hown
  rw [← τ.cluster.filed id m' hm']
  exact fun he => hne (congrArg some he)

/-- **The replay changes peer URLs only.** -/
theorem replaying_run {post : List ConfChange} (hsplit : replayed = pre ++ post) :
    Replaying σ pre (σ.applyConfChanges pre) := by
  induction pre using List.reverseRecOn generalizing post with
  | nil => exact replaying_nil hstored
  | append_singleton pre cc ih =>
      have hsplit' : replayed = pre ++ cc :: post := by
        rw [hsplit, List.append_assoc]
        rfl
      have hr := ih hsplit'
      rw [applyConfChanges_append]
      change Replaying σ (pre ++ [cc]) ((σ.applyConfChanges pre).applyConfChange cc)
      by_cases hset : σ.cluster.Settled cc
      · exact hr.step_settled hset
      · subst hσ
        obtain ⟨-, m, rfl⟩ := (settled_or_update h hstored hsplit').resolve_left hset
        exact hr.step_update (accepts_update h rfl hstored hr hsplit' hset)

/-- At the end of the replay the members have their URLs back. -/
theorem replayedMember_eq {id : Nat} {m : Member}
    (hm : σ.cluster.membersMap.lookup id = some m) : σ.replayedMember replayed m = m := by
  subst hσ
  obtain rfl : m.id = id := RaftCluster.filed _ id m hm
  unfold replayedMember
  split
  · rfl
  · rename_i hgone
    have hurls : lastURLs replayed m.id m.peerURLs = m.peerURLs := by
      by_cases hupd : ∃ u, .updateNode u ∈ replayed ∧ u.id = m.id
      · obtain ⟨-, m', hm', hlast⟩ := last_update_kept h hstored m.peerURLs
          (Finmap.mem_iff.mpr ⟨m, hm⟩) hgone (List.append_nil replayed).symm hupd
        obtain rfl : m = m' := Option.some.inj (hm.symm.trans hm')
        exact hlast.symm
      · exact lastURLs_eq fun u hu hid => hupd ⟨u, hu, hid⟩
    rw [hurls]

theorem replay_eq : σ.applyConfChanges replayed = σ := by
  have hr := replaying_run h hσ hstored (List.append_nil replayed).symm
  have hcluster : (σ.applyConfChanges replayed).cluster = σ.cluster := by
    refine RaftCluster.ext (fun id => (hr.members id).trans ?_) hr.removed
    cases hm : σ.cluster.membersMap.lookup id with
    | none => rfl
    | some m => exact congrArg some (replayedMember_eq h hσ hstored hm)
  obtain ⟨hs, hc⟩ := RaftNode.saved _ |>.resolve_left hr.stored
  obtain ⟨hs', hc'⟩ := σ.saved.resolve_left hstored
  exact ext hcluster (by rw [hs, hs', hcluster]) hr.voters (by rw [hc, hc', hr.voters])

end Replay

/-- A node that comes up has what was stored. -/
theorem restart_eq {s τ : RaftNode} {name : String} (h : s.restart name = some τ) :
    s.stored ≠ none ∧ τ = s := by
  unfold restart at h
  split at h
  · cases h
  · rename_i c hc
    have hne : s.stored ≠ none := by
      rw [hc]
      exact Option.some_ne_none c
    obtain ⟨hs, hconf⟩ := s.saved.resolve_left hne
    obtain rfl : c = s.cluster := Option.some.inj (hc.symm.trans hs)
    split at h
    · cases h
      have hvoters : s.confState.getD ∅ = s.voters := by
        rw [hconf]
        rfl
      exact ⟨hne, ext rfl hc.symm hvoters ((congrArg some hvoters).trans hconf.symm)⟩
    · cases h

end RaftNode

/-- **A replay that meets the condition changes nothing**, and what was rejected the first
time is rejected again. -/
theorem replay_changes_nothing (s : RaftNode) (before replayed : List ConfChange) (name : String)
    (τ : RaftNode) (h : s.Replayable before replayed)
    (hrestart : (s.applyConfChanges (before ++ replayed)).restart name = some τ) :
    τ.applyConfChanges replayed = s.applyConfChanges (before ++ replayed) ∧
    ∀ pre cc post, replayed = pre ++ cc :: post →
      (s.applyConfChanges (before ++ pre)).validate cc ≠ .ok () →
      (τ.applyConfChanges pre).validate cc ≠ .ok () := by
  obtain ⟨hstored, rfl⟩ := RaftNode.restart_eq hrestart
  refine ⟨RaftNode.replay_eq h rfl hstored, fun pre cc post hsplit hrej => ?_⟩
  have hset := (RaftNode.settled_or_update h hstored hsplit).resolve_right fun hok => hrej hok.1
  exact (RaftNode.replaying_run h rfl hstored hsplit).rejects hset

/-- The member `a` at another address. -/
def memberAMoved : Member := { memberA with peerURLs := ["http://a2"] }

/-- A member that wants the first address of `a`. -/
def memberOnA : Member := ⟨3, ["http://a"], "c", [], by decide⟩

/-- A member added twice, an update, and the member removed again. -/
theorem replay_changes_nothing_removed :
    let replayed := [.addNode memberB, .addNode memberB, .updateNode memberAMoved, .removeNode 2]
    let σ := (settledNode [memberA]).applyConfChanges replayed
    σ.applyConfChanges replayed = σ :=
  (replay_changes_nothing (settledNode [memberA]) []
    [.addNode memberB, .addNode memberB, .updateNode memberAMoved, .removeNode 2] "a"
    ((settledNode [memberA]).applyConfChanges
      [.addNode memberB, .addNode memberB, .updateNode memberAMoved, .removeNode 2])
    ⟨by decide +kernel, by decide +kernel⟩ (by decide +kernel)).1

/-- The new member is rejected, since `a` has the URL; then `a` moves, and in the replay the
new member is accepted, as a member and as a voter. -/
theorem rejected_change_is_accepted :
    let replayed := [.addNode memberOnA, .updateNode memberAMoved]
    let s := settledNode [memberA]
    let σ := s.applyConfChanges replayed
    s.validate (.addNode memberOnA) = .error .peerURLExists ∧ σ.restart "a" = some σ ∧
      σ.ids = [1].toFinset ∧ σ.voters = [1].toFinset ∧
      σ.validate (.addNode memberOnA) = .ok () ∧
      (σ.applyConfChanges replayed).ids = [1, 3].toFinset ∧
      (σ.applyConfChanges replayed).voters = [1, 3].toFinset := by
  decide +kernel

end Kingbus
