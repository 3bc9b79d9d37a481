import Kingbus.DiskStorage
import Kingbus.SegmentedLog

/-! # The disk storage refines the segmented log

`DiskStorage.Rep` relates a storage to the `SegLog` its segments hold.  Every
operation of the storage keeps the relation when it is called as raft calls it,
and every read is a function of the `SegLog` alone. -/

namespace Kingbus

namespace Segment
variable {c : Config} {z : Bool} {s : Segment} {u : SegView} {i : Nat}

/-- The range test of the storage finds the segment that covers an index. -/
theorem Readable.contains (h : s.Readable c u) (hi : 1 ≤ i) :
    s.contains i = decide (Chunks.Covers SegView.first SegView.es i u) := by
  rw [Segment.contains, h.firstIndex, h.lastIndex]
  refine decide_eq_decide.mpr ?_
  unfold SegView.firstIndex SegView.lastIndex Chunks.Covers SegView.next
  by_cases hu : u.es = []
  · rw [if_pos hu, if_pos hu, hu, List.length_nil]
    omega
  · have := List.length_pos_of_ne_nil hu
    rw [if_neg hu, if_neg hu]
    omega

end Segment

namespace SegLog

/-- What `readSegments` makes of the segments it is given. -/
def readViews (lo last maxSize : Nat) : List SegView → List Entry
  | [] => []
  | u :: us =>
      let r := Segment.readLimited maxSize 0 (Numbered.window Entry.index lo last u.es)
      if Segment.remaining maxSize r.2 = 0 then r.1 else r.1 ++ readViews lo last maxSize us

/-- `Entries` as a function of the segmented log. -/
def readEntries (v : SegLog) (lo hi maxSize : Nat) :
    Except Failure (List Entry) :=
  let last := (hi + (2 ^ 64 - 1)) % 2 ^ 64
  if last < lo then .error (.error .argsIllegal)
  else if lo < v.start then .error (.error .compacted)
  else if v.next - 1 < lo ∨ v.next - 1 < last then .error (.error .outOfBound)
  else DiskStorage.cutRaftEntries (readViews lo last maxSize
    (v.views.filter fun u => Chunks.Meets SegView.first SegView.es lo last u)) maxSize

end SegLog

namespace DiskStorage
open SegLog

/-- The segments of the storage hold the segments of the log. -/
def Rep (c : Config) (z : Bool) (s : DiskStorage) : SegLog → Prop
  | .empty => s.segments = []
  | .segs d w => ∃ init last, s.segments = init ++ [last] ∧
      List.Forall₂ (Segment.Sealed c z) init d ∧ last.Writable c z w

/-- The index of the next entry. -/
def nextIndex (s : DiskStorage) : Nat :=
  match s.segments.getLast? with
  | none => 1
  | some seg => seg.nextIndex

section Spec
variable {c : Config} {z : Bool} {s : DiskStorage} {v : SegLog} {es : List Entry} {i : Nat}

/-- A reader need not know which segment is the writable one. -/
theorem Rep.readable (h : s.Rep c z v) :
    List.Forall₂ (Segment.Readable c) s.segments v.views := by
  cases v with
  | empty =>
      rw [show s.segments = [] from h]
      exact .nil
  | segs d w =>
      obtain ⟨init, last, hs, hinit, hlast⟩ := h
      rw [hs]
      exact List.rel_append (hinit.imp fun _ _ hd => hd.readable) (.cons hlast.readable .nil)

theorem Rep.nextIndex (h : s.Rep c z v) : s.nextIndex = v.next := by
  cases v with
  | empty =>
      rw [DiskStorage.nextIndex, show s.segments = [] from h]
      rfl
  | segs d w =>
      obtain ⟨init, last, hs, -, hlast⟩ := h
      rw [DiskStorage.nextIndex, hs, List.getLast?_concat]
      exact hlast.nextIndex

theorem Rep.firstIndex (h : s.Rep c z v) (hfull : v.Full) : s.firstIndex = v.start := by
  have hread := h.readable
  unfold DiskStorage.firstIndex SegLog.start
  cases hv : v.views with
  | nil =>
      rw [hv, List.forall₂_nil_right_iff] at hread
      rw [hread]
      rfl
  | cons u us =>
      rw [hv, List.forall₂_cons_right_iff] at hread
      obtain ⟨seg, segs, hseg, -, hs⟩ := hread
      have hu : u.es ≠ [] := hfull u (by rw [hv]; exact List.mem_cons_self)
      rw [hs]
      exact hseg.firstIndex.trans (SegView.firstIndex_of_ne hu)

theorem Rep.lastIndex (h : s.Rep c z v) (hfull : v.Full) : s.lastIndex = v.next - 1 := by
  unfold DiskStorage.lastIndex
  cases v with
  | empty =>
      rw [show s.segments = [] from h]
      rfl
  | segs d w =>
      obtain ⟨init, last, hs, -, hlast⟩ := h
      rw [hs, List.getLast?_concat]
      have hw : w.es ≠ [] := hfull w (List.mem_append_right _ (List.mem_singleton_self w))
      exact hlast.lastIndex.trans (SegView.lastIndex_of_ne hw)

/-! ## Writing -/

theorem newSegment_ok {name : FileName} (h : ∀ seg ∈ s.segments, seg.logFile.filePath ≠ name) :
    s.newSegment c name = .ok (Segment.create c name) := by
  refine if_neg fun hany => ?_
  obtain ⟨seg, hseg, hname⟩ := List.any_eq_true.mp hany
  exact h seg hseg (of_decide_eq_true hname)

/-- No read-only segment has the name of an in-progress file. -/
theorem sealed_name_ne {init : List Segment} {d : List SegView} {n : Nat}
    (h : List.Forall₂ (Segment.Sealed c z) init d) :
    ∀ seg ∈ init, seg.logFile.filePath ≠ .inprogress n := by
  intro seg hseg
  obtain ⟨u, -, hu⟩ := forall₂_exists h seg hseg
  rw [hu.name]
  nofun

/-- A batch put into a new segment. -/
theorem appendRecords_create (c : Config) (z : Bool) {n : Nat} (hn : 1 ≤ n) (hne : es ≠ [])
    (hes : Numbered Entry.index n es) (hfit : (encode es).length ≤ c.segmentSize) :
    ∃ seg, (Segment.create c (.inprogress n)).appendRecords (es.map Entry.toRecord) n = .ok seg ∧
      seg.Writable c z (SegView.single n es hes hn) :=
  (Segment.create_writable c z hn).appendRecords hne hes (by
    rw [show (SegView.single n [] _ hn).es = [] from rfl, encode_nil, List.length_nil, Nat.zero_add]
    exact hfit)

/-- `SaveRaftEntries` of a batch that fits into a segment. -/
theorem saveRaftEntries_cons {e : Entry} (hfit : (encode (e :: es)).length ≤ c.segmentSize) :
    s.saveRaftEntries c (e :: es) =
      match s.getWriteSegment c e.index (encode (e :: es)).length with
      | (s, .error e) => (s, .error e)
      | (s, .ok (writeSegment, isNew)) =>
          match writeSegment.appendRecords ((e :: es).map Entry.toRecord) e.index with
          | .error e => (s, .error e)
          | .ok seg =>
              if isNew then (⟨s.segments ++ [seg]⟩, .ok ())
              else (⟨s.segments.dropLast ++ [seg]⟩, .ok ()) := by
  rw [saveRaftEntries, entriesToRecords_eq]
  exact if_neg (by omega)

/-- The same for a numbered batch. -/
theorem saveRaftEntries_eq {n : Nat} (hne : es ≠ []) (hes : Numbered Entry.index n es)
    (hfit : (encode es).length ≤ c.segmentSize) :
    s.saveRaftEntries c es =
      match s.getWriteSegment c n (encode es).length with
      | (s, .error e) => (s, .error e)
      | (s, .ok (writeSegment, isNew)) =>
          match writeSegment.appendRecords (es.map Entry.toRecord) n with
          | .error e => (s, .error e)
          | .ok seg =>
              if isNew then (⟨s.segments ++ [seg]⟩, .ok ())
              else (⟨s.segments.dropLast ++ [seg]⟩, .ok ()) := by
  cases es with
  | nil => exact absurd rfl hne
  | cons e rest =>
      obtain ⟨rfl, -⟩ := hes
      exact saveRaftEntries_cons hfit

section Save
variable {n : Nat} {init : List Segment} {last prev seg : Segment} (hne : es ≠ [])
  (hes : Numbered Entry.index n es) (hfit : (encode es).length ≤ c.segmentSize)
include hne hes hfit

/-- The first batch of all goes into a new segment. -/
theorem saveRaftEntries_first (hs : s.segments = [])
    (happ : (Segment.create c (.inprogress n)).appendRecords (es.map Entry.toRecord) n = .ok seg) :
    s.saveRaftEntries c es = (⟨[seg]⟩, .ok ()) := by
  have hnew : s.newSegment c (.inprogress n) = .ok (Segment.create c (.inprogress n)) :=
    newSegment_ok (by rw [hs]; nofun)
  rw [saveRaftEntries_eq hne hes hfit]
  simp only [getWriteSegment, hs, List.getLast?_nil, hnew, Except.map, happ, if_true,
    List.nil_append]

/-- A batch the last segment has room for. -/
theorem saveRaftEntries_last (hs : s.segments = init ++ [last])
    (hroll : last.needRolling (encode es).length = false)
    (happ : last.appendRecords (es.map Entry.toRecord) n = .ok seg) :
    s.saveRaftEntries c es = (⟨init ++ [seg]⟩, .ok ()) := by
  rw [saveRaftEntries_eq hne hes hfit]
  simp only [getWriteSegment, hs, List.getLast?_concat, hroll, Bool.false_eq_true, if_false, happ,
    List.dropLast_concat]

/-- A batch the last segment has no room for. -/
theorem saveRaftEntries_roll (hs : s.segments = init ++ [last])
    (hroll : last.needRolling (encode es).length = true)
    (hprev : last.changeToReadonly = .ok prev)
    (hnames : ∀ x ∈ init ++ [prev], x.logFile.filePath ≠ .inprogress n)
    (happ : (Segment.create c (.inprogress n)).appendRecords (es.map Entry.toRecord) n = .ok seg) :
    s.saveRaftEntries c es = (⟨(init ++ [prev]) ++ [seg]⟩, .ok ()) := by
  have hnew : DiskStorage.newSegment c ⟨init ++ [prev]⟩ (.inprogress n) =
      .ok (Segment.create c (.inprogress n)) := newSegment_ok hnames
  rw [saveRaftEntries_eq hne hes hfit]
  simp only [getWriteSegment, hs, List.getLast?_concat, hroll, if_true, rollingSegment, hprev,
    List.dropLast_concat, hnew, Except.map, happ]

end Save

/-- **Saving a batch** behind the last entry, into the last segment or a new one. -/
theorem Rep.saveRaftEntries (h : s.Rep c z v) (hne : es ≠ [])
    (hes : Numbered Entry.index v.next es) (hfit : (encode es).length ≤ c.segmentSize) :
    ∃ s', s.saveRaftEntries c es = (s', .ok ()) ∧ s'.Rep c z (v.save c es hes) := by
  cases v with
  | empty =>
      obtain ⟨seg, happ, hw⟩ := appendRecords_create c z (Nat.le_refl 1) hne hes hfit
      exact ⟨_, saveRaftEntries_first hne hes hfit h happ, [], seg, rfl, .nil, hw⟩
  | segs d w =>
      obtain ⟨init, last, hs, hinit, hlast⟩ := h
      have hneed := hlast.needRolling (encode es).length
      rw [SegLog.save]
      by_cases hroll : c.segmentSize < (encode w.es).length + (encode es).length
      · rw [decide_eq_true hroll] at hneed
        have hpos : 1 ≤ w.next := Nat.le_trans w.first_pos (Nat.le_add_right _ _)
        obtain ⟨prev, hprev, hsealed⟩ :=
          hlast.changeToReadonly (SegLog.ne_nil_of_roll hfit hroll)
        obtain ⟨seg, happ, hw⟩ := appendRecords_create c z hpos hne hes hfit
        have hdone : List.Forall₂ (Segment.Sealed c z) (init ++ [prev]) (d ++ [w]) :=
          List.rel_append hinit (.cons hsealed .nil)
        rw [if_pos hroll]
        exact ⟨_, saveRaftEntries_roll hne hes hfit hs hneed hprev (sealed_name_ne hdone) happ,
          init ++ [prev], seg, rfl, hdone, hw⟩
      · rw [decide_eq_false hroll] at hneed
        obtain ⟨seg, happ, hw⟩ := hlast.appendRecords hne hes (by omega)
        rw [if_neg hroll]
        exact ⟨_, saveRaftEntries_last hne hes hfit hs hneed happ, init, seg, rfl, hinit, hw⟩

/-- How a storage splits at an index of its log: the segments before the one that
holds it, that segment in its mode, and those behind. -/
structure SplitAt (c : Config) (z : Bool) (s : DiskStorage) (v : SegLog) (i : Nat)
    (before : List SegView) (u : SegView) (b : List Segment) (seg : Segment) (r : List Segment) :
    Prop where
  segments : s.segments = b ++ seg :: r
  views : ∃ behind, v.views = before ++ u :: behind ∧ List.Forall₂ (Segment.Readable c) r behind
  covers : Chunks.Covers SegView.first SegView.es i u
  done : List.Forall₂ (Segment.Sealed c z) b before
  mode : seg.Sealed c z u ∧ u ∈ v.done ∧ r ≠ [] ∨ seg.Writable c z u ∧ r = []
  found : splitLast (fun seg => seg.contains i) s.segments = some (b, seg, r)
  truncated : v.truncate i = .segs before (u.cut i)

/-- The search of `TruncateSuffix` finds the segment that holds the index. -/
theorem Rep.splitAt (h : s.Rep c z v) (hwf : v.WF) (hlo : v.start ≤ i) (hhi : i < v.next) :
    ∃ before u b seg r, SplitAt c z s v i before u b seg r := by
  have hi : 1 ≤ i := Nat.le_trans v.start_pos hlo
  obtain ⟨before, u, behind, hviews, hu, hbehind, htr⟩ := hwf.truncate_eq hlo hhi
  obtain ⟨b, seg, r, hsplit, hb, hseg, hr⟩ : ∃ b seg r, s.segments = b ++ seg :: r ∧
      List.Forall₂ (Segment.Sealed c z) b before ∧
      (seg.Sealed c z u ∧ u ∈ v.done ∧ r ≠ [] ∨ seg.Writable c z u ∧ r = []) ∧
      List.Forall₂ (Segment.Readable c) r behind := by
    cases v with
    | empty => cases before <;> cases hviews
    | segs d w =>
        obtain ⟨init, last, hs, hinit, hlast⟩ := h
        rcases List.eq_nil_or_concat behind with rfl | ⟨bs, x, rfl⟩
        · obtain ⟨rfl, hw⟩ := List.append_inj' hviews rfl
          cases hw
          exact ⟨init, last, [], hs, hinit, Or.inr ⟨hlast, rfl⟩, .nil⟩
        · rw [List.concat_eq_append] at hviews
          have hviews' : d ++ [w] = (before ++ u :: bs) ++ [x] := by
            rw [List.append_assoc, List.cons_append]
            exact hviews
          obtain ⟨rfl, hw⟩ := List.append_inj' hviews' rfl
          cases hw
          obtain ⟨b, seg, r, rfl, hb, hseg, hr⟩ := forall₂_split hinit
          have hmem : u ∈ (SegLog.segs (before ++ u :: bs) w).done :=
            List.mem_append_right _ List.mem_cons_self
          refine ⟨b, seg, r ++ [last], ?_, hb, Or.inl ⟨hseg, hmem, by simp⟩, ?_⟩
          · rw [hs, List.append_assoc, List.cons_append]
          · rw [List.concat_eq_append]
            exact List.rel_append (hr.imp fun _ _ hd => hd.readable) (.cons hlast.readable .nil)
  have hread : seg.Readable c u := hseg.elim (fun hs => hs.1.readable) fun hw => hw.1.readable
  have hfound : seg.contains i = true := by
    rw [hread.contains hi]
    exact decide_eq_true hu
  have hnone : ∀ seg ∈ r, seg.contains i = false := by
    intro seg hseg
    obtain ⟨u', hu', hread'⟩ := forall₂_exists hr seg hseg
    rw [hread'.contains hi]
    exact decide_eq_false (hbehind u' hu')
  have hfind := splitLast_append (p := fun seg => seg.contains i) hfound hnone b
  exact ⟨before, u, b, seg, r, hsplit, ⟨behind, hviews, hr⟩, hu, hb, hseg, hsplit ▸ hfind, htr⟩

/-- The condition under which the segment that holds `i` can be truncated: it is
the writable one, or it knows its write position, or (when stale bytes behind the
entries do no harm) `i` is its first index. -/
def Cuttable (z : Bool) (v : SegLog) (i : Nat) : Prop :=
  ∀ u ∈ v.done, Chunks.Covers SegView.first SegView.es i u →
    u.hot = true ∨ (z = false ∧ i = u.first)

/-- The segment that holds the index can be cut there. -/
theorem SplitAt.exists_cut {before : List SegView} {u : SegView} {b r : List Segment}
    {seg : Segment} (hsp : SplitAt c z s v i before u b seg r) (hcut : Cuttable z v i) :
    ∃ seg', seg.truncateSuffix i = .ok seg' ∧ seg'.Writable c z (u.cut i) := by
  have hu := hsp.covers
  rcases hsp.mode with ⟨hs, hmem, -⟩ | ⟨hw, -⟩
  · rcases hcut u hmem hu with hhot | ⟨rfl, rfl⟩
    · exact hs.truncateSuffix hhot hu.1 hu.2
    · cases hhot : u.hot with
      | true => exact hs.truncateSuffix hhot hu.1 hu.2
      | false => exact hs.truncateSuffix_first hhot
  · exact hw.truncateSuffix hu.1 hu.2

/-- **Truncating the storage** at an index of the log. -/
theorem Rep.truncateSuffix (h : s.Rep c z v) (hwf : v.WF) (hlo : v.start ≤ i) (hhi : i < v.next)
    (hcut : Cuttable z v i) :
    ∃ s', s.truncateSuffix i = (s', .ok ()) ∧ s'.Rep c z (v.truncate i) := by
  obtain ⟨before, u, b, seg, r, hsp⟩ := h.splitAt hwf hlo hhi
  obtain ⟨seg', hcutseg, hw⟩ := hsp.exists_cut hcut
  rw [DiskStorage.truncateSuffix, hsp.found, hsp.truncated]
  simp only [hcutseg]
  exact ⟨_, rfl, b, seg', rfl, hsp.done, hw⟩

/-- **Truncating strictly inside a reopened segment fails**, after the segments
behind it are gone. -/
theorem Rep.truncateSuffix_cold (h : s.Rep c z v) (hwf : v.WF) (hlo : v.start ≤ i)
    (hhi : i < v.next) (hcut : ¬ Cuttable false v i) :
    ∃ s', s.truncateSuffix i = (s', .error (.error .outOfBound)) := by
  obtain ⟨before, u, b, seg, r, hsp⟩ := h.splitAt hwf hlo hhi
  obtain ⟨behind, hviews, -⟩ := hsp.views
  -- the cold segment is the one that is found
  obtain ⟨u', hdone, hcov, hcold⟩ : ∃ u' ∈ v.done, Chunks.Covers SegView.first SegView.es i u' ∧
      ¬ (u'.hot = true ∨ (false = false ∧ i = u'.first)) := by
    unfold Cuttable at hcut
    push Not at hcut
    obtain ⟨u', h1, h2, h3, h4⟩ := hcut
    exact ⟨u', h1, h2, fun hor => hor.elim h3 fun hand => h4 hand.1 hand.2⟩
  have hmem : u' ∈ v.views := by
    cases v with
    | empty => cases hdone
    | segs d w => exact List.mem_append_left _ hdone
  have huu : u = u' := hwf.chained.covers_unique
    (by rw [hviews]; exact List.mem_append_right _ List.mem_cons_self) hmem hsp.covers hcov
  subst huu
  push Not at hcold
  have hfirst : u.first < i := Nat.lt_of_le_of_ne hcov.1 fun heq => hcold.2 rfl heq.symm
  have hhot : u.hot = false := Bool.eq_false_iff.mpr hcold.1
  rcases hsp.mode with ⟨hs, -, -⟩ | ⟨hw, -⟩
  · rw [DiskStorage.truncateSuffix, hsp.found]
    simp only [hs.truncateSuffix_cold hhot hfirst hcov.2]
    exact ⟨_, rfl⟩
  · exact absurd hw.hot hcold.1

theorem cuttable_of_hot (h : v.Hot) (i : Nat) : Cuttable z v i := by
  intro u hu _
  refine Or.inl (h u ?_)
  cases v with
  | empty => cases hu
  | segs d w => exact List.mem_append_left _ hu

/-- **`appendRaftEntries`** of a batch raft may hand over. -/
theorem Rep.appendRaftEntries {n : Nat} (h : s.Rep c z v) (hwf : v.WF) (hfull : v.Full)
    (hb : SegLog.Batch c v es n) (hcut : n < v.next → Cuttable z v n) :
    ∃ s', s.appendRaftEntries c es = (s', .ok ()) ∧ s'.Rep c z (v.append c es) := by
  obtain ⟨t, ht, -, -, -, hnum, happ⟩ := hb.append_eq hwf
  have hlast := h.lastIndex hfull
  have hpos := Nat.le_trans v.start_pos hb.start_le
  rw [happ]
  obtain ⟨e, rest, rfl⟩ := List.exists_cons_of_ne_nil hb.nonempty
  have hidx : e.index = n := hb.numbered.1
  simp only [DiskStorage.appendRaftEntries, hidx, hlast]
  by_cases hlt : n < v.next
  · rw [if_pos hlt] at ht
    subst ht
    obtain ⟨s₁, htr, h₁⟩ := h.truncateSuffix hwf hb.start_le hlt (hcut hlt)
    rw [if_pos (by omega), htr]
    exact h₁.saveRaftEntries hb.nonempty hnum hb.fits
  · rw [if_neg hlt] at ht
    subst ht
    rw [if_neg (by omega)]
    exact h.saveRaftEntries hb.nonempty hnum hb.fits

/-- An index below the log is in no segment. -/
theorem Rep.truncateSuffix_below (h : s.Rep c z v) (hwf : v.WF) (hfull : v.Full)
    (hi : i < v.start) : s.truncateSuffix i = (s, .error (.error .outOfBound)) := by
  have hnone : splitLast (fun seg => seg.contains i) s.segments = none := by
    refine splitLast_eq_none fun seg hseg => ?_
    obtain ⟨u, hu, hread⟩ := forall₂_exists h.readable seg hseg
    have hle := (hwf.chained.le_first u hu).1
    rw [Segment.contains, hread.firstIndex, SegView.firstIndex_of_ne (hfull u hu)]
    exact decide_eq_false (by omega)
  rw [DiskStorage.truncateSuffix, hnone]

theorem saveRaftEntries_too_large {e : Entry}
    (h : c.segmentSize < (encode (e :: es)).length) :
    s.saveRaftEntries c (e :: es) =
      (s, .error (.fatal "recordsSize[%d] is large than SegmentSize[%d]")) := by
  simp only [DiskStorage.saveRaftEntries, entriesToRecords_eq, if_pos h]

/-- What `appendRaftEntries` does with any consecutive batch that leaves no gap
behind the log: one that starts below the log, or strictly inside a reopened
segment, is refused; one that is too large stops the process; any other one is
appended. -/
inductive AppendResult (c : Config) (s : DiskStorage) (v : SegLog) (es : List Entry) (n : Nat) :
    Prop
  | below : n < v.start → s.appendRaftEntries c es = (s, .error (.error .outOfBound)) →
      AppendResult c s v es n
  | cold (s' : DiskStorage) : n < v.next → ¬ Cuttable false v n →
      s.appendRaftEntries c es = (s', .error (.error .outOfBound)) → AppendResult c s v es n
  | large (s' : DiskStorage) : v.start ≤ n → c.segmentSize < (encode es).length →
      s.appendRaftEntries c es =
        (s', .error (.fatal "recordsSize[%d] is large than SegmentSize[%d]")) →
      AppendResult c s v es n
  | ok (s' : DiskStorage) : SegLog.Batch c v es n → s.appendRaftEntries c es = (s', .ok ()) →
      s'.Rep c false (v.append c es) → AppendResult c s v es n

theorem Rep.appendResult {n : Nat} (h : s.Rep c false v) (hwf : v.WF) (hfull : v.Full)
    (hne : es ≠ []) (hnum : Numbered Entry.index n es) (hn : n ≤ v.next) :
    AppendResult c s v es n := by
  have hlast := h.lastIndex hfull
  have hnext := hwf.next_eq
  have hpos := v.start_pos
  obtain ⟨e, rest, rfl⟩ := List.exists_cons_of_ne_nil hne
  have hidx : e.index = n := hnum.1
  by_cases hlo : v.start ≤ n
  swap
  · refine .below (Nat.lt_of_not_le hlo) ?_
    simp only [DiskStorage.appendRaftEntries, hidx]
    rw [if_pos (by omega), h.truncateSuffix_below hwf hfull (by omega)]
  by_cases hcut : n < v.next → Cuttable false v n
  swap
  · push Not at hcut
    obtain ⟨s', hs'⟩ := h.truncateSuffix_cold hwf hlo hcut.1 hcut.2
    refine .cold s' hcut.1 hcut.2 ?_
    simp only [DiskStorage.appendRaftEntries, hidx]
    rw [if_pos (by omega), hs']
  by_cases hfit : (encode (e :: rest)).length ≤ c.segmentSize
  · have hb : SegLog.Batch c v (e :: rest) n := ⟨hne, hnum, hlo, hn, hfit⟩
    obtain ⟨s', hs', hrep⟩ := h.appendRaftEntries hwf hfull hb hcut
    exact .ok s' hb hs' hrep
  · have hlarge := Nat.lt_of_not_le hfit
    by_cases hlt : n < v.next
    · obtain ⟨s', hs', -⟩ := h.truncateSuffix hwf hlo hlt (hcut hlt)
      refine .large s' hlo hlarge ?_
      simp only [DiskStorage.appendRaftEntries, hidx]
      rw [if_pos (by omega), hs']
      exact saveRaftEntries_too_large hlarge
    · refine .large s hlo hlarge ?_
      simp only [DiskStorage.appendRaftEntries, hidx]
      rw [if_neg (by omega)]
      exact saveRaftEntries_too_large hlarge

/-- **Purging** all but the newest segments. -/
theorem Rep.purge (h : s.Rep c z v) {reserve : Nat} (hr : 1 ≤ reserve) :
    (s.purge reserve).Rep c z (v.purge reserve) := by
  cases v with
  | empty =>
      have hs : s.segments = [] := h
      rw [DiskStorage.purge, hs, List.length_nil, if_neg (Nat.not_lt_zero _)]
      exact h
  | segs d w =>
      obtain ⟨init, last, hs, hinit, hlast⟩ := h
      have hlen : init.length = d.length := hinit.length_eq
      have hk : d.length + 1 - reserve ≤ init.length := by omega
      have hdrop : (s.purge reserve).segments =
          init.drop (d.length + 1 - reserve) ++ [last] := by
        rw [DiskStorage.purge]
        split
        · rw [hs, List.length_append, List.length_singleton, hlen,
            List.drop_append_of_le_length hk]
        · next hle =>
          rw [hs, List.length_append, List.length_singleton] at hle
          rw [show d.length + 1 - reserve = 0 by omega, List.drop_zero, hs]
      exact ⟨_, last, hdrop, List.forall₂_drop _ hinit, hlast⟩

/-! ## Reading -/

/-- The scan from the last segment down, when `first` lies in segment `a` only
and `last` in segment `b` only. -/
theorem scanSegments_eq {segs : List Segment} {first last a b : Nat} (hab : a ≤ b)
    (ha : ∀ j seg, segs[j]? = some seg → seg.contains first = decide (j = a))
    (hb : ∀ j seg, segs[j]? = some seg → seg.contains last = decide (j = b)) :
    ∀ n, n ≤ segs.length → a < n →
      scanSegments segs first last n none (if n ≤ b then some b else none) = (some a, some b)
  | 0, _, h => absurd h (Nat.not_lt_zero a)
  | n + 1, hn, han => by
      obtain ⟨seg, hseg⟩ : ∃ seg, segs[n]? = some seg := ⟨_, List.getElem?_eq_getElem hn⟩
      have hlast : (if seg.contains last then some n else if n + 1 ≤ b then some b else none) =
          if n ≤ b then some b else none := by
        rw [hb n seg hseg]
        by_cases hnb : n = b
        · simp [hnb]
        · have hiff : n + 1 ≤ b ↔ n ≤ b := by omega
          simp [hnb, hiff]
      simp only [scanSegments, hseg, hlast, ha n seg hseg, decide_eq_true_eq]
      by_cases hna : n = a
      · subst hna
        simp [hab]
      · have ih := scanSegments_eq hab ha hb n (by omega) (by omega)
        simp [hna, ih]

/-- A window clipped to the range of the segment it is read from. -/
theorem window_clip (u : SegView) (lo last : Nat) :
    Numbered.window Entry.index (if u.first < lo then lo else u.first)
        (if u.next - 1 < last then u.next - 1 else last) u.es =
      Numbered.window Entry.index lo last u.es := by
  refine List.filter_congr fun e he => ?_
  have := u.numbered.of_mem he
  refine decide_eq_decide.mpr ?_
  unfold SegView.next
  split <;> split <;> omega

/-- Reading segments that all meet the window. -/
theorem readSegments_eq {lo last : Nat} (maxSize : Nat) (hle : lo ≤ last) {segs : List Segment}
    {us : List SegView} (h : List.Forall₂ (Segment.Readable c) segs us)
    (hne : ∀ u ∈ us, u.es ≠ [])
    (hmeets : ∀ u ∈ us, Chunks.Meets SegView.first SegView.es lo last u) :
    readSegments lo last maxSize segs = .ok (readViews lo last maxSize us) := by
  induction h with
  | nil => rfl
  | @cons seg u segs us hseg hrest ih =>
      have hu := hne u List.mem_cons_self
      obtain ⟨h1, h2⟩ := hmeets u List.mem_cons_self
      have hlt : u.first < u.next := u.first_lt_next hu
      have ih := ih (fun x hx => hne x (List.mem_cons_of_mem u hx))
        (fun x hx => hmeets x (List.mem_cons_of_mem u hx))
      have hnext : u.next = u.first + u.es.length := rfl
      have hbegin : u.first ≤ if u.first < lo then lo else u.first := by split <;> omega
      have hend : (if u.next - 1 < last then u.next - 1 else last) < u.next := by
        split <;> omega
      have hread := hseg.readRaftEntries maxSize hbegin (by split <;> split <;> omega) hend
      rw [window_clip] at hread
      rw [readSegments, hseg.firstIndex, hseg.lastIndex, SegView.firstIndex_of_ne hu,
        SegView.lastIndex_of_ne hu]
      simp only [hread, bind, Except.bind, ih, readViews, pure, Except.pure]
      split <;> rfl

/-- The segments to read are those that meet the window. -/
theorem Rep.getReadSegments {lo last : Nat} (h : s.Rep c z v) (hwf : v.WF) (hlo : v.start ≤ lo)
    (hle : lo ≤ last) (hhi : last < v.next) :
    ∃ segs, s.getReadSegments lo last = .ok segs ∧
      List.Forall₂ (Segment.Readable c) segs
        (v.views.filter fun u => Chunks.Meets SegView.first SegView.es lo last u) := by
  have hnext := hwf.next_eq
  have hpos := v.start_pos
  have hchain := hwf.chained
  have hread := h.readable
  obtain ⟨bs₁, x, cs₁, h₁, hx⟩ := hchain.exists_covers hlo
    (Nat.lt_of_le_of_lt hle (hnext ▸ hhi))
  obtain ⟨bs₂, y, cs₂, h₂, hy⟩ := hchain.exists_covers (Nat.le_trans hlo hle) (hnext ▸ hhi)
  have heq : bs₁ ++ x :: cs₁ = bs₂ ++ y :: cs₂ := h₁.symm.trans h₂
  have hchain₂ := hchain
  rw [h₁] at hchain hread
  rw [h₂] at hchain₂
  have hlen := hchain.length_le heq hx hy hle
  have hlength : s.segments.length = bs₁.length + (cs₁.length + 1) := by
    rw [hread.length_eq, List.length_append, List.length_cons]
  have hlength₂ : s.segments.length = bs₂.length + (cs₂.length + 1) := by
    rw [hread.length_eq, heq, List.length_append, List.length_cons]
  -- which of the segments contain the two ends of the window
  have hget : ∀ (j : Nat) (seg : Segment), s.segments[j]? = some seg →
      ∃ u, (bs₁ ++ x :: cs₁)[j]? = some u ∧ seg.Readable c u := by
    intro j seg hj
    obtain ⟨hjlt, rfl⟩ := List.getElem?_eq_some_iff.mp hj
    have hjlt' : j < (bs₁ ++ x :: cs₁).length := by rw [← hread.length_eq]; exact hjlt
    exact ⟨_, List.getElem?_eq_getElem hjlt', hread.get hjlt hjlt'⟩
  have hfirst : ∀ (j : Nat) (seg : Segment), s.segments[j]? = some seg →
      seg.contains lo = decide (j = bs₁.length) := by
    intro j seg hj
    obtain ⟨u, hu, hr⟩ := hget j seg hj
    rw [hr.contains (by omega)]
    exact decide_eq_decide.mpr (hchain.covers_iff hx hu)
  have hlast : ∀ (j : Nat) (seg : Segment), s.segments[j]? = some seg →
      seg.contains last = decide (j = bs₂.length) := by
    intro j seg hj
    obtain ⟨u, hu, hr⟩ := hget j seg hj
    rw [heq] at hu
    rw [hr.contains (by omega)]
    exact decide_eq_decide.mpr (hchain₂.covers_iff hy hu)
  have hscan := scanSegments_eq hlen hfirst hlast s.segments.length (Nat.le_refl _) (by omega)
  rw [if_neg (by omega)] at hscan
  rw [DiskStorage.getReadSegments, hscan]
  simp only [if_neg (Nat.not_lt.mpr hlen)]
  refine ⟨_, rfl, ?_⟩
  rw [h₁, hchain.filter_meets heq hx hy hle]
  exact List.forall₂_take _ (List.forall₂_drop _ hread)

/-- **What `Entries` returns depends on the segmented log only**, whatever the
arguments. -/
theorem Rep.entries (h : s.Rep c z v) (hwf : v.WF) (hfull : v.Full) (lo hi maxSize : Nat) :
    s.entries lo hi maxSize = v.readEntries lo hi maxSize := by
  have hfirst := h.firstIndex hfull
  have hlast := h.lastIndex hfull
  unfold DiskStorage.entries SegLog.readEntries
  simp only
  generalize (hi + (2 ^ 64 - 1)) % 2 ^ 64 = last
  by_cases h1 : last < lo
  · rw [if_pos h1, if_pos h1]
  rw [if_neg h1, if_neg h1]
  simp only [checkRaftIndex, hfirst, hlast]
  by_cases h2 : lo < v.start
  · rw [if_pos h2, if_pos h2]
    rfl
  rw [if_neg h2, if_neg h2]
  by_cases h3 : v.next - 1 < lo
  · rw [if_pos h3, if_pos (Or.inl h3)]
    rfl
  rw [if_neg (Nat.not_lt.mpr (Nat.le_of_not_lt h3)), if_neg (by omega)]
  by_cases h4 : v.next - 1 < last
  · rw [if_pos h4, if_pos (Or.inr h4)]
    rfl
  have hpos := v.start_pos
  obtain ⟨segs, hsegs, hread⟩ := h.getReadSegments hwf (Nat.le_of_not_lt h2) (Nat.le_of_not_lt h1)
    (by omega)
  have hreadsegs := readSegments_eq maxSize (Nat.le_of_not_lt h1) hread
    (fun u hu => hfull u (List.mem_filter.mp hu).1)
    (fun u hu => of_decide_eq_true (List.mem_filter.mp hu).2)
  rw [if_neg (by omega), if_neg (by omega)]
  simp only [bind, Except.bind, hsegs, hreadsegs]

/-! ## Reading without a limit -/

/-- The size the read loop counts for entries is at most what they take in the
file. -/
theorem readLimited_noLimit : ∀ (xs : List Entry) (readSize : Nat),
    readSize + (encode xs).length < noLimit →
    (Segment.readLimited noLimit readSize xs).1 = xs ∧
      (Segment.readLimited noLimit readSize xs).2 ≤ readSize + (encode xs).length
  | [], _, _ => ⟨rfl, Nat.le_add_right _ _⟩
  | e :: es, readSize, h => by
      have hsize := size_lt_toRecord_size e
      unfold noLimit at h
      rw [encode_cons, List.length_append, length_frame] at h ⊢
      have hmod : (readSize + e.size) % 2 ^ 64 = readSize + e.size := Nat.mod_eq_of_lt (by omega)
      obtain ⟨h1, h2⟩ := readLimited_noLimit es (readSize + e.size) (by unfold noLimit; omega)
      simp only [Segment.readLimited, hmod, if_neg (show ¬ readSize + e.size > noLimit by
        unfold noLimit; omega), h1, true_and]
      omega

theorem length_encode_window_le (lo last : Nat) : ∀ xs : List Entry,
    (encode (Numbered.window Entry.index lo last xs)).length ≤ (encode xs).length
  | [] => Nat.le_refl _
  | e :: es => by
      have ih := length_encode_window_le lo last es
      unfold Numbered.window at ih ⊢
      rw [List.filter_cons]
      split
      · rw [encode_cons, encode_cons, List.length_append, List.length_append]
        omega
      · rw [encode_cons, List.length_append]
        omega

/-- Without a limit the segments are read to their ends. -/
theorem readViews_noLimit (lo last : Nat) : ∀ us : List SegView,
    (∀ u ∈ us, (encode u.es).length ≤ 2 ^ 32) →
    readViews lo last noLimit us = Numbered.window Entry.index lo last (us.flatMap SegView.es)
  | [], _ => rfl
  | u :: us, h => by
      have ih := readViews_noLimit lo last us fun x hx => h x (List.mem_cons_of_mem u hx)
      have hu := h u List.mem_cons_self
      have hw := length_encode_window_le lo last u.es
      obtain ⟨h1, h2⟩ := readLimited_noLimit (Numbered.window Entry.index lo last u.es) 0
        (by unfold noLimit; omega)
      have hrem : ¬ Segment.remaining noLimit
          (Segment.readLimited noLimit 0 (Numbered.window Entry.index lo last u.es)).2 = 0 := by
        have hno : noLimit = 2 ^ 64 - 1 := rfl
        rw [Segment.remaining, if_neg (by omega)]
        omega
      rw [readViews, if_neg hrem, h1, ih, List.flatMap_cons, Numbered.window_append]

/-- Segments that do not meet the window add nothing to it. -/
theorem window_filter_meets (lo last : Nat) : ∀ us : List SegView,
    Numbered.window Entry.index lo last ((us.filter fun u =>
        Chunks.Meets SegView.first SegView.es lo last u).flatMap SegView.es) =
      Numbered.window Entry.index lo last (us.flatMap SegView.es)
  | [] => rfl
  | u :: us => by
      have ih := window_filter_meets lo last us
      rw [List.flatMap_cons, Numbered.window_append, ← ih, List.filter_cons]
      split
      · rw [List.flatMap_cons, Numbered.window_append]
      · next hno =>
        rw [decide_eq_true_eq] at hno
        have hout : last < u.first ∨ u.first + u.es.length ≤ lo := by
          unfold Chunks.Meets at hno
          omega
        rw [u.numbered.window_eq_nil hout, List.nil_append]

theorem cutLimit_noLimit : ∀ (es : List Entry) (size : Nat),
    cutLimit noLimit size es = es.length
  | [], _ => rfl
  | e :: es, size => by
      have hlt : ¬ (size + dataLen e) % 2 ^ 64 > noLimit := by
        have := Nat.mod_lt (size + dataLen e) (show 0 < 2 ^ 64 by decide)
        unfold noLimit
        omega
      simp only [cutLimit, if_neg hlt, cutLimit_noLimit es, List.length_cons]
      omega

theorem continuous_of_numbered : ∀ {es : List Entry} {n : Nat}, Numbered Entry.index n es →
    continuous es = true
  | [], _, _ => rfl
  | [_], _, _ => rfl
  | e :: f :: es, n, h => by
      have hf := f.index_lt
      have h1 := h.1
      have h2 := h.2.1
      rw [continuous, continuous_of_numbered h.2, Bool.and_true, decide_eq_true_eq]
      omega

theorem cutRaftEntries_noLimit {n : Nat} (h : Numbered Entry.index n es) :
    cutRaftEntries es noLimit = .ok es := by
  cases es with
  | nil => rfl
  | cons e es =>
      simp only [cutRaftEntries, continuous_of_numbered h, if_true, cutLimit_noLimit]
      rw [List.take_of_length_le (by rw [List.length_cons]; omega)]

/-- **Without a limit `Entries` returns exactly the entries asked for**, wherever
the segment boundaries are. -/
theorem readEntries_noLimit (hwf : v.WF) (hbytes : ∀ u ∈ v.views, (encode u.es).length ≤ 2 ^ 32)
    {lo hi : Nat} (hlo : v.start ≤ lo) (hlt : lo < hi) (hhi : hi ≤ v.next) (hmax : hi ≤ 2 ^ 64) :
    v.readEntries lo hi noLimit = .ok (v.log.slice lo hi) := by
  have hlast : (hi + (2 ^ 64 - 1)) % 2 ^ 64 = hi - 1 := by omega
  have hnum := hwf.numbered
  have hnext := hwf.next_eq
  unfold SegLog.readEntries
  simp only [hlast]
  rw [if_neg (by omega), if_neg (by omega), if_neg (by omega),
    readViews_noLimit _ _ _ (fun u hu => hbytes u (List.mem_filter.mp hu).1), window_filter_meets,
    show v.views.flatMap SegView.es = v.entries from rfl,
    cutRaftEntries_noLimit (hnum.numbered_window hlo (by omega) (by omega)),
    hnum.window_eq hlo (by omega), PlainLog.slice, show hi - 1 + 1 - lo = hi - lo by omega]
  rfl

end Spec

end DiskStorage

end Kingbus
