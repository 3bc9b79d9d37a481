import Kingbus.SizeLimit

/-! # `TruncateSuffix` and `SaveRaftEntries` call by call

Raft hands a batch to `Node.appendRaftEntries`, which truncates and saves.  Here the two are
calls of their own, in any order, so that the storage between them is looked at too: the one
whose last segment was emptied by a truncation and which reports 0 as its last index.

* `truncateSuffix_exact_iff` says when a truncation leaves the log up to the index;
* `gap_refused_iff` says when a batch that leaves a gap is refused. -/

namespace Kingbus

/-- The storages of a process that saves only behind the last entry. -/
inductive InProcess (c : Config) : DiskStorage → Prop
  | opened {s : DiskStorage} : Reachable c s → InProcess c s
  | save {s s' : DiskStorage} (es : List Entry) : InProcess c s →
      Numbered Entry.index s.nextIndex es → s.saveRaftEntries c es = (s', .ok ()) → InProcess c s'
  | truncate {s s' : DiskStorage} (i : Nat) : InProcess c s →
      s.truncateSuffix i = (s', .ok ()) → InProcess c s'
  | purge {s : DiskStorage} (reserveSegmentCount : Nat) : InProcess c s →
      1 ≤ reserveSegmentCount → InProcess c (s.purge reserveSegmentCount)

section Invariant
variable {c : Config} {z : Bool} {s s' : DiskStorage} {v : SegLog} {es : List Entry}

/-- A save that succeeds appends its batch. -/
theorem DiskStorage.Rep.saved (h : s.Rep c z v) (hwf : v.WF)
    (hes : Numbered Entry.index v.next es) (hsave : s.saveRaftEntries c es = (s', .ok ())) :
    ∃ v', s'.Rep c z v' ∧ v'.WF ∧ v'.start = v.start ∧ v'.entries = v.entries ++ es := by
  cases es with
  | nil =>
      cases hsave
      exact ⟨v, h, hwf, rfl, (List.append_nil _).symm⟩
  | cons e es =>
      by_cases hfit : (encode (e :: es)).length ≤ c.segmentSize
      · obtain ⟨s₁, heq, hrep⟩ := h.saveRaftEntries (List.cons_ne_nil e es) hes hfit
        rw [hsave] at heq
        cases heq
        exact ⟨_, hrep, hwf.save hes hfit⟩
      · rw [DiskStorage.saveRaftEntries_too_large (Nat.lt_of_not_le hfit)] at hsave
        cases hsave

/-- Every storage of a process holds a segmented log. -/
theorem InProcess.rep (h : InProcess c s) : ∃ v, s.Rep c false v ∧ v.WF := by
  induction h with
  | opened h => exact h.rep
  | save es _ hes hsave ih =>
      obtain ⟨v, hrep, hwf⟩ := ih
      obtain ⟨v', hrep', hwf', -⟩ := hrep.saved hwf (hrep.nextIndex ▸ hes) hsave
      exact ⟨v', hrep', hwf'⟩
  | truncate i _ htr ih =>
      obtain ⟨v, hrep, hwf⟩ := ih
      obtain ⟨hlo, hhi, hrep'⟩ := hrep.truncated hwf htr
      exact ⟨_, hrep', (hwf.truncate hlo hhi).1⟩
  | purge reserve _ hr ih =>
      obtain ⟨v, hrep, hwf⟩ := ih
      exact ⟨_, hrep.purge hr, (hwf.purge reserve).1⟩

end Invariant

namespace DiskStorage

/-! ## Truncating -/

/-- What a truncation of `s` at `i` should leave. -/
structure TruncatedAt (s : DiskStorage) (i : Nat) (s' : DiskStorage) : Prop where
  lastIndex : s'.lastIndex = i - 1
  firstIndex : s.firstIndex < i → s'.firstIndex = s.firstIndex
  below : ∀ lo hi maxSize, s.firstIndex ≤ lo → lo < hi → hi ≤ i →
    ∃ es, s.entries lo hi maxSize = .ok es ∧ s'.entries lo hi maxSize = .ok es
  above : ∀ lo hi maxSize es, s'.entries lo hi maxSize = .ok es →
    lo < i ∧ ∀ e ∈ es, e.index < i
  term : ∀ j, i ≤ j → ∀ t, s'.term j ≠ .ok t

section Truncate
variable {c : Config} {z : Bool} {s s' : DiskStorage} {v : SegLog} {i lo hi : Nat}

theorem length_cut {u : SegView} (hu : Chunks.Covers SegView.first SegView.es i u) :
    (u.cut i).es.length = i - u.first := by
  have := hu.2
  rw [SegView.cut, List.length_take]
  omega

/-- Below the index the pieces of a window stay the same. -/
theorem pieces_truncate (hwf : v.WF) (hlo : v.start ≤ i) (hhi : i < v.next) {last : Nat}
    (hle : lo ≤ last) (hlast : last < i) :
    pieces (v.truncate i) lo last = pieces v lo last := by
  obtain ⟨before, u, behind, hviews, hu, -, htr⟩ := hwf.truncate_eq hlo hhi
  have hchain := hwf.chained
  rw [hviews] at hchain
  have hbehind : behind.filter (fun b => Chunks.Meets SegView.first SegView.es lo last b) = [] := by
    refine List.filter_eq_nil_iff.mpr fun b hb hm => ?_
    have := hchain.behind b hb
    have := (of_decide_eq_true hm).1
    have := hu.2
    omega
  have hmeets : Chunks.Meets SegView.first SegView.es lo last (u.cut i) ↔
      Chunks.Meets SegView.first SegView.es lo last u := by
    have h1 := hu.1
    have h2 := hu.2
    unfold Chunks.Meets
    rw [length_cut hu, show (u.cut i).first = u.first from rfl]
    omega
  have hwindow : Numbered.window Entry.index lo last (u.cut i).es =
      Numbered.window Entry.index lo last u.es := by
    have hk : i - u.first ≤ u.es.length := by
      have := hu.2
      omega
    have hrest : Numbered.window Entry.index lo last (u.es.drop (i - u.first)) = [] :=
      (u.numbered.drop hk).window_eq_nil (.inl (by have := hu.1; omega))
    conv_rhs => rw [← List.take_append_drop (i - u.first) u.es, Numbered.window_append, hrest,
      List.append_nil]
    rfl
  unfold pieces
  rw [hviews, htr, SegLog.views, List.filter_append, List.filter_append, List.filter_cons,
    List.filter_cons, hbehind, List.filter_nil]
  by_cases hm : Chunks.Meets SegView.first SegView.es lo last u
  · rw [if_pos (decide_eq_true (hmeets.mpr hm)), if_pos (decide_eq_true hm)]
    simp only [List.map_append, List.map_cons, List.map_nil, hwindow]
  · rw [if_neg (by simpa using fun h => hm (hmeets.mp h)), if_neg (by simpa using hm)]

/-- A read below the index gives the same before and after. -/
theorem entries_below (h : s.Rep c z v) (h' : s'.Rep c z (v.truncate i)) (hwf : v.WF)
    (hfull : v.Full) (hfull' : (v.truncate i).Full) (hlo : v.start ≤ i) (hhi : i < v.next)
    (hle : v.start ≤ lo) (hlt : lo < hi) (hi' : hi ≤ i) (maxSize : Nat) :
    ∃ es, s.entries lo hi maxSize = .ok es ∧ s'.entries lo hi maxSize = .ok es := by
  obtain ⟨hwf', hstart, hnext, -⟩ := hwf.truncate hlo hhi
  obtain ⟨m, -, heq⟩ := h.entries_take hwf hfull hle hlt (by omega) maxSize
  refine ⟨_, heq, ?_⟩
  have hmax := Refines.next_le hfull
  have hlast : (hi + (2 ^ 64 - 1)) % 2 ^ 64 = hi - 1 := by omega
  have hp := pieces_truncate hwf hlo hhi (show lo ≤ hi - 1 by omega) (show hi - 1 < i by omega)
  rw [← heq, h.entries hwf hfull, h'.entries hwf' hfull', SegLog.readEntries, SegLog.readEntries,
    SegLog.readViews_eq_readPieces, SegLog.readViews_eq_readPieces]
  simp only [hlast]
  unfold pieces at hp
  rw [hp, if_neg (by omega), if_neg (by omega), if_neg (by omega), if_neg (by omega),
    if_neg (by omega), if_neg (by omega)]

/-- What `Entries` checks before it reads. -/
theorem bounds_of_entries {maxSize : Nat} {es : List Entry}
    (h : s.entries lo hi maxSize = .ok es) :
    lo ≤ (hi + (2 ^ 64 - 1)) % 2 ^ 64 ∧ s.firstIndex ≤ lo ∧
      (hi + (2 ^ 64 - 1)) % 2 ^ 64 ≤ s.lastIndex := by
  unfold DiskStorage.entries at h
  simp only at h
  generalize (hi + (2 ^ 64 - 1)) % 2 ^ 64 = last at h ⊢
  by_cases h1 : last < lo
  · rw [if_pos h1] at h
    cases h
  rw [if_neg h1] at h
  by_cases h2 : lo < s.firstIndex
  · rw [checkRaftIndex, if_pos h2] at h
    cases h
  by_cases h3 : last > s.lastIndex
  · rw [checkRaftIndex, if_neg h2] at h
    split at h
    · cases h
    · rw [checkRaftIndex, if_neg (by omega), if_pos h3] at h
      cases h
  exact ⟨Nat.le_of_not_lt h1, Nat.le_of_not_lt h2, Nat.le_of_not_lt h3⟩

/-- A read that succeeds is one up to an index that is there. -/
theorem exists_last_of_entries {maxSize : Nat} {es : List Entry}
    (h : s.entries lo hi maxSize = .ok es) : ∃ last, lo ≤ last ∧ s.firstIndex ≤ lo ∧
      last ≤ s.lastIndex ∧ s.entries lo (last + 1) maxSize = .ok es := by
  obtain ⟨h1, h2, h3⟩ := bounds_of_entries h
  have hmod := Nat.mod_lt (hi + (2 ^ 64 - 1)) (show 0 < 2 ^ 64 by decide)
  have hsame : s.entries lo hi maxSize =
      s.entries lo ((hi + (2 ^ 64 - 1)) % 2 ^ 64 + 1) maxSize := Refines.entries_congr (by omega)
  exact ⟨_, h1, h2, h3, hsame.symm.trans h⟩

/-- An emptied storage returns nothing. -/
theorem Rep.full_of_entries (h : s.Rep c z v) (hwf : v.WF) {maxSize : Nat} {es : List Entry}
    (hread : s.entries lo hi maxSize = .ok es) : s.lastIndex ≠ 0 ∧ v.Full := by
  obtain ⟨last, h1, h2, h3, hread⟩ := exists_last_of_entries hread
  have hlast : s.lastIndex ≠ 0 := by
    intro hlast
    obtain ⟨seg, w, hs, hw, h0, rfl, hone⟩ :=
      h.emptied hwf h2 (show lo < last + 1 by omega) (by omega) hlast
    rw [hone, entries_emptied hs hw h0] at hread
    cases hread
  exact ⟨hlast, h.full hwf hlast⟩

/-- What `Entries` returns has indexes up to the last one only. -/
theorem Rep.index_le_of_entries (h : s.Rep c z v) (hwf : v.WF) {maxSize : Nat} {es : List Entry}
    (hread : s.entries lo hi maxSize = .ok es) : ∀ e ∈ es, e.index ≤ s.lastIndex := by
  obtain ⟨hlast, hfull⟩ := h.full_of_entries hwf hread
  obtain ⟨last, h1, h2, h3, hread⟩ := exists_last_of_entries hread
  have hnext := h.lastIndex hfull
  rw [h.firstIndex hfull] at h2
  obtain ⟨m, -, heq⟩ := h.entries_take hwf hfull h2 (show lo < last + 1 by omega) (by omega) maxSize
  rw [hread] at heq
  cases heq
  intro e he
  have hmem : e ∈ v.log.entries := List.mem_of_mem_drop (List.mem_of_mem_take (List.mem_of_mem_take he))
  have := hwf.numbered.of_mem hmem
  have := hwf.next_eq
  omega

/-- Behind the last index there is no term. -/
theorem term_above (hi : 1 ≤ i) (hlast : s.lastIndex < i) (t : Nat) : s.term i ≠ .ok t := by
  rw [DiskStorage.term, if_neg (by omega), checkRaftIndex]
  by_cases hfirst : i < s.firstIndex
  · rw [if_pos hfirst]
    intro h
    cases h
  · rw [if_neg hfirst, if_pos hlast]
    intro h
    cases h

/-- A truncation after which the last index is right leaves nothing at or above `i`. -/
theorem TruncatedAt.of_lastIndex (h : s'.Rep c z v) (hwf : v.WF) (hi : 1 ≤ i)
    (hlast : s'.lastIndex = i - 1) (hfirst : s.firstIndex < i → s'.firstIndex = s.firstIndex)
    (hbelow : ∀ lo hi maxSize, s.firstIndex ≤ lo → lo < hi → hi ≤ i →
      ∃ es, s.entries lo hi maxSize = .ok es ∧ s'.entries lo hi maxSize = .ok es) :
    TruncatedAt s i s' where
  lastIndex := hlast
  firstIndex := hfirst
  below := hbelow
  above lo hi maxSize es hread := by
    obtain ⟨h1, -, h3⟩ := bounds_of_entries hread
    refine ⟨by omega, fun e he => ?_⟩
    have := h.index_le_of_entries hwf hread e he
    omega
  term j hj t := term_above (by omega) (by omega) t

/-- A segment starts at the index if and only if the one that holds it does. -/
theorem Rep.exists_firstIndex_iff (h : s.Rep c z v) (hwf : v.WF) (hfull : v.Full) {u : SegView}
    (hmem : u ∈ v.views) (hu : Chunks.Covers SegView.first SegView.es i u) :
    (∃ seg ∈ s.segments, seg.firstIndex = i) ↔ u.first = i := by
  constructor
  · rintro ⟨seg, hseg, heq⟩
    obtain ⟨x, hx, hread⟩ := forall₂_exists h.readable seg hseg
    have hne := hfull x hx
    rw [hread.firstIndex, SegView.firstIndex_of_ne hne] at heq
    have hlen := List.length_pos_of_ne_nil hne
    have hcov : Chunks.Covers SegView.first SegView.es i x := ⟨by omega, by omega⟩
    rw [hwf.chained.covers_unique hmem hx hu hcov]
    exact heq
  · intro hfirst
    obtain ⟨seg, hseg, hread⟩ := forall₂_exists h.readable.flip u hmem
    have hread : seg.Readable c u := hread
    refine ⟨seg, hseg, ?_⟩
    rw [hread.firstIndex, SegView.firstIndex_of_ne (hfull u hmem), hfirst]

/-- The last segment of a truncated storage is emptied if and only if it started at the
index. -/
theorem cut_eq_nil_iff {u : SegView} (hu : Chunks.Covers SegView.first SegView.es i u) :
    (u.cut i).es = [] ↔ u.first = i := by
  have hle := hu.1
  rw [← List.length_eq_zero_iff, length_cut hu]
  omega

/-- **When a truncation is exact**: the index is not the first one of a segment, or it is 1.
Only then is the last segment left with entries, or the last index 0 right. -/
theorem truncateSuffix_exact_iff (h : InProcess c s) (hlo : s.firstIndex ≤ i)
    (hhi : i ≤ s.lastIndex) (htr : s.truncateSuffix i = (s', .ok ())) :
    TruncatedAt s i s' ↔ i = 1 ∨ ∀ seg ∈ s.segments, seg.firstIndex ≠ i := by
  obtain ⟨v, hrep, hwf⟩ := h.rep
  obtain ⟨hstart, hend, hrep'⟩ := hrep.truncated hwf htr
  have hpos := v.start_pos
  have hfull := hrep.full hwf (by omega)
  have hfirst := hrep.firstIndex hfull
  obtain ⟨hwf', hstart', hnext', -⟩ := hwf.truncate hstart hend
  obtain ⟨before, u, behind, hviews, hu, -, hcut⟩ := hwf.truncate_eq hstart hend
  have hmem : u ∈ v.views := by
    rw [hviews]
    exact List.mem_append_right _ List.mem_cons_self
  have hstarts := hrep.exists_firstIndex_iff hwf hfull hmem hu
  by_cases hedge : u.first = i
  · -- the last segment is emptied
    have hlast' : s'.lastIndex = 0 := by
      rw [hcut] at hrep'
      obtain ⟨init, last, hs, -, hw⟩ := hrep'
      rw [DiskStorage.lastIndex, hs, List.getLast?_concat]
      exact hw.lastIndex.trans (if_pos ((cut_eq_nil_iff hu).mpr hedge))
    constructor
    · intro hexact
      have := hexact.lastIndex
      omega
    · rintro (rfl | hnone)
      · refine .of_lastIndex hrep' hwf' (Nat.le_refl 1) hlast' (by omega) ?_
        intro lo hi maxSize h1 h2 h3
        omega
      · obtain ⟨seg, hseg, heq⟩ := hstarts.mpr hedge
        exact absurd heq (hnone seg hseg)
  · have hfull' : (v.truncate i).Full := by
      rw [hcut]
      intro x hx
      rcases List.mem_append.mp hx with hx | hx
      · exact hwf.done_ne x (SegLog.mem_done_of_split hviews x hx)
      · rw [List.mem_singleton.mp hx]
        exact fun h0 => hedge ((cut_eq_nil_iff hu).mp h0)
    refine iff_of_true ?_ (.inr fun seg hseg heq => hedge (hstarts.mp ⟨seg, hseg, heq⟩))
    refine .of_lastIndex hrep' hwf' (by omega) (by rw [hrep'.lastIndex hfull', hnext']) ?_ ?_
    · intro _
      rw [hrep'.firstIndex hfull', hstart', hfirst]
    · intro lo hi maxSize h1 h2 h3
      exact entries_below hrep hrep' hwf hfull hfull' hstart hend (by omega) h2 h3 maxSize

end Truncate

/-- Entry 2 lies inside the read-only segment: entry 1 stays, 2 and 3 are gone. -/
theorem truncateSuffix_exact_smallRolled :
    ∃ s', smallRolled.truncateSuffix 2 = (s', .ok ()) ∧ TruncatedAt smallRolled 2 s' := by
  refine ⟨(smallRolled.truncateSuffix 2).1, by decide +kernel, ?_⟩
  refine (truncateSuffix_exact_iff (.opened smallRolled_reachable) (by decide +kernel)
    (by decide +kernel) (by decide +kernel)).mpr (.inr ?_)
  decide +kernel

/-- **A truncation that hides the log**: entry 3 is the first one of the writable segment.
Entries 1 and 2 are still there, but the last index is 0 and they cannot be read. -/
theorem truncateSuffix_at_segment_start :
    ∃ s', Reachable .small smallRolled ∧ smallRolled.firstIndex = 1 ∧ smallRolled.lastIndex = 3 ∧
      smallRolled.truncateSuffix 3 = (s', .ok ()) ∧ s'.lastIndex = 0 ∧
      s'.entries 1 3 noLimit = .error (.error .outOfBound) :=
  ⟨(smallRolled.truncateSuffix 3).1, smallRolled_reachable, by decide +kernel⟩

/-! ## Saving behind a gap -/

section Gap
variable {c : Config} {s : DiskStorage} {w : SegView} {init : List Segment} {last : Segment}

/-- Appending a record fails with a panic only. -/
theorem appendRecord_error {seg : Segment} {record : Record} {n : Nat} {f : Failure}
    (h : seg.appendRecord record n = .error f) : ∃ m, f = .panic m := by
  unfold Segment.appendRecord MmapFile.append Index.appendIndexEntry at h
  simp only [bind, Except.bind, pure, Except.pure] at h
  split at h
  · next h1 =>
    split at h1
    · cases h1
    · cases h1
      cases h
      exact ⟨_, rfl⟩
  · split at h
    · next h2 =>
      split at h2
      · cases h2
      · cases h2
        cases h
        exact ⟨_, rfl⟩
    · split at h
      · next h3 =>
        split at h3
        · cases h3
          cases h
          exact ⟨_, rfl⟩
        · cases h3
      · cases h

theorem appendLoop_error {records : List Record} {seg : Segment} {n : Nat} {f : Failure}
    (h : seg.appendLoop records n = .error f) : ∃ m, f = .panic m := by
  induction records generalizing seg n with
  | nil => cases h
  | cons record records ih =>
      rw [Segment.appendLoop] at h
      cases hrec : seg.appendRecord record n with
      | error g =>
          rw [hrec] at h
          cases h
          exact appendRecord_error hrec
      | ok seg' =>
          rw [hrec] at h
          exact ih h

variable {e : Entry} {es : List Entry} (hs : s.segments = init ++ [last])
include hs

/-- With room in the last segment the batch is handed to it. -/
theorem saveRaftEntries_room {f : Failure} (hmax : last.logFile.maxBytes = c.segmentSize)
    (hroll : last.needRolling (encode (e :: es)).length = false) :
    s.saveRaftEntries c (e :: es) = (s, .error f) ↔
      last.appendRecords ((e :: es).map Entry.toRecord) e.index = .error f := by
  have hfit : (encode (e :: es)).length ≤ c.segmentSize := by
    have := of_decide_eq_false hroll
    omega
  rw [saveRaftEntries_cons hfit]
  cases happ : last.appendRecords ((e :: es).map Entry.toRecord) e.index with
  | error g =>
      simp only [getWriteSegment, hs, List.getLast?_concat, hroll, Bool.false_eq_true, if_false,
        happ, Prod.mk.injEq, true_and, Except.error.injEq]
  | ok seg =>
      simp only [getWriteSegment, hs, List.getLast?_concat, hroll, Bool.false_eq_true, if_false,
        happ, Prod.mk.injEq, reduceCtorEq, and_false]

/-- The check of the segment, and nothing behind it, refuses a batch. -/
theorem saveRaftEntries_room_iff (hw : last.Writable c false w) (hlast : last.lastIndex ≠ 0)
    (hroll : last.needRolling (encode (e :: es)).length = false) :
    s.saveRaftEntries c (e :: es) = (s, .error (.error .notContinuous)) ↔
      (last.lastIndex + 1) % 2 ^ 64 ≠ e.index := by
  rw [saveRaftEntries_room hs hw.file.maxBytes hroll, Segment.appendRecords,
    if_neg (by rw [hw.status]; exact fun h => h rfl)]
  by_cases hgap : (last.lastIndex + 1) % 2 ^ 64 ≠ e.index
  · rw [if_pos ⟨hlast, hgap⟩]
    exact iff_of_true rfl hgap
  · rw [if_neg fun h => hgap h.2]
    refine iff_of_false (fun heq => ?_) hgap
    cases hloop : last.appendLoop ((e :: es).map Entry.toRecord) e.index with
    | error f =>
        obtain ⟨m, rfl⟩ := appendLoop_error hloop
        rw [hloop] at heq
        cases heq
    | ok seg =>
        rw [hloop] at heq
        cases heq

/-- Rolling changes the storage, whatever becomes of the batch. -/
theorem saveRaftEntries_rolled {prev : Segment}
    (hfit : (encode (e :: es)).length ≤ c.segmentSize)
    (hroll : last.needRolling (encode (e :: es)).length = true)
    (hprev : last.changeToReadonly = .ok prev) (hne : prev ≠ last) :
    (s.saveRaftEntries c (e :: es)).1 ≠ s := by
  have hsegs : ∀ rest, (⟨init ++ [prev] ++ rest⟩ : DiskStorage) ≠ s := by
    intro rest heq
    have hsame : init ++ [prev] ++ rest = init ++ [last] := by rw [← hs, ← heq]
    rw [List.append_assoc] at hsame
    have := List.append_cancel_left hsame
    cases this
    exact hne rfl
  rw [saveRaftEntries_cons hfit]
  simp only [getWriteSegment, hs, List.getLast?_concat, hroll, if_true, rollingSegment, hprev,
    List.dropLast_concat]
  cases DiskStorage.newSegment c ⟨init ++ [prev]⟩ (.inprogress e.index) with
  | error f =>
      have := hsegs []
      rwa [List.append_nil] at this
  | ok seg =>
      simp only [Except.map]
      cases seg.appendRecords ((e :: es).map Entry.toRecord) e.index with
      | error f =>
          have := hsegs []
          rwa [List.append_nil] at this
      | ok seg' => exact hsegs [seg']

omit hs

/-- **When a batch with a gap is refused** and changes nothing: there is room for it in the
last segment, and its first index is not the one the 64 bit check takes for the next. -/
theorem gap_refused_iff (h : InProcess c s) (hlast : s.lastIndex ≠ 0) (e : Entry)
    (es : List Entry) :
    s.saveRaftEntries c (e :: es) = (s, .error (.error .notContinuous)) ↔
      (s.lastIndex + 1) % 2 ^ 64 ≠ e.index ∧ ∀ seg ∈ s.segments.getLast?,
        seg.logFile.writePosition + (encode (e :: es)).length ≤ c.segmentSize := by
  obtain ⟨v, hrep, hwf⟩ := h.rep
  have hfull := hrep.full hwf hlast
  cases v with
  | empty =>
      rw [DiskStorage.lastIndex, show s.segments = [] from hrep] at hlast
      exact absurd rfl hlast
  | segs d w =>
      obtain ⟨init, last, hs, -, hw⟩ := hrep
      have hidx : s.lastIndex = last.lastIndex := by
        rw [DiskStorage.lastIndex, hs, List.getLast?_concat]
      have hroom : (∀ seg ∈ s.segments.getLast?,
          seg.logFile.writePosition + (encode (e :: es)).length ≤ c.segmentSize) ↔
          last.needRolling (encode (e :: es)).length = false := by
        rw [hs, List.getLast?_concat, Segment.needRolling, hw.file.maxBytes,
          decide_eq_false_iff_not]
        simp
      rw [hidx] at hlast ⊢
      rw [hroom]
      cases hroll : last.needRolling (encode (e :: es)).length with
      | false => rw [saveRaftEntries_room_iff hs hw hlast hroll, and_iff_left rfl]
      | true =>
          refine iff_of_false (fun heq => ?_) (by simp)
          by_cases hfit : (encode (e :: es)).length ≤ c.segmentSize
          · have hne := hfull w (List.mem_append_right _ (List.mem_singleton_self w))
            obtain ⟨prev, hprev, hsealed⟩ := hw.changeToReadonly hne
            refine saveRaftEntries_rolled hs hfit hroll hprev ?_ (by rw [heq])
            rintro rfl
            have hro := hsealed.status
            rw [hw.status] at hro
            cases hro
          · rw [saveRaftEntries_too_large (Nat.lt_of_not_le hfit)] at heq
            cases heq

end Gap

/-- Entry 10 would fit behind entry 3 and is refused. -/
theorem gap_refused_smallRolled :
    smallRolled.lastIndex = 3 ∧
      smallRolled.saveRaftEntries .small [.small 1 10] =
        (smallRolled, .error (.error .notContinuous)) :=
  ⟨by decide +kernel, (gap_refused_iff (.opened smallRolled_reachable) (by decide +kernel)
    (.small 1 10) []).mpr (by decide +kernel)⟩

/-- **A gap that is accepted**: entries 10 and 11 do not fit behind entry 3, so a new segment
is made for them. -/
theorem gap_accepted_by_rolling :
    ∃ s', Reachable .small smallRolled ∧ smallRolled.lastIndex = 3 ∧
      smallRolled.saveRaftEntries .small [.small 1 10, .small 1 11] = (s', .ok ()) ∧
      s'.segments.length = 3 ∧ s'.lastIndex = 11 ∧
      s'.term 5 = .error (.error .compacted) :=
  ⟨(smallRolled.saveRaftEntries .small [.small 1 10, .small 1 11]).1, smallRolled_reachable,
    by decide +kernel⟩

end DiskStorage

end Kingbus
