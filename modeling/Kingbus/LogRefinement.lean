import Kingbus.StorageRefinement

/-! # The storage refines a plain log

A run is any sequence of `appendRaftEntries` calls and purges on a new storage,
next to the plain log on which the same things happen.  `Run.sound` says that no
call of such a run fails and that everything raft can read from the storage is
what the plain log holds, wherever the segments were rolled. -/

namespace Kingbus

/-- What raft guarantees about a batch: consecutive indexes from inside the log or
right behind it.  The batch fits into a segment. -/
def Contract (c : Config) (s : DiskStorage) : List Entry → Prop
  | [] => True
  | e :: es =>
      Numbered Entry.index e.index (e :: es) ∧ s.firstIndex ≤ e.index ∧
        e.index ≤ s.lastIndex + 1 ∧ (entriesToRecords (e :: es)).2 ≤ c.segmentSize

instance (c : Config) (s : DiskStorage) : ∀ es, Decidable (Contract c s es)
  | [] => inferInstanceAs (Decidable True)
  | _ :: _ => inferInstanceAs (Decidable (_ ∧ _ ∧ _ ∧ _))

/-- The number of entries in the segments that a purge drops. -/
def DiskStorage.purgedCount (s : DiskStorage) (reserveSegmentCount : Nat) : Nat :=
  ((s.segments.take (s.segments.length - reserveSegmentCount)).map fun seg =>
    seg.lastIndex + 1 - seg.firstIndex).sum

/-- `Term`, on the plain log. -/
def PlainLog.term (l : PlainLog) (i : Nat) : Except Failure Nat :=
  if i = 0 then .ok 0
  else if i < l.first then .error (.error .compacted)
  else match l.entries[i - l.first]? with
    | none => .error (.error .outOfBound)
    | some e => .ok e.term

/-- A run of one process: the storage, and the plain log to compare it with. -/
inductive Run (c : Config) : DiskStorage → PlainLog → Prop
  | init : Run c .empty .empty
  | append {s : DiskStorage} {l : PlainLog} (es : List Entry) : Run c s l → Contract c s es →
      Run c (s.appendRaftEntries c es).1 (l.appendRaftEntries es)
  | purge {s : DiskStorage} {l : PlainLog} (reserveSegmentCount : Nat) : Run c s l →
      1 ≤ reserveSegmentCount →
      Run c (s.purge reserveSegmentCount) (l.dropPrefix (s.purgedCount reserveSegmentCount))

/-- What holds between the storage and the plain log in every run. -/
def Refines (c : Config) (s : DiskStorage) (l : PlainLog) : Prop :=
  ∃ v : SegLog, s.Rep c true v ∧ v.WF ∧ v.Full ∧ v.Hot ∧ v.log = l

namespace Refines
variable {c : Config} {s : DiskStorage} {l : PlainLog} {es : List Entry}

theorem init (c : Config) : Refines c .empty .empty :=
  ⟨.empty, rfl, SegLog.empty_wf, nofun, nofun, rfl⟩

/-- The contract, over the segmented log. -/
theorem batch_of_contract {v : SegLog} {e : Entry} (h : s.Rep c true v) (hwf : v.WF)
    (hfull : v.Full) (hc : Contract c s (e :: es)) : SegLog.Batch c v (e :: es) e.index := by
  obtain ⟨hnum, hlo, hhi, hfit⟩ := hc
  rw [h.firstIndex hfull] at hlo
  rw [h.lastIndex hfull] at hhi
  have hpos := v.start_pos
  have hnext := hwf.next_eq
  refine ⟨nofun, hnum, hlo, by omega, ?_⟩
  rwa [entriesToRecords_eq] at hfit

theorem append (h : Refines c s l) (hc : Contract c s es) :
    (s.appendRaftEntries c es).2 = .ok () ∧
      Refines c (s.appendRaftEntries c es).1 (l.appendRaftEntries es) := by
  cases es with
  | nil => exact ⟨rfl, h⟩
  | cons e es =>
      obtain ⟨v, hrep, hwf, hfull, hhot, rfl⟩ := h
      have hb := batch_of_contract hrep hwf hfull hc
      obtain ⟨s', happ, hrep'⟩ := hrep.appendRaftEntries hwf hfull hb
        fun _ => DiskStorage.cuttable_of_hot hhot _
      obtain ⟨h1, h2, h3⟩ := hb.append_spec hwf
      rw [happ]
      exact ⟨rfl, _, hrep', h1, h2, hb.append_hot hwf hhot, h3⟩

/-- The ranges of the dropped segments count the entries in them. -/
theorem purgedCount_eq {v : SegLog} (h : s.Rep c true v) (hfull : v.Full) {reserve : Nat}
    (hr : 1 ≤ reserve) : s.purgedCount reserve = v.dropped reserve := by
  cases v with
  | empty =>
      have hs : s.segments = [] := h
      rw [DiskStorage.purgedCount, hs, SegLog.dropped, SegLog.done, List.take_nil, List.take_nil]
      rfl
  | segs d w =>
      obtain ⟨init, last, hs, hinit, -⟩ := h
      have hlen : init.length = d.length := hinit.length_eq
      rw [DiskStorage.purgedCount, SegLog.dropped, SegLog.done, hs, List.length_append,
        List.length_singleton, hlen, List.take_append_of_le_length (by omega)]
      generalize d.length + 1 - reserve = k
      have htake := List.forall₂_take k hinit
      generalize init.take k = segs at htake
      generalize d.take k = us at htake
      induction htake with
      | nil => rfl
      | @cons seg u segs us hseg _ ih =>
          have hlt := u.first_lt_next hseg.nonempty
          have hnext : u.next = u.first + u.es.length := rfl
          rw [List.map_cons, List.sum_cons, ih, List.flatMap_cons, List.length_append,
            hseg.firstIndex, hseg.lastIndex]
          omega

theorem purge (h : Refines c s l) {reserve : Nat} (hr : 1 ≤ reserve) :
    Refines c (s.purge reserve) (l.dropPrefix (s.purgedCount reserve)) := by
  obtain ⟨v, hrep, hwf, hfull, hhot, rfl⟩ := h
  obtain ⟨h1, h2⟩ := hwf.purge reserve
  rw [purgedCount_eq hrep hfull hr]
  exact ⟨_, hrep.purge hr, h1, fun u hu => hfull u (SegLog.mem_views_of_purge hu),
    fun u hu => hhot u (SegLog.mem_views_of_purge hu), h2⟩

/-! ## What raft reads -/

theorem bytes_le {segs : List Segment} {us : List SegView}
    (h : List.Forall₂ (Segment.Readable c) segs us) :
    ∀ u ∈ us, (encode u.es).length ≤ 2 ^ 32 := by
  induction h with
  | nil => nofun
  | @cons seg u segs us hseg _ ih =>
      intro x hx
      rcases List.mem_cons.mp hx with rfl | hx
      · exact Nat.le_trans hseg.file.le c.segmentSize_le
      · exact ih x hx

theorem next_le {v : SegLog} (hfull : v.Full) : v.next ≤ 2 ^ 64 := by
  cases v with
  | empty => decide
  | segs d w => exact w.next_le (hfull w (List.mem_append_right _ (List.mem_singleton_self w)))

theorem firstIndex_eq (h : Refines c s l) : s.firstIndex = l.first := by
  obtain ⟨v, hrep, -, hfull, -, rfl⟩ := h
  exact hrep.firstIndex hfull

theorem lastIndex_eq (h : Refines c s l) : s.lastIndex = l.lastIndex := by
  obtain ⟨v, hrep, hwf, hfull, -, rfl⟩ := h
  rw [hrep.lastIndex hfull, hwf.next_eq]
  rfl

/-- Without a limit a storage returns exactly the entries asked for. -/
theorem entries_slice {v : SegLog} {z : Bool} (h : s.Rep c z v) (hwf : v.WF) (hfull : v.Full)
    {lo hi : Nat} (hlo : s.firstIndex ≤ lo) (hlt : lo < hi) (hhi : hi ≤ s.lastIndex + 1) :
    s.entries lo hi noLimit = .ok (v.log.slice lo hi) := by
  have hnext := next_le hfull
  have hpos := v.start_pos
  rw [h.firstIndex hfull] at hlo
  rw [h.lastIndex hfull] at hhi
  rw [h.entries hwf hfull]
  exact DiskStorage.readEntries_noLimit hwf (bytes_le h.readable) hlo hlt (by omega) (by omega)

theorem entries_eq (h : Refines c s l) {lo hi : Nat} (hlo : s.firstIndex ≤ lo) (hlt : lo < hi)
    (hhi : hi ≤ s.lastIndex + 1) : s.entries lo hi noLimit = .ok (l.slice lo hi) := by
  obtain ⟨v, hrep, hwf, hfull, -, rfl⟩ := h
  exact entries_slice hrep hwf hfull hlo hlt hhi

/-- The entry at an index inside the log. -/
theorem slice_one {i : Nat} (hlo : l.first ≤ i) (hhi : i ≤ l.lastIndex) (hpos : 1 ≤ l.first) :
    ∃ e, l.slice i (i + 1) = [e] ∧ l.entries[i - l.first]? = some e := by
  unfold PlainLog.lastIndex at hhi
  have hlt : i - l.first < l.entries.length := by omega
  refine ⟨l.entries[i - l.first], ?_, List.getElem?_eq_getElem hlt⟩
  rw [PlainLog.slice, List.drop_eq_getElem_cons hlt, Nat.add_sub_cancel_left]
  rfl

/-- `Entries` looks at `hi - 1` only. -/
theorem entries_congr {lo hi hi' maxSize : Nat}
    (h : (hi + (2 ^ 64 - 1)) % 2 ^ 64 = (hi' + (2 ^ 64 - 1)) % 2 ^ 64) :
    s.entries lo hi maxSize = s.entries lo hi' maxSize := by
  unfold DiskStorage.entries
  rw [h]

theorem first_pos (h : Refines c s l) : 1 ≤ l.first := by
  obtain ⟨v, -, -, -, -, rfl⟩ := h
  exact v.start_pos

theorem term_eq (h : Refines c s l) (i : Nat) : s.term i = l.term i := by
  have hfirst := h.firstIndex_eq
  have hlast := h.lastIndex_eq
  unfold DiskStorage.term PlainLog.term
  by_cases h0 : i = 0
  · rw [if_pos h0, if_pos h0]
  rw [if_neg h0, if_neg h0]
  by_cases h1 : i < l.first
  · simp only [DiskStorage.checkRaftIndex, hfirst, if_pos h1, bind, Except.bind]
  rw [if_neg h1]
  by_cases h2 : l.lastIndex < i
  · have hnone : l.entries[i - l.first]? = none := by
      refine List.getElem?_eq_none ?_
      unfold PlainLog.lastIndex at h2
      omega
    simp only [DiskStorage.checkRaftIndex, hfirst, hlast, if_neg h1, if_pos h2, bind, Except.bind,
      hnone]
  · obtain ⟨e, hslice, hget⟩ := slice_one (Nat.le_of_not_lt h1) (Nat.le_of_not_lt h2) h.first_pos
    -- `i + 1` may wrap around; `Entries` subtracts one again
    have hread : s.entries i ((i + 1) % 2 ^ 64) noLimit = .ok [e] := by
      have hwrap : s.entries i ((i + 1) % 2 ^ 64) noLimit = s.entries i (i + 1) noLimit :=
        entries_congr (by omega)
      rw [hwrap, h.entries_eq (by omega) (by omega) (by omega), hslice]
    rw [DiskStorage.checkRaftIndex, hfirst, hlast, if_neg h1, if_neg h2, hread, hget]
    rfl

end Refines

/-- Every state of a run refines the plain log. -/
theorem Run.refines {c : Config} {s : DiskStorage} {l : PlainLog} (h : Run c s l) :
    Refines c s l := by
  induction h with
  | init => exact Refines.init c
  | append es _ hc ih => exact (ih.append hc).2
  | purge reserve _ hr ih => exact ih.purge hr

/-- **The storage refines a plain log.**  In every state of every run the next
call succeeds, and `FirstIndex`, `LastIndex`, `Term` and `Entries` without a limit
return what the plain log holds. -/
theorem storage_refines_plain_log {c : Config} {s : DiskStorage} {l : PlainLog} (h : Run c s l) :
    (∀ es, Contract c s es → (s.appendRaftEntries c es).2 = .ok ()) ∧
      s.firstIndex = l.first ∧ s.lastIndex = l.lastIndex ∧ (∀ i, s.term i = l.term i) ∧
      ∀ lo hi, s.firstIndex ≤ lo → lo < hi → hi ≤ s.lastIndex + 1 →
        s.entries lo hi noLimit = .ok (l.slice lo hi) :=
  have hr := h.refines
  ⟨fun _ hc => (hr.append hc).1, hr.firstIndex_eq, hr.lastIndex_eq, hr.term_eq,
    fun _ _ hlo hlt hhi => hr.entries_eq hlo hlt hhi⟩

/-- A segment size with room for two small entries. -/
def Config.small : Config where
  segmentSize := 48

/-- Entry `index` of the given term, with one byte of data. -/
def Entry.small (term index : Nat) (hterm : term < 2 ^ 64 := by decide)
    (hindex : index < 2 ^ 64 := by decide) : Entry where
  type := 0
  term := term
  index := index
  data := some [7]
  type_lt := zero_lt_uint32
  term_lt := hterm
  index_lt := hindex

/-- The entries of the samples, named by term and index. -/
def small11 : Entry := .small 1 1

def small12 : Entry := .small 1 2

def small13 : Entry := .small 1 3

def small14 : Entry := .small 1 4

def small22 : Entry := .small 2 2

def small23 : Entry := .small 2 3

/-- Two entries fill a segment, the third rolls, the batch of term 2 goes back into
the read-only segment. -/
def smallRun : DiskStorage :=
  let s := (DiskStorage.empty.appendRaftEntries .small [.small 1 1, .small 1 2]).1
  let s := (s.appendRaftEntries .small [.small 1 3]).1
  (s.appendRaftEntries .small [.small 2 2, .small 2 3]).1

theorem smallRun_run : ∃ l, Run .small smallRun l ∧ l = ⟨1, [.small 1 1, .small 2 2, .small 2 3]⟩ :=
  ⟨_, .append _ (.append _ (.append _ .init (by decide +kernel)) (by decide +kernel))
    (by decide +kernel), by decide +kernel⟩

theorem storage_refines_plain_log_smallRun :
    smallRun.segments.length = 2 ∧ smallRun.lastIndex = 3 ∧ smallRun.term 2 = .ok 2 ∧
      smallRun.entries 1 4 noLimit = .ok [.small 1 1, .small 2 2, .small 2 3] := by
  obtain ⟨l, hrun, rfl⟩ := smallRun_run
  obtain ⟨-, hfirst, hlast, hterm, hentries⟩ := storage_refines_plain_log hrun
  refine ⟨by decide +kernel, hlast, hterm 2, hentries 1 4 ?_ (by decide) ?_⟩
  · rw [hfirst]
  · rw [hlast]
    decide

end Kingbus
