import Kingbus.LogRefinement
import Kingbus.Recovery

/-! # The index that is kept and the index that is rebuilt

`openSegment` with the recover flag does not read the index file of the writable segment but
scans the log file.  The segments here are those one process can make: created for a first
index, appended to, truncated, sealed and truncated back to writable.  The bytes behind the
write position of such a segment are always zero, so the scan ends at the write position and
finds the positions that the index in memory has. -/

namespace Kingbus

/-- The list an index keeps in memory while its segment is writable. -/
def Index.inMemory (d : Index) : Option (List IndexEntry) := d.readWrite.map RWFile.entries

theorem Index.WritableAs.inMemory_eq {d : Index} {first : Nat} {ies : List IndexEntry}
    (h : d.WritableAs first ies) : Index.inMemory d = some ies := by
  obtain ⟨rw, hrw, hent, -⟩ := h.inMemory
  rw [Index.inMemory, hrw, Option.map_some, hent]

/-- The segments one process can make.  A batch comes from `SaveRaftEntries`: it is not
empty, its entries are numbered from the next index on, and the segment has room for it.  A
truncation comes from `TruncateSuffix`, which looks for the segment that contains the
index. -/
inductive Made (c : Config) : Segment → Prop
  | newSegment {first : Nat} : 1 ≤ first → Made c (Segment.create c (.inprogress first))
  | appendRecords {s s' : Segment} (es : List Entry) : Made c s → es ≠ [] →
      Numbered Entry.index s.nextIndex es → s.needRolling (encode es).length = false →
      s.appendRecords (es.map Entry.toRecord) s.nextIndex = .ok s' → Made c s'
  | truncateSuffix {s s' : Segment} (i : Nat) : Made c s → s.contains i = true →
      s.truncateSuffix i = .ok s' → Made c s'
  | changeToReadonly {s s' : Segment} : Made c s → s.changeToReadonly = .ok s' → Made c s'

namespace Segment

/-- What a process keeps of each of its segments. -/
inductive Tidy (c : Config) (s : Segment) : Prop
  | writable (v : SegView) : s.Writable c true v → Tidy c s
  | sealed (v : SegView) : s.Sealed c true v → v.hot = true → Tidy c s

section Steps
variable {c : Config} {s s' : Segment} {v : SegView} {es : List Entry} {i : Nat}

theorem Tidy.append (h : s.Tidy c) (hne : es ≠ []) (hes : Numbered Entry.index s.nextIndex es)
    (hroll : s.needRolling (encode es).length = false)
    (happ : s.appendRecords (es.map Entry.toRecord) s.nextIndex = .ok s') : s'.Tidy c := by
  cases h with
  | writable v hw =>
      rw [hw.nextIndex] at hes happ
      rw [hw.needRolling] at hroll
      obtain ⟨s₁, heq, hw'⟩ :=
        hw.appendRecords hne hes (Nat.le_of_not_lt (of_decide_eq_false hroll))
      rw [happ] at heq
      cases heq
      exact .writable _ hw'
  | sealed v hs _ =>
      rw [Segment.appendRecords, if_pos (by simp [hs.status])] at happ
      cases happ

/-- The entry at an index that a segment contains. -/
theorem covers_of_contains (h : s.Readable c v) (hi : s.contains i = true) (hne : v.es ≠ []) :
    v.first ≤ i ∧ i < v.next := by
  obtain ⟨h1, h2⟩ := of_decide_eq_true hi
  have := v.first_lt_next hne
  rw [h.firstIndex, SegView.firstIndex_of_ne hne] at h1
  rw [h.lastIndex, SegView.lastIndex_of_ne hne] at h2
  omega

theorem Tidy.truncate (h : s.Tidy c) (hi : s.contains i = true)
    (htr : s.truncateSuffix i = .ok s') : s'.Tidy c := by
  cases h with
  | writable v hw =>
      by_cases h0 : v.es = []
      · simp only [Segment.truncateSuffix, hw.position_emptied h0, bind, Except.bind] at htr
        cases htr
      · obtain ⟨h1, h2⟩ := covers_of_contains hw.readable hi h0
        obtain ⟨s₁, heq, hw'⟩ := hw.truncateSuffix h1 h2
        rw [htr] at heq
        cases heq
        exact .writable _ hw'
  | sealed v hs hhot =>
      obtain ⟨h1, h2⟩ := covers_of_contains hs.readable hi hs.nonempty
      obtain ⟨s₁, heq, hw'⟩ := hs.truncateSuffix hhot h1 h2
      rw [htr] at heq
      cases heq
      exact .writable _ hw'

theorem Tidy.seal (h : s.Tidy c) (hseal : s.changeToReadonly = .ok s') : s'.Tidy c := by
  cases h with
  | writable v hw =>
      by_cases h0 : v.es = []
      · -- an index without entries has no name to be sealed under
        obtain ⟨rw, hrw, hent, -⟩ := hw.index.inMemory
        rw [h0] at hent
        simp only [Segment.changeToReadonly, hw.status, ne_eq, not_true_eq_false, if_false, bind,
          Except.bind, Index.changeToReadonly, hrw, hent, positions, List.head?_nil] at hseal
        cases hseal
      · obtain ⟨s₁, heq, hs⟩ := hw.changeToReadonly h0
        rw [hseal] at heq
        cases heq
        exact .sealed _ hs hw.hot
  | sealed v hs _ =>
      rw [Segment.changeToReadonly, if_pos (by simp [hs.status])] at hseal
      cases hseal

end Steps

end Segment

section Rebuild
variable {c : Config} {s : Segment} {v : SegView}

theorem Made.tidy (h : Made c s) : s.Tidy c := by
  induction h with
  | newSegment hfirst => exact .writable _ (Segment.create_writable c true hfirst)
  | appendRecords es _ hne hes hroll happ ih => exact ih.append hne hes hroll happ
  | truncateSuffix i _ hi htr ih => exact ih.truncate hi htr
  | changeToReadonly _ hseal ih => exact ih.seal hseal

/-- Behind the write position there are zero bytes up to the end of the segment. -/
theorem Segment.Writable.zeros_behind (h : s.Writable c true v) :
    ∀ b ∈ s.logFile.mappedData.drop s.logFile.writePosition, b = 0 := by
  obtain ⟨tail, hmap, hzero⟩ := h.file.mapped
  rw [hmap, h.writePosition, List.drop_left]
  exact hzero rfl

/-- What the recovery of a segment with the kept list `ies` finds in a directory: the scan
ends with that list whatever fuel is left over, and the write position comes back. -/
structure Recovers (c : Config) (s : Segment) (ies : List IndexEntry) (f : MmapFile)
    (idx : Index) : Prop where
  opened : MmapFile.openFile s.logFile.filePath s.logFile.mappedData = .ok f
  scan : ∀ fuel, ies.length ≤ fuel → Segment.rebuildLoop c f.mappedData fuel 0 Record.zero
    Entry.zero (Index.create f.filePath) = .ok idx
  rebuilt : ∀ d contents, d.indexFile f.filePath = .ok contents →
    Segment.rebuildIndex c d f = .ok idx
  same : idx.inMemory = some ies
  writePosition : ies ≠ [] → ∀ d contents, d.indexFile f.filePath = .ok contents →
    ∃ s', Segment.openWritable c d true (s.logFile.filePath, s.logFile.mappedData) = .ok s' ∧
      s'.logFile.writePosition = s.logFile.writePosition

theorem Segment.Writable.recovers (h : s.Writable c true v) :
    ∃ f idx, Recovers c s (positions v.first 0 v.es) f idx := by
  have hlog : LogBytes c true s.logFile.mappedData v.es := ⟨h.file.mapped, h.file.size⟩
  obtain ⟨f, hf, hname, hmapped, -, hholds⟩ := hlog.openFile s.logFile.filePath
  obtain ⟨idx, hloop, hidx⟩ := Segment.rebuild_holds hholds v.numbered
  have hpath : f.filePath = .inprogress v.first := hname.trans h.name
  refine ⟨f, idx, hf, ?_, ?_, hidx.inMemory_eq, ?_⟩
  · intro fuel hfuel
    rw [hpath]
    exact hloop fuel (by rwa [length_positions] at hfuel)
  · intro d contents hfile
    exact Segment.rebuildIndex_holds hholds hpath (hpath ▸ hfile) hloop
  · intro hne d contents hfile
    have hes : v.es ≠ [] := by
      rintro h0
      rw [h0] at hne
      exact hne rfl
    rw [hpath, Dir.indexFile] at hfile
    have hlookup : ∃ x, d.indexes.lookup s.logFile.filePath = some x := by
      rw [h.name]
      split at hfile
      · cases hfile
      · exact ⟨_, by assumption⟩
    have hcrashed : CrashedFile c d (s.logFile.filePath, s.logFile.mappedData) v :=
      ⟨hes, h.name, hlog, hlookup⟩
    obtain ⟨s', hopen, hw⟩ := hcrashed.openWritable h.hot
    exact ⟨s', hopen, by rw [hw.writePosition, h.writePosition]⟩

/-- **Rebuilding gives the index that was kept**, for every writable segment a process can
make. -/
theorem rebuildIndex_gives_kept (h : Made c s) (hstatus : s.status = .rdwr) :
    s.logFile.mappedData.length = c.segmentSize ∧
      (∀ b ∈ s.logFile.mappedData.drop s.logFile.writePosition, b = 0) ∧
      ∃ ies f idx, s.logIndex.inMemory = some ies ∧ Recovers c s ies f idx := by
  cases h.tidy with
  | writable v hw =>
      obtain ⟨f, idx, hrec⟩ := hw.recovers
      exact ⟨hw.file.size, hw.zeros_behind, _, f, idx, hw.index.inMemory_eq, hrec⟩
  | sealed v hs _ =>
      rw [hs.status] at hstatus
      cases hstatus

end Rebuild

/-- Two entries in a new segment. -/
def smallFilled : Segment :=
  let s := Segment.create .small (.inprogress 1)
  (s.appendRecords ([small11, small12].map Entry.toRecord) 1).toOption.getD s

/-- The segment sealed. -/
def smallSealed : Segment := smallFilled.changeToReadonly.toOption.getD smallFilled

/-- Entry 2 cut off again: the segment is writable and holds entry 1. -/
def smallCut : Segment := (smallSealed.truncateSuffix 2).toOption.getD smallSealed

theorem smallCut_made : Made .small smallCut := by
  have hnew : Made .small (.create .small (.inprogress 1)) := .newSegment (Nat.le_refl 1)
  have hfilled : Made .small smallFilled := by
    refine .appendRecords [small11, small12] hnew ?_ ?_ ?_ ?_
    all_goals decide +kernel
  have hsealed : Made .small smallSealed := .changeToReadonly hfilled (by decide +kernel)
  exact .truncateSuffix 2 hsealed (by decide +kernel) (by decide +kernel)

theorem rebuildIndex_gives_kept_smallCut :
    ∃ f idx, Recovers .small smallCut [IndexEntry.of 1 0] f idx := by
  obtain ⟨-, -, ies, f, idx, hies, hrec⟩ :=
    rebuildIndex_gives_kept smallCut_made (by decide +kernel)
  have hkept : smallCut.logIndex.inMemory = some [IndexEntry.of 1 0] := by decide +kernel
  rw [hkept] at hies
  cases hies
  exact ⟨f, idx, hrec⟩

end Kingbus
