import Kingbus.CleanRestart
import Kingbus.FileSteps

/-! # Crash points

A crash cuts an operation off between two of its file steps; the process then
comes back with the recover flag set.  Some cuts leave a directory that cannot be
opened: between the two renames of a roll, between the roll and the first record
of the new file, anywhere inside a truncation that has removed or emptied a
segment.  `SafePoint` names the others.  In every run whose crashes all fall on
safe points, and whose truncations do not reach into a segment that a restart
opened read-only, every restart succeeds with contiguous segments that hold every
entry stored before. -/

namespace Kingbus

/-- The name of a segment that is not written any more. -/
def FileName.IsReadonly : FileName → Prop
  | .readonly _ _ => True
  | .inprogress _ => False

/-- A running process: its storage, and the index files that a crash has left
without a log file. -/
structure World where
  storage : DiskStorage
  orphans : List (FileName × Bytes)
  unused : ∀ f ∈ orphans, ∀ seg ∈ storage.segments, f.1 ≠ seg.logFile.filePath

namespace World

/-- A storage in a directory with the given index files. -/
def of (s : DiskStorage) (indexes : List (FileName × Bytes)) : World where
  storage := s
  orphans := indexes.filter fun f => s.segments.all fun seg => f.1 ≠ seg.logFile.filePath
  unused := by
    intro f hf seg hseg
    have hall := List.all_eq_true.mp (List.mem_filter.mp hf).2 seg hseg
    exact of_decide_eq_true hall

/-- The files of the process. -/
def dir (w : World) : Dir := filesOf w.storage.segments w.orphans

/-- The directory after a crash behind the first `k` steps of an operation. -/
def crash (c : Config) (w : World) (op : Op) (k : Nat) : Dir :=
  w.dir.run ((op.steps c w.storage).take k)

end World

namespace DiskStorage

/-- An entry is read from the segment whose range contains its index.  Indexes
start at 1; the range of an emptied segment is 0 to 0. -/
def Stored (s : DiskStorage) (e : Entry) : Prop :=
  0 < e.index ∧ ∃ seg ∈ s.segments, seg.contains e.index = true ∧
    ∃ rest, seg.readRaftEntries e.index e.index noLimit = .ok ([e], rest)

/-- Every segment starts right behind the one before. -/
def Contiguous (s : DiskStorage) : Prop :=
  s.segments.IsChain fun a b => b.firstIndex = a.lastIndex + 1

end DiskStorage

namespace Op

/-- The calls raft makes: a batch behind the last entry that fits into a segment, a
truncation inside the log, a purge that keeps the last segment. -/
def Valid (c : Config) (s : DiskStorage) : Op → Prop
  | save es => es ≠ [] ∧ Numbered Entry.index s.nextIndex es ∧
      (entriesToRecords es).2 ≤ c.segmentSize
  | truncate i => s.Settled ∧ s.firstIndex ≤ i ∧ i ≤ s.lastIndex
  | purge reserveSegmentCount => 1 ≤ reserveSegmentCount

/-- A truncation does not reach into a segment that a restart has opened
read-only. -/
def Warm (s : DiskStorage) : Op → Prop
  | truncate i => ∀ seg ∈ s.segments, seg.contains i = true → seg.status = .readOnly →
      seg.logFile.writePosition ≠ 0
  | _ => True

/-- The indexes an operation removes. -/
def Removes (s : DiskStorage) : Op → Nat → Prop
  | save _, _ => False
  | truncate i, j => i ≤ j
  | purge reserveSegmentCount, j =>
      ∃ seg ∈ s.segments.take (s.segments.length - reserveSegmentCount), seg.contains j = true

/-- The first `k` steps of an operation leave a directory that can be opened. -/
def SafePoint (s : DiskStorage) : Op → Nat → Prop
  | save es, k =>
      match s.segments.getLast? with
      | none => k = 0 ∨ 3 ≤ k
      | some seg =>
          if seg.needRolling (entriesToRecords es).2 then k = 0 ∨ 6 ≤ k
          else seg.lastIndex ≠ 0 ∨ 1 ≤ k
  | truncate i, k =>
      k = 0 ∨ match splitLast (fun seg => seg.contains i) s.segments with
        | none => True
        | some (_, seg, behind) =>
            i ≠ seg.firstIndex ∧ (seg.status = .rdwr ∨ 2 * behind.length + 3 ≤ k)
  | purge _, _ => s.Settled

instance (c : Config) (s : DiskStorage) : ∀ op, Decidable (Valid c s op)
  | save _ => inferInstanceAs (Decidable (_ ∧ _))
  | truncate _ => inferInstanceAs (Decidable (_ ∧ _))
  | purge _ => inferInstanceAs (Decidable (_ ≤ _))

instance (s : DiskStorage) : ∀ op, Decidable (Warm s op)
  | save _ => inferInstanceAs (Decidable True)
  | truncate i => inferInstanceAs (Decidable (∀ seg ∈ s.segments, seg.contains i = true →
      seg.status = .readOnly → seg.logFile.writePosition ≠ 0))
  | purge _ => inferInstanceAs (Decidable True)

instance (s : DiskStorage) : ∀ op k, Decidable (SafePoint s op k)
  | save es, k =>
      match h : s.segments.getLast? with
      | none => decidable_of_iff (k = 0 ∨ 3 ≤ k) (by rw [SafePoint, h])
      | some seg =>
          decidable_of_iff
            (if seg.needRolling (entriesToRecords es).2 then k = 0 ∨ 6 ≤ k
              else seg.lastIndex ≠ 0 ∨ 1 ≤ k)
            (by rw [SafePoint, h])
  | truncate i, k =>
      match h : splitLast (fun seg => seg.contains i) s.segments with
      | none => .isTrue (by rw [SafePoint, h]; exact Or.inr trivial)
      | some (_, seg, behind) =>
          decidable_of_iff (k = 0 ∨ i ≠ seg.firstIndex ∧
            (seg.status = .rdwr ∨ 2 * behind.length + 3 ≤ k)) (by rw [SafePoint, h])
  | purge _, _ => inferInstanceAs (Decidable s.Settled)

end Op

/-- The processes that come about when every truncation is warm and every crash
falls on a safe point. -/
inductive World.Reached (c : Config) : World → Prop
  | init : Reached c (.of .empty [])
  | op {w : World} (op : Op) : Reached c w → op.Valid c w.storage → op.Warm w.storage →
      Reached c (.of (op.run c w.storage) w.orphans)
  | restart {w : World} {s : DiskStorage} : Reached c w → w.storage.Settled →
      DiskStorage.newDiskStorage c
        ⟨w.storage.close.logs, w.storage.close.indexes ++ w.orphans⟩ false = .ok s →
      Reached c (.of s w.orphans)
  | crash {w : World} {s : DiskStorage} (op : Op) (k : Nat) : Reached c w →
      op.Valid c w.storage → op.Warm w.storage → op.SafePoint w.storage k →
      DiskStorage.newDiskStorage c (w.crash c op k) true = .ok s →
      Reached c (.of s (w.crash c op k).indexes)

/-! ## What is stored -/

section Stored
variable {c : Config} {z : Bool} {s : DiskStorage} {v : SegLog} {e : Entry}

/-- Reading one entry of a segment. -/
theorem Segment.Readable.read_one {seg : Segment} {u : SegView} {i : Nat}
    (h : seg.Readable c u) (hi : Chunks.Covers SegView.first SegView.es i u) :
    ∃ x rest, seg.readRaftEntries i i noLimit = .ok ([x], rest) ∧ x ∈ u.es ∧ x.index = i := by
  have hk : i - u.first < u.es.length := by
    have := hi.1
    have := hi.2
    omega
  have hwin : Numbered.window Entry.index i i u.es = [u.es[i - u.first]] := by
    rw [u.numbered.window_eq hi.1 (Nat.le_succ i), List.drop_eq_getElem_cons hk,
      Nat.add_sub_cancel_left]
    rfl
  have hindex := u.numbered.getElem? (List.getElem?_eq_getElem hk)
  have hsize : (encode [u.es[i - u.first]]).length ≤ 2 ^ 32 := by
    have hle := DiskStorage.length_encode_window_le i i u.es
    rw [hwin] at hle
    have := h.file.le
    have := c.segmentSize_le
    omega
  obtain ⟨hlim, -⟩ := DiskStorage.readLimited_noLimit [u.es[i - u.first]] 0
    (by unfold noLimit; omega)
  have hread := h.readRaftEntries noLimit hi.1 (Nat.le_refl i) hi.2
  simp only [hwin, hlim] at hread
  have := hi.1
  exact ⟨_, _, hread, List.getElem_mem hk, by omega⟩

/-- **The stored entries are those of the log.** -/
theorem DiskStorage.Rep.stored_iff (h : s.Rep c z v) :
    s.Stored e ↔ e ∈ v.entries := by
  constructor
  · rintro ⟨hpos, seg, hseg, hcont, rest, hread⟩
    obtain ⟨u, hu, hr⟩ := forall₂_exists h.readable seg hseg
    rw [hr.contains hpos] at hcont
    obtain ⟨x, rest', hread', hx, -⟩ := hr.read_one (of_decide_eq_true hcont)
    rw [hread] at hread'
    cases hread'
    exact List.mem_flatMap.mpr ⟨u, hu, hx⟩
  · intro he
    obtain ⟨u, hu, heu⟩ := List.mem_flatMap.mp he
    obtain ⟨seg, hseg, hr⟩ := forall₂_exists h.readable.flip u hu
    have hr : seg.Readable c u := hr
    have hrange := u.numbered.of_mem heu
    have hpos : 0 < e.index := Nat.lt_of_lt_of_le u.first_pos hrange.1
    obtain ⟨x, rest, hread, hx, hidx⟩ := hr.read_one hrange
    have hxe : x = e := by
      obtain ⟨a, ha⟩ := List.mem_iff_getElem?.mp hx
      obtain ⟨b, hb⟩ := List.mem_iff_getElem?.mp heu
      have h1 := u.numbered.getElem? ha
      have h2 := u.numbered.getElem? hb
      have hab : a = b := by omega
      rw [hab, hb] at ha
      cases ha
      rfl
    rw [hxe] at hread
    refine ⟨hpos, seg, hseg, ?_, rest, hread⟩
    rw [hr.contains hpos]
    exact decide_eq_true hrange

/-- A log without empty segments is stored contiguously. -/
theorem DiskStorage.Rep.contiguous (h : s.Rep c z v) (hwf : v.WF) (hfull : v.Full) :
    s.Contiguous := by
  have hgo : ∀ {segs : List Segment} {us : List SegView} {n : Nat},
      List.Forall₂ (Segment.Readable c) segs us →
      Chunks.Chained SegView.first SegView.es n us → (∀ u ∈ us, u.es ≠ []) →
      segs.IsChain fun a b => b.firstIndex = a.lastIndex + 1 := by
    intro segs us n hr
    induction hr generalizing n with
    | nil => exact fun _ _ => .nil
    | @cons a u segs us ha hrest ih =>
        intro hchain hne
        have hu := hne u List.mem_cons_self
        have htail := ih hchain.2 fun x hx => hne x (List.mem_cons_of_mem u hx)
        cases hrest with
        | nil => exact .singleton a
        | @cons b x segs us hb _ =>
            refine .cons_cons ?_ htail
            have hx := hne x (List.mem_cons_of_mem u List.mem_cons_self)
            have hpos := List.length_pos_of_ne_nil hu
            have h1 := hchain.1
            have h2 := hchain.2.1
            rw [hb.firstIndex, ha.lastIndex, SegView.firstIndex_of_ne hx,
              SegView.lastIndex_of_ne hu, SegView.next]
            omega
  exact hgo h.readable hwf.chained hfull

end Stored

/-! ## Directories that can be opened again -/

/-- A directory that recovery can open, as the next process needs it: no segment is
empty, and the index files without a log file are of old segments. -/
structure Restartable (c : Config) (d : Dir) (v : SegLog) : Prop where
  recoverable : d.Recoverable c v
  wf : v.WF
  full : v.Full
  names : ∀ f ∈ d.indexes, ∀ n, f.1 = .inprogress n → ∃ done w, v = .segs done w ∧ n = w.first

/-- All names are of segments that are not written any more. -/
def AllReadonly (l : List (FileName × Bytes)) : Prop := ∀ f ∈ l, f.1.IsReadonly

theorem allReadonly_nil : AllReadonly [] := nofun

theorem AllReadonly.absent {l : List (FileName × Bytes)} (h : AllReadonly l) (n : Nat) :
    Table.Absent (.inprogress n) l := by
  intro f hf heq
  have := h f hf
  rw [heq] at this
  exact this

theorem AllReadonly.append {l l' : List (FileName × Bytes)} (h : AllReadonly l)
    (h' : AllReadonly l') : AllReadonly (l ++ l') := by
  intro f hf
  rcases List.mem_append.mp hf with hf | hf
  · exact h f hf
  · exact h' f hf

section Sealed
variable {c : Config} {z : Bool} {segs : List Segment} {us : List SegView}

theorem sealed_logs (h : List.Forall₂ (Segment.Sealed c z) segs us) :
    AllReadonly (segs.map Segment.logContents) := by
  intro f hf
  obtain ⟨seg, hseg, rfl⟩ := List.mem_map.mp hf
  obtain ⟨u, -, hu⟩ := forall₂_exists h seg hseg
  rw [Segment.logContents, hu.name]
  trivial

theorem sealed_indexes (h : List.Forall₂ (Segment.Sealed c z) segs us) :
    AllReadonly (segs.map Segment.indexFile) := by
  intro f hf
  obtain ⟨seg, hseg, rfl⟩ := List.mem_map.mp hf
  obtain ⟨u, -, hu⟩ := forall₂_exists h seg hseg
  rw [hu.indexFile, hu.indexContents]
  trivial

/-- No read-only segment has the name of one that starts elsewhere. -/
theorem sealed_absent {first : Nat} (h : List.Forall₂ (Segment.Sealed c z) segs us)
    (hfirst : ∀ u ∈ us, u.first ≠ first) (last : Nat) :
    Table.Absent (.readonly first last) (segs.map Segment.logContents) ∧
      Table.Absent (.readonly first last) (segs.map Segment.indexFile) := by
  constructor
  · intro f hf heq
    obtain ⟨seg, hseg, rfl⟩ := List.mem_map.mp hf
    obtain ⟨u, hmem, hu⟩ := forall₂_exists h seg hseg
    rw [Segment.logContents, hu.name] at heq
    exact hfirst u hmem (FileName.readonly.inj heq).1
  · intro f hf heq
    obtain ⟨seg, hseg, rfl⟩ := List.mem_map.mp hf
    obtain ⟨u, hmem, hu⟩ := forall₂_exists h seg hseg
    rw [hu.indexFile, hu.indexContents] at heq
    exact hfirst u hmem (FileName.readonly.inj heq).1

theorem lookup_indexFile {u : SegView} (h : List.Forall₂ (Segment.Sealed c z) segs us)
    (hsorted : us.Pairwise fun a b => a.first < b.first) (hu : u ∈ us) :
    (segs.map Segment.indexFile).lookup (.readonly u.first (u.next - 1)) =
      some (marshalEntries (positions u.first 0 u.es)) := by
  have hmap : segs.map Segment.indexFile = segs.map Segment.indexContents := by
    refine List.map_congr_left fun seg hseg => ?_
    obtain ⟨u, -, hu⟩ := forall₂_exists h seg hseg
    exact hu.indexFile
  rw [hmap]
  exact lookup_sealed h hsorted hu

/-- The files next to those of the segment that is written. -/
def Others.readonly (n : Nat) (logs before behind : List (FileName × Bytes))
    (hlogs : AllReadonly logs) (hbefore : AllReadonly before) (hbehind : AllReadonly behind) :
    Others (.inprogress n) :=
  ⟨logs, before, behind, hlogs.absent n, hbefore.absent n, hbehind.absent n⟩

variable {init : List Segment} {done : List SegView} {w : SegView} {last : Segment}
  {orphans : List (FileName × Bytes)}

/-- The files of a storage around those of its last segment. -/
theorem filesOf_concat (hinit : List.Forall₂ (Segment.Sealed c z) init done)
    (hlast : last.Writable c z w) (horph : AllReadonly orphans) :
    filesOf (init ++ [last]) orphans =
      (Others.readonly w.first (init.map Segment.logContents) (init.map Segment.indexFile) orphans
        (sealed_logs hinit) (sealed_indexes hinit) horph).dir last.logFile.mappedData
        last.indexFile.2 := by
  have hindex : last.indexFile = (.inprogress w.first, last.indexFile.2) :=
    Prod.ext (Segment.indexFile_name hlast.index) rfl
  rw [filesOf, List.map_append, List.map_append, List.append_assoc, Others.dir]
  simp only [List.map_singleton, List.singleton_append, Others.readonly]
  rw [← hindex, Segment.logContents, hlast.name]

/-- **A directory of read-only segments and one with whole records behind them can
be opened.** -/
theorem restartable_dir (hinit : List.Forall₂ (Segment.Sealed c true) init done)
    (hwf : (SegLog.segs done w).WF) (hne : w.es ≠ []) (hhot : w.hot = true)
    (o : Others (.inprogress w.first)) (hlogs : o.logs = init.map Segment.logContents)
    (hidx : ∀ u ∈ done, o.before.lookup (.readonly u.first (u.next - 1)) =
      some (marshalEntries (positions u.first 0 u.es)))
    (hro : AllReadonly (o.before ++ o.behind)) {log index : Bytes}
    (hlog : LogBytes c true log w.es) : Restartable c (o.dir log index) (.segs done w) where
  recoverable := by
    have hmem : (FileName.inprogress w.first, index) ∈ (o.dir log index).indexes :=
      List.mem_append_right _ List.mem_cons_self
    refine ⟨hhot, o.logs, (.inprogress w.first, log), rfl, ?_, hne, rfl, hlog,
      Table.exists_lookup_of_mem hmem⟩
    rw [hlogs]
    exact sealedFiles hinit fun u hu => Table.lookup_append_left (hidx u hu)
  wf := hwf
  full := by
    intro u hu
    rcases List.mem_append.mp hu with hu | hu
    · exact hwf.done_ne u hu
    · exact List.mem_singleton.mp hu ▸ hne
  names := by
    intro f hf n hn
    refine ⟨done, w, rfl, ?_⟩
    rcases List.mem_append.mp hf with hf | hf
    · exact absurd hn ((hro.absent n) f (List.mem_append_left _ hf))
    · rcases List.mem_cons.mp hf with rfl | hf
      · exact (FileName.inprogress.inj hn).symm
      · exact absurd hn ((hro.absent n) f (List.mem_append_right _ hf))

end Sealed

/-! ## Crashes of the three operations -/

section Crashes
variable {c : Config} {s : DiskStorage} {v : SegLog} {orphans : List (FileName × Bytes)}
  {init : List Segment} {last : Segment} {done : List SegView} {w : SegView} {es : List Entry}

/-- The directory as it is. -/
theorem restartable_self (h : s.Rep c true v) (hwf : v.WF) (hfull : v.Full)
    (horph : AllReadonly orphans) : Restartable c (filesOf s.segments orphans) v := by
  cases v with
  | empty =>
      have hs : s.segments = [] := h
      rw [hs]
      exact ⟨rfl, hwf, hfull, fun f hf n hn => absurd hn (horph.absent n f hf)⟩
  | segs done w =>
      obtain ⟨init, last, hs, hinit, hlast⟩ := h
      have hw : w.es ≠ [] := hfull w (List.mem_append_right _ (List.mem_singleton_self w))
      rw [hs, filesOf_concat hinit hlast horph]
      exact restartable_dir hinit hwf hw hlast.hot _ rfl
        (fun u hu => lookup_indexFile hinit (List.pairwise_append.mp hwf.pairwise_first).1 hu)
        ((sealed_indexes hinit).append horph) ⟨hlast.file.mapped, hlast.file.size⟩

theorem saveSteps_eq {n : Nat} (hne : es ≠ []) (hes : Numbered Entry.index n es) :
    s.saveSteps c es =
      match s.segments.getLast? with
      | none => (Segment.create c (.inprogress n)).createSteps ++
          (Segment.create c (.inprogress n)).recordSteps (es.map Entry.toRecord) n
      | some seg =>
          if seg.needRolling (encode es).length then
            seg.sealSteps ++ ((Segment.create c (.inprogress n)).createSteps ++
              (Segment.create c (.inprogress n)).recordSteps (es.map Entry.toRecord) n)
          else seg.recordSteps (es.map Entry.toRecord) n := by
  obtain ⟨e, rest, rfl⟩ := List.exists_cons_of_ne_nil hne
  obtain ⟨rfl, -⟩ := hes
  cases hlast : s.segments.getLast? with
  | none => simp only [DiskStorage.saveSteps, entriesToRecords_eq, hlast]
  | some seg => simp only [DiskStorage.saveSteps, entriesToRecords_eq, hlast]

/-- A new segment, once its first record is written. -/
theorem run_newSegment (c : Config) {n k : Nat} (d : Dir) (hk : 2 ≤ k)
    (hlogs : AllReadonly d.logs) (hindexes : AllReadonly d.indexes)
    (hfit : (encode es).length ≤ c.segmentSize) :
    ∃ log index, d.run (((Segment.create c (.inprogress n)).createSteps ++
        (Segment.create c (.inprogress n)).recordSteps (es.map Entry.toRecord) n).take k) =
        (Others.readonly n d.logs d.indexes [] hlogs hindexes allReadonly_nil).dir log index ∧
      LogBytes c true log (es.take ((k - 2 + 1) / 2)) := by
  have hcreate := Segment.run_createSteps c d (hlogs.absent n) (hindexes.absent n)
  obtain ⟨log, index, hrun, hlog⟩ :=
    (Others.readonly n d.logs d.indexes [] hlogs hindexes allReadonly_nil).run_recordSteps es (k - 2) []
      (Segment.create_laid c true n) rfl (by rw [encode_nil, List.length_nil]; omega)
  refine ⟨log, index, ?_, hlog⟩
  rw [List.take_append, List.take_of_length_le (by exact hk), Dir.run_append, hcreate]
  exact hrun

theorem take_ne_nil {j : Nat} (hne : es ≠ []) (hj : 0 < j) : es.take j ≠ [] := by
  intro h0
  rcases List.take_eq_nil_iff.mp h0 with h0 | h0
  · omega
  · exact hne h0

/-- Sealing the last segment of a storage. -/
theorem run_seal (hinit : List.Forall₂ (Segment.Sealed c true) init done)
    (hlast : last.Writable c true w) (hwf : (SegLog.segs done w).WF)
    (horph : AllReadonly orphans) (hwne : w.es ≠ []) :
    ∃ prev rest, last.changeToReadonly = .ok prev ∧ prev.Sealed c true w ∧
      last.sealSteps.length = 3 ∧ AllReadonly rest ∧
      (filesOf (init ++ [last]) orphans).run last.sealSteps = filesOf (init ++ [prev]) rest := by
  have hfirst : ∀ u ∈ done, u.first ≠ w.first := fun u hu =>
    Nat.ne_of_lt ((List.pairwise_append.mp hwf.pairwise_first).2.2 u hu w
      (List.mem_singleton_self w))
  obtain ⟨hlabs, hiabs⟩ := sealed_absent hinit hfirst (w.next - 1)
  let o := Others.readonly w.first (init.map Segment.logContents) (init.map Segment.indexFile)
    orphans (sealed_logs hinit) (sealed_indexes hinit) horph
  obtain ⟨prev, hprev, hsealed, hlen, hseal⟩ :=
    hlast.run_sealSteps hwne o last.indexFile.2 hlabs hiabs
  refine ⟨prev, Table.remove (.readonly w.first (w.next - 1)) orphans, hprev, hsealed, hlen,
    fun f hf => horph f (Table.mem_of_mem_remove hf), ?_⟩
  rw [filesOf_concat hinit hlast horph, hseal, filesOf, List.map_append, List.map_append,
    List.append_assoc]
  rfl

/-- A crash behind the first record that follows a roll. -/
theorem roll_crash {k : Nat} (hinit : List.Forall₂ (Segment.Sealed c true) init done)
    (hlast : last.Writable c true w) (hwf : (SegLog.segs done w).WF)
    (horph : AllReadonly orphans) (hwne : w.es ≠ []) (hne : es ≠ [])
    (hes : Numbered Entry.index w.next es) (hfit : (encode es).length ≤ c.segmentSize)
    (hk : 6 ≤ k) :
    ∃ v', Restartable c
        ((filesOf (init ++ [last]) orphans).run
          ((last.sealSteps ++ ((Segment.create c (.inprogress w.next)).createSteps ++
            (Segment.create c (.inprogress w.next)).recordSteps (es.map Entry.toRecord)
              w.next)).take k)) v' ∧
      ∀ e ∈ (SegLog.segs done w).entries, e ∈ v'.entries := by
  obtain ⟨prev, rest, -, hsealed, hlen, hrest, hdir⟩ := run_seal hinit hlast hwf horph hwne
  have hdone : List.Forall₂ (Segment.Sealed c true) (init ++ [prev]) (done ++ [w]) :=
    List.rel_append hinit (.cons hsealed .nil)
  have hindexes : AllReadonly (filesOf (init ++ [prev]) rest).indexes :=
    (sealed_indexes hdone).append hrest
  obtain ⟨log, index, hrun, hlog⟩ := run_newSegment (n := w.next) (k := k - 3) c
    (filesOf (init ++ [prev]) rest) (by omega) (sealed_logs hdone) hindexes hfit
  have hj := take_ne_nil (j := (k - 3 - 2 + 1) / 2) hne (by omega)
  have hpos : 1 ≤ w.next := Nat.le_trans w.first_pos (Nat.le_add_right _ _)
  obtain ⟨hwf', -, hent⟩ := hwf.roll hwne (hes.take ((k - 3 - 2 + 1) / 2)) hpos
  rw [List.take_append, List.take_of_length_le (by omega), Dir.run_append, hlen, hdir, hrun]
  refine ⟨_, restartable_dir hdone hwf' hj rfl _ rfl ?_ (hindexes.append allReadonly_nil) hlog, ?_⟩
  · intro u hu
    exact Table.lookup_append_left
      (lookup_indexFile hdone (List.pairwise_append.mp hwf'.pairwise_first).1 hu)
  · intro e he
    rw [hent]
    exact List.mem_append_left _ he

/-- **Crashes of `SaveRaftEntries`.** -/
theorem save_crash {k : Nat} (h : s.Rep c true v) (hwf : v.WF) (horph : AllReadonly orphans)
    (hne : es ≠ []) (hes : Numbered Entry.index v.next es)
    (hfit : (encode es).length ≤ c.segmentSize) (hsafe : (Op.save es).SafePoint s k) :
    ∃ v', Restartable c ((filesOf s.segments orphans).run ((s.saveSteps c es).take k)) v' ∧
      ∀ e ∈ v.entries, e ∈ v'.entries := by
  rw [saveSteps_eq hne hes]
  rw [Op.SafePoint, entriesToRecords_eq] at hsafe
  cases v with
  | empty =>
      have hs : s.segments = [] := h
      rw [hs] at hsafe ⊢
      rcases hsafe with rfl | hk
      · exact ⟨.empty, restartable_self (s := ⟨[]⟩) rfl hwf nofun horph, nofun⟩
      · obtain ⟨log, index, hrun, hlog⟩ := run_newSegment (n := 1) c (filesOf [] orphans)
          (Nat.le_of_succ_le hk) nofun horph hfit
        have hj := take_ne_nil (j := (k - 2 + 1) / 2) hne (by omega)
        obtain ⟨hw, -⟩ := SegLog.wf_segs (d := [])
          (w := SegView.single 1 _ (hes.take ((k - 2 + 1) / 2)) (Nat.le_refl 1)) ⟨rfl, trivial⟩
          nofun
        refine ⟨_, hrun ▸ restartable_dir .nil hw hj rfl _ rfl nofun ?_ hlog, nofun⟩
        exact horph.append allReadonly_nil
  | segs done w =>
      obtain ⟨init, last, hs, hinit, hlast⟩ := h
      have hsorted := (List.pairwise_append.mp hwf.pairwise_first).1
      have hlookup := fun u hu => lookup_indexFile hinit hsorted (u := u) hu
      rw [hs, List.getLast?_concat] at hsafe ⊢
      simp only [hlast.needRolling, decide_eq_true_eq, SegLog.next] at hsafe ⊢
      by_cases hroll : c.segmentSize < (encode w.es).length + (encode es).length
      · have hwne := SegLog.ne_nil_of_roll hfit hroll
        rw [if_pos hroll] at hsafe ⊢
        rcases hsafe with rfl | hk
        · rw [List.take_zero, Dir.run_nil, filesOf_concat hinit hlast horph]
          exact ⟨_, restartable_dir hinit hwf hwne hlast.hot _ rfl hlookup
            ((sealed_indexes hinit).append horph) ⟨hlast.file.mapped, hlast.file.size⟩,
            fun e he => he⟩
        · exact roll_crash hinit hlast hwf horph hwne hne hes hfit hk
      · rw [if_neg hroll] at hsafe ⊢
        rw [filesOf_concat hinit hlast horph]
        obtain ⟨log, index, hrun, hlog⟩ := (Others.readonly w.first (init.map Segment.logContents)
          (init.map Segment.indexFile) orphans (sealed_logs hinit) (sealed_indexes hinit)
          horph).run_recordSteps es k last.indexFile.2
          ⟨hlast.file, hlast.writePosition, hlast.index⟩ hlast.name (Nat.le_of_not_lt hroll)
        have hj : w.es ++ es.take ((k + 1) / 2) ≠ [] := by
          intro h0
          obtain ⟨h1, h2⟩ := List.append_eq_nil_iff.mp h0
          rw [hlast.lastIndex, SegView.lastIndex, if_pos h1] at hsafe
          exact take_ne_nil hne (by omega) h2
        obtain ⟨hwf', -, hent⟩ := hwf.appendLast (hes.take ((k + 1) / 2))
        refine ⟨_, hrun ▸ restartable_dir hinit hwf' hj rfl _ rfl hlookup
          ((sealed_indexes hinit).append horph) hlog, fun e he => ?_⟩
        rw [hent]
        exact List.mem_append_left _ he

/-- No two segments of a storage have files of the same name. -/
theorem named_of_rep {z : Bool} (h : s.Rep c z v) (hwf : v.WF) : Named s.segments := by
  cases v with
  | empty =>
      rw [show s.segments = [] from h]
      exact ⟨.nil, nofun⟩
  | segs done w =>
      obtain ⟨init, last, hs, hinit, hlast⟩ := h
      have hsorted := (List.pairwise_append.mp hwf.pairwise_first).1
      rw [hs]
      constructor
      · refine List.pairwise_append.mpr ⟨?_, List.pairwise_singleton _ last, ?_⟩
        · clear hs hwf
          induction hinit with
          | nil => exact .nil
          | @cons a u segs us ha hsegs ih =>
              obtain ⟨hlt, hsorted⟩ := List.pairwise_cons.mp hsorted
              refine List.pairwise_cons.mpr ⟨fun b hb heq => ?_, ih hsorted⟩
              obtain ⟨x, hx, hb⟩ := forall₂_exists hsegs b hb
              rw [ha.name, hb.name] at heq
              exact Nat.ne_of_lt (hlt x hx) (FileName.readonly.inj heq).1
        · intro a ha b hb
          rw [List.mem_singleton.mp hb, hlast.name]
          exact DiskStorage.sealed_name_ne hinit a ha
      · intro seg hseg
        rcases List.mem_append.mp hseg with hseg | hseg
        · obtain ⟨u, -, hu⟩ := forall₂_exists hinit seg hseg
          rw [hu.indexFile, hu.indexContents, hu.name]
        · rw [List.mem_singleton.mp hseg, hlast.name]
          exact Segment.indexFile_name hlast.index

/-- Cutting the writable segment: its log file is cut in the first step. -/
theorem Segment.Writable.run_cutSteps {z : Bool} {seg seg' : Segment} {u : SegView} {i k : Nat}
    (h : seg.Writable c z u) (hcut : seg.truncateSuffix i = .ok seg')
    (hw : seg'.Writable c z (u.cut i)) (o : Others (.inprogress u.first)) (index : Bytes)
    (hk : 1 ≤ k) :
    ∃ index', (2 ≤ k → index' = seg'.indexFile.2) ∧
      (o.dir seg.logFile.mappedData index).run ((seg.cutSteps i).take k) =
        o.dir seg'.logFile.mappedData index' := by
  have hname : seg'.indexFile.1 = .inprogress u.first := Segment.indexFile_name hw.index
  rw [Segment.cutSteps, hcut]
  simp only [h.status, if_true, List.nil_append, h.name, hname]
  obtain ⟨k, rfl⟩ := Nat.exists_eq_add_of_le' hk
  rw [List.take_succ_cons, Dir.run_cons, o.step_zeroRange, ← Segment.truncateSuffix_file hcut]
  cases k with
  | zero => exact ⟨index, by omega, rfl⟩
  | succ k =>
      rw [List.take_succ_cons, Dir.run_cons, o.step_writeIndex, List.take_nil]
      exact ⟨_, fun _ => rfl, rfl⟩

/-- Cutting a read-only segment: it is writable once both files are renamed. -/
theorem Segment.Sealed.run_cutSteps {z : Bool} {seg seg' : Segment} {u : SegView} {i k : Nat}
    (h : seg.Sealed c z u)
    (hcut : seg.truncateSuffix i = .ok seg') (hw : seg'.Writable c z (u.cut i))
    (o : Others seg.logFile.filePath) (index : Bytes) (hlogs : AllReadonly o.logs)
    (hbefore : AllReadonly o.before) (hbehind : AllReadonly o.behind) (hk : 3 ≤ k) :
    ∃ index', (4 ≤ k → index' = seg'.indexFile.2) ∧
      (o.dir seg.logFile.mappedData index).run ((seg.cutSteps i).take k) =
        (Others.readonly u.first o.logs o.before o.behind hlogs hbefore hbehind).dir
          seg'.logFile.mappedData index' := by
  have hname : seg'.indexFile.1 = .inprogress u.first := Segment.indexFile_name hw.index
  have hname' : seg'.logFile.filePath = .inprogress u.first := hw.name
  have hold : seg.indexFile.1 = seg.logFile.filePath := by
    rw [h.indexFile, h.indexContents, h.name]
  have hne : seg.logFile.filePath ≠ .inprogress u.first := by
    rw [h.name]
    nofun
  have hro : ¬ seg.status = .rdwr := by
    rw [h.status]
    nofun
  have hrename : ((o.dir seg'.logFile.mappedData index).step
      (.renameLog seg.logFile.filePath (.inprogress u.first))).step
      (.renameIndex seg.logFile.filePath (.inprogress u.first)) =
      (Others.readonly u.first o.logs o.before o.behind hlogs hbefore hbehind).dir
        seg'.logFile.mappedData index := by
    simp only [Dir.step, Others.dir, Others.readonly]
    rw [Table.rename_at hne o.logs_absent (hlogs.absent _) (Table.absent_nil _),
      Table.rename_at hne o.before_absent (hbefore.absent _) o.behind_absent,
      (hbehind.absent _).remove_eq]
    rfl
  rw [Segment.cutSteps, hcut]
  simp only [if_neg hro, List.cons_append, List.nil_append, hname, hname', hold]
  obtain ⟨k, rfl⟩ := Nat.exists_eq_add_of_le' hk
  rw [List.take_succ_cons, List.take_succ_cons, List.take_succ_cons, Dir.run_cons,
    o.step_zeroRange, ← Segment.truncateSuffix_file hcut, Dir.run_cons, Dir.run_cons, hrename]
  cases k with
  | zero => exact ⟨index, by omega, rfl⟩
  | succ k =>
      rw [List.take_succ_cons, Dir.run_cons, Others.step_writeIndex, List.take_nil]
      exact ⟨_, fun _ => rfl, rfl⟩

/-- The steps of a truncation, once the segment that is cut has its final name: the
files are those of the segments before it and its own. -/
theorem run_truncateSteps {i k : Nat} {before : List SegView} {u : SegView}
    {b r : List Segment} {seg seg' : Segment}
    (hsp : DiskStorage.SplitAt c true s v i before u b seg r) (hnamed : Named s.segments)
    (horph : AllReadonly orphans)
    (hunused : ∀ f ∈ orphans, ∀ seg ∈ s.segments, f.1 ≠ seg.logFile.filePath)
    (hcut : seg.truncateSuffix i = .ok seg') (hw : seg'.Writable c true (u.cut i)) (hk : 1 ≤ k)
    (hsafe : seg.status = .rdwr ∨ 2 * r.length + 3 ≤ k) :
    ∃ (o : Others (.inprogress u.first)) (index : Bytes), o.logs = b.map Segment.logContents ∧
      o.before = b.map Segment.indexFile ∧ AllReadonly o.behind ∧
      (2 * r.length + 4 ≤ k → index = seg'.indexFile.2) ∧
      (filesOf s.segments orphans).run ((s.truncateSteps i).take k) =
        o.dir seg'.logFile.mappedData index := by
  rw [DiskStorage.truncateSteps, hsp.found]
  rcases hsp.mode with ⟨hs, -, -⟩ | ⟨hs, rfl⟩
  · -- a read-only segment: those behind it are removed first
    have hk' : 2 * r.length + 3 ≤ k := by
      rcases hsafe with h | h
      · rw [hs.status] at h
        cases h
      · exact h
    have hsegs : s.segments = (b ++ [seg]) ++ (r ++ []) := by
      rw [hsp.segments, List.append_nil, List.append_assoc, List.singleton_append]
    obtain ⟨rest, hrest, hrun⟩ := run_removeSteps_all orphans (hsegs ▸ hnamed)
    have hrestro : AllReadonly rest := fun f hf => horph f (hrest f hf)
    rw [hsp.segments] at hnamed
    rw [← hsegs, List.append_nil] at hrun
    let o : Others seg.logFile.filePath := ⟨b.map Segment.logContents, b.map Segment.indexFile,
      rest, hnamed.absent_logs.1, hnamed.absent_indexes.1, fun f hf =>
        hunused f (hrest f hf) seg
          (by rw [hsp.segments]; exact List.mem_append_right _ List.mem_cons_self)⟩
    obtain ⟨index, hindex, hcutrun⟩ := hs.run_cutSteps (k := k - 2 * r.length) hcut hw o
      seg.indexFile.2 (sealed_logs hsp.done) (sealed_indexes hsp.done) hrestro (by omega)
    have hdir : filesOf (b ++ [seg]) rest = o.dir seg.logFile.mappedData seg.indexFile.2 := by
      have hfile : seg.indexFile = (seg.logFile.filePath, seg.indexFile.2) := by
        refine Prod.ext ?_ rfl
        rw [hs.indexFile, hs.indexContents, hs.name]
      rw [filesOf, Others.dir, List.map_append, List.map_append, List.append_assoc]
      simp only [List.map_singleton, List.singleton_append, o]
      rw [← hfile]
      rfl
    refine ⟨Others.readonly u.first o.logs o.before o.behind (sealed_logs hsp.done)
      (sealed_indexes hsp.done) hrestro, index, rfl, rfl, hrestro, fun hk => hindex (by omega), ?_⟩
    simp only
    rw [List.take_append, List.take_of_length_le (by rw [length_removeSteps]; omega),
      Dir.run_append, hrun, hdir, length_removeSteps]
    exact hcutrun
  · -- the writable segment has none behind it
    rw [hsp.segments, filesOf_concat hsp.done hs horph]
    let o := Others.readonly u.first (b.map Segment.logContents) (b.map Segment.indexFile)
      orphans (sealed_logs hsp.done) (sealed_indexes hsp.done) horph
    obtain ⟨index, hindex, hrun⟩ := hs.run_cutSteps hcut hw o seg.indexFile.2 hk
    exact ⟨o, index, rfl, rfl, horph, fun hk => hindex (by omega), hrun⟩

/-- **Crashes of `TruncateSuffix`.** -/
theorem truncate_crash {i k : Nat} (h : s.Rep c true v) (hwf : v.WF) (hfull : v.Full)
    (horph : AllReadonly orphans)
    (hunused : ∀ f ∈ orphans, ∀ seg ∈ s.segments, f.1 ≠ seg.logFile.filePath)
    (hlo : v.start ≤ i) (hhi : i < v.next) (hcut : DiskStorage.Cuttable true v i)
    (hsafe : (Op.truncate i).SafePoint s k) :
    ∃ v', Restartable c ((filesOf s.segments orphans).run ((s.truncateSteps i).take k)) v' ∧
      ∀ e ∈ v.entries, ¬ i ≤ e.index → e ∈ v'.entries := by
  rcases Nat.eq_zero_or_pos k with rfl | hk
  · exact ⟨v, restartable_self h hwf hfull horph, fun e he _ => he⟩
  obtain ⟨before, u, b, seg, r, hsp⟩ := h.splitAt hwf hlo hhi
  obtain ⟨seg', hcutseg, hw⟩ := hsp.exists_cut hcut
  have hread : seg.firstIndex = u.first := by
    rcases hsp.mode with ⟨hs, -, -⟩ | ⟨hs, -⟩
    · exact hs.firstIndex
    · exact hs.firstIndex.trans (SegView.firstIndex_of_ne hsp.covers.ne_nil)
  rw [Op.SafePoint, hsp.found] at hsafe
  obtain ⟨hne, hk'⟩ := hsafe.resolve_left (Nat.ne_of_gt hk)
  rw [hread] at hne
  obtain ⟨o, index, hlogs, hbefore, hbehind, -, hrun⟩ :=
    run_truncateSteps hsp (named_of_rep h hwf) horph hunused hcutseg hw hk hk'
  obtain ⟨hwf', -, -, hent⟩ := hwf.truncate hlo hhi
  rw [hsp.truncated] at hwf' hent
  have hes : (u.cut i).es ≠ [] := by
    refine take_ne_nil hsp.covers.ne_nil ?_
    have := hsp.covers.1
    omega
  rw [hrun]
  refine ⟨_, restartable_dir hsp.done hwf' hes rfl o hlogs ?_ ?_
    ⟨hw.file.mapped, hw.file.size⟩, ?_⟩
  · intro x hx
    rw [hbefore]
    exact lookup_indexFile hsp.done (List.pairwise_append.mp hwf'.pairwise_first).1 hx
  · rw [hbefore]
    exact (sealed_indexes hsp.done).append hbehind
  · intro e he hlt
    rw [hent]
    exact hwf.numbered.mem_take he (by omega)

theorem drop_take_append_drop {α : Type} {l : List α} {p : Nat} (hp : p ≤ l.length) (j : Nat) :
    (l.take p).drop j ++ l.drop p = l.drop (min j p) := by
  have hlen : (l.take p).length = p := by rw [List.length_take, Nat.min_eq_left hp]
  rcases Nat.le_total j p with hle | hle
  · conv_rhs => rw [← List.take_append_drop p l]
    rw [Nat.min_eq_left hle, List.drop_append_of_le_length (by omega)]
  · rw [Nat.min_eq_right hle, List.drop_of_length_le (by omega), List.nil_append]

/-- A purge means to remove the entries of the segments in front of those it reserves. -/
theorem removes_of_mem_take {reserve p : Nat} {init : List Segment} {last : Segment}
    {done : List SegView} {u : SegView} {e : Entry} (hs : s.segments = init ++ [last])
    (hinit : List.Forall₂ (Segment.Sealed c true) init done)
    (hp : s.segments.length - reserve = p) (hple : p ≤ init.length) (hu : u ∈ done.take p)
    (he : e ∈ u.es) : (Op.purge reserve).Removes s e.index := by
  obtain ⟨seg, hseg, hsealed⟩ := forall₂_exists (List.forall₂_take p hinit).flip u hu
  have hsealed : seg.Sealed c true u := hsealed
  have hrange := u.numbered.of_mem he
  refine ⟨seg, ?_, ?_⟩
  · rw [hp, hs, List.take_append_of_le_length hple]
    exact hseg
  · rw [hsealed.readable.contains (Nat.le_trans u.first_pos hrange.1)]
    exact decide_eq_true hrange

/-- What a purge does not mean to remove lies behind the segments that are gone. -/
theorem mem_entries_drop {reserve p m : Nat} {init : List Segment} {last : Segment}
    {done : List SegView} {w : SegView} {e : Entry} (hs : s.segments = init ++ [last])
    (hinit : List.Forall₂ (Segment.Sealed c true) init done)
    (hp : s.segments.length - reserve = p) (hple : p ≤ init.length) (hm : m ≤ p)
    (he : e ∈ (SegLog.segs done w).entries) (hkeep : ¬ (Op.purge reserve).Removes s e.index) :
    e ∈ (SegLog.segs (done.drop m) w).entries := by
  obtain ⟨u, hu, heu⟩ := List.mem_flatMap.mp he
  refine List.mem_flatMap.mpr ⟨u, ?_, heu⟩
  rcases List.mem_append.mp hu with hu | hu
  · rw [← List.take_append_drop m done] at hu
    rcases List.mem_append.mp hu with hu | hu
    · -- a segment that is gone was to be removed
      refine absurd (removes_of_mem_take hs hinit hp hple ?_ heu) hkeep
      rw [← Nat.min_eq_left hm, ← List.take_take] at hu
      exact List.mem_of_mem_take hu
    · exact List.mem_append_left _ hu
  · exact List.mem_append_right _ hu

/-- The files after some steps of a purge: the log files of the segments from `m'` on, and the
index files of those from `m` on. -/
theorem run_purgeSteps {reserve p k : Nat} {init : List Segment} {last : Segment}
    (hnamed : Named s.segments) (hs : s.segments = init ++ [last])
    (hp : s.segments.length - reserve = p) (hple : p ≤ init.length) :
    ∃ m m' rest, m ≤ m' ∧ m' ≤ p ∧ (∀ f ∈ rest, f ∈ orphans) ∧
      (filesOf s.segments orphans).run ((s.purgeSteps reserve).take k) =
        ⟨(init.drop m' ++ [last]).map Segment.logContents,
          (init.drop m ++ [last]).map Segment.indexFile ++ rest⟩ := by
  have htake : s.segments.take p = init.take p := by
    rw [hs, List.take_append_of_le_length hple]
  have hsplit : s.segments = [] ++ (init.take p ++ (init.drop p ++ [last])) := by
    rw [hs, List.nil_append, ← List.append_assoc, List.take_append_drop]
  rw [hsplit] at hnamed
  obtain ⟨j, j', rest, hle, -, hrest, hrun⟩ := run_removeSteps (init.take p) k orphans hnamed
  simp only [List.nil_append, ← List.append_assoc, drop_take_append_drop hple,
    List.take_append_drop] at hrun
  refine ⟨min j p, min j' p, rest, by omega, Nat.min_le_right _ _, hrest, ?_⟩
  rw [DiskStorage.purgeSteps, hp, htake, hs]
  exact hrun

/-- **Crashes of a purge**: a prefix of the segments is gone, and the index file of
one more may have been left. -/
theorem purge_crash {reserve k : Nat} (h : s.Rep c true v) (hwf : v.WF) (hfull : v.Full)
    (horph : AllReadonly orphans) (hr : 1 ≤ reserve) :
    ∃ v', Restartable c ((filesOf s.segments orphans).run ((s.purgeSteps reserve).take k)) v' ∧
      ∀ e ∈ v.entries, ¬ (Op.purge reserve).Removes s e.index → e ∈ v'.entries := by
  have hnamed := named_of_rep h hwf
  cases v with
  | empty =>
      have hs : s.segments = [] := h
      refine ⟨.empty, ?_, nofun⟩
      rw [DiskStorage.purgeSteps, hs, List.take_nil, List.flatMap_nil, List.take_nil]
      exact restartable_self (s := ⟨[]⟩) rfl hwf hfull horph
  | segs done w =>
      obtain ⟨init, last, hs, hinit, hlast⟩ := h
      obtain ⟨p, hp, hple⟩ : ∃ p, s.segments.length - reserve = p ∧ p ≤ init.length := by
        refine ⟨_, rfl, ?_⟩
        rw [hs, List.length_append, List.length_singleton]
        omega
      obtain ⟨m, m', rest, hm, hmp, hrest, hrun⟩ :=
        run_purgeSteps (k := k) hnamed hs hp hple
      have hrestro : AllReadonly rest := fun f hf => horph f (hrest f hf)
      have hsorted := (List.pairwise_append.mp hwf.pairwise_first).1
      have hchain : Chunks.Chained SegView.first SegView.es (SegLog.segs done w).start
          (done.take m' ++ (done.drop m' ++ [w])) := by
        rw [← List.append_assoc, List.take_append_drop]
        exact hwf.chained
      obtain ⟨hwf', -⟩ := SegLog.wf_segs (Chunks.chained_append_iff.mp hchain).2
        (fun u hu => hwf.done_ne u (List.mem_of_mem_drop hu))
      have hw : w.es ≠ [] := hfull w (List.mem_append_right _ (List.mem_singleton_self w))
      have hdrop := List.forall₂_drop m hinit
      have hdrop' := List.forall₂_drop m' hinit
      let o := Others.readonly w.first ((init.drop m').map Segment.logContents)
        ((init.drop m).map Segment.indexFile) rest (sealed_logs hdrop') (sealed_indexes hdrop)
        hrestro
      have hdir : (⟨(init.drop m' ++ [last]).map Segment.logContents,
          (init.drop m ++ [last]).map Segment.indexFile ++ rest⟩ : Dir) =
          o.dir last.logFile.mappedData last.indexFile.2 := by
        have hlogs := congrArg Dir.logs (filesOf_concat hdrop' hlast hrestro)
        have hindexes := congrArg Dir.indexes (filesOf_concat hdrop hlast hrestro)
        exact congrArg₂ Dir.mk hlogs hindexes
      rw [hrun, hdir]
      refine ⟨_, restartable_dir hdrop' hwf' hw hlast.hot o rfl ?_
        ((sealed_indexes hdrop).append hrestro) ⟨hlast.file.mapped, hlast.file.size⟩, ?_⟩
      · intro u hu
        have hu' : u ∈ done.drop m := by
          rw [← Nat.add_sub_cancel' hm, ← List.drop_drop] at hu
          exact List.mem_of_mem_drop hu
        exact lookup_indexFile hdrop (hsorted.sublist (List.drop_sublist m done)) hu'
      · exact fun e he hkeep => mem_entries_drop hs hinit hp hple hmp he hkeep

end Crashes

/-! ## The steps add up -/

/-- The directory holds the files of the storage: its log files, and an index file
for each of them. -/
structure Dir.Shows (d : Dir) (s : DiskStorage) : Prop where
  logs : d.logs = s.files.logs
  indexes : ∀ seg ∈ s.segments, d.indexes.lookup seg.indexFile.1 = some seg.indexFile.2

section Complete
variable {c : Config} {s : DiskStorage} {v : SegLog} {orphans : List (FileName × Bytes)}
  {init : List Segment} {last : Segment} {done : List SegView} {w : SegView} {es : List Entry}

theorem Named.lookup {segs : List Segment} {seg : Segment} (h : Named segs) (hseg : seg ∈ segs) :
    (segs.map Segment.indexFile).lookup seg.indexFile.1 = some seg.indexFile.2 := by
  refine Table.lookup_of_mem ?_ (List.mem_map.mpr ⟨seg, hseg, rfl⟩)
  refine List.pairwise_map.mpr (h.distinct.imp_of_mem fun ha hb hne => ?_)
  rw [h.index _ ha, h.index _ hb]
  exact hne

theorem shows_dir (h : (⟨init ++ [last]⟩ : DiskStorage).Rep c true v) (hwf : v.WF) {n : Nat}
    (hname : last.logFile.filePath = .inprogress n) (o : Others (.inprogress n))
    (hlogs : o.logs = init.map Segment.logContents) {rest : List (FileName × Bytes)}
    (hbefore : o.before = init.map Segment.indexFile ++ rest) {log index : Bytes}
    (hlog : log = last.logFile.mappedData) (hindex : index = last.indexFile.2) :
    (o.dir log index).Shows ⟨init ++ [last]⟩ := by
  have hnamed := named_of_rep h hwf
  subst hlog hindex
  constructor
  · rw [Others.dir, DiskStorage.files, List.map_append, hlogs, List.map_singleton,
      Segment.logContents, hname]
  · intro seg hseg
    rcases List.mem_append.mp hseg with hseg | hseg
    · have hinit : Named init := by
        rw [← List.append_nil init]
        exact hnamed.tail
      rw [Others.dir, hbefore]
      exact Table.lookup_append_left (Table.lookup_append_left (hinit.lookup hseg))
    · have hidx := hnamed.index seg (List.mem_append_right _ hseg)
      rw [List.mem_singleton.mp hseg] at hidx ⊢
      rw [hidx, hname, Others.dir, o.before_absent.lookup_eq]
      exact List.lookup_cons_self

/-- The steps of a new segment that is written completely. -/
theorem run_newSegment_all {n : Nat} {seg : Segment} (d : Dir) (hlogs : AllReadonly d.logs)
    (hindexes : AllReadonly d.indexes) (hfit : (encode es).length ≤ c.segmentSize)
    (happ : (Segment.create c (.inprogress n)).appendRecords (es.map Entry.toRecord) n =
      .ok seg) :
    d.run ((Segment.create c (.inprogress n)).createSteps ++
        (Segment.create c (.inprogress n)).recordSteps (es.map Entry.toRecord) n) =
      (Others.readonly n d.logs d.indexes [] hlogs hindexes allReadonly_nil).dir
        seg.logFile.mappedData seg.indexFile.2 := by
  have hcreate := Segment.run_createSteps c d (hlogs.absent n) (hindexes.absent n)
  obtain ⟨t, ht, htlog, htidx⟩ := Segment.appendRecords_files happ
  obtain ⟨t', ht', hrun⟩ := (Others.readonly n d.logs d.indexes [] hlogs hindexes
    allReadonly_nil).run_recordSteps_all es (Segment.create_laid c true n) rfl
    (by rw [encode_nil, List.length_nil]; omega)
  rw [List.length_nil, Nat.add_zero, ht] at ht'
  cases ht'
  rw [Dir.run_append, hcreate, ← htlog, ← htidx]
  exact hrun

theorem save_complete (h : s.Rep c true v) (hwf : v.WF) (horph : AllReadonly orphans)
    (hne : es ≠ []) (hes : Numbered Entry.index v.next es)
    (hfit : (encode es).length ≤ c.segmentSize) :
    ((filesOf s.segments orphans).run (s.saveSteps c es)).Shows (s.saveRaftEntries c es).1 := by
  obtain ⟨s', hs', hrep⟩ := h.saveRaftEntries hne hes hfit
  have hwf' := (hwf.save hes hfit).1
  rw [saveSteps_eq hne hes]
  cases v with
  | empty =>
      have hs : s.segments = [] := h
      obtain ⟨seg, happ, hseg⟩ := DiskStorage.appendRecords_create c true (Nat.le_refl 1) hne hes
        hfit
      have heq := DiskStorage.saveRaftEntries_first hne hes hfit hs happ
      rw [heq] at hs'
      cases hs'
      rw [heq, hs]
      simp only [List.getLast?_nil, SegLog.next]
      rw [run_newSegment_all (filesOf [] orphans) allReadonly_nil horph hfit happ]
      change Dir.Shows _ ⟨[] ++ [seg]⟩
      exact shows_dir hrep hwf' hseg.name _ rfl rfl rfl rfl
  | segs done w =>
      obtain ⟨init, last, hs, hinit, hlast⟩ := h
      have hneed := hlast.needRolling (encode es).length
      rw [hs, List.getLast?_concat]
      by_cases hroll : c.segmentSize < (encode w.es).length + (encode es).length
      · have hpos : 1 ≤ w.next := Nat.le_trans w.first_pos (Nat.le_add_right _ _)
        rw [decide_eq_true hroll] at hneed
        obtain ⟨prev, rest, hprev, hsealed, -, hrest, hdir⟩ :=
          run_seal hinit hlast hwf horph (SegLog.ne_nil_of_roll hfit hroll)
        have hdone : List.Forall₂ (Segment.Sealed c true) (init ++ [prev]) (done ++ [w]) :=
          List.rel_append hinit (.cons hsealed .nil)
        obtain ⟨seg, happ, hseg⟩ := DiskStorage.appendRecords_create c true hpos hne hes hfit
        have heq := DiskStorage.saveRaftEntries_roll hne hes hfit hs hneed hprev
          (DiskStorage.sealed_name_ne hdone) happ
        rw [heq] at hs'
        cases hs'
        simp only [hneed, if_true, SegLog.next]
        rw [heq, Dir.run_append, hdir, run_newSegment_all (filesOf (init ++ [prev]) rest)
          (sealed_logs hdone) ((sealed_indexes hdone).append hrest) hfit happ]
        exact shows_dir hrep hwf' hseg.name _ rfl rfl rfl rfl
      · rw [decide_eq_false hroll] at hneed
        obtain ⟨seg, happ, hseg⟩ := hlast.appendRecords hne hes (Nat.le_of_not_lt hroll)
        have heq := DiskStorage.saveRaftEntries_last hne hes hfit hs hneed happ
        rw [heq] at hs'
        cases hs'
        simp only [hneed, Bool.false_eq_true, if_false, SegLog.next]
        obtain ⟨t, ht, htlog, htidx⟩ := Segment.appendRecords_files happ
        let o := Others.readonly w.first (init.map Segment.logContents)
          (init.map Segment.indexFile) orphans (sealed_logs hinit) (sealed_indexes hinit) horph
        obtain ⟨t', ht', hrun⟩ := o.run_recordSteps_all es
          ⟨hlast.file, hlast.writePosition, hlast.index⟩ hlast.name (Nat.le_of_not_lt hroll)
        have hnext : w.first + w.es.length = w.next := rfl
        rw [hnext] at ht' hrun
        have htt : t' = t := by
          rw [ht] at ht'
          cases ht'
          rfl
        subst htt
        rw [heq, filesOf_concat hinit hlast horph, hrun]
        exact shows_dir hrep hwf' hseg.name o rfl (List.append_nil _).symm htlog
          (congrArg Prod.snd htidx)

theorem truncate_complete {i : Nat} (h : s.Rep c true v) (hwf : v.WF)
    (horph : AllReadonly orphans)
    (hunused : ∀ f ∈ orphans, ∀ seg ∈ s.segments, f.1 ≠ seg.logFile.filePath)
    (hlo : v.start ≤ i) (hhi : i < v.next) (hcut : DiskStorage.Cuttable true v i) :
    ((filesOf s.segments orphans).run (s.truncateSteps i)).Shows (s.truncateSuffix i).1 := by
  obtain ⟨s', hs', hrep⟩ := h.truncateSuffix hwf hlo hhi hcut
  obtain ⟨before, u, b, seg, r, hsp⟩ := h.splitAt hwf hlo hhi
  obtain ⟨seg', hcutseg, hw⟩ := hsp.exists_cut hcut
  obtain ⟨o, index, hlogs, hbefore, -, hindex, hrun⟩ :=
    run_truncateSteps (k := 2 * r.length + (s.truncateSteps i).length + 4) hsp
      (named_of_rep h hwf) horph hunused hcutseg hw (by omega) (Or.inr (by omega))
  have hsegs : s.truncateSuffix i = (⟨b ++ [seg']⟩, .ok ()) := by
    rw [DiskStorage.truncateSuffix, hsp.found]
    simp only [hcutseg]
  rw [hsegs] at hs'
  cases hs'
  rw [List.take_of_length_le (by omega)] at hrun
  rw [hsegs, hrun]
  exact shows_dir hrep (hwf.truncate hlo hhi).1 hw.name o hlogs
    (hbefore.trans (List.append_nil _).symm) rfl (hindex (by omega))

theorem purge_complete {reserve : Nat} (h : s.Rep c true v) (hwf : v.WF) (hr : 1 ≤ reserve) :
    ((filesOf s.segments orphans).run (s.purgeSteps reserve)).Shows (s.purge reserve) := by
  have hnamed := named_of_rep h hwf
  have hnamed' := named_of_rep (h.purge hr) (hwf.purge reserve).1
  have hsegs : (s.purge reserve).segments =
      s.segments.drop (s.segments.length - reserve) := by
    rw [DiskStorage.purge]
    split
    · rfl
    · rw [show s.segments.length - reserve = 0 by omega, List.drop_zero]
  have hsplit : s.segments = [] ++ (s.segments.take (s.segments.length - reserve) ++
      s.segments.drop (s.segments.length - reserve)) := by
    rw [List.nil_append, List.take_append_drop]
  obtain ⟨rest, -, hrun⟩ := run_removeSteps_all orphans (hsplit ▸ hnamed)
  rw [← hsplit, List.nil_append, ← hsegs] at hrun
  rw [DiskStorage.purgeSteps, hrun]
  exact ⟨rfl, fun seg hseg => Table.lookup_append_left (hnamed'.lookup hseg)⟩

end Complete

/-! ## Runs -/

section Runs
variable {c : Config} {w : World} {v : SegLog} {op : Op} {s : DiskStorage}

/-- What every process of a run keeps. -/
structure World.Inv (c : Config) (w : World) (v : SegLog) : Prop where
  rep : w.storage.Rep c true v
  wf : v.WF
  orphans : AllReadonly w.orphans

/-- A warm truncation finds a segment that knows its write position. -/
theorem cuttable_of_warm {i : Nat} (h : s.Rep c true v) (hi : 1 ≤ i)
    (hwarm : (Op.truncate i).Warm s) : DiskStorage.Cuttable true v i := by
  intro u hu hcov
  refine Or.inl ?_
  cases v with
  | empty => cases hu
  | segs done w =>
      obtain ⟨init, last, hs, hinit, -⟩ := h
      obtain ⟨seg, hseg, hsealed⟩ := forall₂_exists hinit.flip u hu
      have hsealed : seg.Sealed c true u := hsealed
      have hcont : seg.contains i = true := by
        rw [hsealed.readable.contains hi]
        exact decide_eq_true hcov
      have hpos := hwarm seg (by rw [hs]; exact List.mem_append_left _ hseg) hcont hsealed.status
      rw [hsealed.writePosition] at hpos
      cases hhot : u.hot with
      | true => rfl
      | false =>
          rw [hhot] at hpos
          exact absurd rfl hpos

/-- The calls raft makes, in terms of the log. -/
theorem valid_truncate {i : Nat} (h : s.Rep c true v) (hwf : v.WF)
    (hop : (Op.truncate i).Valid c s) (hwarm : (Op.truncate i).Warm s) :
    v.Full ∧ v.start ≤ i ∧ i < v.next ∧ DiskStorage.Cuttable true v i := by
  obtain ⟨hset, hlo, hhi⟩ := hop
  have hfull := full_of_settled h hwf hset
  have hstart := v.start_pos
  rw [h.firstIndex hfull] at hlo
  rw [h.lastIndex hfull] at hhi
  exact ⟨hfull, hlo, by omega, cuttable_of_warm h (Nat.le_trans hstart hlo) hwarm⟩

theorem valid_save {es : List Entry} (h : s.Rep c true v) (hop : (Op.save es).Valid c s) :
    es ≠ [] ∧ Numbered Entry.index v.next es ∧ (encode es).length ≤ c.segmentSize := by
  obtain ⟨hne, hnum, hfit⟩ := hop
  rw [h.nextIndex] at hnum
  rw [entriesToRecords_eq] at hfit
  exact ⟨hne, hnum, hfit⟩

/-- Every operation keeps the log in order. -/
theorem Op.run_inv (h : s.Rep c true v) (hwf : v.WF) (hop : op.Valid c s) (hwarm : op.Warm s) :
    ∃ v', (op.run c s).Rep c true v' ∧ v'.WF := by
  cases op with
  | save es =>
      obtain ⟨hne, hnum, hfit⟩ := valid_save h hop
      obtain ⟨s', hs', hrep⟩ := h.saveRaftEntries hne hnum hfit
      refine ⟨_, ?_, (hwf.save hnum hfit).1⟩
      rw [Op.run, hs']
      exact hrep
  | truncate i =>
      obtain ⟨-, hlo, hhi, hcut⟩ := valid_truncate h hwf hop hwarm
      obtain ⟨s', hs', hrep⟩ := h.truncateSuffix hwf hlo hhi hcut
      refine ⟨_, ?_, (hwf.truncate hlo hhi).1⟩
      rw [Op.run, hs']
      exact hrep
  | purge reserve => exact ⟨_, h.purge hop, (hwf.purge reserve).1⟩

/-- **A crash at a safe point** leaves a directory that can be opened, with every
entry the operation does not remove. -/
theorem World.Inv.crash {k : Nat} (h : w.Inv c v) (hop : op.Valid c w.storage)
    (hwarm : op.Warm w.storage) (hsafe : op.SafePoint w.storage k) :
    ∃ v', Restartable c (w.crash c op k) v' ∧
      ∀ e ∈ v.entries, ¬ op.Removes w.storage e.index → e ∈ v'.entries := by
  cases op with
  | save es =>
      obtain ⟨hne, hnum, hfit⟩ := valid_save h.rep hop
      obtain ⟨v', hv', hent⟩ := save_crash h.rep h.wf h.orphans hne hnum hfit hsafe
      exact ⟨v', hv', fun e he _ => hent e he⟩
  | truncate i =>
      obtain ⟨hfull, hlo, hhi, hcut⟩ := valid_truncate h.rep h.wf hop hwarm
      exact truncate_crash h.rep h.wf hfull h.orphans w.unused hlo hhi hcut hsafe
  | purge reserve =>
      exact purge_crash h.rep h.wf (full_of_settled h.rep h.wf hsafe) h.orphans hop

/-- **All steps of an operation, done, leave the files of the storage it returns.** -/
theorem World.Inv.steps_complete (h : w.Inv c v) (hop : op.Valid c w.storage)
    (hwarm : op.Warm w.storage) :
    (w.dir.run (op.steps c w.storage)).Shows (op.run c w.storage) := by
  cases op with
  | save es =>
      obtain ⟨hne, hnum, hfit⟩ := valid_save h.rep hop
      exact save_complete h.rep h.wf h.orphans hne hnum hfit
  | truncate i =>
      obtain ⟨-, hlo, hhi, hcut⟩ := valid_truncate h.rep h.wf hop hwarm
      exact truncate_complete h.rep h.wf h.orphans w.unused hlo hhi hcut
  | purge reserve => exact purge_complete h.rep h.wf hop

theorem allReadonly_of {indexes : List (FileName × Bytes)} (h : AllReadonly indexes) :
    AllReadonly (World.of s indexes).orphans :=
  fun f hf => h f (List.mem_of_mem_filter hf)

/-- The recovered process. -/
theorem Restartable.inv {d : Dir} (h : Restartable c d v)
    (hs : DiskStorage.newDiskStorage c d true = .ok s) : (World.of s d.indexes).Inv c v.reopened := by
  obtain ⟨s', hs', hrep⟩ := h.recoverable.recover h.wf
  rw [hs] at hs'
  cases hs'
  have hhot : ∀ d w, v = .segs d w → w.hot = true := by
    rintro done w rfl
    exact h.recoverable.1
  refine ⟨hrep, (SegLog.like_reopened hhot).wf h.wf, fun f hf => ?_⟩
  have hunused := (World.of s d.indexes).unused f hf
  cases hname : f.1 with
  | readonly a b => trivial
  | inprogress n =>
      -- a file that is being written is the one of the last segment
      obtain ⟨done, w, rfl, rfl⟩ := h.names f (List.mem_of_mem_filter hf) n hname
      obtain ⟨init, last, hsegs, -, hlast⟩ := hrep
      refine absurd ?_ (hunused last (by
        change last ∈ s.segments
        rw [hsegs]
        exact List.mem_append_right _ (List.mem_singleton_self last)))
      rw [hname, hlast.name]

theorem World.Reached.inv (h : World.Reached c w) : ∃ v, w.Inv c v := by
  induction h with
  | init => exact ⟨.empty, rfl, SegLog.empty_wf, nofun⟩
  | op op _ hop hwarm ih =>
      obtain ⟨v, hinv⟩ := ih
      obtain ⟨v', hrep, hwf⟩ := Op.run_inv hinv.rep hinv.wf hop hwarm
      exact ⟨v', hrep, hwf, allReadonly_of hinv.orphans⟩
  | restart _ hset hs ih =>
      obtain ⟨v, hinv⟩ := ih
      have hfull := full_of_settled hinv.rep hinv.wf hset
      obtain ⟨s', hs', hrep⟩ := hinv.rep.reopen_with hinv.wf hfull _
      rw [hs] at hs'
      cases hs'
      exact ⟨_, hrep, (SegLog.like_reopened hinv.rep.writable_hot).wf hinv.wf,
        allReadonly_of hinv.orphans⟩
  | crash op k _ hop hwarm hsafe hs ih =>
      obtain ⟨v, hinv⟩ := ih
      obtain ⟨v', hv', -⟩ := hinv.crash hop hwarm hsafe
      exact ⟨_, hv'.inv hs⟩

/-- **Every safe crash point is restartable.**  In every run whose truncations are
warm and whose crashes fall on safe points, whatever operation is cut off at a
safe point, recovery succeeds, the segments it opens are contiguous, and they hold
every entry that was stored before and that the operation does not remove. -/
theorem crash_restart_keeps_entries {k : Nat} (hw : World.Reached c w)
    (hop : op.Valid c w.storage) (hwarm : op.Warm w.storage)
    (hsafe : op.SafePoint w.storage k) :
    ∃ s, DiskStorage.newDiskStorage c (w.crash c op k) true = .ok s ∧ s.Contiguous ∧
      ∀ e, w.storage.Stored e → ¬ op.Removes w.storage e.index → s.Stored e := by
  obtain ⟨v, hinv⟩ := hw.inv
  obtain ⟨v', hv', hent⟩ := hinv.crash hop hwarm hsafe
  obtain ⟨s, hs, hrep⟩ := hv'.recoverable.recover hv'.wf
  have hinv' := hv'.inv hs
  have hlike : SegLog.Like v' v'.reopened := SegLog.like_reopened (by
    rintro done w rfl
    exact hv'.recoverable.1)
  refine ⟨s, hs, hrep.contiguous hinv'.wf (hlike.full hv'.full), fun e he hkeep => ?_⟩
  have hmem := hent e (hinv.rep.stored_iff.mp he) hkeep
  rw [hrep.stored_iff, ← hlike.entries_eq]
  exact hmem

end Runs

/-- A process whose one segment is full. -/
def smallFull : World :=
  let w := World.of .empty []
  .of ((Op.save [small11, small12]).run .small w.storage) w.orphans

theorem smallFull_reached : World.Reached .small smallFull := by
  unfold smallFull
  exact .op _ .init (by decide +kernel) trivial

/-- A crash right behind the first record that follows a roll. -/
theorem crash_restart_keeps_entries_smallFull :
    ∃ s, DiskStorage.newDiskStorage .small (smallFull.crash .small (.save [.small 1 3]) 6) true =
        .ok s ∧ s.Contiguous ∧
      ∀ e, smallFull.storage.Stored e →
        ¬ (Op.save [.small 1 3]).Removes smallFull.storage e.index → s.Stored e :=
  crash_restart_keeps_entries smallFull_reached (by decide +kernel) trivial (by decide +kernel)

/-- **Not every crash point is restartable**: a roll that is cut off behind the
rename of the log file leaves no in-progress file, and the next start ends in
`Fatal`. -/
theorem crash_inside_roll_is_fatal :
    ∃ w op k, World.Reached .small w ∧ op.Valid .small w.storage ∧ op.Warm w.storage ∧
      k < (op.steps .small w.storage).length ∧
      DiskStorage.newDiskStorage .small (w.crash .small op k) true =
        .error (.fatal "Sscanf error,err:%s,name:%s") :=
  ⟨smallFull, .save [.small 1 3], 1, smallFull_reached, by decide +kernel, trivial,
    by decide +kernel, by decide +kernel⟩

end Kingbus
