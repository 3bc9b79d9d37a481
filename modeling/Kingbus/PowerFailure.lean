import Kingbus.FileSteps
import Kingbus.LogRefinement

/-! # Power failures

A power failure loses bytes of the in-progress log file that were written since
the last sync, in any combination.  The process comes back by `rebuildIndex`: the
scan stops at the first bad record, the writer resumes there, and the bytes behind
that point stay in the file.

As long as every failure leaves whole records of the batch that was being written
and behind them no record, be it a torn one or what an earlier failure has left
there, a recovery finds what the previous one had found, less what was truncated
since, and a prefix of what was appended since.  When a failure loses a record and
keeps one behind it, a later append of the right length can put the kept one back
into the log. -/

namespace Kingbus

/-- The entries an index leads to. -/
def Segment.indexed (s : Segment) : List Entry :=
  match s.logIndex.readWrite with
  | none => []
  | some rw => rw.entries.filterMap fun ie =>
      (s.logFile.readRaftEntry ie.filePosition).toOption.map Prod.fst

/-- The in-progress log file over time.  `held` are the entries found by the last
recovery and not truncated since, `appended` the later ones, `dropped` those that
some recovery has left out and that were not appended again. -/
structure LogRun where
  segment : Segment
  durable : Bytes
  held : List Entry
  appended : List Entry
  dropped : List Entry
  deriving DecidableEq

/-- What happens to the file: a batch that is written and synced, a truncation, or
a power failure while a batch is being written, with the bytes it loses. -/
inductive LogEvent where
  | append (entries : List Entry)
  | truncate (raftIndex : Nat)
  | powerFailure (entries : List Entry) (lost : Nat → Bool)

namespace LogRun

/-- A new file. -/
def create (c : Config) (first : Nat) : LogRun where
  segment := Segment.create c (.inprogress first)
  durable := Bytes.zeros c.segmentSize
  held := []
  appended := []
  dropped := []

/-- The file after an event.  A failure leaves every record of the batch in the
file, as far as its bytes are not lost; a batch that was cut off earlier is one
that has lost more. -/
def step (c : Config) (r : LogRun) : LogEvent → Except Failure LogRun
  | .append es => do
      let segment ← r.segment.appendRecords (es.map Entry.toRecord) (startIndex es)
      return {
        segment := segment
        durable := segment.logFile.mappedData
        held := r.held
        appended := r.appended ++ es
        dropped := r.dropped.filter fun e => e ∉ es }
  | .truncate i => do
      let segment ← r.segment.truncateSuffix i
      return {
        segment := segment
        durable := segment.logFile.mappedData
        held := r.held.filter fun e => e.index < i
        appended := r.appended.filter fun e => e.index < i
        dropped := r.dropped }
  | .powerFailure es lost => do
      let writing ← r.segment.appendLoop (es.map Entry.toRecord) (startIndex es)
      let contents := Bytes.lose lost r.durable writing.logFile.mappedData
      let name := r.segment.logFile.filePath
      let segment ← Segment.openWritable c ⟨[(name, contents)], [(name, [])]⟩ true (name, contents)
      return {
        segment := segment
        durable := contents
        held := segment.indexed
        appended := []
        dropped := (r.dropped.filter fun e => e ∉ es) ++
          (r.held ++ r.appended ++ es).filter fun e => e ∉ segment.indexed }

/-- The file as a failure leaves it while a batch is being written. -/
def image (r : LogRun) (es : List Entry) (lost : Nat → Bool) : Bytes :=
  Bytes.lose lost r.durable (r.durable.overwrite r.segment.logFile.writePosition (encode es))

end LogRun

namespace LogEvent

/-- A batch follows the last entry and fits into the file; a truncation is inside
the segment. -/
def Valid (c : Config) (r : LogRun) : LogEvent → Prop
  | append es => es ≠ [] ∧ Numbered Entry.index r.segment.nextIndex es ∧
      r.segment.logFile.writePosition + (encode es).length ≤ c.segmentSize
  | truncate i => 0 < i ∧ r.segment.contains i = true
  | powerFailure es _ => Numbered Entry.index r.segment.nextIndex es ∧
      r.segment.logFile.writePosition + (encode es).length ≤ c.segmentSize

/-- A power failure leaves some records of the batch and no record behind them. -/
def Clean (c : Config) (r : LogRun) : LogEvent → Prop
  | powerFailure es lost => ∃ kept, kept ≤ es.length ∧
      encode (es.take kept) <+: (r.image es lost).drop r.segment.logFile.writePosition ∧
      Segment.NoRecord c (r.image es lost)
        (r.segment.logFile.writePosition + (encode (es.take kept)).length)
  | _ => True

end LogEvent

instance (c : Config) (r : LogRun) : ∀ ev : LogEvent, Decidable (ev.Valid c r)
  | .append _ => inferInstanceAs (Decidable (_ ∧ _))
  | .truncate _ => inferInstanceAs (Decidable (_ ∧ _))
  | .powerFailure _ _ => inferInstanceAs (Decidable (_ ∧ _))

/-- The files that come about when every event meets a condition. -/
inductive LogRun.Reached (c : Config) (P : LogRun → LogEvent → Prop) : LogRun → Prop
  | create {first : Nat} : 1 ≤ first → Reached c P (.create c first)
  | step {r r' : LogRun} (ev : LogEvent) : Reached c P r → ev.Valid c r → P r ev →
      r.step c ev = .ok r' → Reached c P r'

/-! ## What the index leads to -/

section Indexed
variable {c : Config} {z : Bool} {s : Segment} {v : SegView}

theorem filterMap_positions {f : MmapFile} (hsize : f.mappedData.length ≤ 2 ^ 32) :
    ∀ (es : List Entry) (i : Nat) (pre : Bytes) {tail : Bytes},
    f.mappedData = pre ++ (encode es ++ tail) →
    ((positions i pre.length es).filterMap fun ie =>
      (f.readRaftEntry ie.filePosition).toOption.map Prod.fst) = es
  | [], _, _, _, _ => rfl
  | e :: es, i, pre, tail, hmap => by
      have hmap₁ : f.mappedData = pre ++ (frame e ++ (encode es ++ tail)) := by
        rw [hmap, encode_cons, List.append_assoc]
      have hmap₂ : f.mappedData = (pre ++ frame e) ++ (encode es ++ tail) := by
        rw [hmap₁, List.append_assoc]
      have hlen : pre.length + (frame e).length ≤ f.mappedData.length := by
        rw [hmap₁, List.length_append, List.length_append]
        omega
      have hpos := frame_pos e
      have hread := MmapFile.readRaftEntry_frame hmap₁ (by omega)
      have hfile : (IndexEntry.of i pre.length).filePosition = pre.length :=
        Nat.mod_eq_of_lt (by omega)
      have ih := filterMap_positions hsize es (i + 1) (pre ++ frame e) hmap₂
      rw [List.length_append] at ih
      rw [positions, List.filterMap_cons, hfile, hread]
      exact congrArg (List.cons e) ih

/-- **The index of a writable segment leads to its entries.** -/
theorem Segment.Writable.indexed (h : s.Writable c z v) : s.indexed = v.es := by
  obtain ⟨rw, hrw, hent, -, -⟩ := h.index.inMemory
  obtain ⟨tail, hmap, -⟩ := h.file.mapped
  have hsize : s.logFile.mappedData.length ≤ 2 ^ 32 := by
    rw [h.file.size]
    exact c.segmentSize_le
  simp only [Segment.indexed, hrw, hent]
  exact filterMap_positions hsize v.es v.first [] hmap

/-- An empty log file cannot be recovered: there is no last index entry. -/
theorem openWritable_empty {d : Dir} {n : Nat} {contents : Bytes} (h : LogBytes c z contents [])
    (hends : Segment.ScanEnds c contents 0)
    (hidx : ∃ x, d.indexes.lookup (.inprogress n) = some x) :
    Segment.openWritable c d true (.inprogress n, contents) =
      .error (.panic "index out of range") := by
  obtain ⟨f, hf, hname, hmapped, -, hholds⟩ := h.openFile (.inprogress n)
  obtain ⟨x, hlookup⟩ := hidx
  obtain ⟨idx, hloop, hidx⟩ := Segment.rebuild_of_scanEnds hholds (hmapped ▸ hends) (Numbered.nil n)
  have hrebuild : Segment.rebuildIndex c d f = .ok idx :=
    Segment.rebuildIndex_holds hholds hname (by rw [Dir.indexFile, hlookup]) hloop
  rw [Segment.openWritable, hf]
  simp only [bind, Except.bind, if_true, hrebuild, Segment.resume, hidx.getLastRaftEntry_nil]

end Indexed

/-! ## Runs -/

section Runs
variable {c : Config} {r r' : LogRun} {v : SegView} {es : List Entry} {lost : Nat → Bool}

/-- The file begins with `held` and `appended`, all of it is on the disk, and they
have nothing that was left out. -/
structure LogRun.Inv (c : Config) (r : LogRun) (v : SegView) : Prop where
  writable : r.segment.Writable c false v
  entries : v.es = r.held ++ r.appended
  durable : r.durable = r.segment.logFile.mappedData
  dropped : ∀ e ∈ r.dropped, e ∉ r.held ++ r.appended

/-- The bytes of a batch that is being written. -/
theorem appendLoop_mapped {first : Nat} : ∀ (fs : List Entry) {s : Segment} {es : List Entry},
    s.Laid c false first es → (encode es).length + (encode fs).length ≤ c.segmentSize →
    ∃ writing, s.appendLoop (fs.map Entry.toRecord) (first + es.length) = .ok writing ∧
      writing.logFile.mappedData =
        s.logFile.mappedData.overwrite s.logFile.writePosition (encode fs)
  | [], s, es, h, _ => by
      refine ⟨s, rfl, ?_⟩
      rw [encode_nil, Bytes.overwrite, List.length_nil, Nat.add_zero, List.nil_append,
        List.take_append_drop]
  | e :: fs, s, es, h, hfit => by
      rw [encode_cons, List.length_append] at hfit
      obtain ⟨f, d, happ, hlaid, -⟩ := Segment.appendRecord_spec (e := e) h (by omega)
      obtain ⟨-, hfile⟩ := Segment.appendRecord_file happ
      have hlen : (encode (es ++ [e])).length = (encode es).length + (frame e).length := by
        rw [encode_append, List.length_append, encode_cons, encode_nil, List.append_nil]
      obtain ⟨writing, hloop, hmapped⟩ := appendLoop_mapped fs hlaid (by omega)
      rw [List.length_append, List.length_singleton, ← Nat.add_assoc] at hloop
      refine ⟨writing, ?_, ?_⟩
      · simp only [List.map_cons, Segment.appendLoop, bind, Except.bind, happ, hloop]
      · have hroom : s.logFile.writePosition + (frame e).length ≤ s.logFile.mappedData.length := by
          rw [h.writePosition, h.file.size]
          omega
        rw [hmapped, hlaid.writePosition, hlen, encode_cons, ← Bytes.overwrite_overwrite hroom,
          ← h.writePosition]
        exact congrArg (fun b : Bytes => b.overwrite (s.logFile.writePosition + (frame e).length)
          (encode fs)) hfile

/-- What was on the disk in front of the batch stays. -/
theorem LogRun.Inv.take_image (h : r.Inv c v) (es : List Entry) (lost : Nat → Bool) :
    (r.image es lost).take (encode v.es).length = encode v.es := by
  obtain ⟨tail, htail, -⟩ := h.writable.file.mapped
  rw [← h.durable] at htail
  rw [LogRun.image, h.writable.writePosition, htail, Bytes.overwrite_prefix]
  exact Bytes.take_lose lost (encode v.es) tail _

/-- The file after a clean failure. -/
theorem LogRun.Inv.image_logBytes {kept : Nat} (h : r.Inv c v)
    (hfit : (encode v.es).length + (encode es).length ≤ c.segmentSize)
    (hkept : encode (es.take kept) <+: (r.image es lost).drop r.segment.logFile.writePosition) :
    LogBytes c false (r.image es lost) (v.es ++ es.take kept) := by
  rw [h.writable.writePosition] at hkept
  obtain ⟨tail, htail⟩ := hkept
  refine ⟨⟨tail, ?_, nofun⟩, ?_⟩
  · rw [encode_append, List.append_assoc, htail]
    conv_lhs => rw [← List.take_append_drop (encode v.es).length (r.image es lost), h.take_image]
  · have hsize : r.durable.length = c.segmentSize := h.durable ▸ h.writable.file.size
    rw [LogRun.image, Bytes.length_lose, h.writable.writePosition,
      Bytes.length_overwrite (by omega), hsize]

/-- A batch that is being written, up to its sync. -/
theorem LogRun.Inv.writing (h : r.Inv c v) (hnum : Numbered Entry.index v.next es)
    (hfit : (encode v.es).length + (encode es).length ≤ c.segmentSize) (lost : Nat → Bool) :
    ∃ writing, r.segment.appendLoop (es.map Entry.toRecord) (startIndex es) = .ok writing ∧
      Bytes.lose lost r.durable writing.logFile.mappedData = r.image es lost := by
  have hlaid : r.segment.Laid c false v.first v.es :=
    ⟨h.writable.file, h.writable.writePosition, h.writable.index⟩
  obtain ⟨writing, hloop, hmapped⟩ := appendLoop_mapped es hlaid hfit
  refine ⟨writing, ?_, ?_⟩
  · cases hes : es with
    | nil =>
        rw [hes] at hloop
        exact hloop
    | cons e rest =>
        rw [← hes, startIndex_eq (by rw [hes]; nofun) hnum]
        exact hloop
  · rw [LogRun.image, hmapped, h.durable]

/-- What was dropped and is not handed over again stays away. -/
theorem LogRun.Inv.not_mem_of_dropped (h : r.Inv c v) {e : Entry} {kept : List Entry}
    (he : e ∈ r.dropped.filter fun e => e ∉ es) (hkept : kept ⊆ es) :
    e ∉ r.held ++ r.appended ++ kept := by
  obtain ⟨hdrop, hes⟩ := List.mem_filter.mp he
  intro hmem
  rcases List.mem_append.mp hmem with hmem | hmem
  · exact h.dropped e hdrop hmem
  · exact of_decide_eq_true hes (hkept hmem)

/-- **A clean power failure**: the recovery finds what the file held and the records
of the batch that were kept. -/
theorem LogRun.Inv.powerFailure (h : r.Inv c v)
    (hv : (LogEvent.powerFailure es lost).Valid c r)
    (hclean : (LogEvent.powerFailure es lost).Clean c r) :
    (r.segment.lastIndex ≠ 0 → ∃ r', r.step c (.powerFailure es lost) = .ok r') ∧
    ∀ r', r.step c (.powerFailure es lost) = .ok r' →
      ∃ kept v', r'.Inv c v' ∧ r'.held = r.held ++ r.appended ++ es.take kept := by
  obtain ⟨hnum, hfit⟩ := hv
  obtain ⟨kept, -, hkept, hnone⟩ := hclean
  rw [h.writable.nextIndex] at hnum
  rw [h.writable.writePosition] at hfit
  obtain ⟨writing, hwriting, himage⟩ := h.writing hnum hfit lost
  have hlog := h.image_logBytes hfit hkept
  have hends : Segment.ScanEnds c (r.image es lost) (encode (v.es ++ es.take kept)).length := by
    rw [encode_append, List.length_append, ← h.writable.writePosition]
    exact hnone.scanEnds hlog.2
  have hname := h.writable.name
  have hlookup : ∃ x, ([(FileName.inprogress v.first, ([] : Bytes))]).lookup
      (FileName.inprogress v.first) = some x := ⟨[], List.lookup_cons_self⟩
  have hnum' : Numbered Entry.index v.next (es.take kept) := hnum.take kept
  by_cases hempty : v.es ++ es.take kept = []
  · -- nothing survives: the process cannot come back
    rw [hempty] at hlog hends
    have hfail := openWritable_empty
      (d := ⟨[(.inprogress v.first, r.image es lost)], [(.inprogress v.first, [])]⟩) hlog hends
      hlookup
    have hstep : r.step c (.powerFailure es lost) = .error (.panic "index out of range") := by
      simp only [LogRun.step, hwriting, bind, Except.bind, himage, hname, hfail]
    refine ⟨fun hlast => absurd ?_ hlast, fun r' hr' => ?_⟩
    · rw [h.writable.lastIndex, SegView.lastIndex,
        if_pos (List.append_eq_nil_iff.mp hempty).1]
    · rw [hstep] at hr'
      cases hr'
  · obtain ⟨segment, hopen, hw, hmapped⟩ := openWritable_of_scanEnds
      (d := ⟨[(.inprogress v.first, r.image es lost)], [(.inprogress v.first, [])]⟩)
      (w := v.append (es.take kept) hnum') hlog hends hempty hlookup rfl
    have hstep : r.step c (.powerFailure es lost) = .ok {
        segment := segment
        durable := r.image es lost
        held := segment.indexed
        appended := []
        dropped := (r.dropped.filter fun e => e ∉ es) ++
          (r.held ++ r.appended ++ es).filter fun e => e ∉ segment.indexed } := by
      simp only [LogRun.step, hwriting, bind, Except.bind, himage, hname, pure, Except.pure]
      rw [show Segment.openWritable c _ true (FileName.inprogress v.first, r.image es lost) = _
        from hopen]
    have hindexed : segment.indexed = r.held ++ r.appended ++ es.take kept := by
      rw [hw.indexed, ← h.entries]
      rfl
    refine ⟨fun _ => ⟨_, hstep⟩, fun r' hr' => ?_⟩
    rw [hstep] at hr'
    cases hr'
    refine ⟨kept, _, ⟨hw, ?_, hmapped.symm, ?_⟩, hindexed⟩
    · rw [List.append_nil, hw.indexed]
    · intro e he
      rw [List.append_nil]
      rcases List.mem_append.mp he with he | he
      · rw [hindexed]
        exact h.not_mem_of_dropped he (List.take_subset kept es)
      · exact of_decide_eq_true (List.mem_filter.mp he).2

/-- Every event keeps the file in order. -/
theorem LogRun.Inv.step {ev : LogEvent} (h : r.Inv c v) (hv : ev.Valid c r) (hclean : ev.Clean c r)
    (hstep : r.step c ev = .ok r') : ∃ v', r'.Inv c v' := by
  cases ev with
  | append es =>
      obtain ⟨hne, hnum, hfit⟩ := hv
      rw [h.writable.nextIndex] at hnum
      rw [h.writable.writePosition] at hfit
      obtain ⟨segment, happ, hw⟩ := h.writable.appendRecords hne hnum hfit
      have hstart := startIndex_eq hne hnum
      rw [LogRun.step, hstart, happ] at hstep
      cases hstep
      refine ⟨_, hw, ?_, rfl, ?_⟩
      · rw [← List.append_assoc, ← h.entries]
        rfl
      · intro e he
        rw [← List.append_assoc]
        exact h.not_mem_of_dropped he (List.Subset.refl es)
  | truncate i =>
      obtain ⟨hpos, hcont⟩ := hv
      rw [h.writable.readable.contains hpos] at hcont
      have hcov := of_decide_eq_true hcont
      obtain ⟨segment, hcut, hw⟩ := h.writable.truncateSuffix hcov.1 hcov.2
      rw [LogRun.step, hcut] at hstep
      cases hstep
      have hfilter : (v.cut i).es =
          (r.held.filter fun e => e.index < i) ++ r.appended.filter fun e => e.index < i := by
        rw [← List.filter_append, ← h.entries, v.numbered.filter_lt hcov.1]
        rfl
      refine ⟨_, hw, hfilter, rfl, ?_⟩
      intro e he hmem
      rw [← List.filter_append] at hmem
      exact h.dropped e he (List.mem_of_mem_filter hmem)
  | powerFailure es lost =>
      obtain ⟨-, hall⟩ := h.powerFailure hv hclean
      obtain ⟨-, v', hinv, -⟩ := hall r' hstep
      exact ⟨v', hinv⟩

theorem LogRun.Reached.inv (h : LogRun.Reached c (fun r ev => ev.Clean c r) r) :
    ∃ v, r.Inv c v := by
  induction h with
  | create hfirst =>
      exact ⟨_, Segment.create_writable c false hfirst, rfl, rfl, nofun⟩
  | step ev _ hv hclean hstep ih =>
      obtain ⟨v, hinv⟩ := ih
      exact hinv.step hv hclean hstep

/-- **Recovery does not bring back a dropped record** in a run of clean power
failures.  The entries indexed after a recovery are those held after the previous
one and not truncated since, followed by a prefix of those appended since; an
entry that an earlier recovery left out, and that was not appended again, is not
among them.  And there is a recovery whenever the file held an entry. -/
theorem recovery_finds_appended_prefix (hr : LogRun.Reached c (fun r ev => ev.Clean c r) r)
    (hv : (LogEvent.powerFailure es lost).Valid c r)
    (hclean : (LogEvent.powerFailure es lost).Clean c r) :
    (r.segment.lastIndex ≠ 0 → ∃ r', r.step c (.powerFailure es lost) = .ok r') ∧
    ∀ r', r.step c (.powerFailure es lost) = .ok r' →
      (∃ k, r'.held = r.held ++ (r.appended ++ es).take k) ∧
      ∀ e ∈ r.dropped, e ∉ es → e ∉ r'.held := by
  obtain ⟨v, hinv⟩ := hr.inv
  obtain ⟨hsome, hall⟩ := hinv.powerFailure hv hclean
  refine ⟨hsome, fun r' hr' => ?_⟩
  obtain ⟨kept, v', -, hheld⟩ := hall r' hr'
  constructor
  · refine ⟨r.appended.length + kept, ?_⟩
    rw [hheld, List.take_length_add_append, List.append_assoc]
  · intro e he hes hmem
    rw [hheld] at hmem
    rcases List.mem_append.mp hmem with hmem | hmem
    · exact hinv.dropped e he hmem
    · exact hes (List.mem_of_mem_take hmem)

end Runs

/-! ## Small runs -/

/-- A file with room for four small entries. -/
def Config.four : Config where
  segmentSize := 96

/-- The file after an event that goes through. -/
def LogRun.next (c : Config) (r : LogRun) (ev : LogEvent) : LogRun :=
  (r.step c ev).toOption.getD r

theorem LogRun.Reached.next {c : Config} {P : LogRun → LogEvent → Prop} {r : LogRun}
    {ev : LogEvent} (h : LogRun.Reached c P r) (hv : ev.Valid c r) (hp : P r ev)
    (hok : (r.step c ev).toOption.isSome = true) : LogRun.Reached c P (r.next c ev) := by
  refine .step ev h hv hp ?_
  rw [LogRun.next]
  cases hs : r.step c ev with
  | error e =>
      rw [hs] at hok
      cases hok
  | ok r' => rfl

/-- One entry, written and synced; it takes 21 bytes. -/
def smallLog : LogRun := (LogRun.create .four 1).next .four (.append [small11])

theorem smallLog_reached {P : LogRun → LogEvent → Prop}
    (hP : ∀ r es, P r (.append es)) : LogRun.Reached .four P smallLog :=
  .next (.create (by decide)) (by decide +kernel) (hP _ _) (by decide +kernel)

/-- A batch of two entries, of which a failure keeps the first. -/
def smallBatch : List Entry := [small12, small13]

/-- A failure that loses only the length of the second of two records: the record is torn, and its
other bytes stay in the file. -/
def smallTear : LogRun :=
  smallLog.next .four (.powerFailure smallBatch fun p => 42 ≤ p && p < 46)

theorem smallTear_reached : LogRun.Reached .four (fun r ev => ev.Clean .four r) smallTear :=
  .next (smallLog_reached fun _ _ => trivial) (by decide +kernel)
    ⟨1, by decide, by decide +kernel, .inr (.inl (by decide +kernel))⟩ (by decide +kernel)

/-- The recovery has dropped the torn record, and the entry of a later term in its place is torn by
the next failure. -/
theorem recovery_finds_appended_prefix_torn :
    smallTear.held = [small11, small12] ∧ smallTear.dropped = [small13] ∧
    (∃ r', smallTear.step .four (.powerFailure [small23] fun p => 42 ≤ p && p < 46) = .ok r') ∧
    ∀ r', smallTear.step .four (.powerFailure [small23] fun p => 42 ≤ p && p < 46) = .ok r' →
      (∃ k, r'.held = smallTear.held ++ (smallTear.appended ++ [small23]).take k) ∧
      ∀ e ∈ smallTear.dropped, e ∉ [small23] → e ∉ r'.held := by
  have hvalid : (LogEvent.powerFailure [small23] fun p => 42 ≤ p && p < 46).Valid .four smallTear := by
    decide +kernel
  have hfinds := recovery_finds_appended_prefix smallTear_reached hvalid
    ⟨0, by decide, by decide +kernel, .inr (.inl (by decide +kernel))⟩
  exact ⟨by decide +kernel, by decide +kernel, hfinds.1 (by decide +kernel), hfinds.2⟩

/-- The failure loses the bytes of entry 2 and keeps those of entry 3; the entry 2
that is appended afterwards has the length of the lost one. -/
def smallTorn : LogRun :=
  (smallLog.next .four (.powerFailure smallBatch fun p => 21 ≤ p && p < 42)).next .four
    (.append [small22])

/-- **Recovery can bring back a dropped record**: entry 3 was left out by the first
recovery, nothing but the new entry 2 was appended since, and the next recovery
finds it. -/
theorem recovery_brings_back_dropped :
    ∃ r r', LogRun.Reached .four (fun _ _ => True) r ∧
      (LogEvent.powerFailure [] fun _ => false).Valid .four r ∧
      r.step .four (.powerFailure [] fun _ => false) = .ok r' ∧
      r.held = [.small 1 1] ∧ r.appended = [.small 2 2] ∧ Entry.small 1 3 ∈ r.dropped ∧
      r'.held = [.small 1 1, .small 2 2, .small 1 3] := by
  refine ⟨smallTorn, smallTorn.next .four (.powerFailure [] fun _ => false), ?_, by decide +kernel,
    by decide +kernel, by decide +kernel, by decide +kernel, by decide +kernel, by decide +kernel⟩
  unfold smallTorn
  refine .next (.next (smallLog_reached fun _ _ => trivial) ?_ trivial ?_) ?_ trivial ?_
  all_goals decide +kernel

end Kingbus
