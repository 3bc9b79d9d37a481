import Kingbus.AppendBounds
import Kingbus.ReachableStorage

/-! # The crashes that the bounds allow for

`DiskStorage.Running` lets a crash leave any log files of the segment size, and index files that
are beginnings of what was written.  Every file step of an operation keeps a directory within
these limits (`FsStep.Harmless`), so a crash between two steps is one of them, and the processes
of `Kingbus.CrashPoints` are among the running ones.  Whatever the crash, also one that is no safe
point: once a recovery opens the directory, appends stay inside (`crash_appends_inside`). -/

namespace Kingbus

/-- The file has the size of a segment. -/
def Sized (c : Config) (b : Bytes) : Prop := b.length = c.segmentSize

/-- Some file of the list begins with the bytes. -/
def Begins (files : List (FileName × Bytes)) (b : Bytes) : Prop := ∃ g ∈ files, b <+: g.2

namespace Begins
variable {files : List (FileName × Bytes)} {a b : Bytes}

theorem of_mem {f : FileName × Bytes} (hf : f ∈ files) : Begins files f.2 := ⟨f, hf, List.prefix_rfl⟩

theorem of_isPrefix (h : Begins files b) (hab : a <+: b) : Begins files a := by
  obtain ⟨g, hg, hprefix⟩ := h
  exact ⟨g, hg, hab.trans hprefix⟩

theorem append (h : Begins files b) (stray : List (FileName × Bytes)) :
    Begins (files ++ stray) b := by
  obtain ⟨g, hg, hprefix⟩ := h
  exact ⟨g, List.mem_append_left stray hg, hprefix⟩

end Begins

/-- What a step may do to a directory whose log files have the segment size and whose index files
are beginnings of the given ones. -/
def FsStep.Harmless (c : Config) (written : List (FileName × Bytes)) : FsStep → Prop
  | .createLog _ fileSize => fileSize = c.segmentSize
  | .createIndex _ => Begins written []
  | .writeRecord _ position bytes => position + bytes.length ≤ c.segmentSize
  | .zeroRange _ position zeroDataLen => position + zeroDataLen ≤ c.segmentSize
  | .writeIndex _ contents => Begins written contents
  | _ => True

theorem FsStep.Harmless.append {c : Config} {written : List (FileName × Bytes)} {st : FsStep}
    (h : st.Harmless c written) (stray : List (FileName × Bytes)) :
    st.Harmless c (written ++ stray) := by
  cases st with
  | createIndex name => exact Begins.append h stray
  | writeIndex name contents => exact Begins.append h stray
  | _ => exact h

/-- The directories a crash may leave. -/
structure Dir.Covered (c : Config) (written : List (FileName × Bytes)) (d : Dir) : Prop where
  logs : ∀ f ∈ d.logs, Sized c f.2
  indexes : ∀ f ∈ d.indexes, Begins written f.2

namespace Dir.Covered
variable {c : Config} {written : List (FileName × Bytes)} {d : Dir}

/-- Renaming and removing leave the contents of the files that are there. -/
theorem of_rename {P : Bytes → Prop} {old new : FileName} {l : List (FileName × Bytes)}
    (h : ∀ f ∈ l, P f.2) : ∀ f ∈ Table.rename old new l, P f.2 := by
  intro f hf
  obtain ⟨g, hg, rfl⟩ := List.mem_map.mp hf
  have hP := h g (List.mem_of_mem_filter hg)
  split
  · exact hP
  · exact hP

theorem of_remove {P : Bytes → Prop} {name : FileName} {l : List (FileName × Bytes)}
    (h : ∀ f ∈ l, P f.2) : ∀ f ∈ Table.remove name l, P f.2 :=
  fun f hf => h f (List.mem_of_mem_filter hf)

theorem of_modify {P : Bytes → Prop} {name : FileName} {l : List (FileName × Bytes)}
    {g : Bytes → Bytes} (h : ∀ f ∈ l, P f.2) (hg : ∀ b, P b → P (g b)) :
    ∀ f ∈ Table.modify name g l, P f.2 := by
  intro f hf
  obtain ⟨x, hx, rfl⟩ := List.mem_map.mp hf
  split
  · exact hg _ (h x hx)
  · exact h x hx

theorem of_concat {P : Bytes → Prop} {name : FileName} {b : Bytes} {l : List (FileName × Bytes)}
    (h : ∀ f ∈ l, P f.2) (hb : P b) : ∀ f ∈ l ++ [(name, b)], P f.2 := by
  intro f hf
  rcases List.mem_append.mp hf with hf | hf
  · exact h f hf
  · rw [List.mem_singleton.mp hf]
    exact hb

theorem step (h : d.Covered c written) {st : FsStep} (hst : st.Harmless c written) :
    (d.step st).Covered c written := by
  have hwrite : ∀ {position : Nat} {bytes : Bytes}, position + bytes.length ≤ c.segmentSize →
      ∀ b : Bytes, Sized c b → Sized c (b.overwrite position bytes) :=
    fun hin b hb => (Bytes.length_overwrite (hb ▸ hin)).trans hb
  cases st with
  | renameLog old new => exact ⟨of_rename h.logs, h.indexes⟩
  | renameIndex old new => exact ⟨h.logs, of_rename h.indexes⟩
  | createLog name fileSize =>
      exact ⟨of_concat h.logs ((Bytes.length_zeros _).trans hst), h.indexes⟩
  | createIndex name => exact ⟨h.logs, of_concat h.indexes hst⟩
  | writeRecord name position bytes => exact ⟨of_modify h.logs (hwrite hst), h.indexes⟩
  | zeroRange name position zeroDataLen =>
      refine ⟨of_modify h.logs (hwrite ?_), h.indexes⟩
      rw [Bytes.length_zeros]
      exact hst
  | writeIndex name contents => exact ⟨h.logs, of_modify h.indexes fun _ _ => hst⟩
  | removeLog name => exact ⟨of_remove h.logs, h.indexes⟩
  | removeIndex name => exact ⟨h.logs, of_remove h.indexes⟩

theorem run {steps : List FsStep} (h : d.Covered c written)
    (hsteps : ∀ st ∈ steps, st.Harmless c written) : (d.run steps).Covered c written := by
  induction steps generalizing d with
  | nil => exact h
  | cons st steps ih =>
      exact ih (h.step (hsteps st List.mem_cons_self))
        fun st' hst' => hsteps st' (List.mem_cons_of_mem st hst')

end Dir.Covered

namespace Segment
variable {c : Config} {s s' : Segment} {n i : Nat} {ies : List IndexEntry}
  {written : List (FileName × Bytes)}

/-- The buffer of an index is not in its file yet. -/
theorem indexFile_isPrefix (s : Segment) : s.indexFile.2 <+: s.indexContents.2 := by
  rw [Segment.indexFile, Segment.indexContents]
  cases s.logIndex.readonly with
  | some f => exact List.prefix_rfl
  | none =>
      cases s.logIndex.readWrite with
      | some rw => exact List.prefix_append ..
      | none => exact List.prefix_rfl

theorem removeSteps_harmless (s : Segment) : ∀ st ∈ s.removeSteps, st.Harmless c written := by
  rw [Segment.removeSteps, List.forall_mem_cons, List.forall_mem_singleton]
  exact ⟨trivial, trivial⟩

theorem createSteps_harmless (h : s.Filling c n ies) (hwritten : Begins written []) :
    ∀ st ∈ s.createSteps, st.Harmless c written := by
  rw [Segment.createSteps, List.forall_mem_cons, List.forall_mem_singleton]
  exact ⟨h.maxBytes_eq, hwritten⟩

theorem cutSteps_harmless (h : s.Bounded c) (hwritten : Begins written s.indexContents.2) :
    ∀ st ∈ s.cutSteps i, st.Harmless c written := by
  rw [Segment.cutSteps]
  cases hcut : s.truncateSuffix i with
  | error e => exact List.forall_mem_nil _
  | ok s' =>
      obtain ⟨⟨m, ies', hfill⟩, hkept⟩ := h.truncateSuffix hcut
      have hle := h.le_maxBytes
      have hfill_le := hfill.le
      rw [h.length_eq] at hle
      have hindex : Begins written s'.indexFile.2 :=
        hwritten.of_isPrefix (s'.indexFile_isPrefix.trans hkept)
      rw [List.forall_mem_cons, List.forall_mem_append, List.forall_mem_singleton]
      refine ⟨?_, ?_, hindex⟩
      · change _ + (_ - _) ≤ _
        omega
      · split
        · exact List.forall_mem_nil _
        · rw [List.forall_mem_cons, List.forall_mem_singleton]
          exact ⟨trivial, trivial⟩

theorem sealSteps_harmless (hwritten : ∀ s', s.changeToReadonly = .ok s' →
    Begins written s'.indexContents.2) : ∀ st ∈ s.sealSteps, st.Harmless c written := by
  rw [Segment.sealSteps]
  cases hseal : s.changeToReadonly with
  | error e => exact List.forall_mem_nil _
  | ok s' =>
      rw [List.forall_mem_cons, List.forall_mem_cons, List.forall_mem_singleton]
      exact ⟨trivial, trivial, (hwritten s' hseal).of_isPrefix s'.indexFile_isPrefix⟩

/-- The steps of a batch that fits: every record lies in the file, and every state of the index
file is a beginning of the last one. -/
theorem recordSteps_harmless {records : List Record} : ∀ {s t : Segment} {ies : List IndexEntry}
    {i : Nat}, s.Filling c n ies →
    s.logFile.writePosition + (appendBuffers records).flatten.length ≤ c.segmentSize →
    s.appendLoop records i = .ok t → Begins written t.indexContents.2 →
    ∀ st ∈ s.recordSteps records i, st.Harmless c written := by
  induction records with
  | nil => exact fun _ _ _ _ => List.forall_mem_nil _
  | cons record records ih =>
      intro s t ies i h hfit hloop hwritten
      rw [length_appendBuffers_cons] at hfit
      have hfirst : s.logFile.writePosition + (recordLengthSize + record.size) ≤
          c.segmentSize := by omega
      obtain ⟨s₁, hs₁, h₁, hpos₁⟩ := h.appendRecord hfirst i
      rw [Segment.appendLoop, hs₁] at hloop
      change s₁.appendLoop records (i + 1) = .ok t at hloop
      have hfit₁ : s₁.logFile.writePosition + (appendBuffers records).flatten.length ≤
          c.segmentSize := by omega
      obtain ⟨t', new, ht', hfill, -, -⟩ := h₁.appendLoop (i + 1) hfit₁
      rw [hloop] at ht'
      cases ht'
      have hgrows : s₁.indexContents.2 <+: t.indexContents.2 := by
        rw [h₁.indexContents, hfill.indexContents]
        exact marshalEntries_isPrefix (List.prefix_append ..)
      have hindex : Begins written s₁.indexFile.2 :=
        hwritten.of_isPrefix (s₁.indexFile_isPrefix.trans hgrows)
      rw [Segment.recordSteps, hs₁]
      change ∀ st ∈ _ :: _ :: s₁.recordSteps records (i + 1), st.Harmless c written
      rw [List.forall_mem_cons, List.forall_mem_cons]
      refine ⟨?_, hindex, ih h₁ hfit₁ hloop hwritten⟩
      change _ + (Bytes.leBytes recordLengthSize record.size ++ record.marshal).length ≤ _
      rw [List.length_append, Bytes.length_leBytes, Record.length_marshal]
      exact hfirst

/-- The end of `appendRecords` leaves the index as it is. -/
theorem appendLoop_of_appendRecords {records : List Record}
    (happ : s.appendRecords records i = .ok s') :
    ∃ t, s.appendLoop records i = .ok t ∧ s'.indexContents.2 = t.indexContents.2 := by
  rw [Segment.appendRecords] at happ
  split at happ
  · cases happ
  · split at happ
    · cases happ
    · obtain ⟨t, ht, happ⟩ := bind_eq_ok happ
      cases happ
      exact ⟨t, ht, rfl⟩

/-- The index file grows with a batch. -/
theorem Filling.grows {records : List Record} (h : s.Filling c n ies)
    (hfit : s.logFile.writePosition + (appendBuffers records).flatten.length ≤ c.segmentSize)
    (happ : s.appendRecords records i = .ok s') : s.indexContents.2 <+: s'.indexContents.2 := by
  obtain ⟨t, ht, hcontents⟩ := appendLoop_of_appendRecords happ
  obtain ⟨t', new, ht', hfill, -, -⟩ := h.appendLoop i hfit
  rw [ht] at ht'
  cases ht'
  rw [hcontents, h.indexContents, hfill.indexContents]
  exact marshalEntries_isPrefix (List.prefix_append ..)

end Segment

namespace DiskStorage
variable {c : Config} {s : DiskStorage} {written : List (FileName × Bytes)}

theorem begins_close {seg : Segment} {segs : List Segment} {b : Bytes} (h : seg ∈ segs)
    (hb : b <+: seg.indexContents.2) : Begins (close ⟨segs⟩).indexes b :=
  (Begins.of_mem (List.mem_map_of_mem h)).of_isPrefix hb

namespace WriteSegment
variable {s' : DiskStorage} {seg : Segment} {isNew : Bool} {first size : Nat} {e : Entry}
  {es : List Entry}

/-- No index file is shorter than before. -/
theorem begins (hw : WriteSegment c s first size s' seg isNew)
    (hbefore : ∀ x ∈ if isNew then s'.segments else s'.segments.dropLast,
      Begins written x.indexContents.2)
    (hseg : Begins written seg.indexContents.2) :
    ∀ x ∈ s.segments, Begins written x.indexContents.2 := by
  intro x hx
  cases hw with
  | created hnil =>
      rw [hnil] at hx
      cases hx
  | @rolled last prev m jes hlast hroll hlastfill hprev hrest hindex =>
      rw [← List.dropLast_append_getLast? last hlast] at hx
      rcases List.mem_append.mp hx with hx | hx
      · exact hbefore x (List.mem_append_left _ hx)
      · rw [List.mem_singleton.mp hx, hlastfill.indexContents, ← hindex]
        exact hbefore prev (List.mem_append_right _ (List.mem_singleton_self prev))
  | last hlast _ =>
      rw [← List.dropLast_append_getLast? seg hlast] at hx
      rcases List.mem_append.mp hx with hx | hx
      · exact hbefore x hx
      · rw [List.mem_singleton.mp hx]
        exact hseg

/-- The steps in front of the records: a new segment is made, the last one sealed before. -/
theorem opening_harmless
    (hw : WriteSegment c s e.index (entriesToRecords (e :: es)).2 s' seg isNew)
    (hbefore : ∀ x ∈ if isNew then s'.segments else s'.segments.dropLast,
      Begins written x.indexContents.2) (hempty : Begins written []) :
    ∃ opening, s.saveSteps c (e :: es) =
        opening ++ seg.recordSteps (entriesToRecords (e :: es)).1 e.index ∧
      ∀ st ∈ opening, st.Harmless c written := by
  have hcreate := Segment.createSteps_harmless (Segment.create_filling c e.index) hempty
  rw [DiskStorage.saveSteps]
  cases hw with
  | created hnil =>
      refine ⟨_, ?_, hcreate⟩
      simp only [hnil, List.getLast?_nil]
  | @rolled last prev m jes hlast hroll hlastfill hprev hrest hindex =>
      refine ⟨last.sealSteps ++ (Segment.create c (.inprogress e.index)).createSteps, ?_, ?_⟩
      · simp only [hlast, hroll, if_true, List.append_assoc]
      · intro st hst
        rcases List.mem_append.mp hst with hst | hst
        · refine Segment.sealSteps_harmless (fun t ht => ?_) st hst
          rw [hprev] at ht
          cases ht
          exact hbefore prev (List.mem_append_right _ (List.mem_singleton_self prev))
        · exact hcreate st hst
  | last hlast hroll =>
      refine ⟨[], ?_, List.forall_mem_nil _⟩
      simp only [hlast, hroll, Bool.false_eq_true, if_false, List.nil_append]

end WriteSegment

/-- A batch that is saved: no index file shrinks, and every step is harmless. -/
theorem Bounded.saveSteps_harmless (h : s.Bounded c) {es : List Entry}
    (hok : (s.saveRaftEntries c es).2 = .ok ()) :
    (∀ x ∈ s.segments, Begins (s.saveRaftEntries c es).1.close.indexes x.indexContents.2) ∧
      ∀ st ∈ s.saveSteps c es, st.Harmless c (s.saveRaftEntries c es).1.close.indexes := by
  cases es with
  | nil => exact ⟨fun x hx => begins_close hx List.prefix_rfl, List.forall_mem_nil _⟩
  | cons e es =>
      have hfits : (entriesToRecords (e :: es)).2 ≤ c.segmentSize := by
        by_contra hlarge
        rw [DiskStorage.saveRaftEntries] at hok
        simp only at hok
        rw [if_pos (Nat.lt_of_not_le hlarge)] at hok
        cases hok
      have hresult := h.saveResult hfits
      cases hr : s.saveRaftEntries c (e :: es) with
      | mk s' r =>
          rw [hr] at hok hresult
          cases hresult with
          | refused err _ => cases hok
          | @saved s₁ seg seg' isNew n ies ies' hw hfill hroom happ hfill' =>
              have hmem := List.mem_append_right
                (if isNew then s₁.segments else s₁.segments.dropLast)
                (List.mem_singleton_self seg')
              have hbefore : ∀ x ∈ if isNew then s₁.segments else s₁.segments.dropLast,
                  Begins _ x.indexContents.2 :=
                fun x hx => begins_close (List.mem_append_left [seg'] hx) List.prefix_rfl
              obtain ⟨t, ht, hcontents⟩ := Segment.appendLoop_of_appendRecords happ
              have hrecords := Segment.recordSteps_harmless hfill hroom ht
                (hcontents ▸ begins_close hmem List.prefix_rfl)
              obtain ⟨opening, hsteps, hopening⟩ :=
                hw.opening_harmless hbefore (begins_close hmem List.nil_prefix)
              refine ⟨hw.begins hbefore (begins_close hmem (hfill.grows hroom happ)), ?_⟩
              rw [hsteps]
              intro st hst
              rcases List.mem_append.mp hst with hst | hst
              · exact hopening st hst
              · exact hrecords st hst

theorem Bounded.truncateSteps_harmless (h : s.Bounded c) (i : Nat)
    (hwritten : ∀ x ∈ s.segments, Begins written x.indexContents.2) :
    ∀ st ∈ s.truncateSteps i, st.Harmless c written := by
  rw [DiskStorage.truncateSteps]
  cases hsplit : splitLast (fun seg => seg.contains i) s.segments with
  | none => exact List.forall_mem_nil _
  | some found =>
      obtain ⟨before, seg, behind⟩ := found
      obtain ⟨hsegs, -⟩ := splitLast_eq_some hsplit
      have hmem : seg ∈ s.segments := by
        rw [hsegs]
        exact List.mem_append_right _ List.mem_cons_self
      intro st hst
      rcases List.mem_append.mp hst with hst | hst
      · obtain ⟨x, -, hx⟩ := List.mem_flatMap.mp hst
        exact x.removeSteps_harmless st hx
      · exact Segment.cutSteps_harmless (h.each seg hmem) (hwritten seg hmem) st hst

theorem purgeSteps_harmless (s : DiskStorage) (reserveSegmentCount : Nat) :
    ∀ st ∈ s.purgeSteps reserveSegmentCount, st.Harmless c written := by
  intro st hst
  obtain ⟨x, -, hx⟩ := List.mem_flatMap.mp hst
  exact x.removeSteps_harmless st hx

/-- The files of a running process. -/
theorem Bounded.filesOf_covered (h : s.Bounded c) {orphans : List (FileName × Bytes)}
    (hsegs : ∀ x ∈ s.segments, Begins written x.indexContents.2)
    (horphans : ∀ f ∈ orphans, Begins written f.2) :
    (filesOf s.segments orphans).Covered c written where
  logs := by
    intro f hf
    obtain ⟨seg, hseg, rfl⟩ := List.mem_map.mp hf
    exact (h.each seg hseg).length_eq
  indexes := by
    intro f hf
    rcases List.mem_append.mp hf with hf | hf
    · obtain ⟨seg, hseg, rfl⟩ := List.mem_map.mp hf
      exact (hsegs seg hseg).of_isPrefix seg.indexFile_isPrefix
    · exact horphans f hf

end DiskStorage

/-- A batch that is cut off would have been saved. -/
def Op.Completes (c : Config) (s : DiskStorage) : Op → Prop
  | .save es => (s.saveRaftEntries c es).2 = .ok ()
  | _ => True

/-- **A crash between two file steps** is one of the crashes of `Running`: of the storage before
the operation, or, for a batch, of the storage behind it. -/
theorem DiskStorage.Running.crash_covered {c : Config} {stray orphans : List (FileName × Bytes)}
    {s : DiskStorage} (h : Running c stray s) (horphans : ∀ f ∈ orphans, f ∈ stray) {op : Op}
    (hop : op.Completes c s) (k : Nat) :
    ∃ s₁, Running c stray s₁ ∧
      ((filesOf s.segments orphans).run ((op.steps c s).take k)).Covered c
        (s₁.close.indexes ++ stray) := by
  have hb := h.kept.bounded
  have hstray : ∀ {files : List (FileName × Bytes)}, ∀ f ∈ orphans, Begins (files ++ stray) f.2 :=
    fun f hf => .of_mem (List.mem_append_right _ (horphans f hf))
  have hown : ∀ x ∈ s.segments, Begins (s.close.indexes ++ stray) x.indexContents.2 :=
    fun x hx => (begins_close hx List.prefix_rfl).append stray
  cases op with
  | save es =>
      obtain ⟨hgrows, hsteps⟩ := hb.saveSteps_harmless hop
      refine ⟨(s.saveRaftEntries c es).1, h.save es (by rw [hop]; rfl), ?_⟩
      have hcovered := hb.filesOf_covered (fun x hx => (hgrows x hx).append stray) hstray
      refine hcovered.run fun st hst => ?_
      exact (hsteps st (List.mem_of_mem_take hst)).append stray
  | truncate i =>
      refine ⟨s, h, (hb.filesOf_covered hown hstray).run fun st hst => ?_⟩
      exact hb.truncateSteps_harmless i hown st (List.mem_of_mem_take hst)
  | purge reserveSegmentCount =>
      refine ⟨s, h, (hb.filesOf_covered hown hstray).run fun st hst => ?_⟩
      exact s.purgeSteps_harmless reserveSegmentCount st (List.mem_of_mem_take hst)

/-- What raft asks for is saved. -/
theorem Op.completes_of_valid {c : Config} {s : DiskStorage} {v : SegLog} {op : Op}
    (h : s.Rep c true v) (hop : op.Valid c s) : op.Completes c s := by
  cases op with
  | save es =>
      obtain ⟨hne, hnum, hfit⟩ := valid_save h hop
      obtain ⟨s', hs', -⟩ := h.saveRaftEntries hne hnum hfit
      exact congrArg Prod.snd hs'
  | truncate i => trivial
  | purge reserveSegmentCount => trivial

/-- **The processes of `Kingbus.CrashPoints` are among those here.** -/
theorem World.Reached.running {c : Config} {w : World} (h : World.Reached c w) :
    ∃ stray, (∀ f ∈ w.orphans, f ∈ stray) ∧ DiskStorage.Running c stray w.storage := by
  induction h with
  | init => exact ⟨[], fun _ hf => hf, .init⟩
  | @op w op hw hop hwarm ih =>
      obtain ⟨stray, hstray, hrun⟩ := ih
      obtain ⟨v, hinv⟩ := hw.inv
      refine ⟨stray, fun f hf => hstray f (List.mem_of_mem_filter hf), ?_⟩
      cases op with
      | save es =>
          obtain ⟨hne, hnum, hfit⟩ := valid_save hinv.rep hop
          obtain ⟨s', hs', -⟩ := hinv.rep.saveRaftEntries hne hnum hfit
          exact hrun.save es (by rw [hs']; rfl)
      | truncate i =>
          obtain ⟨-, hlo, hhi, hcut⟩ := valid_truncate hinv.rep hinv.wf hop hwarm
          obtain ⟨s', hs', -⟩ := hinv.rep.truncateSuffix hinv.wf hlo hhi hcut
          exact hrun.truncate i (by rw [hs']; rfl)
      | purge reserveSegmentCount => exact hrun.purge reserveSegmentCount
  | @restart w s hw _ hnew ih =>
      obtain ⟨stray, hstray, hrun⟩ := ih
      exact ⟨w.orphans, fun f hf => List.mem_of_mem_filter hf, hrun.restart hstray hnew⟩
  | @crash w s op k hw hop hwarm _ hnew ih =>
      obtain ⟨stray, hstray, hrun⟩ := ih
      obtain ⟨v, hinv⟩ := hw.inv
      obtain ⟨s₁, hrun₁, hcovered⟩ :=
        hrun.crash_covered hstray (Op.completes_of_valid hinv.rep hop) k
      exact ⟨(w.crash c op k).indexes, fun f hf => List.mem_of_mem_filter hf,
        hrun₁.crash (w.crash c op k) hcovered.logs hcovered.indexes hnew⟩

end Kingbus
