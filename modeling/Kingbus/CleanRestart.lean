import Kingbus.LogRefinement
import Kingbus.Restart

/-! # Storages that differ by a restart

A clean restart gives back the same segments, but the read-only ones have forgotten
their write position.  Two storages that differ only in that answer every sequence
of calls in the same way (`SameLog.replies_eq`), as long as no batch starts strictly
inside a segment that the restart opened read-only. -/

namespace Kingbus

/-! ## Logs that differ in what they know of their write positions -/

/-- The same entries; `u` knows its write position if `u'` does. -/
structure SegView.Like (u u' : SegView) : Prop where
  first : u.first = u'.first
  es : u.es = u'.es
  hot : u'.hot = true → u.hot = true

/-- The same segments. -/
def SegLog.Like : SegLog → SegLog → Prop
  | .empty, .empty => True
  | .segs d w, .segs d' w' => List.Forall₂ SegView.Like d d' ∧ SegView.Like w w'
  | _, _ => False

namespace SegLog
variable {c : Config} {v v' : SegLog} {es : List Entry} {i : Nat}

theorem Like.views (h : Like v v') : List.Forall₂ SegView.Like v.views v'.views := by
  cases v with
  | empty =>
      cases v' with
      | empty => exact .nil
      | segs d' w' => exact h.elim
  | segs d w =>
      cases v' with
      | empty => exact h.elim
      | segs d' w' => exact List.rel_append h.1 (.cons h.2 .nil)

theorem Like.done (h : Like v v') : List.Forall₂ SegView.Like v.done v'.done := by
  cases v with
  | empty =>
      cases v' with
      | empty => exact .nil
      | segs d' w' => exact h.elim
  | segs d w =>
      cases v' with
      | empty => exact h.elim
      | segs d' w' => exact h.1

theorem Like.start_eq (h : Like v v') : v.start = v'.start := by
  have hv := h.views
  unfold start
  cases hus : v.views with
  | nil =>
      rw [hus, List.forall₂_nil_left_iff] at hv
      rw [hv]
  | cons u us =>
      rw [hus, List.forall₂_cons_left_iff] at hv
      obtain ⟨u', us', hu, -, heq⟩ := hv
      rw [heq]
      exact hu.first

theorem Like.next_eq (h : Like v v') : v.next = v'.next := by
  cases v with
  | empty =>
      cases v' with
      | empty => rfl
      | segs d' w' => exact h.elim
  | segs d w =>
      cases v' with
      | empty => exact h.elim
      | segs d' w' =>
          rw [next, next, SegView.next, SegView.next, h.2.first, h.2.es]

theorem like_entries {us us' : List SegView} (h : List.Forall₂ SegView.Like us us') :
    us.flatMap SegView.es = us'.flatMap SegView.es := by
  induction h with
  | nil => rfl
  | cons hu _ ih => rw [List.flatMap_cons, List.flatMap_cons, hu.es, ih]

theorem Like.entries_eq (h : Like v v') : v.entries = v'.entries := like_entries h.views

theorem like_chained {us us' : List SegView} (h : List.Forall₂ SegView.Like us us') :
    ∀ {n : Nat}, Chunks.Chained SegView.first SegView.es n us →
      Chunks.Chained SegView.first SegView.es n us' := by
  induction h with
  | nil => exact fun _ => trivial
  | cons hu _ ih =>
      rintro n ⟨h1, h2⟩
      exact ⟨hu.first ▸ h1, hu.es ▸ ih h2⟩

theorem like_nonempty {us us' : List SegView} (h : List.Forall₂ SegView.Like us us')
    (hne : ∀ u ∈ us, u.es ≠ []) : ∀ u' ∈ us', u'.es ≠ [] := by
  induction h with
  | nil => nofun
  | @cons u u' us us' hu _ ih =>
      intro x hx
      rcases List.mem_cons.mp hx with rfl | hx
      · rw [← hu.es]
        exact hne u List.mem_cons_self
      · exact ih (fun y hy => hne y (List.mem_cons_of_mem u hy)) x hx

theorem Like.wf (h : Like v v') (hwf : v.WF) : v'.WF :=
  ⟨h.start_eq ▸ like_chained h.views hwf.chained, like_nonempty h.done hwf.done_ne⟩

theorem Like.full (h : Like v v') (hfull : v.Full) : v'.Full := like_nonempty h.views hfull

/-- What is read does not depend on what is known of write positions. -/
theorem Like.readEntries_eq (h : Like v v') (lo hi maxSize : Nat) :
    v.readEntries lo hi maxSize = v'.readEntries lo hi maxSize := by
  have hviews : ∀ {us us' : List SegView} (lo last : Nat), List.Forall₂ SegView.Like us us' →
      readViews lo last maxSize (us.filter fun u =>
          Chunks.Meets SegView.first SegView.es lo last u) =
        readViews lo last maxSize (us'.filter fun u =>
          Chunks.Meets SegView.first SegView.es lo last u) := by
    intro us us' lo last hus
    induction hus with
    | nil => rfl
    | @cons u u' us us' hu _ ih =>
        have hmeets : Chunks.Meets SegView.first SegView.es lo last u ↔
            Chunks.Meets SegView.first SegView.es lo last u' := by
          rw [Chunks.Meets, Chunks.Meets, hu.first, hu.es]
        rw [List.filter_cons, List.filter_cons]
        by_cases hm : Chunks.Meets SegView.first SegView.es lo last u
        · rw [if_pos (decide_eq_true hm), if_pos (decide_eq_true (hmeets.mp hm)), readViews,
            readViews, hu.es, ih]
        · rw [if_neg (by simpa using hm), if_neg (by simpa using fun h => hm (hmeets.mpr h)), ih]
  unfold readEntries
  simp only [h.start_eq, h.next_eq, hviews _ _ h.views]

theorem Like.save (h : Like v v') (hes : Numbered Entry.index v.next es)
    (hes' : Numbered Entry.index v'.next es) : Like (v.save c es hes) (v'.save c es hes') := by
  cases v with
  | empty =>
      cases v' with
      | empty => exact ⟨.nil, rfl, rfl, fun _ => rfl⟩
      | segs d' w' => exact h.elim
  | segs d w =>
      cases v' with
      | empty => exact h.elim
      | segs d' w' =>
          obtain ⟨hd, hw⟩ := h
          have hnext : w.next = w'.next := by rw [SegView.next, SegView.next, hw.first, hw.es]
          rw [SegLog.save, SegLog.save, hw.es]
          split
          · exact ⟨List.rel_append hd (.cons hw .nil), hnext, rfl, fun _ => rfl⟩
          · refine ⟨hd, hw.first, ?_, fun _ => rfl⟩
            exact congrArg (· ++ es) hw.es

theorem covers_congr {u u' : SegView} (h : SegView.Like u u') :
    Chunks.Covers SegView.first SegView.es i u ↔ Chunks.Covers SegView.first SegView.es i u' := by
  rw [Chunks.Covers, Chunks.Covers, h.first, h.es]

theorem Like.truncate (h : Like v v') (hwf : v.WF) (hlo : v.start ≤ i) (hhi : i < v.next) :
    Like (v.truncate i) (v'.truncate i) := by
  obtain ⟨before, u, behind, hviews, hu, hbehind, htr⟩ := hwf.truncate_eq hlo hhi
  have hflip := h.views.flip
  rw [hviews] at hflip
  obtain ⟨before', u', behind', hviews', h₁, hlike, h₂⟩ := forall₂_split hflip
  have hu' := (covers_congr hlike).mp hu
  have hbehind' : ∀ b ∈ behind', ¬ Chunks.Covers SegView.first SegView.es i b := by
    intro b hb hc
    obtain ⟨a, ha, hab⟩ := forall₂_exists h₂ b hb
    exact hbehind a ha ((covers_congr hab).mpr hc)
  have hsplit := splitLast_append
    (p := fun u => decide (Chunks.Covers SegView.first SegView.es i u)) (decide_eq_true hu')
    (fun b hb => decide_eq_false (hbehind' b hb)) before'
  have htr' : v'.truncate i = segs before' (u'.cut i) := by
    rw [SegLog.truncate, hviews', hsplit]
  rw [htr, htr']
  refine ⟨h₁.flip, hlike.first, ?_, fun _ => rfl⟩
  change u.es.take (i - u.first) = u'.es.take (i - u'.first)
  rw [hlike.first, hlike.es]

theorem Like.append {n : Nat} (h : Like v v') (hwf : v.WF) (hb : Batch c v es n)
    (hb' : Batch c v' es n) : Like (v.append c es) (v'.append c es) := by
  obtain ⟨t, ht, -, -, -, hnum, happ⟩ := hb.append_eq hwf
  obtain ⟨t', ht', -, -, -, hnum', happ'⟩ := hb'.append_eq (h.wf hwf)
  rw [happ, happ']
  refine Like.save ?_ hnum hnum'
  rw [ht, ht', ← h.next_eq]
  split
  · next hlt => exact h.truncate hwf hb.start_le hlt
  · exact h

theorem Like.cuttable (h : Like v v') (hcut : DiskStorage.Cuttable false v' i) :
    DiskStorage.Cuttable false v i := by
  intro u hu hcov
  obtain ⟨u', hu', hlike⟩ := forall₂_exists h.done u hu
  rcases hcut u' hu' ((covers_congr hlike).mp hcov) with hhot | ⟨-, hfirst⟩
  · exact Or.inl (hlike.hot hhot)
  · exact Or.inr ⟨rfl, hlike.first ▸ hfirst⟩

/-- A log and what a restart makes of it. -/
theorem like_reopened (hhot : ∀ d w, v = segs d w → w.hot = true) : Like v v.reopened := by
  cases v with
  | empty => trivial
  | segs d w =>
      refine ⟨?_, rfl, rfl, fun _ => hhot d w rfl⟩
      induction d with
      | nil => exact .nil
      | cons u d ih =>
          exact .cons ⟨rfl, rfl, nofun⟩ (ih fun d' w' h => by cases h; exact hhot _ w rfl)

end SegLog

/-! ## The storages of a process -/

namespace DiskStorage

/-- The last segment is not empty.  Only `TruncateSuffix` at the first index of a
segment makes it so, until the batch is saved that the truncation was for. -/
def Settled (s : DiskStorage) : Prop := ∀ seg ∈ s.segments.getLast?, seg.lastIndex ≠ 0

instance (s : DiskStorage) : Decidable s.Settled :=
  inferInstanceAs (Decidable (∀ seg ∈ s.segments.getLast?, seg.lastIndex ≠ 0))

/-- The raft contract for a batch: consecutive indexes, no gap behind the log. -/
def Handed (s : DiskStorage) : List Entry → Prop
  | [] => True
  | e :: es => Numbered Entry.index e.index (e :: es) ∧ e.index ≤ s.lastIndex + 1

instance (s : DiskStorage) : ∀ es, Decidable (s.Handed es)
  | [] => inferInstanceAs (Decidable True)
  | _ :: _ => inferInstanceAs (Decidable (_ ∧ _))

/-- The index lies strictly inside a read-only segment without a write position:
one that was opened read-only by a restart. -/
def InsideReopened (s : DiskStorage) (i : Nat) : Prop :=
  ∃ seg ∈ s.segments, seg.status = .readOnly ∧ seg.logFile.writePosition = 0 ∧
    seg.firstIndex < i ∧ i ≤ seg.lastIndex

instance (s : DiskStorage) (i : Nat) : Decidable (s.InsideReopened i) :=
  inferInstanceAs (Decidable (∃ seg ∈ s.segments, _))

end DiskStorage

section Invariant
variable {c : Config} {s s' : DiskStorage} {v : SegLog} {es : List Entry}

theorem full_of_settled {z : Bool} (h : s.Rep c z v) (hwf : v.WF) (hs : s.Settled) : v.Full := by
  cases v with
  | empty => nofun
  | segs d w =>
      obtain ⟨init, last, hseg, -, hlast⟩ := h
      have hne : last.lastIndex ≠ 0 := hs last (by rw [hseg, List.getLast?_concat]; rfl)
      intro u hu
      rcases List.mem_append.mp hu with hu | hu
      · exact hwf.done_ne u hu
      · intro h0
        rw [List.mem_singleton.mp hu] at h0
        exact hne (by rw [hlast.lastIndex, SegView.lastIndex, if_pos h0])

/-- A batch that is handed over starts at or before the end of the log. -/
theorem handed_le {e : Entry} {z : Bool} (h : s.Rep c z v) (hwf : v.WF) (hfull : v.Full)
    (hh : s.Handed (e :: es)) : e.index ≤ v.next := by
  have hlast := h.lastIndex hfull
  have hnext := hwf.next_eq
  have hpos := v.start_pos
  have := hh.2
  omega

/-- A call that succeeds takes a batch the log has room for. -/
theorem append_inv (h : s.Rep c false v) (hwf : v.WF) (hfull : v.Full) (hh : s.Handed es)
    (happ : s.appendRaftEntries c es = (s', .ok ())) :
    ∃ v', s'.Rep c false v' ∧ v'.WF ∧ v'.Full := by
  cases es with
  | nil =>
      cases happ
      exact ⟨v, h, hwf, hfull⟩
  | cons e es =>
      cases h.appendResult hwf hfull (List.cons_ne_nil e es) hh.1 (handed_le h hwf hfull hh) with
      | below _ heq => rw [happ] at heq; cases heq
      | cold _ _ _ heq => rw [happ] at heq; cases heq
      | large _ _ _ heq => rw [happ] at heq; cases heq
      | ok s₁ hb heq hrep =>
          rw [happ] at heq
          cases heq
          obtain ⟨h1, h2, -⟩ := hb.append_spec hwf
          exact ⟨_, hrep, h1, h2⟩

/-- Index 0 belongs to an emptied segment only, and cannot be cut there. -/
theorem DiskStorage.Rep.truncateSuffix_zero {z : Bool} (h : s.Rep c z v) :
    (s.truncateSuffix 0).2 ≠ .ok () := by
  rw [DiskStorage.truncateSuffix]
  cases hfound : splitLast (fun seg => seg.contains 0) s.segments with
  | none => simp
  | some found =>
      obtain ⟨before, seg, behind⟩ := found
      obtain ⟨hsplit, hzero⟩ := splitLast_eq_some hfound
      have hfirst : seg.firstIndex = 0 := Nat.le_zero.mp (of_decide_eq_true hzero).1
      have hmem : seg ∈ s.segments := by
        rw [hsplit]
        exact List.mem_append_right _ List.mem_cons_self
      -- a read-only segment starts at 1 or later
      obtain ⟨w, hw, h0⟩ : ∃ w, seg.Writable c z w ∧ w.es = [] := by
        cases v with
        | empty =>
            rw [show s.segments = [] from h] at hmem
            cases hmem
        | segs d w =>
            obtain ⟨init, last, hs, hinit, hlast⟩ := h
            rw [hs] at hmem
            rcases List.mem_append.mp hmem with hin | hin
            · obtain ⟨u, -, hu⟩ := forall₂_exists hinit seg hin
              have := u.first_pos
              rw [hu.firstIndex] at hfirst
              omega
            · rw [List.mem_singleton.mp hin] at hfirst ⊢
              refine ⟨w, hlast, ?_⟩
              by_contra hne
              have := w.first_pos
              rw [hlast.firstIndex, SegView.firstIndex_of_ne hne] at hfirst
              omega
      simp only [Segment.truncateSuffix, hw.position_emptied h0, bind, Except.bind]
      simp

/-- A truncation that succeeds cuts the log at an index inside it. -/
theorem DiskStorage.Rep.truncated {i : Nat} (h : s.Rep c false v) (hwf : v.WF)
    (htr : s.truncateSuffix i = (s', .ok ())) :
    v.start ≤ i ∧ i < v.next ∧ s'.Rep c false (v.truncate i) := by
  have hi : 1 ≤ i := by
    refine Nat.one_le_iff_ne_zero.mpr ?_
    rintro rfl
    exact h.truncateSuffix_zero (by rw [htr])
  have hin : v.start ≤ i ∧ i < v.next := by
    by_contra hout
    have hnone : splitLast (fun seg => seg.contains i) s.segments = none := by
      refine splitLast_eq_none fun seg hseg => ?_
      obtain ⟨u, hu, hread⟩ := forall₂_exists h.readable seg hseg
      have hle := hwf.chained.le_first u hu
      have hnext := hwf.next_eq
      rw [hread.contains hi]
      refine decide_eq_false fun hc => ?_
      have := hc.1
      have := hc.2
      unfold SegLog.entries at hnext
      omega
    rw [DiskStorage.truncateSuffix, hnone] at htr
    cases htr
  refine ⟨hin.1, hin.2, ?_⟩
  by_cases hcut : DiskStorage.Cuttable false v i
  · obtain ⟨s₁, heq, hrep⟩ := h.truncateSuffix hwf hin.1 hin.2 hcut
    rw [htr] at heq
    cases heq
    exact hrep
  · obtain ⟨s₁, heq⟩ := h.truncateSuffix_cold hwf hin.1 hin.2 hcut
    rw [htr] at heq
    cases heq

theorem DiskStorage.Rep.writable_hot {z : Bool} (h : s.Rep c z v) : ∀ d w, v = .segs d w → w.hot = true := by
  rintro d w rfl
  obtain ⟨-, last, -, -, hlast⟩ := h
  exact hlast.hot

end Invariant

/-! ## Calls on a storage -/

/-- A call of the storage interface. -/
inductive Call where
  | append (es : List Entry)
  | entries (lo hi maxSize : Nat)
  | term (i : Nat)
  | firstIndex
  | lastIndex

/-- What a call returns. -/
inductive Reply where
  | done (r : Except Failure Unit)
  | entries (r : Except Failure (List Entry))
  | number (r : Except Failure Nat)
  deriving DecidableEq

namespace Reply

/-- The process does not survive the call. -/
def stopped : Reply → Bool
  | done (.error (.fatal _)) => true
  | done (.error (.panic _)) => true
  | entries (.error (.fatal _)) => true
  | entries (.error (.panic _)) => true
  | number (.error (.fatal _)) => true
  | number (.error (.panic _)) => true
  | _ => false

end Reply

namespace Call

/-- One call. -/
def run (c : Config) (s : DiskStorage) : Call → DiskStorage × Reply
  | append es => let (s', r) := s.appendRaftEntries c es; (s', .done r)
  | entries lo hi maxSize => (s, .entries (s.entries lo hi maxSize))
  | term i => (s, .number (s.term i))
  | firstIndex => (s, .number (.ok s.firstIndex))
  | lastIndex => (s, .number (.ok s.lastIndex))

/-- The replies to a sequence of calls, up to one that stops the process. -/
def replies (c : Config) (s : DiskStorage) : List Call → List Reply
  | [] => []
  | call :: calls =>
      let r := call.run c s
      r.2 :: if r.2.stopped then [] else replies c r.1 calls

/-- The call keeps the raft contract. -/
def Respects (s : DiskStorage) : Call → Prop
  | append es => s.Handed es
  | _ => True

/-- No batch starts strictly inside a segment that was opened read-only. -/
def Avoids (s : DiskStorage) : Call → Prop
  | append (e :: _) => ¬ s.InsideReopened e.index
  | _ => True

instance (s : DiskStorage) : ∀ call : Call, Decidable (call.Respects s)
  | append es => inferInstanceAs (Decidable (s.Handed es))
  | entries _ _ _ | term _ | firstIndex | lastIndex => inferInstanceAs (Decidable True)

instance (s : DiskStorage) : ∀ call : Call, Decidable (call.Avoids s)
  | append [] => inferInstanceAs (Decidable True)
  | append (e :: _) => inferInstanceAs (Decidable (¬ s.InsideReopened e.index))
  | entries _ _ _ | term _ | firstIndex | lastIndex => inferInstanceAs (Decidable True)

/-- Every call of a sequence made on `s` satisfies `P` in the state it finds. -/
def All (c : Config) (P : DiskStorage → Call → Prop) (s : DiskStorage) : List Call → Prop
  | [] => True
  | call :: calls =>
      P s call ∧ ((call.run c s).2.stopped = false → All c P (call.run c s).1 calls)

end Call

/-- Two storages with the same segments, the second one reopened. -/
def SameLog (c : Config) (s s' : DiskStorage) : Prop :=
  ∃ v v' : SegLog, s.Rep c false v ∧ s'.Rep c false v' ∧ v.Like v' ∧ v.WF ∧ v.Full

namespace SameLog
variable {c : Config} {s s' : DiskStorage}

theorem firstIndex_eq (h : SameLog c s s') : s.firstIndex = s'.firstIndex := by
  obtain ⟨v, v', hrep, hrep', hlike, -, hfull⟩ := h
  rw [hrep.firstIndex hfull, hrep'.firstIndex (hlike.full hfull), hlike.start_eq]

theorem lastIndex_eq (h : SameLog c s s') : s.lastIndex = s'.lastIndex := by
  obtain ⟨v, v', hrep, hrep', hlike, -, hfull⟩ := h
  rw [hrep.lastIndex hfull, hrep'.lastIndex (hlike.full hfull), hlike.next_eq]

theorem entries_eq (h : SameLog c s s') (lo hi maxSize : Nat) :
    s.entries lo hi maxSize = s'.entries lo hi maxSize := by
  obtain ⟨v, v', hrep, hrep', hlike, hwf, hfull⟩ := h
  rw [hrep.entries hwf hfull, hrep'.entries (hlike.wf hwf) (hlike.full hfull),
    hlike.readEntries_eq]

theorem term_eq (h : SameLog c s s') (i : Nat) : s.term i = s'.term i := by
  unfold DiskStorage.term DiskStorage.checkRaftIndex
  rw [h.firstIndex_eq, h.lastIndex_eq, h.entries_eq]

/-- A batch that avoids reopened segments finds one that can be cut. -/
theorem cuttable_of_avoids {v : SegLog} {i : Nat} (hrep : s.Rep c false v)
    (h : ¬ s.InsideReopened i) : DiskStorage.Cuttable false v i := by
  intro u hu hcov
  cases v with
  | empty => cases hu
  | segs d w =>
      obtain ⟨init, last, hs, hinit, -⟩ := hrep
      obtain ⟨seg, hseg, hsealed⟩ := forall₂_exists hinit.flip u hu
      cases hhot : u.hot with
      | true => exact Or.inl rfl
      | false =>
          refine Or.inr ⟨rfl, ?_⟩
          by_contra hne
          refine h ⟨seg, by rw [hs]; exact List.mem_append_left _ hseg, hsealed.status, ?_, ?_, ?_⟩
          · rw [hsealed.writePosition, hhot]
            rfl
          · rw [hsealed.firstIndex]
            exact Nat.lt_of_le_of_ne hcov.1 fun heq => hne heq.symm
          · have := hcov.2
            rw [hsealed.lastIndex, SegView.next]
            omega

/-- A batch is answered in the same way by both storages. -/
theorem append_eq (h : SameLog c s s') {e : Entry} {es : List Entry}
    (hresp : (Call.append (e :: es)).Respects s') (havoid : (Call.append (e :: es)).Avoids s') :
    ((Call.append (e :: es)).run c s).2 = ((Call.append (e :: es)).run c s').2 ∧
      (((Call.append (e :: es)).run c s').2.stopped = false →
        SameLog c ((Call.append (e :: es)).run c s).1 ((Call.append (e :: es)).run c s').1) := by
  have hsame := h
  obtain ⟨v, v', hrep, hrep', hlike, hwf, hfull⟩ := h
  have hwf' := hlike.wf hwf
  have hfull' := hlike.full hfull
  have hle' : e.index ≤ v'.next := handed_le hrep' hwf' hfull' hresp
  have hle : e.index ≤ v.next := hlike.next_eq ▸ hle'
  have hcut' : DiskStorage.Cuttable false v' e.index := cuttable_of_avoids hrep' havoid
  have hcut := hlike.cuttable hcut'
  have hres := hrep.appendResult hwf hfull (List.cons_ne_nil e es) hresp.1 hle
  have hres' := hrep'.appendResult hwf' hfull' (List.cons_ne_nil e es) hresp.1 hle'
  simp only [Call.run]
  cases hres with
  | below hb heq =>
      cases hres' with
      | below _ heq' =>
          rw [heq, heq']
          exact ⟨rfl, fun _ => hsame⟩
      | cold _ _ hno _ => exact absurd hcut' hno
      | large _ hlo _ _ => exact absurd hb (by rw [hlike.start_eq]; omega)
      | ok _ hbatch _ _ =>
          exact absurd hb (by rw [hlike.start_eq]; have := hbatch.start_le; omega)
  | cold _ _ hno _ => exact absurd hcut hno
  | large s₁ hlo hbig heq =>
      cases hres' with
      | below hb _ => exact absurd hb (by rw [← hlike.start_eq]; omega)
      | cold _ _ hno _ => exact absurd hcut' hno
      | large _ _ _ heq' =>
          rw [heq, heq']
          exact ⟨rfl, nofun⟩
      | ok _ hbatch _ _ => exact absurd hbatch.fits (by omega)
  | ok s₁ hbatch heq hrep₁ =>
      cases hres' with
      | below hb _ =>
          exact absurd hb (by rw [← hlike.start_eq]; have := hbatch.start_le; omega)
      | cold _ _ hno _ => exact absurd hcut' hno
      | large _ _ hbig _ => exact absurd hbatch.fits (by omega)
      | ok s₁' hbatch' heq' hrep₁' =>
          rw [heq, heq']
          obtain ⟨h1, h2, -⟩ := hbatch.append_spec hwf
          exact ⟨rfl, fun _ => ⟨_, _, hrep₁, hrep₁', hlike.append hwf hbatch hbatch', h1, h2⟩⟩

/-- **One call** is answered in the same way by both storages. -/
theorem run_eq (h : SameLog c s s') {call : Call} (hresp : call.Respects s')
    (havoid : call.Avoids s') :
    (call.run c s).2 = (call.run c s').2 ∧
      ((call.run c s').2.stopped = false → SameLog c (call.run c s).1 (call.run c s').1) := by
  cases call with
  | entries lo hi maxSize =>
      exact ⟨congrArg Reply.entries (h.entries_eq lo hi maxSize), fun _ => h⟩
  | term i => exact ⟨congrArg Reply.number (h.term_eq i), fun _ => h⟩
  | firstIndex => exact ⟨congrArg (fun n => Reply.number (.ok n)) h.firstIndex_eq, fun _ => h⟩
  | lastIndex => exact ⟨congrArg (fun n => Reply.number (.ok n)) h.lastIndex_eq, fun _ => h⟩
  | append es =>
      cases es with
      | nil => exact ⟨rfl, fun _ => h⟩
      | cons e es => exact h.append_eq hresp havoid

/-- **Any sequence of calls.** -/
theorem replies_eq : ∀ (calls : List Call) {s s' : DiskStorage}, SameLog c s s' →
    Call.All c (fun s call => call.Respects s) s' calls →
    Call.All c (fun s call => call.Avoids s) s' calls →
    Call.replies c s calls = Call.replies c s' calls
  | [], _, _, _, _, _ => rfl
  | call :: calls, s, s', h, hresp, havoid => by
      obtain ⟨heq, hnext⟩ := h.run_eq hresp.1 havoid.1
      simp only [Call.replies, heq]
      cases hstop : (call.run c s').2.stopped with
      | true => rfl
      | false =>
          simp only [Bool.false_eq_true, if_false]
          rw [replies_eq calls (hnext hstop) (hresp.2 hstop) (havoid.2 hstop)]

end SameLog

end Kingbus
