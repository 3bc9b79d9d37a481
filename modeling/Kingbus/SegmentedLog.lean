import Kingbus.Lib.Chunks
import Kingbus.SegmentSpec

/-! # Two views of the log

`PlainLog` is what the storage is for: one list of entries from a first index on,
truncated and appended to at the end and dropped at the front.  `SegLog` splits
the same entries into segments, all but the last of them read-only, and says for
each operation where the split moves.  This file relates the two; the storage
itself is related to `SegLog` in `Kingbus.StorageRefinement`. -/

namespace Kingbus

/-- `entries[0].Index`. -/
def startIndex : List Entry → Nat
  | [] => 0
  | e :: _ => e.index

theorem startIndex_eq {es : List Entry} {n : Nat} (hne : es ≠ [])
    (h : Numbered Entry.index n es) : startIndex es = n := by
  obtain ⟨e, rest, rfl⟩ := List.exists_cons_of_ne_nil hne
  exact h.1

/-- The log as raft sees it. -/
structure PlainLog where
  first : Nat
  entries : List Entry
  deriving DecidableEq, Repr

namespace PlainLog

/-- The log of a new node. -/
def empty : PlainLog := ⟨1, []⟩

/-- The index of the last entry. -/
def lastIndex (l : PlainLog) : Nat := l.first + l.entries.length - 1

/-- Truncate from the first index of the batch on, then append the batch. -/
def appendRaftEntries (l : PlainLog) (es : List Entry) : PlainLog :=
  match es with
  | [] => l
  | e :: _ => { l with entries := l.entries.take (e.index - l.first) ++ es }

/-- Drop the `n` oldest entries. -/
def dropPrefix (l : PlainLog) (n : Nat) : PlainLog := ⟨l.first + n, l.entries.drop n⟩

/-- The entries with indexes in `[lo, hi)`. -/
def slice (l : PlainLog) (lo hi : Nat) : List Entry := (l.entries.drop (lo - l.first)).take (hi - lo)

end PlainLog

/-- The log split into segments: no segment yet, or read-only segments and the
writable one. -/
inductive SegLog where
  | empty
  | segs (done : List SegView) (writable : SegView)

namespace SegLog

/-- All segments, oldest first. -/
def views : SegLog → List SegView
  | empty => []
  | segs done w => done ++ [w]

/-- The read-only segments. -/
def done : SegLog → List SegView
  | empty => []
  | segs done _ => done

/-- The first index of the log. -/
def start (v : SegLog) : Nat :=
  match v.views with
  | [] => 1
  | u :: _ => u.first

/-- The index after the last entry. -/
def next : SegLog → Nat
  | empty => 1
  | segs _ w => w.next

/-- All entries of the log. -/
def entries (v : SegLog) : List Entry := v.views.flatMap SegView.es

/-- The log without its split. -/
def log (v : SegLog) : PlainLog := ⟨v.start, v.entries⟩

/-- Segments follow each other without a gap and only the writable one can be
empty. -/
structure WF (v : SegLog) : Prop where
  chained : Chunks.Chained SegView.first SegView.es v.start v.views
  done_ne : ∀ u ∈ v.done, u.es ≠ []

/-- No segment is empty: true between two calls of `appendRaftEntries`. -/
def Full (v : SegLog) : Prop := ∀ u ∈ v.views, u.es ≠ []

/-- Every segment knows its write position: true as long as nothing is reopened. -/
def Hot (v : SegLog) : Prop := ∀ u ∈ v.views, u.hot = true

/-- Append a batch behind the last entry: a new segment is made when the batch
does not fit into the last one. -/
def save (c : Config) (v : SegLog) (es : List Entry) (h : Numbered Entry.index v.next es) : SegLog :=
  match v, h with
  | empty, h => segs [] (SegView.single 1 es h (Nat.le_refl 1))
  | segs done w, h =>
      if c.segmentSize < (encode w.es).length + (encode es).length then
        segs (done ++ [w]) (SegView.single w.next es h
          (Nat.le_trans w.first_pos (Nat.le_add_right _ _)))
      else segs done (w.append es h)

/-- Cut everything from `i` on: the segment that holds `i` becomes the writable
one. -/
def truncate (v : SegLog) (i : Nat) : SegLog :=
  match splitLast (fun u => decide (Chunks.Covers SegView.first SegView.es i u)) v.views with
  | none => v
  | some (before, u, _) => segs before (u.cut i)

/-- `Node.appendRaftEntries` on the segmented log. -/
def append (c : Config) (v : SegLog) (es : List Entry) : SegLog :=
  match es with
  | [] => v
  | e :: _ =>
      let v := if e.index < v.next then v.truncate e.index else v
      if h : Numbered Entry.index v.next es then v.save c es h else v

/-- Keep the newest `reserve` segments. -/
def purge (v : SegLog) (reserve : Nat) : SegLog :=
  match v with
  | empty => empty
  | segs done w => segs (done.drop (done.length + 1 - reserve)) w

section Facts
variable {v : SegLog}

theorem empty_wf : WF empty := ⟨trivial, nofun⟩

theorem start_pos (v : SegLog) : 1 ≤ v.start := by
  unfold start
  cases v.views with
  | nil => exact Nat.le_refl 1
  | cons u _ => exact u.first_pos

/-- **The entries of a segmented log are numbered from its first index on.** -/
theorem WF.numbered (h : v.WF) : Numbered Entry.index v.start v.entries :=
  h.chained.numbered fun u _ => u.numbered

theorem WF.next_eq (h : v.WF) : v.next = v.start + v.entries.length := by
  cases v with
  | empty => rfl
  | segs done w =>
      have hfirst : w.first = (segs done w).start + (done.flatMap SegView.es).length :=
        Chunks.Chained.first_eq h.chained
      rw [next, SegView.next, hfirst, entries, views, List.flatMap_append, List.length_append,
        List.flatMap_cons, List.flatMap_nil, List.append_nil, Nat.add_assoc]

/-- Segments start at different indexes, in order. -/
theorem WF.pairwise_first (h : v.WF) : v.views.Pairwise fun a b => a.first < b.first := by
  cases v with
  | empty => exact .nil
  | segs d w =>
      have hchain := h.chained
      refine List.pairwise_append.mpr ⟨?_, List.pairwise_singleton _ w, ?_⟩
      · exact (Chunks.chained_append_iff.mp hchain).1.pairwise_first h.done_ne
      · intro u hu x hx
        rw [List.mem_singleton.mp hx]
        have hpos := List.length_pos_of_ne_nil (h.done_ne u hu)
        have := Chunks.Chained.before hchain u hu
        omega

/-- A chain of segments is a well-formed log that starts where the chain does. -/
theorem wf_segs {d : List SegView} {w : SegView} {n : Nat}
    (h : Chunks.Chained SegView.first SegView.es n (d ++ [w])) (hne : ∀ u ∈ d, u.es ≠ []) :
    (segs d w).WF ∧ (segs d w).start = n := by
  have hstart : (segs d w).start = n := by
    cases d with
    | nil => exact h.1
    | cons u d => exact h.1
  exact ⟨⟨by rw [hstart]; exact h, hne⟩, hstart⟩

/-- Entries put into the last segment. -/
theorem WF.appendLast {d : List SegView} {w : SegView} {es : List Entry} (hwf : (segs d w).WF)
    (h : Numbered Entry.index w.next es) :
    (segs d (w.append es h)).WF ∧ (segs d (w.append es h)).start = (segs d w).start ∧
      (segs d (w.append es h)).entries = (segs d w).entries ++ es := by
  have hparts := Chunks.chained_append_iff.mp hwf.chained
  obtain ⟨hw, hs⟩ := wf_segs (w := w.append es h)
    (Chunks.chained_append_iff.mpr ⟨hparts.1, hparts.2.1, trivial⟩) hwf.done_ne
  exact ⟨hw, hs, by
    simp only [entries, views, List.flatMap_append, List.flatMap_cons, List.flatMap_nil,
      List.append_nil, SegView.append, List.append_assoc]⟩

/-- Entries put into a new segment behind the last one. -/
theorem WF.roll {d : List SegView} {w : SegView} {es : List Entry} (hwf : (segs d w).WF)
    (hne : w.es ≠ []) (h : Numbered Entry.index w.next es) (hpos : 1 ≤ w.next) :
    (segs (d ++ [w]) (SegView.single w.next es h hpos)).WF ∧
      (segs (d ++ [w]) (SegView.single w.next es h hpos)).start = (segs d w).start ∧
      (segs (d ++ [w]) (SegView.single w.next es h hpos)).entries =
        (segs d w).entries ++ es := by
  have hdone : ∀ u ∈ d ++ [w], u.es ≠ [] := by
    intro u hu
    rcases List.mem_append.mp hu with hu | hu
    · exact hwf.done_ne u hu
    · exact List.mem_singleton.mp hu ▸ hne
  obtain ⟨hw, hs⟩ := wf_segs (w := SegView.single w.next es h hpos)
    (Chunks.chained_append_iff.mpr ⟨hwf.chained, hwf.next_eq, trivial⟩) hdone
  exact ⟨hw, hs, by
    simp only [entries, views, List.flatMap_append, List.flatMap_cons, List.flatMap_nil,
      List.append_nil, SegView.single]⟩

/-- An empty segment always has room, so one that is left behind is not empty. -/
theorem ne_nil_of_roll {c : Config} {w : SegView} {es : List Entry}
    (hfit : (encode es).length ≤ c.segmentSize)
    (hroll : c.segmentSize < (encode w.es).length + (encode es).length) : w.es ≠ [] := by
  intro h0
  rw [h0, encode_nil, List.length_nil] at hroll
  omega

/-- What `save` does to the log: the batch is appended, wherever it is put. -/
theorem WF.save {c : Config} {es : List Entry} (hwf : v.WF)
    (h : Numbered Entry.index v.next es) (hfit : (encode es).length ≤ c.segmentSize) :
    (v.save c es h).WF ∧ (v.save c es h).start = v.start ∧
      (v.save c es h).entries = v.entries ++ es := by
  cases v with
  | empty =>
      obtain ⟨hw, hs⟩ := wf_segs (d := []) (w := SegView.single 1 es h (Nat.le_refl 1))
        ⟨rfl, trivial⟩ nofun
      exact ⟨hw, hs, List.flatMap_singleton SegView.es _⟩
  | segs d w =>
      rw [SegLog.save]
      split
      · next hroll => exact hwf.roll (ne_nil_of_roll hfit hroll) h _
      · exact hwf.appendLast h

/-- The segment that holds `i`, found by the search from the end. -/
theorem WF.truncate_eq {i : Nat} (hwf : v.WF) (hlo : v.start ≤ i) (hhi : i < v.next) :
    ∃ before u behind, v.views = before ++ u :: behind ∧
      Chunks.Covers SegView.first SegView.es i u ∧
      (∀ b ∈ behind, ¬ Chunks.Covers SegView.first SegView.es i b) ∧
      v.truncate i = segs before (u.cut i) := by
  rw [hwf.next_eq] at hhi
  obtain ⟨before, u, behind, hviews, hu⟩ := hwf.chained.exists_covers hlo hhi
  have hchain := hwf.chained
  rw [hviews] at hchain
  have hbehind : ∀ b ∈ behind, ¬ Chunks.Covers SegView.first SegView.es i b := by
    intro b hb hc
    have := hchain.behind b hb
    have := hu.2
    have := hc.1
    omega
  refine ⟨before, u, behind, hviews, hu, hbehind, ?_⟩
  have hsplit := splitLast_append
    (p := fun u => decide (Chunks.Covers SegView.first SegView.es i u)) (decide_eq_true hu)
    (fun b hb => decide_eq_false (hbehind b hb)) before
  rw [truncate, hviews, hsplit]

/-- Segments with others behind them are read-only. -/
theorem mem_done_of_split {before behind : List SegView} {u : SegView}
    (h : v.views = before ++ u :: behind) : ∀ b ∈ before, b ∈ v.done := by
  cases v with
  | empty => cases before <;> cases h
  | segs d w =>
      intro b hb
      rcases List.eq_nil_or_concat behind with rfl | ⟨bs, x, rfl⟩
      · rw [(List.append_inj' h rfl).1]
        exact hb
      · rw [List.concat_eq_append] at h
        have h' : d ++ [w] = (before ++ u :: bs) ++ [x] := by
          rw [List.append_assoc, List.cons_append]
          exact h
        rw [(List.append_inj' h' rfl).1]
        exact List.mem_append_left _ hb

/-- What `truncate` does to the log: everything from `i` on is gone. -/
theorem WF.truncate {i : Nat} (hwf : v.WF) (hlo : v.start ≤ i) (hhi : i < v.next) :
    (v.truncate i).WF ∧ (v.truncate i).start = v.start ∧ (v.truncate i).next = i ∧
      (v.truncate i).entries = v.entries.take (i - v.start) := by
  obtain ⟨before, u, behind, hviews, hu, -, htr⟩ := hwf.truncate_eq hlo hhi
  have hchain := hwf.chained
  rw [hviews] at hchain
  have hparts := Chunks.chained_append_iff.mp hchain
  have hfirst := hchain.first_eq
  have hlen : (u.es.take (i - u.first)).length = i - u.first := by
    rw [List.length_take]
    have := hu.2
    omega
  obtain ⟨hw, hs⟩ := wf_segs (w := u.cut i)
    (Chunks.chained_append_iff.mpr ⟨hparts.1, hparts.2.1, trivial⟩)
    (fun b hb => hwf.done_ne b (mem_done_of_split hviews b hb))
  rw [htr]
  refine ⟨hw, hs, ?_, ?_⟩
  · rw [next, SegView.next, SegView.cut, hlen]
    exact Nat.add_sub_cancel' hu.1
  · have hi : i - v.start = (before.flatMap SegView.es).length + (i - u.first) := by
      have := hu.1
      omega
    rw [entries, views, entries, hviews, List.flatMap_append, List.flatMap_append,
      List.flatMap_cons, List.flatMap_cons, List.flatMap_nil, List.append_nil, hi,
      List.take_length_add_append, List.take_append_of_le_length (by have := hu.2; omega)]
    rfl

/-- The number of entries in the segments a purge drops. -/
def dropped (v : SegLog) (reserve : Nat) : Nat :=
  ((v.done.take (v.done.length + 1 - reserve)).flatMap SegView.es).length

/-- What `purge` does to the log: a prefix is gone. -/
theorem WF.purge (hwf : v.WF) (reserve : Nat) :
    (v.purge reserve).WF ∧ (v.purge reserve).log = v.log.dropPrefix (v.dropped reserve) := by
  cases v with
  | empty =>
      refine ⟨empty_wf, ?_⟩
      rw [dropped, done, List.take_nil]
      rfl
  | segs d w =>
      have hchain := hwf.chained
      simp only [SegLog.purge, dropped, done]
      obtain ⟨d₁, d₂, hd, h₁, h₂⟩ : ∃ d₁ d₂, d = d₁ ++ d₂ ∧
          d.take (d.length + 1 - reserve) = d₁ ∧ d.drop (d.length + 1 - reserve) = d₂ :=
        ⟨_, _, (List.take_append_drop _ d).symm, rfl, rfl⟩
      rw [h₁, h₂]
      rw [views, hd, List.append_assoc] at hchain
      obtain ⟨hw, hs⟩ := wf_segs (Chunks.chained_append_iff.mp hchain).2
        (fun u hu => hwf.done_ne u (by rw [done, hd]; exact List.mem_append_right _ hu))
      refine ⟨hw, ?_⟩
      simp only [log, hs, PlainLog.dropPrefix, entries, views, hd, List.append_assoc,
        List.flatMap_append, List.drop_left]

/-- A batch leaves no segment empty. -/
theorem WF.save_full {c : Config} {es : List Entry} (hwf : v.WF) (hne : es ≠ [])
    (h : Numbered Entry.index v.next es) (hfit : (encode es).length ≤ c.segmentSize) :
    (v.save c es h).Full := by
  have hwf' := (hwf.save h hfit).1
  intro u hu
  have hlast : ∀ d w, v.save c es h = segs d w → w.es ≠ [] := by
    intro d w heq
    cases v with
    | empty =>
        cases heq
        exact hne
    | segs d' w' =>
        rw [SegLog.save] at heq
        split at heq
        · cases heq
          exact hne
        · cases heq
          exact fun h0 => hne (List.append_eq_nil_iff.mp h0).2
  cases hv : v.save c es h with
  | empty =>
      rw [hv] at hu
      cases hu
  | segs d w =>
      rw [hv] at hu hwf'
      rcases List.mem_append.mp hu with hu | hu
      · exact hwf'.done_ne u hu
      · exact List.mem_singleton.mp hu ▸ hlast d w hv

theorem Hot.save {c : Config} {es : List Entry} (hhot : v.Hot)
    (h : Numbered Entry.index v.next es) : (v.save c es h).Hot := by
  cases v with
  | empty =>
      intro u hu
      rw [List.mem_singleton.mp hu]
      rfl
  | segs d w =>
      intro u hu
      rw [SegLog.save] at hu
      split at hu
      · rcases List.mem_append.mp hu with hu | hu
        · exact hhot u hu
        · rw [List.mem_singleton.mp hu]
          rfl
      · rcases List.mem_append.mp hu with hu | hu
        · exact hhot u (List.mem_append_left _ hu)
        · rw [List.mem_singleton.mp hu]
          rfl

theorem Hot.truncate {i : Nat} (hhot : v.Hot) (hwf : v.WF) (hlo : v.start ≤ i)
    (hhi : i < v.next) : (v.truncate i).Hot := by
  obtain ⟨before, u, behind, hviews, -, -, htr⟩ := hwf.truncate_eq hlo hhi
  rw [htr]
  intro x hx
  rcases List.mem_append.mp hx with hx | hx
  · exact hhot x (by rw [hviews]; exact List.mem_append_left _ hx)
  · rw [List.mem_singleton.mp hx]
    rfl

theorem mem_views_of_purge {reserve : Nat} {u : SegView} (hu : u ∈ (v.purge reserve).views) :
    u ∈ v.views := by
  cases v with
  | empty => exact hu
  | segs d w =>
      rcases List.mem_append.mp hu with hu | hu
      · exact List.mem_append_left _ (List.mem_of_mem_drop hu)
      · exact List.mem_append_right _ hu

section Append
variable {c : Config} {es : List Entry} {n : Nat}

/-- What raft asks of a batch: consecutive indexes, from inside the log or right
behind it, and not more than a segment holds. -/
structure Batch (c : Config) (v : SegLog) (es : List Entry) (n : Nat) : Prop where
  nonempty : es ≠ []
  numbered : Numbered Entry.index n es
  start_le : v.start ≤ n
  le_next : n ≤ v.next
  fits : (encode es).length ≤ c.segmentSize

/-- `append` in its two steps. -/
theorem Batch.append_eq (hb : Batch c v es n) (hwf : v.WF) :
    ∃ t, t = (if n < v.next then v.truncate n else v) ∧ t.WF ∧ t.start = v.start ∧
      t.entries = v.entries.take (n - v.start) ∧
      ∃ h : Numbered Entry.index t.next es, v.append c es = t.save c es h := by
  refine ⟨_, rfl, ?_⟩
  have hnext := hwf.next_eq
  obtain ⟨e, rest, rfl⟩ := List.exists_cons_of_ne_nil hb.nonempty
  have hidx : e.index = n := hb.numbered.1
  by_cases hlt : n < v.next
  · obtain ⟨h1, h2, h3, h4⟩ := hwf.truncate hb.start_le hlt
    have hnum : Numbered Entry.index (v.truncate n).next (e :: rest) := by
      rw [h3]
      exact hb.numbered
    simp only [SegLog.append, hidx, if_pos hlt, dif_pos hnum]
    exact ⟨h1, h2, h4, hnum, trivial⟩
  · have hv : v.next = n := Nat.le_antisymm (Nat.le_of_not_lt hlt) hb.le_next
    have hnum : Numbered Entry.index v.next (e :: rest) := by
      rw [hv]
      exact hb.numbered
    simp only [SegLog.append, hidx, if_neg hlt, dif_pos hnum]
    exact ⟨hwf, trivial, by rw [List.take_of_length_le (by omega)], hnum, trivial⟩

/-- **`append` is truncate-then-append on the plain log.** -/
theorem Batch.append_spec (hb : Batch c v es n) (hwf : v.WF) :
    (v.append c es).WF ∧ (v.append c es).Full ∧
      (v.append c es).log = v.log.appendRaftEntries es := by
  obtain ⟨t, -, ht, hstart, hentries, h, happ⟩ := hb.append_eq hwf
  obtain ⟨h1, h2, h3⟩ := ht.save h hb.fits
  rw [happ]
  refine ⟨h1, ht.save_full hb.nonempty h hb.fits, ?_⟩
  rw [log, h2, h3, hstart, hentries]
  cases es with
  | nil => exact absurd rfl hb.nonempty
  | cons e rest =>
      have hidx : e.index = n := hb.numbered.1
      rw [PlainLog.appendRaftEntries, hidx]
      rfl

theorem Batch.append_bounds (hb : Batch c v es n) (hwf : v.WF) :
    (v.append c es).start = v.start ∧ (v.append c es).next = n + es.length := by
  obtain ⟨t, -, ht, hstart, hentries, h, happ⟩ := hb.append_eq hwf
  obtain ⟨h1, h2, h3⟩ := ht.save h hb.fits
  have hnext := hwf.next_eq
  have hle := hb.le_next
  have hlo := hb.start_le
  rw [happ]
  refine ⟨h2.trans hstart, ?_⟩
  rw [h1.next_eq, h2, h3, hstart, hentries, List.length_append, List.length_take]
  omega

theorem Batch.append_hot (hb : Batch c v es n) (hwf : v.WF) (hhot : v.Hot) :
    (v.append c es).Hot := by
  obtain ⟨t, ht, -, -, -, h, happ⟩ := hb.append_eq hwf
  rw [happ]
  refine Hot.save ?_ h
  rw [ht]
  split
  · next hlt => exact hhot.truncate hwf hb.start_le hlt
  · exact hhot

end Append

end Facts

end SegLog

end Kingbus
