import Kingbus.ReachableStorage
import Kingbus.Lib.Budget

/-! # The size limit of `Entries`

The contract of `Storage.Entries` says what a size limit leaves of the entries asked for:
the longest prefix whose `Entry.Size` adds up to at most `maxSize`, and never less than one
entry.  The storage applies the limit three times.  `readRaftEntries` stops behind the entry
that passes it.  `readSegments` goes on to the next segment with the full limit, unless the
one before has used it up exactly or passed it.  `cutRaftEntries` counts only the data of
the entries.  This file computes what is left of a window after all three and compares it
with the contract. -/

namespace Kingbus
open Budget

/-- The contract of `Storage.Entries`: what a limit leaves of the entries asked for. -/
def sizePrefix (maxSize : Nat) (es : List Entry) : List Entry := keep Entry.size maxSize es

theorem dataLen_le_size (e : Entry) : DiskStorage.dataLen e ≤ e.size := by
  unfold DiskStorage.dataLen Entry.size
  cases e.data with
  | none => simp
  | some d => simp only [Option.getD_some]; omega

/-- The sizes of entries add up to less than they take in a file. -/
theorem total_size_le : ∀ es : List Entry, total Entry.size es ≤ (encode es).length
  | [] => Nat.le_refl 0
  | e :: es => by
      have := total_size_le es
      have := size_lt_toRecord_size e
      rw [total_cons, encode_cons, List.length_append, length_frame]
      omega

/-! ## Reading the segments -/

namespace Segment

/-- A segment is read up to and with the entry that passes the limit. -/
theorem readLimited_eq {maxSize : Nat} : ∀ {readSize : Nat} {xs : List Entry},
    readSize + total Entry.size xs < 2 ^ 64 →
    readLimited maxSize readSize xs =
      (xs.take (fit Entry.size maxSize readSize xs + 1),
        readSize + total Entry.size (xs.take (fit Entry.size maxSize readSize xs + 1)))
  | _, [], _ => rfl
  | readSize, e :: es, h => by
      rw [total_cons] at h
      have hmod : (readSize + e.size) % 2 ^ 64 = readSize + e.size := Nat.mod_eq_of_lt (by omega)
      simp only [readLimited, hmod, fit]
      by_cases hbig : readSize + e.size > maxSize
      · rw [if_pos hbig, if_pos hbig]
        simp
      · rw [if_neg hbig, if_neg hbig, readLimited_eq (by omega), Nat.add_comm 1, List.take_succ_cons,
          total_cons, Nat.add_assoc]

end Segment

namespace SegLog

/-- What `readSegments` makes of the pieces of the window, one for each segment. -/
def readPieces (maxSize : Nat) : List (List Entry) → List Entry
  | [] => []
  | w :: ws =>
      let r := Segment.readLimited maxSize 0 w
      if Segment.remaining maxSize r.2 = 0 then r.1 else r.1 ++ readPieces maxSize ws

theorem readViews_eq_readPieces (lo last maxSize : Nat) (us : List SegView) :
    readViews lo last maxSize us =
      readPieces maxSize (us.map fun u => Numbered.window Entry.index lo last u.es) := by
  induction us with
  | nil => rfl
  | cons u us ih => simp only [readViews, List.map_cons, readPieces, ih]

/-- The reading of the pieces stops where the contract does: nothing is left out, the first
entry passes the limit, or the first piece uses it up exactly. -/
def StopsInTime (maxSize : Nat) (ws : List (List Entry)) : Prop :=
  sizePrefix maxSize ws.flatten = ws.flatten ∨ (∀ e ∈ ws.flatten.head?, maxSize < e.size) ∨
    ∃ w ∈ ws.head?, total Entry.size w = maxSize

/-- What the reading of the pieces `ws` leaves: `m` entries, as many as the contract or
more. -/
structure Reads (maxSize : Nat) (ws : List (List Entry)) (m : Nat) : Prop where
  eq : readPieces maxSize ws = ws.flatten.take m
  le : m ≤ ws.flatten.length
  ge : (sizePrefix maxSize ws.flatten).length ≤ m
  exact_iff : m = (sizePrefix maxSize ws.flatten).length ↔ StopsInTime maxSize ws

section Pieces
variable {maxSize m : Nat} {w : List Entry} {ws : List (List Entry)}

theorem size_pos (e : Entry) : 0 < e.size := by
  have := e.six_le_size
  omega

theorem remaining_eq_zero_iff {n : Nat} : Segment.remaining maxSize n = 0 ↔ maxSize ≤ n := by
  unfold Segment.remaining
  split <;> omega

theorem readPieces_cons (hw : total Entry.size w < 2 ^ 64) :
    readPieces maxSize (w :: ws) =
      if maxSize ≤ total Entry.size (w.take (fit Entry.size maxSize 0 w + 1)) then
        w.take (fit Entry.size maxSize 0 w + 1)
      else w.take (fit Entry.size maxSize 0 w + 1) ++ readPieces maxSize ws := by
  rw [readPieces, Segment.readLimited_eq (by omega), Nat.zero_add]
  simp only [remaining_eq_zero_iff]

/-- The contract leaves nothing out exactly when its prefix is long enough. -/
theorem sizePrefix_eq_self_iff {xs : List Entry} :
    sizePrefix maxSize xs = xs ↔ (sizePrefix maxSize xs).length = xs.length := by
  refine ⟨fun h => by rw [h], fun h => ?_⟩
  have heq : sizePrefix maxSize xs = xs.take (sizePrefix maxSize xs).length := keep_eq_take xs
  rw [heq, h, List.take_length]

/-- The limit is passed inside the first piece. -/
theorem Reads.inside (hw : total Entry.size w < 2 ^ 64) (hgt : maxSize < total Entry.size w) :
    Reads maxSize (w :: ws) (fit Entry.size maxSize 0 w + 1) := by
  obtain ⟨x, xs, rfl⟩ : ∃ x xs, w = x :: xs := by
    refine List.exists_cons_of_ne_nil fun h0 => ?_
    rw [h0, total_nil] at hgt
    omega
  have hfit : fit Entry.size maxSize 0 (x :: xs) < (x :: xs).length := by
    by_contra hge
    have hle := total_take_fit (w := Entry.size) (l := x :: xs) (Nat.zero_le maxSize)
    rw [List.take_of_length_le (Nat.le_of_not_lt hge)] at hle
    omega
  have hpass := lt_total_take_fit hfit
  have hlen : (x :: xs).length ≤ (x :: xs ++ ws.flatten).length := by simp
  have hread : readPieces maxSize ((x :: xs) :: ws) =
      (x :: xs ++ ws.flatten).take (fit Entry.size maxSize 0 (x :: xs) + 1) := by
    rw [readPieces_cons hw, if_pos (by omega), List.take_append_of_le_length hfit]
  by_cases hx : maxSize < x.size
  · -- the first entry alone passes it
    have hkeep : (sizePrefix maxSize (x :: xs ++ ws.flatten)).length =
        fit Entry.size maxSize 0 (x :: xs) + 1 := by
      rw [sizePrefix, List.cons_append, length_keep_of_lt hx, fit, if_pos (by omega)]
    refine ⟨hread, Nat.le_trans hfit hlen, Nat.le_of_eq hkeep, ?_⟩
    exact iff_of_true hkeep.symm (.inr (.inl fun e he => by cases he; exact hx))
  · have hkeep : (sizePrefix maxSize (x :: xs ++ ws.flatten)).length =
        fit Entry.size maxSize 0 (x :: xs) :=
      length_keep_append_of_lt (Nat.le_of_not_lt hx) hgt ws.flatten
    refine ⟨hread, Nat.le_trans hfit hlen, by rw [List.flatten_cons, hkeep]; omega, ?_⟩
    refine iff_of_false (by rw [List.flatten_cons, hkeep]; omega) ?_
    rintro (hall | hbig | ⟨y, hy, htotal⟩)
    · rw [sizePrefix_eq_self_iff, List.flatten_cons, hkeep] at hall
      omega
    · exact hx (hbig x rfl)
    · cases hy
      omega

/-- The first piece uses the limit up. -/
theorem Reads.exact (hne : w ≠ []) (hw : total Entry.size w < 2 ^ 64)
    (heq : total Entry.size w = maxSize) : Reads maxSize (w :: ws) w.length := by
  have hfit : fit Entry.size maxSize 0 w = w.length := fit_eq_length (by omega)
  have htake : w.take (w.length + 1) = w := List.take_of_length_le (Nat.le_succ _)
  have hkeep : (sizePrefix maxSize (w ++ ws.flatten)).length = w.length := by
    rw [sizePrefix, length_keep_append hne (by omega), fit_eq_zero size_pos (by omega), Nat.add_zero]
  refine ⟨?_, ?_, Nat.le_of_eq hkeep, iff_of_true hkeep.symm (.inr (.inr ⟨w, rfl, heq⟩))⟩
  · rw [readPieces_cons hw, hfit, htake, if_pos (by omega), List.flatten_cons, List.take_left]
  · rw [List.flatten_cons, List.length_append]
    omega

/-- With the full limit more is read than what fits when some of the limit is spent. -/
theorem Reads.lt_of_spent (h : Reads maxSize ws m) {n : Nat} (hpos : 0 < n) (hn : n < maxSize)
    (hlt : fit Entry.size maxSize n ws.flatten < ws.flatten.length) :
    fit Entry.size maxSize n ws.flatten < m := by
  by_contra hge
  have hanti := fit_anti (w := Entry.size) (m := maxSize) (Nat.zero_le n) ws.flatten
  have hkeep : fit Entry.size maxSize 0 ws.flatten ≤ (sizePrefix maxSize ws.flatten).length :=
    fit_le_length_keep _
  have hr := h.ge
  -- the reading stops where the contract does, and that cannot be
  rcases h.exact_iff.mp (by omega) with hall | hbig | ⟨w, hw, htotal⟩
  · rw [sizePrefix_eq_self_iff] at hall
    omega
  · obtain ⟨x, xs, hx⟩ := List.exists_cons_of_ne_nil
      (List.length_pos_iff.mp (show 0 < ws.flatten.length by omega))
    have hlarge := hbig x (by rw [hx]; rfl)
    have hone : (sizePrefix maxSize ws.flatten).length = 1 := by
      rw [hx]
      exact length_keep_of_lt hlarge xs
    have hzero : fit Entry.size maxSize 0 ws.flatten = 0 := by
      rw [hx, fit, if_pos (by omega)]
    omega
  · obtain ⟨ws', rfl⟩ : ∃ ws', ws = w :: ws' := List.head?_eq_some_iff.mp hw
    have hne : 1 ≤ w.length := by
      refine List.length_pos_iff.mpr fun h0 => ?_
      rw [h0, total_nil] at htotal
      omega
    have hlen : w.length ≤ (w :: ws').flatten.length := by
      rw [List.flatten_cons, List.length_append]
      omega
    have htake : (w :: ws').flatten.take w.length = w := by
      rw [List.flatten_cons, List.take_left]
    have hlong : w.length ≤ (sizePrefix maxSize (w :: ws').flatten).length :=
      (le_length_keep_iff hne hlen).mpr (.inr (by rw [htake]; omega))
    have hspent := total_take_fit (w := Entry.size) (l := (w :: ws').flatten) (Nat.le_of_lt hn)
    have hmono := total_take_mono Entry.size (w :: ws').flatten
      (show w.length ≤ fit Entry.size maxSize n (w :: ws').flatten by omega)
    rw [htake] at hmono
    omega

/-- The first piece leaves something of the limit. -/
theorem Reads.cons (hne : w ≠ []) (hw : total Entry.size w < 2 ^ 64)
    (hlt : total Entry.size w < maxSize) (h : Reads maxSize ws m) :
    Reads maxSize (w :: ws) (w.length + m) := by
  have hfit : fit Entry.size maxSize 0 w = w.length := fit_eq_length (by omega)
  have htake : w.take (w.length + 1) = w := List.take_of_length_le (Nat.le_succ _)
  have hkeep : (sizePrefix maxSize (w ++ ws.flatten)).length =
      w.length + fit Entry.size maxSize (total Entry.size w) ws.flatten :=
    length_keep_append hne (by omega) _
  have hanti : fit Entry.size maxSize (total Entry.size w) ws.flatten ≤
      (sizePrefix maxSize ws.flatten).length :=
    Nat.le_trans (fit_anti (Nat.zero_le _) _) (fit_le_length_keep _)
  have hle := h.le
  have hge := h.ge
  refine ⟨?_, ?_, ?_, ?_⟩
  · rw [readPieces_cons hw, hfit, htake, if_neg (by omega), h.eq, List.flatten_cons,
      List.take_length_add_append]
  · rw [List.flatten_cons, List.length_append]
    omega
  · rw [List.flatten_cons, hkeep]
    omega
  · have hpos : 0 < total Entry.size w := by
      obtain ⟨x, xs, rfl⟩ := List.exists_cons_of_ne_nil hne
      have := size_pos x
      rw [total_cons]
      omega
    have hlen := fit_le_length (w := Entry.size) (m := maxSize) (u := total Entry.size w) ws.flatten
    have hiff : StopsInTime maxSize (w :: ws) ↔
        fit Entry.size maxSize (total Entry.size w) ws.flatten = ws.flatten.length := by
      unfold StopsInTime
      rw [sizePrefix_eq_self_iff, List.flatten_cons, hkeep, List.length_append]
      refine ⟨?_, fun h => .inl (by omega)⟩
      rintro (hall | hbig | ⟨x, hx, htotal⟩)
      · omega
      · obtain ⟨x, xs, rfl⟩ := List.exists_cons_of_ne_nil hne
        have := hbig x rfl
        rw [total_cons] at hlt
        omega
      · cases hx
        omega
    rw [hiff, List.flatten_cons, hkeep]
    constructor
    · intro heq
      by_contra hshort
      have := h.lt_of_spent hpos hlt (by omega)
      omega
    · omega

/-- **Reading the pieces of a window.** -/
theorem exists_reads (maxSize : Nat) (h : ∀ w ∈ ws, w ≠ [] ∧ total Entry.size w < 2 ^ 64) :
    ∃ m, Reads maxSize ws m := by
  induction ws with
  | nil => exact ⟨0, rfl, Nat.le_refl 0, Nat.le_refl 0, by simp [StopsInTime, sizePrefix, keep]⟩
  | cons w ws ih =>
      obtain ⟨hne, hw⟩ := h w List.mem_cons_self
      obtain ⟨m, hm⟩ := ih fun x hx => h x (List.mem_cons_of_mem w hx)
      rcases Nat.lt_trichotomy (total Entry.size w) maxSize with hlt | heq | hgt
      · exact ⟨_, .cons hne hw hlt hm⟩
      · exact ⟨_, .exact hne hw heq⟩
      · exact ⟨_, .inside hw hgt⟩

end Pieces

end SegLog

namespace DiskStorage

/-! ## Cutting by the data -/

/-- The number of entries `cutRaftEntries` leaves. -/
def cutLength (maxSize : Nat) : List Entry → Nat
  | [] => 0
  | e :: es => 1 + cutLimit maxSize (dataLen e) es

section Cut
variable {maxSize : Nat} {xs : List Entry}

theorem cutLimit_le_length (maxSize size : Nat) (es : List Entry) :
    cutLimit maxSize size es ≤ es.length := by
  induction es generalizing size with
  | nil => exact Nat.le_refl 0
  | cons e es ih =>
      have := ih ((size + dataLen e) % 2 ^ 64)
      simp only [cutLimit, List.length_cons]
      split <;> omega

theorem cutLimit_take (size k : Nat) (es : List Entry) :
    cutLimit maxSize size (es.take k) = min k (cutLimit maxSize size es) := by
  induction es generalizing size k with
  | nil => simp [cutLimit]
  | cons e es ih =>
      cases k with
      | zero => simp [cutLimit]
      | succ k =>
          simp only [List.take_succ_cons, cutLimit, ih]
          split <;> omega

/-- One more entry is left when the data up to it, as the counter has it, is within the
limit. -/
theorem succ_le_cutLimit_iff {es : List Entry} {k n : Nat} (hk : k < es.length) :
    k + 1 ≤ cutLimit maxSize n es ↔ k ≤ cutLimit maxSize n es ∧
      (n + total dataLen (es.take (k + 1))) % 2 ^ 64 ≤ maxSize := by
  induction es generalizing k n with
  | nil => simp at hk
  | cons e es ih =>
      simp only [cutLimit, List.take_succ_cons, total_cons]
      cases k with
      | zero =>
          simp only [List.take_zero, total_nil, Nat.add_zero]
          split <;> omega
      | succ k =>
          have := ih (k := k) (n := (n + dataLen e) % 2 ^ 64)
            (by rw [List.length_cons] at hk; omega)
          rw [Nat.mod_add_mod, Nat.add_assoc] at this
          split <;> omega

theorem cutRaftEntries_take {n m : Nat} (h : Numbered Entry.index n xs) :
    cutRaftEntries (xs.take m) maxSize = .ok (xs.take (min m (cutLength maxSize xs))) := by
  cases xs with
  | nil => simp [cutRaftEntries]
  | cons e es =>
      cases m with
      | zero => simp [cutRaftEntries]
      | succ m =>
          have hcont := continuous_of_numbered (h.take (m + 1))
          rw [List.take_succ_cons] at hcont ⊢
          simp only [cutRaftEntries, hcont, if_true, cutLimit_take, cutLength]
          rw [← List.take_succ_cons, List.take_take]
          congr 2
          omega

/-- The data of entries is not more than their sizes. -/
theorem total_dataLen_le (es : List Entry) : total dataLen es ≤ total Entry.size es :=
  total_le_total dataLen_le_size es

/-- The cut by the data leaves what the contract does, or more. -/
theorem length_sizePrefix_le_cutLength (maxSize : Nat) (xs : List Entry) :
    (sizePrefix maxSize xs).length ≤ cutLength maxSize xs := by
  cases xs with
  | nil => exact Nat.le_refl 0
  | cons e es =>
      have hkept : (sizePrefix maxSize (e :: es)).length = 1 + fit Entry.size maxSize e.size es :=
        length_keep
      have hlen := fit_le_length (w := Entry.size) (m := maxSize) (u := e.size) es
      -- by induction on the entries kept: each of them is within the limit by its size already
      have hcut : ∀ k, k ≤ fit Entry.size maxSize e.size es →
          k ≤ cutLimit maxSize (dataLen e) es := by
        intro k
        induction k with
        | zero => exact fun _ => Nat.zero_le _
        | succ k ih =>
            intro hk
            refine (succ_le_cutLimit_iff (by omega)).mpr ⟨ih (by omega), ?_⟩
            have hfit := (le_fit_iff (Nat.le_add_left 1 k) (by omega)).mp hk
            have hdata := total_dataLen_le (es.take (k + 1))
            have hhead := dataLen_le_size e
            have := Nat.mod_le (dataLen e + total dataLen (es.take (k + 1))) (2 ^ 64)
            omega
      have := hcut _ (Nat.le_refl _)
      rw [hkept, cutLength]
      omega

/-- The cut by the data agrees with the contract exactly when nothing is left out or the
data of one entry more is above the limit too. -/
theorem cutLength_eq_iff (hne : xs ≠ []) :
    cutLength maxSize xs = (sizePrefix maxSize xs).length ↔ sizePrefix maxSize xs = xs ∨
      maxSize < total dataLen (xs.take ((sizePrefix maxSize xs).length + 1)) % 2 ^ 64 := by
  obtain ⟨e, es, rfl⟩ := List.exists_cons_of_ne_nil hne
  have hge := length_sizePrefix_le_cutLength maxSize (e :: es)
  have hle := cutLimit_le_length maxSize (dataLen e) es
  have hpos : 1 ≤ (sizePrefix maxSize (e :: es)).length := length_keep_pos hne
  have hlen : (sizePrefix maxSize (e :: es)).length ≤ (e :: es).length := length_keep_le _
  rw [SegLog.sizePrefix_eq_self_iff]
  generalize (sizePrefix maxSize (e :: es)).length = r at hge hpos hlen ⊢
  obtain ⟨k, rfl⟩ : ∃ k, r = k + 1 := ⟨r - 1, by omega⟩
  rw [cutLength] at hge ⊢
  rw [List.length_cons] at hlen ⊢
  by_cases hall : k = es.length
  · exact iff_of_true (by omega) (.inl (by omega))
  · have hstep : k + 1 ≤ cutLimit maxSize (dataLen e) es ↔ _ := succ_le_cutLimit_iff (by omega)
    rw [List.take_succ_cons, total_cons]
    omega

end Cut

/-! ## The window -/

section Window
variable {c : Config} {z : Bool} {s : DiskStorage} {v : SegLog} {lo hi maxSize : Nat}

theorem flatten_windows (lo last : Nat) (us : List SegView) :
    (us.map fun u => Numbered.window Entry.index lo last u.es).flatten =
      Numbered.window Entry.index lo last (us.flatMap SegView.es) := by
  induction us with
  | nil => rfl
  | cons u us ih =>
      rw [List.map_cons, List.flatten_cons, ih, List.flatMap_cons, Numbered.window_append]

/-- A segment that meets the window has entries in it. -/
theorem window_ne_nil {u : SegView} {last : Nat} (hu : u.es ≠ []) (hle : lo ≤ last)
    (h : Chunks.Meets SegView.first SegView.es lo last u) :
    Numbered.window Entry.index lo last u.es ≠ [] := by
  have hlt := u.first_lt_next hu
  have hnext : u.next = u.first + u.es.length := rfl
  obtain ⟨h1, h2⟩ := h
  have hbegin : u.first ≤ if u.first < lo then lo else u.first := by split <;> omega
  have hend : (if u.next - 1 < last then u.next - 1 else last) < u.next := by split <;> omega
  have hlen := Segment.window_length u hbegin (by split <;> split <;> omega) hend
  rw [window_clip] at hlen
  intro h0
  rw [h0, List.length_nil] at hlen
  split at hlen <;> split at hlen <;> omega

/-- The window of a log, one piece for each segment that meets it. -/
def pieces (v : SegLog) (lo last : Nat) : List (List Entry) :=
  (v.views.filter fun u => Chunks.Meets SegView.first SegView.es lo last u).map fun u =>
    Numbered.window Entry.index lo last u.es

theorem flatten_pieces (hwf : v.WF) (hlo : v.start ≤ lo) (hlt : lo < hi) :
    (pieces v lo (hi - 1)).flatten = v.log.slice lo hi := by
  rw [pieces, flatten_windows, window_filter_meets, show v.views.flatMap SegView.es = v.entries from rfl,
    hwf.numbered.window_eq hlo (by omega), PlainLog.slice, show hi - 1 + 1 - lo = hi - lo by omega]
  rfl

/-- The first piece is that of the segment which holds the lower end. -/
theorem head_pieces (hwf : v.WF) (hlo : v.start ≤ lo) (hlt : lo < hi) (hhi : hi ≤ v.next) :
    ∃ u ∈ v.views, Chunks.Covers SegView.first SegView.es lo u ∧
      (pieces v lo (hi - 1)).head? = some (Numbered.window Entry.index lo (hi - 1) u.es) := by
  have hnext := hwf.next_eq
  have hchain := hwf.chained
  obtain ⟨bs₁, x, cs₁, h₁, hx⟩ := hchain.exists_covers hlo
    (show lo < v.start + (v.views.flatMap SegView.es).length by unfold SegLog.entries at hnext; omega)
  obtain ⟨bs₂, y, cs₂, h₂, hy⟩ := hchain.exists_covers (show v.start ≤ hi - 1 by omega)
    (by unfold SegLog.entries at hnext; omega)
  have heq : bs₁ ++ x :: cs₁ = bs₂ ++ y :: cs₂ := h₁.symm.trans h₂
  rw [h₁] at hchain
  have hlen := hchain.length_le heq hx hy (by omega)
  refine ⟨x, by rw [h₁]; exact List.mem_append_right _ List.mem_cons_self, hx, ?_⟩
  rw [pieces, h₁, hchain.filter_meets heq hx hy (by omega), List.drop_left,
    show bs₂.length + 1 - bs₁.length = bs₂.length - bs₁.length + 1 by omega, List.take_succ_cons]
  rfl

/-- **What a limited read returns**: a prefix of the window, as far as both the reading of
the segments and the cut by the data go. -/
theorem Rep.entries_take (h : s.Rep c z v) (hwf : v.WF) (hfull : v.Full) (hlo : v.start ≤ lo)
    (hlt : lo < hi) (hhi : hi ≤ v.next) (maxSize : Nat) :
    ∃ m, SegLog.Reads maxSize (pieces v lo (hi - 1)) m ∧
      s.entries lo hi maxSize =
        .ok ((v.log.slice lo hi).take (min m (cutLength maxSize (v.log.slice lo hi)))) := by
  have hmax := Refines.next_le hfull
  have hbytes := Refines.bytes_le h.readable
  have hlast : (hi + (2 ^ 64 - 1)) % 2 ^ 64 = hi - 1 := by omega
  have hnum := hwf.numbered
  have hnext := hwf.next_eq
  have hflat := flatten_pieces hwf hlo hlt
  have hslice : Numbered Entry.index lo (v.log.slice lo hi) := by
    rw [← hflat, pieces, flatten_windows, window_filter_meets]
    exact hnum.numbered_window hlo (by omega) (by omega)
  have hpieces : ∀ w ∈ pieces v lo (hi - 1), w ≠ [] ∧ total Entry.size w < 2 ^ 64 := by
    intro w hw
    obtain ⟨u, hu, rfl⟩ := List.mem_map.mp hw
    obtain ⟨hmem, hmeets⟩ := List.mem_filter.mp hu
    refine ⟨window_ne_nil (hfull u hmem) (by omega) (of_decide_eq_true hmeets), ?_⟩
    have h1 := total_size_le (Numbered.window Entry.index lo (hi - 1) u.es)
    have h2 := length_encode_window_le lo (hi - 1) u.es
    have h3 := hbytes u hmem
    omega
  obtain ⟨m, hm⟩ := SegLog.exists_reads maxSize hpieces
  refine ⟨m, hm, ?_⟩
  rw [h.entries hwf hfull, SegLog.readEntries]
  simp only [hlast]
  rw [if_neg (by omega), if_neg (by omega), if_neg (by omega), SegLog.readViews_eq_readPieces]
  rw [show (List.map _ _) = pieces v lo (hi - 1) from rfl, hm.eq, hflat]
  exact cutRaftEntries_take hslice

/-- A storage whose last index is not 0 has no empty segment. -/
theorem Rep.full (h : s.Rep c z v) (hwf : v.WF) (hlast : s.lastIndex ≠ 0) : v.Full := by
  refine full_of_settled h hwf fun seg hseg h0 => hlast ?_
  rw [DiskStorage.lastIndex, Option.mem_def.mp hseg]
  exact h0

/-- A storage that a truncation left without entries. -/
theorem Rep.emptied (h : s.Rep c z v) (hwf : v.WF) (hlo : s.firstIndex ≤ lo) (hlt : lo < hi)
    (hhi : hi ≤ s.lastIndex + 1) (hlast : s.lastIndex = 0) :
    ∃ seg w, s.segments = [seg] ∧ seg.Writable c z w ∧ w.es = [] ∧ lo = 0 ∧ hi = 1 := by
  have hfirst : s.firstIndex = 0 := by omega
  cases v with
  | empty =>
      rw [DiskStorage.firstIndex, show s.segments = [] from h] at hfirst
      cases hfirst
  | segs d w =>
      obtain ⟨init, last, hs, hinit, hw⟩ := h
      cases hinit with
      | nil =>
          have hseg : s.firstIndex = last.firstIndex := by rw [DiskStorage.firstIndex, hs]; rfl
          refine ⟨last, w, hs, hw, ?_, by omega, by omega⟩
          by_contra hne
          have hpos := w.first_pos
          rw [hseg, hw.firstIndex, SegView.firstIndex_of_ne hne] at hfirst
          omega
      | @cons seg u _ _ hsealed _ =>
          have hpos := u.first_pos
          rw [DiskStorage.firstIndex, hs] at hfirst
          simp only [List.cons_append, List.head?_cons, hsealed.firstIndex] at hfirst
          omega

/-- Reading such a storage inside its bounds is a panic. -/
theorem entries_emptied {seg : Segment} {w : SegView} (hs : s.segments = [seg])
    (h : seg.Writable c z w) (h0 : w.es = []) (maxSize : Nat) :
    s.entries 0 1 maxSize = .error (.panic "index out of range") := by
  have hfirst : seg.firstIndex = 0 := by rw [h.firstIndex, SegView.firstIndex, if_pos h0]
  have hlast : seg.lastIndex = 0 := by rw [h.lastIndex, SegView.lastIndex, if_pos h0]
  have hpos := h.position_emptied h0 0
  rw [hfirst] at hpos
  have hread : seg.readRaftEntries 0 0 maxSize = .error (.panic "index out of range") := by
    rw [Segment.readRaftEntries, if_neg (by simp [h.status]), hfirst, hpos]
    rfl
  simp only [DiskStorage.entries, checkRaftIndex, DiskStorage.firstIndex, DiskStorage.lastIndex, hs,
    List.head?_cons, List.getLast?_singleton, hfirst, hlast, getReadSegments, scanSegments,
    List.length_singleton, Segment.contains]
  simp [bind, Except.bind, readSegments, hfirst, hlast, hread]

/-- The size limit gives what the contract says: nothing is left out, the first entry alone
passes the limit, the entries of the window in the first segment use it up exactly, or the
data of one entry more, as the 64 bit counter has it, passes it as well. -/
def LimitAgrees (v : SegLog) (lo hi maxSize : Nat) : Prop :=
  let es := v.log.slice lo hi
  sizePrefix maxSize es = es ∨ (∀ e ∈ es.head?, maxSize < e.size) ∨
    (∃ u ∈ v.views, Chunks.Covers SegView.first SegView.es lo u ∧
      total Entry.size (Numbered.window Entry.index lo (hi - 1) u.es) = maxSize) ∨
    maxSize < total dataLen (es.take ((sizePrefix maxSize es).length + 1)) % 2 ^ 64

theorem stopsInTime_pieces (hwf : v.WF) (hlo : v.start ≤ lo) (hlt : lo < hi) (hhi : hi ≤ v.next) :
    SegLog.StopsInTime maxSize (pieces v lo (hi - 1)) ↔
      sizePrefix maxSize (v.log.slice lo hi) = v.log.slice lo hi ∨
      (∀ e ∈ (v.log.slice lo hi).head?, maxSize < e.size) ∨
      ∃ u ∈ v.views, Chunks.Covers SegView.first SegView.es lo u ∧
        total Entry.size (Numbered.window Entry.index lo (hi - 1) u.es) = maxSize := by
  obtain ⟨u, hu, hcov, hhead⟩ := head_pieces hwf hlo hlt hhi
  unfold SegLog.StopsInTime
  rw [flatten_pieces hwf hlo hlt, hhead]
  refine or_congr_right (or_congr_right ?_)
  constructor
  · rintro ⟨w, hw, htotal⟩
    cases hw
    exact ⟨u, hu, hcov, htotal⟩
  · rintro ⟨x, hx, hcov', htotal⟩
    rw [hwf.chained.covers_unique hx hu hcov' hcov] at htotal
    exact ⟨_, rfl, htotal⟩

/-- **The size limit and its contract.**  For every log, every placement of the segment
boundaries and every window inside the log. -/
theorem entries_eq_sizePrefix_iff (h : s.Rep c z v) (hwf : v.WF) (hlo : s.firstIndex ≤ lo)
    (hlt : lo < hi) (hhi : hi ≤ s.lastIndex + 1) (maxSize : Nat) :
    s.entries lo hi maxSize = .ok (sizePrefix maxSize (v.log.slice lo hi)) ↔
      s.lastIndex ≠ 0 ∧ LimitAgrees v lo hi maxSize := by
  by_cases hlast : s.lastIndex = 0
  · obtain ⟨seg, w, hs, hw, h0, rfl, rfl⟩ := h.emptied hwf hlo hlt hhi hlast
    rw [entries_emptied hs hw h0]
    simp [hlast]
  have hfull := h.full hwf hlast
  rw [h.firstIndex hfull] at hlo
  rw [h.lastIndex hfull] at hhi hlast
  obtain ⟨m, hm, heq⟩ := h.entries_take hwf hfull hlo hlt (by omega) maxSize
  have hflat := flatten_pieces hwf hlo hlt
  have hne : v.log.slice lo hi ≠ [] := by
    intro h0
    have hlen := congrArg List.length h0
    have hnext := hwf.next_eq
    rw [PlainLog.slice, List.length_take, List.length_drop, List.length_nil,
      show v.log.entries = v.entries from rfl, show v.log.first = v.start from rfl] at hlen
    omega
  have hcut := length_sizePrefix_le_cutLength maxSize (v.log.slice lo hi)
  have hread := hm.ge
  have hstop := hm.exact_iff
  have hle := hm.le
  rw [stopsInTime_pieces hwf hlo hlt (by omega)] at hstop
  rw [hflat] at hread hstop hle
  have hlen : (sizePrefix maxSize (v.log.slice lo hi)).length ≤ (v.log.slice lo hi).length :=
    length_keep_le _
  have hkeep : sizePrefix maxSize (v.log.slice lo hi) = (v.log.slice lo hi).take
      (sizePrefix maxSize (v.log.slice lo hi)).length := keep_eq_take _
  -- both cuts leave at least the contract's prefix, so one of the two is exact
  have hmin : s.entries lo hi maxSize = .ok (sizePrefix maxSize (v.log.slice lo hi)) ↔
      m = (sizePrefix maxSize (v.log.slice lo hi)).length ∨
        cutLength maxSize (v.log.slice lo hi) = (sizePrefix maxSize (v.log.slice lo hi)).length := by
    rw [heq, Except.ok.injEq]
    conv_lhs => rw [hkeep, List.take_eq_take_iff]
    omega
  rw [hmin, hstop, cutLength_eq_iff hne, and_iff_right (by rw [h.lastIndex hfull]; exact hlast)]
  constructor
  · rintro ((hall | hbig | hexact) | hall | hdata)
    exacts [.inl hall, .inr (.inl hbig), .inr (.inr (.inl hexact)), .inl hall,
      .inr (.inr (.inr hdata))]
  · rintro (hall | hbig | hexact | hdata)
    exacts [.inl (.inl hall), .inl (.inr (.inl hbig)), .inl (.inr (.inr hexact)),
      .inr (.inr hdata)]

end Window

/-- A limit that leaves all three entries of two segments. -/
theorem entries_eq_sizePrefix_smallRolled :
    ∃ v, smallRolled.Rep .small false v ∧ v.WF ∧
      smallRolled.entries 1 4 27 = .ok (sizePrefix 27 (v.log.slice 1 4)) := by
  obtain ⟨v, hrep, hwf⟩ := smallRolled_reachable.rep
  have hfull := hrep.full hwf (by decide +kernel)
  have hslice : v.log.slice 1 4 = [small11, small12, small13] := by
    have hread : smallRolled.entries 1 4 noLimit = .ok (v.log.slice 1 4) :=
      Refines.entries_slice hrep hwf hfull (by decide +kernel) (by decide) (by decide +kernel)
    rw [show smallRolled.entries 1 4 noLimit = .ok [small11, small12, small13] by decide +kernel]
      at hread
    exact (Except.ok.inj hread).symm
  refine ⟨v, hrep, hwf, ?_⟩
  refine (entries_eq_sizePrefix_iff hrep hwf (by decide +kernel) (by decide) (by decide +kernel)
    27).mpr ⟨by decide +kernel, .inl ?_⟩
  rw [hslice]
  decide +kernel

/-- **The limit is not kept**: two entries fill the first segment and leave two bytes of the
limit, but the second segment is read with the full limit again. -/
theorem entries_exceeds_limit :
    Reachable .small smallRolled ∧
      smallRolled.entries 1 4 noLimit = .ok [small11, small12, small13] ∧
      sizePrefix 20 [small11, small12, small13] = [small11, small12] ∧
      smallRolled.entries 1 4 20 = .ok [small11, small12, small13] :=
  ⟨smallRolled_reachable, by decide +kernel, by decide +kernel, by decide +kernel⟩

end DiskStorage

end Kingbus
