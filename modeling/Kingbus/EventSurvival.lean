import Kingbus.BinlogProgress

/-! # Which events a node survives

`updateProcess` compares the length of what it is given with the length in the header,
also when it is given the first part of a divided event.  So the first part of a long
event is an error, on which the node ends.  The one length that is divided and still has
all of the event in the first part is `MaxPayloadLen - 1`; its second part is empty, and
for the types that are decoded the slices of an empty part are out of range. -/

namespace Kingbus

/-! ## Headers -/

theorem leAt_take {d : Bytes} {p n k : Nat} (h : p + n ≤ k) :
    leAt (d.take k) p n = leAt d p n := by
  rw [leAt, leAt, List.drop_take, List.take_take, Nat.min_eq_left (by omega)]

theorem EventHeader.read_take {d : Bytes} {k : Nat} (h : eventHeaderSize ≤ k) :
    EventHeader.read (d.take k) = EventHeader.read d := by
  unfold eventHeaderSize at h
  have htype : (d.take k).getD 4 0 = d.getD 4 0 := by
    rw [List.getD_eq_getElem?_getD, List.getD_eq_getElem?_getD, List.getElem?_take_of_lt (by omega)]
  have hn : ∀ {p n : Nat}, p + n ≤ 19 → leAt (d.take k) p n = leAt d p n :=
    fun hp => leAt_take (by omega)
  simp only [EventHeader.read, htype, hn (p := 0) (n := 4) (by decide),
    hn (p := 5) (n := 4) (by decide), hn (p := 9) (n := 4) (by decide),
    hn (p := 13) (n := 4) (by decide), hn (p := 17) (n := 2) (by decide)]

/-! ## Parts -/

namespace MasterEvent
variable {event : MasterEvent}

/-- The parts of a divided event, with the data of the first one. -/
theorem divideBinlogEvent_head (h : ¬ event.Fits) :
    ∃ ds, event.divideBinlogEvent =
        .ok (event.partsFrom 0 (event.rawData.take (maxPayloadLen - 1) :: ds)) ∧
      (0 :: event.rawData.take (maxPayloadLen - 1)) :: ds =
        Packets.cut maxPayloadLen event.dividedCount (0 :: event.rawData) := by
  obtain ⟨d, ds, hdivide, hcut⟩ := event.divideBinlogEvent_eq (not_fits h).1
  have hd : d = event.rawData.take (maxPayloadLen - 1) := by
    cases hn : event.dividedCount with
    | zero => rw [hn] at hcut; cases hcut
    | succ n =>
        rw [hn, Packets.cut, List.take_cons maxPayloadLen_pos] at hcut
        exact (List.cons.inj (List.cons.inj hcut).1).2
  exact ⟨ds, hd ▸ hdivide, hd ▸ hcut⟩

/-- An event of `MaxPayloadLen - 1` bytes is all in its first part, and a second part is
empty. -/
theorem proposeBinlogEvent_exact (flavor : Flavor)
    (hlen : event.rawData.length + 1 = maxPayloadLen) :
    event.proposeBinlogEvent flavor =
      .ok [event.part 2 0 event.rawData, event.part 2 1 []] := by
  have hfits : ¬ event.Fits := by
    rw [MasterEvent.Fits, ← event.size_eq, okHeaderByte, hlen]
    decide
  have hcount : event.dividedCount = 2 := by
    have hmod : event.rawData.length % maxPayloadLen ≠ 0 := by
      rw [Nat.mod_eq_of_lt (by omega)]
      intro h0
      rw [h0] at hlen
      exact absurd hlen (by decide)
    rw [MasterEvent.dividedCount, okHeaderByte, hlen, if_pos hmod, Nat.div_self maxPayloadLen_pos]
  have htake : event.rawData.take (maxPayloadLen - 1) = event.rawData :=
    List.take_of_length_le (by omega)
  obtain ⟨ds, hdivide, hcut⟩ := divideBinlogEvent_head hfits
  have hds : ds = [[]] := by
    rw [hcount, Packets.cut, Packets.cut, Packets.cut,
      List.drop_of_length_le (by rw [List.length_cons]; omega), List.take_nil] at hcut
    exact (List.cons.inj hcut).2
  rw [proposeBinlogEvent, if_neg hfits, hdivide, htake, hds, partsFrom, partsFrom, partsFrom, hcount]

end MasterEvent

namespace ParsedEvent
variable (event : ParsedEvent) (flavor : Flavor) {s : KingbusServer} {elapsed : Bool} {i : Nat}

theorem ofByte_toByte : EventType.ofByte (UInt8.ofNat event.eventType.toByte.toNat) =
    event.eventType := by
  rw [eventType, event.header_eq, EventHeader.read, EventType.toByte_ofByte, UInt8.ofNat_toNat]

theorem whole_undivided : event.Whole (event.undivided flavor) :=
  ⟨.inl rfl, rfl, event.ofByte_toByte⟩

theorem part_dividedCount {n : Nat} (h : n < 2 ^ 32) (k : Nat) (d : Bytes) :
    (event.part n k d).dividedCount = n := Nat.mod_eq_of_lt h

/-- The first part when it holds all of the event. -/
theorem whole_part {n : Nat} (h : n < 2 ^ 32) (h0 : n ≠ 0) :
    event.Whole (event.part n 0 event.rawData) :=
  ⟨.inr ⟨(event.part_dividedCount h 0 _).symm ▸ h0, rfl⟩, rfl, event.ofByte_toByte⟩

/-- A first part that is shorter than the event. -/
theorem updateProcess_short {k : Nat} (hk : eventHeaderSize ≤ k)
    (hlt : k < event.rawData.length) :
    s.updateProcess elapsed i (event.rawData.take k) =
      .error (.error "invalid data size %d in event %s, less event length %d") := by
  have hlen : (event.rawData.take k).length = k := List.length_take_of_le (Nat.le_of_lt hlt)
  have hsize := event.size_eq
  have hdecode : EventHeader.decode (event.rawData.take k) = .ok event.header := by
    rw [EventHeader.decode, EventHeader.read_take hk, ← event.header_eq, hlen,
      if_neg (Nat.not_lt.mpr hk), if_neg (by omega)]
  rw [KingbusServer.updateProcess, hdecode]
  refine if_pos ?_
  rw [hlen]
  omega

theorem applyStored_short {n k : Nat} (hk : eventHeaderSize ≤ k)
    (hlt : k < event.rawData.length) :
    s.applyStored elapsed i (event.part n 0 (event.rawData.take k)) =
      .error (.fatal "resetBinlogProgress error,err:%s,eventType:%v,data:%v") := by
  rw [KingbusServer.applyStored,
    if_pos ((Nat.eq_zero_or_pos _).imp id fun h => ⟨Nat.pos_iff_ne_zero.mp h, rfl⟩)]
  change (KingbusServer.fatalOn _ (s.updateProcess elapsed i (event.rawData.take k))).bind _ = _
  rw [event.updateProcess_short hk hlt]
  rfl

/-- The types whose empty second part cannot be sliced. -/
def sliced (t : EventType) : Bool := t = .gtid ∨ t = .rotate ∨ t = .previousGtids

/-- The second part, when it is empty and of a type that is not sliced: that of a
`FORMAT_DESCRIPTION` event writes a key of its own. -/
def withEmptyPart (event : ParsedEvent) (s : KingbusServer) (raftIndex : Nat) : KingbusServer :=
  if event.eventType = .formatDescription then
    { s with store := { s.store with fde := Table.put raftIndex [] s.store.fde } }
  else s

/-- An empty second part. -/
theorem applyStored_empty (s : KingbusServer) (elapsed : Bool) (i : Nat) {n : Nat}
    (h : n < 2 ^ 32) (h0 : n ≠ 0) :
    s.applyStored elapsed i (event.part n 1 []) =
      if sliced event.eventType then .error outOfRange else .ok (event.withEmptyPart s i) := by
  have hlater : ¬ ((event.part n 1 []).dividedCount = 0 ∨
      ((event.part n 1 []).dividedCount ≠ 0 ∧ (event.part n 1 []).dividedSeqNum = 0)) := by
    rintro (h1 | ⟨-, h1⟩)
    · exact h0 (event.part_dividedCount h 1 [] ▸ h1)
    · cases h1
  have htype : (event.part n 1 []).eventType = event.eventType := event.ofByte_toByte
  rw [KingbusServer.applyStored, if_neg hlater, htype, withEmptyPart]
  change (if KingbusServer.needApply event.eventType = true then
    KingbusServer.fatalOn _ (s.applyBinlogEvent [] event.eventType i) else .ok s) = _
  by_cases hn : KingbusServer.needApply event.eventType = true
  · rw [if_pos hn]
    rcases KingbusServer.needApply_iff.mp hn with ht | ht | ht | ht <;> rw [ht] <;> rfl
  · rw [if_neg hn]
    rw [KingbusServer.needApply_iff, not_or, not_or, not_or] at hn
    obtain ⟨h1, h2, h3, h4⟩ := hn
    have hsliced : sliced event.eventType = false := decide_eq_false (by tauto)
    rw [hsliced, if_neg Bool.false_ne_true, if_neg h2]

/-! ## The entries of an event -/

theorem applyBinlogEntries_cons {clock : Nat → Bool} {e : BinlogEvent} {d : Bytes}
    (hd : e.data = some d) (h : d.length < 2 ^ 62) (ds : List Bytes) :
    s.applyBinlogEntries clock i (e.encode :: ds) =
      (s.applyStored (clock i) i e).bind fun s => s.applyBinlogEntries clock (i + 1) ds := by
  rw [KingbusServer.applyBinlogEntries, KingbusServer.applyMySQLBinlogEvent,
    BinlogEvent.decode_encode hd h]
  rfl

theorem bind_ok {ε α : Type} (x : Except ε α) : x.bind .ok = x := by
  cases x <;> rfl

variable {event} (clock : Nat → Bool)

/-- An event that fits in one packet is one entry. -/
theorem applyTo_of_fits (h : event.Fits) :
    event.applyTo flavor clock s i = s.applyStored (clock i) i (event.undivided flavor) := by
  rw [MasterEvent.applyTo, MasterEvent.proposeBinlogEvent, if_pos h]
  change s.applyBinlogEntries clock i [(event.undivided flavor).encode] = _
  rw [applyBinlogEntries_cons rfl (Nat.lt_trans event.rawData_length_lt (by decide))]
  exact bind_ok _

/-- The first entry of a divided event. -/
theorem applyTo_divided (h : ¬ event.Fits) :
    ∃ ds, event.applyTo flavor clock s i =
      ((s.applyStored (clock i) i (event.part event.dividedCount 0
        (event.rawData.take (maxPayloadLen - 1)))).bind fun s =>
          s.applyBinlogEntries clock (i + 1) ((event.partsFrom 1 ds).map BinlogEvent.encode)) := by
  obtain ⟨ds, hdivide, -⟩ := MasterEvent.divideBinlogEvent_head h
  refine ⟨ds, ?_⟩
  rw [MasterEvent.applyTo, MasterEvent.proposeBinlogEvent, if_neg h, hdivide]
  change s.applyBinlogEntries clock i ((event.part event.dividedCount 0
    (event.rawData.take (maxPayloadLen - 1))).encode :: _) = _
  exact applyBinlogEntries_cons rfl (Nat.lt_of_le_of_lt (List.length_take_le _ _) (by decide)) _

/-- A longer event ends the node at its first part. -/
theorem applyTo_long (h : ¬ event.Fits) (hlen : event.rawData.length + 1 ≠ maxPayloadLen) :
    event.applyTo flavor clock s i =
      .error (.fatal "resetBinlogProgress error,err:%s,eventType:%v,data:%v") := by
  obtain ⟨ds, happly⟩ := applyTo_divided flavor clock (s := s) (i := i) h
  have hle := (MasterEvent.not_fits h).1
  have hpos := maxPayloadLen_pos
  rw [happly, event.applyStored_short (by decide) (by omega)]
  rfl

/-- The two entries of an event of `MaxPayloadLen - 1` bytes. -/
theorem applyTo_exact (hlen : event.rawData.length + 1 = maxPayloadLen) :
    event.applyTo flavor clock s i =
      (s.applyStored (clock i) i (event.part 2 0 event.rawData)).bind fun s =>
        s.applyStored (clock (i + 1)) (i + 1) (event.part 2 1 []) := by
  rw [MasterEvent.applyTo, MasterEvent.proposeBinlogEvent_exact flavor hlen]
  change s.applyBinlogEntries clock i ((event.part 2 0 event.rawData).encode ::
    [(event.part 2 1 []).encode]) = _
  rw [applyBinlogEntries_cons rfl (Nat.lt_trans event.rawData_length_lt (by decide))]
  congr 1
  funext s
  rw [applyBinlogEntries_cons rfl (by decide)]
  exact bind_ok _

/-- The lengths and types whose entries are all taken. -/
def Taken (event : ParsedEvent) : Prop :=
  event.Fits ∨ (event.rawData.length + 1 = maxPayloadLen ∧ sliced event.eventType = false)

instance : Decidable event.Taken := inferInstanceAs (Decidable (_ ∨ _))

/-- What an event does to a replica: `updateProcess`, then what it writes, then perhaps an
empty second part. -/
inductive Applied (event : ParsedEvent) (clock : Nat → Bool) (i : Nat) (s : KingbusServer) :
    KingbusServer → Prop
  | one {r : TrxProgress × Bool} {s' : KingbusServer}
      (hobs : s.binlogProgress.observe event.boundary = .ok r)
      (hw : (s.saveProgress i (clock i) r.1 r.2 event.header.logPos).Writes i event s') :
      Applied event clock i s s'
  | two {r : TrxProgress × Bool} {s₁ : KingbusServer}
      (hobs : s.binlogProgress.observe event.boundary = .ok r)
      (hw : (s.saveProgress i (clock i) r.1 r.2 event.header.logPos).Writes i event s₁)
      (hsliced : sliced event.eventType = false) :
      Applied event clock i s (event.withEmptyPart s₁ (i + 1))

/-- An event that is taken is applied. -/
theorem applyTo_ok (h : event.Taken) {r : TrxProgress × Bool}
    (hobs : s.binlogProgress.observe event.boundary = .ok r) :
    ∃ s', event.applyTo flavor clock s i = .ok s' ∧ event.Applied clock i s s' := by
  rcases h with hfits | ⟨hlen, hsliced⟩
  · rw [applyTo_of_fits flavor clock hfits]
    obtain ⟨s₁, hs₁, hw⟩ := (event.whole_undivided flavor).applyStored_ok (i := i) hobs
    exact ⟨s₁, hs₁, .one hobs hw⟩
  · obtain ⟨s₁, hs₁, hw⟩ : ∃ s₁,
        s.applyStored (clock i) i (event.part 2 0 event.rawData) = .ok s₁ ∧ _ :=
      (event.whole_part (n := 2) (by decide) (by decide)).applyStored_ok hobs
    refine ⟨event.withEmptyPart s₁ (i + 1), ?_, .two hobs hw hsliced⟩
    rw [applyTo_exact flavor clock hlen, hs₁]
    change s₁.applyStored (clock (i + 1)) (i + 1) (event.part 2 1 []) = _
    rw [event.applyStored_empty _ _ _ (by decide) (by decide), hsliced]
    rfl

/-- An event that is not taken ends the node. -/
theorem applyTo_not_taken (h : ¬ event.Taken) :
    ∃ f, event.applyTo flavor clock s i = .error f := by
  rw [Taken, not_or, not_and, Bool.not_eq_false] at h
  obtain ⟨hfits, hsliced⟩ := h
  by_cases hlen : event.rawData.length + 1 = maxPayloadLen
  · rw [applyTo_exact flavor clock hlen]
    cases hfirst : s.applyStored (clock i) i (event.part 2 0 event.rawData) with
    | error f => exact ⟨f, rfl⟩
    | ok s₁ =>
        refine ⟨outOfRange, ?_⟩
        change s₁.applyStored (clock (i + 1)) (i + 1) (event.part 2 1 []) = _
        rw [event.applyStored_empty _ _ _ (by decide) (by decide), hsliced hlen]
        rfl
  · exact ⟨_, applyTo_long flavor clock hfits hlen⟩

/-- A GTID that `Update` refuses ends the node when it is to be recorded. -/
theorem applyTo_observe_error {text : String}
    (hobs : s.binlogProgress.observe event.boundary = .error (.error text)) :
    ∃ f, event.applyTo flavor clock s i = .error f := by
  by_cases hfits : event.Fits
  · rw [applyTo_of_fits flavor clock hfits]
    exact ⟨_, (event.whole_undivided flavor).applyStored_error hobs⟩
  · by_cases hlen : event.rawData.length + 1 = maxPayloadLen
    · rw [applyTo_exact flavor clock hlen,
        (event.whole_part (n := 2) (by decide) (by decide)).applyStored_error hobs]
      exact ⟨_, rfl⟩
    · exact ⟨_, applyTo_long flavor clock hfits hlen⟩

variable {flavor clock} {s' : KingbusServer}

/-- Whatever was applied was taken. -/
theorem of_applyTo (hok : event.applyTo flavor clock s i = .ok s') :
    event.Taken ∧ event.Applied clock i s s' := by
  have htaken : event.Taken := by
    by_contra h
    obtain ⟨f, hf⟩ := applyTo_not_taken flavor clock (s := s) (i := i) h
    rw [hok] at hf
    cases hf
  by_cases hall : ∀ g, s.binlogProgress.Due event.boundary g → Storable g.gno
  · obtain ⟨r, hr, -⟩ := TrxProgress.observe_ok hall
    obtain ⟨s'', hs'', happlied⟩ := applyTo_ok flavor clock (i := i) htaken hr
    rw [hok] at hs''
    cases hs''
    exact ⟨htaken, happlied⟩
  · push Not at hall
    obtain ⟨g, hdue, hs⟩ := hall
    obtain ⟨text, ht⟩ := TrxProgress.observe_error hdue hs
    obtain ⟨f, hf⟩ := applyTo_observe_error flavor clock (i := i) ht
    rw [hok] at hf
    cases hf

theorem Applied.observe (h : event.Applied clock i s s') :
    ∃ r, s.binlogProgress.observe event.boundary = .ok r := by
  cases h with
  | one hobs _ => exact ⟨_, hobs⟩
  | two hobs _ _ => exact ⟨_, hobs⟩

/-- **Which events a node survives**: those whose entries are all taken, unless they end
a transaction whose number cannot be recorded. -/
theorem node_survives_iff (event : ParsedEvent) (flavor : Flavor) (clock : Nat → Bool)
    (s : KingbusServer) (i : Nat) :
    (∃ s', event.applyTo flavor clock s i = .ok s') ↔
      (event.Fits ∨ (event.rawData.length + 1 = maxPayloadLen ∧ event.eventType ≠ .gtid ∧
        event.eventType ≠ .rotate ∧ event.eventType ≠ .previousGtids)) ∧
      ∀ g, s.binlogProgress.Due event.boundary g → Storable g.gno := by
  have htaken : (event.Fits ∨ (event.rawData.length + 1 = maxPayloadLen ∧
      event.eventType ≠ .gtid ∧ event.eventType ≠ .rotate ∧
      event.eventType ≠ .previousGtids)) ↔ event.Taken := by
    rw [Taken, sliced, decide_eq_false_iff_not, not_or, not_or]
  rw [htaken, ← TrxProgress.observe_ok_iff]
  constructor
  · rintro ⟨s', hs'⟩
    obtain ⟨ht, happlied⟩ := of_applyTo hs'
    exact ⟨ht, happlied.observe⟩
  · rintro ⟨ht, r, hr⟩
    obtain ⟨s', hs', -⟩ := applyTo_ok flavor clock (i := i) ht hr
    exact ⟨s', hs'⟩

end ParsedEvent

/-! ## A long event -/

/-- The header of an event that is built from type and body is that of its bytes. -/
theorem MasterEvent.header_of {t : EventType} {body : Bytes}
    (h : eventHeaderSize + body.length < 2 ^ 32) (ht : EventType.ofByte t.toByte = t) :
    (MasterEvent.of t body h).header = .read (MasterEvent.of t body h).rawData := by
  have hsize : leAt (MasterEvent.of t body h).rawData 9 4 = eventHeaderSize + body.length := by
    change Bytes.leNat (Bytes.leBytes 4 (eventHeaderSize + body.length)) = _
    exact Bytes.leNat_leBytes_of_lt h
  have htype : EventType.ofByte ((MasterEvent.of t body h).rawData.getD 4 0) = t := ht
  simp only [EventHeader.read, hsize, htype]
  rfl

/-- A well-formed event of the given type and content, with four bytes in the place of
the checksum. -/
def ParsedEvent.of (t : EventType) (content : Bytes)
    (h : eventHeaderSize + (content ++ Bytes.zeros 4).length < 2 ^ 32 := by decide)
    (ht : EventType.ofByte t.toByte = t := by decide)
    (hd : bodyDecodes t content = true := by decide +kernel) : ParsedEvent where
  toMasterEvent := .of t (content ++ Bytes.zeros 4) h
  header_eq := MasterEvent.header_of h ht
  checksum_le := by
    rw [MasterEvent.length_of, List.length_append, Bytes.length_zeros]
    exact Nat.add_le_add_left (Nat.le_add_left _ _) _
  decodes := by
    have hbody : (MasterEvent.of t (content ++ Bytes.zeros 4) h).body = content := by
      rw [MasterEvent.body, MasterEvent.length_of, Nat.add_sub_cancel_left, List.length_append,
        Bytes.length_zeros, binlogChecksumLength, Nat.add_sub_cancel]
      exact List.take_left
    rw [hbody]
    exact hd

/-- A rows event that is longer than a packet. -/
@[irreducible] def longRowsEvent : ParsedEvent :=
  .of .writeRowsV2 (Bytes.zeros maxPayloadLen)
    (by rw [List.length_append, Bytes.length_zeros, Bytes.length_zeros]; decide) rfl rfl

/-- **A long rows event ends a node that applies it.** -/
theorem longRowsEvent_kills :
    longRowsEvent.applyTo .mySQL (fun _ => false) (.start .fresh) 1 =
      .error (.fatal "resetBinlogProgress error,err:%s,eventType:%v,data:%v") := by
  have hlen : longRowsEvent.rawData.length = eventHeaderSize + (maxPayloadLen + 4) := by
    unfold longRowsEvent
    exact (MasterEvent.length_of _).trans
      (by rw [List.length_append, Bytes.length_zeros, Bytes.length_zeros])
  have hfits : ¬ longRowsEvent.Fits := by
    rw [MasterEvent.Fits, ← longRowsEvent.size_eq, hlen]
    decide
  refine ParsedEvent.applyTo_long _ _ hfits ?_
  rw [hlen]
  decide

end Kingbus
