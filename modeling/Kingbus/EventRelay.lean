import Kingbus.Lib.Packets
import Kingbus.BinlogEvent

/-! # An event on its way from the master to a slave

`Syncer.proposeBinlogEvent` turns an event of the master into one storage event or
into several parts, each goes into a raft entry, and the dump loop of
`handleBinlogDumpGtid` writes each as a packet.  The slave puts the packets
together again.

The number of parts is counted from the length with the OK byte but the remainder
is tested without it, so when the length is a multiple of `MaxPayloadLen` the last
byte is in no part.  All other lengths come through, up to the one where the
`uint32` of length and OK byte wraps around. -/

namespace Kingbus

/-- `MaxPayloadLen`. -/
def maxPayloadLen : Nat := 2 ^ 24 - 1

/-- `OKHeaderByte`. -/
def okHeaderByte : Nat := 1

/-- The configured flavor of a syncer. -/
inductive Flavor where
  | mySQL
  | mariaDB
  deriving DecidableEq, Repr

/-! ## The syncer -/

/-- `storagepb.FlavorType` of an undivided event. -/
def Flavor.flavorType : Flavor → Nat
  | mySQL => 0
  | mariaDB => 1

theorem Flavor.flavorType_lt (f : Flavor) : f.flavorType < 2 ^ 32 := by
  cases f <;> decide

theorem EventType.toNat_toByte_lt (t : EventType) : t.toByte.toNat < 2 ^ 32 :=
  Nat.lt_trans t.toByte.toNat_lt (by decide)

/-- `RawData[pos:pos+maxEventDataSize]`, or `RawData[pos:]` at the end. -/
def partData (rawData : Bytes) (pos maxEventDataSize : Nat) : Except EventFailure Bytes :=
  if pos + maxEventDataSize < rawData.length then
    .ok ((rawData.drop pos).take maxEventDataSize)
  else if pos ≤ rawData.length then .ok (rawData.drop pos)
  else .error (.panic "slice bounds out of range")

namespace MasterEvent

/-- Part `i` of a divided event.  The flavor is `FlavorType_MySQL` for every
configuration. -/
def part (event : MasterEvent) (dividedCount i : Nat) (data : Bytes) : BinlogEvent where
  type := event.header.eventType.toByte.toNat
  flavor := Flavor.mySQL.flavorType
  dividedCount := dividedCount % 2 ^ 32
  dividedSeqNum := i % 2 ^ 32
  data := some data
  type_lt := EventType.toNat_toByte_lt _
  dividedCount_lt := mod_uint32_lt dividedCount
  dividedSeqNum_lt := mod_uint32_lt i

/-- The number of parts `divideBinlogEvent` makes. -/
def dividedCount (event : MasterEvent) : Nat :=
  (event.rawData.length + okHeaderByte) / maxPayloadLen +
    if event.rawData.length % maxPayloadLen ≠ 0 then 1 else 0

/-- The loop of `divideBinlogEvent`, with the number of rounds that are left. -/
def divideLoop (event : MasterEvent) :
    Nat → Nat → Nat → Except EventFailure (List BinlogEvent)
  | 0, _, _ => .ok []
  | n + 1, i, pos =>
      -- the first part leaves room for the OK byte
      let maxEventDataSize := if i = 0 then maxPayloadLen - 1 else maxPayloadLen
      (partData event.rawData pos maxEventDataSize).bind fun data =>
        (event.divideLoop n (i + 1) (pos + maxEventDataSize)).map
          (event.part event.dividedCount i data :: ·)

/-- `Syncer.divideBinlogEvent`. -/
def divideBinlogEvent (event : MasterEvent) : Except EventFailure (List BinlogEvent) :=
  event.divideLoop event.dividedCount 0 0

/-- The storage event of an event that is not divided. -/
def undivided (flavor : Flavor) (event : MasterEvent) : BinlogEvent where
  type := event.header.eventType.toByte.toNat
  flavor := flavor.flavorType
  dividedCount := 0
  dividedSeqNum := 0
  data := some event.rawData
  type_lt := EventType.toNat_toByte_lt _
  flavor_lt := flavor.flavorType_lt
  dividedCount_lt := zero_lt_uint32
  dividedSeqNum_lt := zero_lt_uint32

/-- The event fits in one packet, as `proposeBinlogEvent` computes it: in 32 bits. -/
def Fits (event : MasterEvent) : Prop :=
  (event.header.eventSize + okHeaderByte) % 2 ^ 32 < maxPayloadLen

instance (event : MasterEvent) : Decidable event.Fits := inferInstanceAs (Decidable (_ < _))

/-- `Syncer.proposeBinlogEvent`: the events it hands to the proposer. -/
def proposeBinlogEvent (flavor : Flavor) (event : MasterEvent) :
    Except EventFailure (List BinlogEvent) :=
  if event.Fits then .ok [event.undivided flavor] else event.divideBinlogEvent

end MasterEvent

/-! ## The dump loop -/

/-- A connection to a slave: the packet sequence number and all that was written. -/
structure BaseConn where
  sequence : UInt8
  written : Bytes

namespace BaseConn

/-- `BaseConn.WriteEvent`. -/
def writeEvent (c : BaseConn) (data : Bytes) (first : Bool) : Except EventFailure BaseConn :=
  let payload := if first then 0 :: data else data
  if maxPayloadLen < payload.length then
    .error (.error "mysql:the packet is large than 16MB")
  else .ok ⟨c.sequence + 1, c.written ++ Packets.frame c.sequence payload⟩

/-- What the send loop of `handleBinlogDumpGtid` does with one event. -/
def sendEvent (c : BaseConn) (event : BinlogEvent) : Except EventFailure BaseConn :=
  if event.dividedCount = 0 ∨ (0 < event.dividedCount ∧ event.dividedSeqNum = 0) then
    c.writeEvent event.bytes true
  else
    (c.writeEvent event.bytes false).bind fun c =>
      -- a last packet of maximal length is followed by an empty one
      if event.dividedSeqNum = event.dividedCount - 1 ∧ event.bytes.length = maxPayloadLen then
        c.writeEvent [] false
      else .ok c

/-- The send loop over the events a slave gets. -/
def sendEvents : BaseConn → List BinlogEvent → Except EventFailure BaseConn
  | c, [] => .ok c
  | c, e :: es => (c.sendEvent e).bind fun c => sendEvents c es

end BaseConn

/-- The events a reader finds in raft entries. -/
def decodeAll : List Bytes → Except EventFailure (List BinlogEvent)
  | [] => .ok []
  | b :: bs => (BinlogEvent.decode b).bind fun e => (decodeAll bs).map (e :: ·)

/-- The whole path: the syncer proposes the event, its parts become the data of raft
entries, and the dump loop writes what it reads from them. -/
def MasterEvent.relay (event : MasterEvent) (flavor : Flavor) (c : BaseConn) :
    Except EventFailure BaseConn :=
  (event.proposeBinlogEvent flavor).bind fun events =>
    (decodeAll (events.map BinlogEvent.encode)).bind c.sendEvents

/-- What was written between two states of a connection is read as the given
message, in packets of legal size, and whatever is written next starts a new one. -/
def BaseConn.Delivers (c c' : BaseConn) (message : Bytes) : Prop :=
  ∃ ps, Packets.payloads (c'.written.drop c.written.length) = some ps ∧
    (∀ p ∈ ps, p.length ≤ maxPayloadLen) ∧
    ∀ rest, Packets.reassemble maxPayloadLen (ps ++ rest) = some (message, rest)

/-! ## The parts -/

theorem maxPayloadLen_pos : 0 < maxPayloadLen := by decide

theorem partData_eq {rawData : Bytes} {pos : Nat} (h : pos ≤ rawData.length) (max : Nat) :
    partData rawData pos max = .ok ((rawData.drop pos).take max) := by
  rw [partData]
  split
  · rfl
  · rw [List.take_of_length_le (by rw [List.length_drop]; omega)]

namespace MasterEvent
variable (event : MasterEvent)

/-- The parts with the given data, numbered from `i` on. -/
def partsFrom : Nat → List Bytes → List BinlogEvent
  | _, [] => []
  | i, d :: ds => event.part event.dividedCount i d :: partsFrom (i + 1) ds

theorem mem_partsFrom {ds : List Bytes} {e : BinlogEvent} : ∀ {i : Nat},
    e ∈ event.partsFrom i ds → ∃ d ∈ ds, e.data = some d := by
  induction ds with
  | nil => nofun
  | cons d ds ih =>
      intro i h
      rcases List.mem_cons.mp h with rfl | h
      · exact ⟨d, List.mem_cons_self .., rfl⟩
      · obtain ⟨d', hd', he⟩ := ih h
        exact ⟨d', List.mem_cons_of_mem _ hd', he⟩

/-- The loop behind the first part: each round takes the next `MaxPayloadLen` bytes. -/
theorem divideLoop_eq : ∀ {n i pos : Nat}, i ≠ 0 →
    (∀ k < n, pos + k * maxPayloadLen ≤ event.rawData.length) →
    event.divideLoop n i pos =
      .ok (event.partsFrom i (Packets.cut maxPayloadLen n (event.rawData.drop pos)))
  | 0, _, _, _, _ => rfl
  | n + 1, i, pos, hi, hpos => by
      have hrest := divideLoop_eq (n := n) (i := i + 1) (Nat.succ_ne_zero i) (fun k hk => by
        have := hpos (k + 1) (Nat.succ_lt_succ hk)
        rwa [Nat.succ_mul, Nat.add_comm (k * _), ← Nat.add_assoc] at this)
      rw [divideLoop, if_neg hi, partData_eq (by have := hpos 0 (Nat.succ_pos n); omega)]
      change (event.divideLoop n (i + 1) (pos + maxPayloadLen)).map _ = _
      rw [hrest, Packets.cut, List.drop_drop]
      rfl

theorem rawData_length_lt : event.rawData.length < 2 ^ 32 :=
  event.size_eq ▸ event.header.eventSize_lt

theorem dividedCount_le :
    event.dividedCount ≤ (event.rawData.length + 1) / maxPayloadLen + 1 := by
  rw [dividedCount, okHeaderByte]
  split <;> omega

theorem dividedCount_lt : event.dividedCount < 2 ^ 32 := by
  have h := event.dividedCount_le
  have hlen := event.rawData_length_lt
  have hdiv : (event.rawData.length + 1) / maxPayloadLen ≤ 2 ^ 32 / maxPayloadLen :=
    Nat.div_le_div_right hlen
  have hbound : 2 ^ 32 / maxPayloadLen + 1 < 2 ^ 32 := by decide
  omega

/-- The parts of a divided event: with the OK byte in front, the data is cut into
pieces of the length of a packet. -/
theorem divideBinlogEvent_eq (h : maxPayloadLen ≤ event.rawData.length + 1) :
    ∃ d ds, event.divideBinlogEvent = .ok (event.partsFrom 0 (d :: ds)) ∧
      (0 :: d) :: ds = Packets.cut maxPayloadLen event.dividedCount (0 :: event.rawData) := by
  have hcount := event.dividedCount_le
  have hpos : 1 ≤ (event.rawData.length + 1) / maxPayloadLen :=
    (Nat.le_div_iff_mul_le maxPayloadLen_pos).mpr (by rwa [Nat.one_mul])
  obtain ⟨n, hn⟩ : ∃ n, event.dividedCount = n + 1 := by
    refine ⟨event.dividedCount - 1, ?_⟩
    have : (event.rawData.length + 1) / maxPayloadLen ≤ event.dividedCount := Nat.le_add_right _ _
    omega
  have hmul := Nat.div_mul_le_self (event.rawData.length + 1) maxPayloadLen
  refine ⟨event.rawData.take (maxPayloadLen - 1),
    Packets.cut maxPayloadLen n (event.rawData.drop (maxPayloadLen - 1)), ?_, ?_⟩
  · rw [divideBinlogEvent, hn, divideLoop, if_pos rfl, partData_eq (Nat.zero_le _)]
    change (event.divideLoop n 1 (0 + (maxPayloadLen - 1))).map _ = _
    rw [Nat.zero_add, event.divideLoop_eq Nat.one_ne_zero]
    · rfl
    · -- part `k + 1` starts at `(k + 1) * maxPayloadLen - 1`
      intro k hk
      have hle : (k + 1) * maxPayloadLen ≤
          (event.rawData.length + 1) / maxPayloadLen * maxPayloadLen :=
        Nat.mul_le_mul_right _ (by omega)
      have := maxPayloadLen_pos
      rw [Nat.succ_mul] at hle
      omega
  · rw [hn, Packets.cut]
    rfl

end MasterEvent

/-! ## The packets -/

theorem decodeAll_encode {es : List BinlogEvent}
    (h : ∀ e ∈ es, ∃ d : Bytes, e.data = some d ∧ d.length < 2 ^ 62) :
    decodeAll (es.map BinlogEvent.encode) = .ok es := by
  induction es with
  | nil => rfl
  | cons e es ih =>
      obtain ⟨d, hd, hlen⟩ := h e (List.mem_cons_self ..)
      rw [List.map_cons, decodeAll, BinlogEvent.decode_encode hd hlen]
      change (decodeAll (es.map BinlogEvent.encode)).map _ = _
      rw [ih fun x hx => h x (List.mem_cons_of_mem _ hx)]
      rfl

namespace BaseConn
variable {c c' c'' : BaseConn} {ps qs : List Bytes}

/-- The packets written between two states of a connection. -/
structure Sent (c : BaseConn) (ps : List Bytes) (c' : BaseConn) : Prop where
  written : c'.written = c.written ++ Packets.stream c.sequence ps
  sequence : c'.sequence = c.sequence + UInt8.ofNat ps.length

theorem Sent.nil (c : BaseConn) : Sent c [] c :=
  ⟨(List.append_nil _).symm, (UInt8.add_zero _).symm⟩

theorem Sent.trans (h : Sent c ps c') (h' : Sent c' qs c'') : Sent c (ps ++ qs) c'' where
  written := by
    rw [h'.written, h.written, h.sequence, Packets.stream_append, List.append_assoc]
  sequence := by
    rw [h'.sequence, h.sequence, List.length_append, UInt8.ofNat_add, UInt8.add_assoc]

/-- The payloads are what a reader of the connection sees. -/
theorem Sent.payloads (h : Sent c ps c') (hlen : ∀ p ∈ ps, p.length ≤ maxPayloadLen) :
    Packets.payloads (c'.written.drop c.written.length) = some ps := by
  rw [h.written, List.drop_left]
  exact Packets.payloads_stream (fun p hp => Nat.lt_of_le_of_lt (hlen p hp) (by decide)) _

theorem writeEvent_sent (data : Bytes) (first : Bool)
    (h : (if first then 0 :: data else data).length ≤ maxPayloadLen) :
    ∃ c', c.writeEvent data first = .ok c' ∧
      Sent c [if first then 0 :: data else data] c' := by
  refine ⟨⟨c.sequence + 1, c.written ++ Packets.frame c.sequence
    (if first then 0 :: data else data)⟩, ?_, ?_, rfl⟩
  · rw [writeEvent, if_neg (Nat.not_lt.mpr h)]
  · rw [Packets.stream, Packets.stream, List.append_nil]

/-- The empty packet that follows parts whose last one fills its packet. -/
def closing (ds : List Bytes) : List Bytes :=
  match ds.getLast? with
  | some d => if d.length = maxPayloadLen then [[]] else []
  | none => []

theorem flatten_closing (ds : List Bytes) : (closing ds).flatten = [] := by
  unfold closing
  split
  · split <;> rfl
  · rfl

theorem closing_singleton (d : Bytes) :
    closing [d] = if d.length = maxPayloadLen then [[]] else [] := rfl

theorem closing_cons_cons (d d' : Bytes) (ds : List Bytes) :
    closing (d :: d' :: ds) = closing (d' :: ds) := by
  rw [closing, closing, List.getLast?_cons_cons]

theorem length_of_mem_closing {ds : List Bytes} {p : Bytes} (h : p ∈ closing ds) :
    p.length = 0 := by
  have hp := List.flatten_eq_nil_iff.mp (flatten_closing ds) p h
  rw [hp, List.length_nil]

/-- A part behind the first one: the last part is followed by an empty packet if it is full. -/
theorem sendEvent_part (c : BaseConn) (event : MasterEvent) {d : Bytes} {i : Nat} (hi : i ≠ 0)
    (hlt : i < event.dividedCount) (hlen : d.length ≤ maxPayloadLen) :
    ∃ c1, Sent c [d] c1 ∧ c.sendEvent (event.part event.dividedCount i d) =
      if i = event.dividedCount - 1 ∧ d.length = maxPayloadLen then c1.writeEvent [] false
      else .ok c1 := by
  obtain ⟨c1, hwrite, hsent⟩ := writeEvent_sent (c := c) d false hlen
  have hcount := event.dividedCount_lt
  have hn : (event.part event.dividedCount i d).dividedCount = event.dividedCount :=
    Nat.mod_eq_of_lt hcount
  have hseq : (event.part event.dividedCount i d).dividedSeqNum = i :=
    Nat.mod_eq_of_lt (Nat.lt_trans hlt hcount)
  refine ⟨c1, hsent, ?_⟩
  rw [sendEvent, hn, hseq, if_neg (by omega)]
  change (c.writeEvent d false).bind _ = _
  rw [hwrite]
  rfl

/-- The parts behind the first one, down to the last. -/
theorem sendEvents_parts {event : MasterEvent} {ds : List Bytes} : ∀ {i : Nat} {c : BaseConn},
    i ≠ 0 → i + ds.length = event.dividedCount → (∀ d ∈ ds, d.length ≤ maxPayloadLen) →
    ∃ c', c.sendEvents (event.partsFrom i ds) = .ok c' ∧ Sent c (ds ++ closing ds) c' := by
  induction ds with
  | nil => exact fun _ _ _ => ⟨_, rfl, Sent.nil _⟩
  | cons d ds ih =>
      intro i c hi hcount hlen
      rw [List.length_cons] at hcount
      obtain ⟨c1, hsent, hsend⟩ :=
        c.sendEvent_part event hi (by omega) (hlen d List.mem_cons_self)
      rw [MasterEvent.partsFrom, sendEvents, hsend]
      cases ds with
      | nil =>
          -- the last part
          rw [List.length_nil] at hcount
          have hlast : i = event.dividedCount - 1 := by omega
          by_cases hfull : d.length = maxPayloadLen
          · obtain ⟨c2, hwrite2, hsent2⟩ := writeEvent_sent (c := c1) [] false
              (Nat.zero_le _)
            refine ⟨c2, ?_, ?_⟩
            · rw [if_pos ⟨hlast, hfull⟩, hwrite2]
              rfl
            · rw [closing_singleton, if_pos hfull]
              exact hsent.trans hsent2
          · refine ⟨c1, ?_, ?_⟩
            · rw [if_neg fun h => hfull h.2]
              rfl
            · rw [closing_singleton, if_neg hfull]
              exact hsent
      | cons d' ds =>
          rw [List.length_cons] at hcount
          obtain ⟨c', hrest, hsent'⟩ := ih (i := i + 1) (c := c1) (Nat.succ_ne_zero i)
            (by rw [List.length_cons]; omega) fun x hx => hlen x (List.mem_cons_of_mem _ hx)
          refine ⟨c', ?_, ?_⟩
          · rw [if_neg (by omega)]
            exact hrest
          · rw [closing_cons_cons]
            exact hsent.trans hsent'

end BaseConn

namespace MasterEvent
variable {event : MasterEvent} {flavor : Flavor} {c : BaseConn}

theorem Fits.cases (h : event.Fits) :
    event.rawData.length + 1 < maxPayloadLen ∨ event.rawData.length = 2 ^ 32 - 1 := by
  have hlt := event.rawData_length_lt
  rw [Fits, ← event.size_eq, okHeaderByte] at h
  unfold maxPayloadLen at h ⊢
  omega

theorem not_fits (h : ¬ event.Fits) :
    maxPayloadLen ≤ event.rawData.length + 1 ∧ event.rawData.length ≠ 2 ^ 32 - 1 := by
  have hlt := event.rawData_length_lt
  rw [Fits, ← event.size_eq, okHeaderByte] at h
  unfold maxPayloadLen at h ⊢
  omega

theorem length_of_mem_pieces {n : Nat} {d p : Bytes} {ds : List Bytes}
    (hcut : (0 :: d) :: ds = Packets.cut maxPayloadLen n (0 :: event.rawData))
    (hp : p ∈ d :: ds) : p.length ≤ maxPayloadLen := by
  rcases List.mem_cons.mp hp with rfl | hp
  · have := Packets.length_le_of_mem_cut (hcut ▸ List.mem_cons_self ..)
    rw [List.length_cons] at this
    omega
  · exact Packets.length_le_of_mem_cut (hcut ▸ List.mem_cons_of_mem _ hp)

theorem decodeAll_undivided : decodeAll ([event.undivided flavor].map BinlogEvent.encode) =
    .ok [event.undivided flavor] := by
  refine decodeAll_encode fun e he => ?_
  rw [List.mem_singleton.mp he]
  exact ⟨_, rfl, Nat.lt_trans event.rawData_length_lt (by decide)⟩

/-- What goes undivided is written with one call. -/
theorem relay_of_fits (h : event.Fits) :
    event.relay flavor c = (c.writeEvent event.rawData true).bind .ok := by
  rw [relay, proposeBinlogEvent, if_pos h]
  change (decodeAll ([event.undivided flavor].map BinlogEvent.encode)).bind _ = _
  rw [decodeAll_undivided]
  change (c.sendEvent (event.undivided flavor)).bind _ = _
  rw [BaseConn.sendEvent, if_pos (.inl rfl)]
  rfl

/-- An event in one packet. -/
theorem relay_undivided (flavor : Flavor) (h : event.rawData.length + 1 < maxPayloadLen) :
    ∃ c', event.relay flavor c = .ok c' ∧ c.Sent [0 :: event.rawData] c' := by
  have hfits : event.Fits := by
    rw [Fits, ← event.size_eq, okHeaderByte]
    unfold maxPayloadLen at h ⊢
    omega
  obtain ⟨c', hwrite, hsent⟩ := BaseConn.writeEvent_sent (c := c) event.rawData
    true (Nat.le_of_lt h)
  refine ⟨c', ?_, hsent⟩
  rw [relay_of_fits hfits, hwrite]
  rfl

/-- The one event whose size wraps around goes undivided into one packet. -/
theorem relay_wrapped (h : event.rawData.length = 2 ^ 32 - 1) :
    event.relay flavor c = .error (.error "mysql:the packet is large than 16MB") := by
  have hfits : event.Fits := by
    rw [Fits, ← event.size_eq, okHeaderByte, h]
    decide
  have hlarge : maxPayloadLen < (0 :: event.rawData).length := by
    rw [List.length_cons, h]
    decide
  have hwrite : c.writeEvent event.rawData true =
      .error (.error "mysql:the packet is large than 16MB") := if_pos hlarge
  rw [relay_of_fits hfits, hwrite]
  rfl

/-- A divided event goes out as the pieces its length is cut into. -/
theorem relay_divided (flavor : Flavor) (h : ¬ event.Fits) :
    ∃ c' d ds, event.relay flavor c = .ok c' ∧
      (0 :: d) :: ds = Packets.cut maxPayloadLen event.dividedCount (0 :: event.rawData) ∧
      c.Sent ((0 :: d) :: (ds ++ BaseConn.closing ds)) c' := by
  obtain ⟨d, ds, hdivide, hcut⟩ := event.divideBinlogEvent_eq (not_fits h).1
  have hcount : 1 + ds.length = event.dividedCount := by
    have := congrArg List.length hcut
    rw [List.length_cons, Packets.length_cut] at this
    omega
  have hlen : ∀ p ∈ d :: ds, p.length ≤ maxPayloadLen := fun p hp => length_of_mem_pieces hcut hp
  obtain ⟨c1, hwrite, hsent⟩ := BaseConn.writeEvent_sent (c := c) d true
    (Packets.length_le_of_mem_cut (hcut ▸ List.mem_cons_self ..))
  obtain ⟨c', hsend, hsent'⟩ := BaseConn.sendEvents_parts (c := c1)
    Nat.one_ne_zero hcount fun p hp => hlen p (List.mem_cons_of_mem _ hp)
  have hdecode : decodeAll ((event.partsFrom 0 (d :: ds)).map BinlogEvent.encode) =
      .ok (event.partsFrom 0 (d :: ds)) := by
    refine decodeAll_encode fun e he => ?_
    obtain ⟨p, hp, hdata⟩ := event.mem_partsFrom he
    exact ⟨p, hdata, Nat.lt_of_le_of_lt (hlen p hp) (by decide)⟩
  have hfirst : c.sendEvent (event.part event.dividedCount 0 d) = .ok c1 := by
    rw [BaseConn.sendEvent, if_pos (Nat.eq_zero_or_pos _ |>.imp id fun hpos => ⟨hpos, rfl⟩)]
    exact hwrite
  refine ⟨c', d, ds, ?_, hcut, hsent.trans hsent'⟩
  rw [relay, proposeBinlogEvent, if_neg h, hdivide]
  change (decodeAll ((event.partsFrom 0 (d :: ds)).map BinlogEvent.encode)).bind _ = _
  rw [hdecode]
  change (c.sendEvent (event.part event.dividedCount 0 d)).bind _ = _
  rw [hfirst]
  exact hsend

theorem dividedCount_of_not_dvd (h : ¬ maxPayloadLen ∣ event.rawData.length) :
    event.dividedCount = (0 :: event.rawData).length / maxPayloadLen + 1 := by
  rw [dividedCount, if_pos fun h0 => h (Nat.dvd_of_mod_eq_zero h0)]
  rfl

theorem dividedCount_of_dvd {k : Nat} (h : event.rawData.length = k * maxPayloadLen) :
    event.dividedCount = k := by
  rw [dividedCount, h, Nat.mul_mod_left, if_neg fun h0 => h0 rfl, okHeaderByte]
  have h1 := Nat.mul_add_div maxPayloadLen_pos k 1
  rw [Nat.mul_comm, h1]
  rfl

theorem delivers_of_not_dvd (hdvd : ¬ maxPayloadLen ∣ event.rawData.length)
    (hne : event.rawData.length ≠ 2 ^ 32 - 1) :
    ∃ c', event.relay flavor c = .ok c' ∧ c.Delivers c' (0 :: event.rawData) := by
  by_cases hfits : event.Fits
  · have hlt := hfits.cases.resolve_right hne
    obtain ⟨c', hrelay, hsent⟩ := event.relay_undivided (c := c) flavor hlt
    have hlen : ∀ p ∈ [0 :: event.rawData], p.length ≤ maxPayloadLen := fun p hp => by
      rw [List.mem_singleton.mp hp]
      exact Nat.le_of_lt hlt
    exact ⟨c', hrelay, _, hsent.payloads hlen, hlen, fun rest =>
      @Packets.reassemble_append _ _ [] _ nofun hlt rest⟩
  · obtain ⟨c', d, ds, hrelay, hcut, hsent⟩ :=
      event.relay_divided (c := c) flavor hfits
    rw [dividedCount_of_not_dvd hdvd] at hcut
    -- the last piece is short, so no empty packet is due
    have hclosing : BaseConn.closing ds = [] := by
      have hmod := Nat.mod_lt (0 :: event.rawData).length maxPayloadLen_pos
      have hdiv := Nat.mod_add_div (0 :: event.rawData).length maxPayloadLen
      rw [Nat.mul_comm] at hdiv
      rw [Packets.cut_succ] at hcut
      unfold BaseConn.closing
      cases hds : ds.getLast? with
      | none => rfl
      | some p =>
          have hlast := congrArg List.getLast? hcut
          rw [List.getLast?_concat, List.getLast?_cons, hds] at hlast
          cases hlast
          refine if_neg ?_
          rw [List.length_take, List.length_drop]
          omega
    rw [hclosing, List.append_nil, hcut] at hsent
    have hlen : ∀ p ∈ Packets.cut maxPayloadLen
        ((0 :: event.rawData).length / maxPayloadLen + 1) (0 :: event.rawData),
        p.length ≤ maxPayloadLen := fun p hp => Packets.length_le_of_mem_cut hp
    exact ⟨c', hrelay, _, hsent.payloads hlen, hlen,
      Packets.reassemble_cut maxPayloadLen_pos (0 :: event.rawData)⟩

theorem not_fits_of_dvd (hdvd : maxPayloadLen ∣ event.rawData.length) : ¬ event.Fits := by
  intro hfits
  obtain ⟨k, hk⟩ := hdvd
  have hle := event.header_le
  rw [eventHeaderSize] at hle
  rcases hfits.cases with h | h
  · cases k with
    | zero => omega
    | succ k => rw [Nat.mul_succ] at hk; omega
  · unfold maxPayloadLen at hk
    omega

/-- A byte is missing when the length is a multiple of `MaxPayloadLen`. -/
theorem not_delivers_of_dvd {c' : BaseConn} (hdvd : maxPayloadLen ∣ event.rawData.length)
    (hrelay : event.relay flavor c = .ok c') : ¬ c.Delivers c' (0 :: event.rawData) := by
  obtain ⟨c1, d, ds, hrelay1, hcut, hsent⟩ :=
    event.relay_divided (c := c) flavor (not_fits_of_dvd hdvd)
  rw [hrelay] at hrelay1
  cases hrelay1
  obtain ⟨k, hk⟩ := hdvd
  rw [Nat.mul_comm] at hk
  rw [dividedCount_of_dvd hk] at hcut
  have hlen : ∀ p ∈ (0 :: d) :: (ds ++ BaseConn.closing ds), p.length ≤ maxPayloadLen := by
    intro p hp
    rw [← List.cons_append, hcut] at hp
    rcases List.mem_append.mp hp with hp | hp
    · exact Packets.length_le_of_mem_cut hp
    · rw [BaseConn.length_of_mem_closing hp]
      exact Nat.zero_le _
  rintro ⟨ps, hps, -, hread⟩
  rw [hsent.payloads hlen] at hps
  cases hps
  have hflat := Packets.flatten_of_reassemble (hread [])
  rw [List.append_nil, ← List.cons_append, hcut, List.flatten_append, Packets.flatten_cut,
    BaseConn.flatten_closing] at hflat
  have := congrArg List.length hflat
  simp only [List.append_nil, List.flatten_nil, List.length_take, List.length_cons, hk] at this
  omega

end MasterEvent

/-- **Which events survive.**  The slave reads the OK byte and the event, exactly when
the length of the event is not a multiple of `MaxPayloadLen` and is not the one whose
`uint32` size wraps around. -/
theorem event_survives_iff (event : MasterEvent) (flavor : Flavor) (c : BaseConn) :
    (∃ c', event.relay flavor c = .ok c' ∧ c.Delivers c' (0 :: event.rawData)) ↔
      ¬ maxPayloadLen ∣ event.rawData.length ∧ event.rawData.length ≠ 2 ^ 32 - 1 := by
  constructor
  · rintro ⟨c', hrelay, hdel⟩
    refine ⟨fun hdvd => MasterEvent.not_delivers_of_dvd hdvd hrelay hdel, fun hwrap => ?_⟩
    rw [MasterEvent.relay_wrapped hwrap] at hrelay
    cases hrelay
  · rintro ⟨hdvd, hne⟩
    exact MasterEvent.delivers_of_not_dvd hdvd hne

/-- A rows event of `MaxPayloadLen` bytes, too long to be evaluated. -/
@[irreducible] def longRows : MasterEvent :=
  .of .writeRowsV2 (Bytes.zeros (maxPayloadLen - eventHeaderSize))
    (by rw [Bytes.length_zeros]; decide)

theorem longRows_length : longRows.rawData.length = maxPayloadLen := by
  rw [longRows, MasterEvent.length_of, Bytes.length_zeros]
  exact Nat.add_sub_cancel' (by decide)

/-- **Such an event is cut short**: all that is written for it is one full packet with
all but the last byte, and the slave goes on waiting for the rest of the message. -/
theorem longRows_is_cut_short :
    ∃ c', longRows.relay .mySQL ⟨0, []⟩ = .ok c' ∧
      Packets.payloads c'.written = some [0 :: longRows.rawData.take (maxPayloadLen - 1)] ∧
      Packets.reassemble maxPayloadLen [0 :: longRows.rawData.take (maxPayloadLen - 1)] = none ∧
      ¬ BaseConn.Delivers ⟨0, []⟩ c' (0 :: longRows.rawData) := by
  have hlen := longRows_length
  have hdvd : maxPayloadLen ∣ longRows.rawData.length := hlen ▸ Nat.dvd_refl _
  obtain ⟨c', d, ds, hrelay, hcut, hsent⟩ := longRows.relay_divided
    (c := ⟨0, []⟩) .mySQL (MasterEvent.not_fits_of_dvd hdvd)
  rw [MasterEvent.dividedCount_of_dvd (k := 1) (by rw [hlen, Nat.one_mul])] at hcut
  rw [Packets.cut, Packets.cut, List.take_cons maxPayloadLen_pos] at hcut
  obtain ⟨hd, hds⟩ := List.cons.inj hcut
  have hfull : (0 :: longRows.rawData.take (maxPayloadLen - 1)).length = maxPayloadLen := by
    rw [List.length_cons, List.length_take, hlen, Nat.min_eq_left (Nat.sub_le _ _)]
    exact Nat.sub_add_cancel maxPayloadLen_pos
  rw [hd, hds] at hsent
  refine ⟨c', hrelay, ?_, ?_, MasterEvent.not_delivers_of_dvd hdvd hrelay⟩
  · refine hsent.payloads fun p hp => ?_
    rw [List.mem_singleton.mp hp]
    exact Nat.le_of_eq hfull
  · rw [Packets.reassemble, hfull, if_neg (Nat.lt_irrefl _)]
    rfl

end Kingbus
