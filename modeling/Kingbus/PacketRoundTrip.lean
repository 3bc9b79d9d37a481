import Kingbus.EventRelay

/-! # Writing and reading packets

`WritePacket` sends a payload in packets of `MaxPayloadLen` bytes and a last, shorter one.
It is given a buffer with four bytes in front of the payload; each round puts the header
there, writes, and moves on so that the next header overwrites payload bytes that were
written already.  A payload whose length is a multiple of `MaxPayloadLen` ends with an empty
packet.  `ReadPacket` appends payloads until it has read a short packet, and refuses a packet
without payload, so it cannot read back exactly those. -/

namespace Kingbus

namespace BaseConn

/-- The rounds of `BaseConn.WritePacket`.  Every round shortens `length`, so as much fuel as
the length is enough. -/
def writeLoop : Nat → BaseConn → Bytes → Nat → Except EventFailure BaseConn
  | 0, _, _, _ => .error (.panic "out of fuel")
  | fuel + 1, c, data, length =>
      if maxPayloadLen ≤ length then
        let data := Bytes.overwrite data 0 [0xff, 0xff, 0xff, c.sequence]
        writeLoop fuel ⟨c.sequence + 1, c.written ++ data.take (4 + maxPayloadLen)⟩
          (data.drop maxPayloadLen) (length - maxPayloadLen)
      else
        let data := Bytes.overwrite data 0 (Bytes.leBytes 3 length ++ [c.sequence])
        .ok ⟨c.sequence + 1, c.written ++ data⟩

/-- `BaseConn.WritePacket`.  A buffer without room for the header is a panic. -/
def writePacket (c : BaseConn) (data : Bytes) : Except EventFailure BaseConn :=
  if data.length < 4 then .error (.panic "index out of range")
  else writeLoop data.length c data (data.length - 4)

end BaseConn

/-- A connection as its reader has it: the sequence number and the bytes to come. -/
structure ReadConn where
  sequence : UInt8
  input : Bytes
  deriving DecidableEq, Repr

namespace ReadConn

/-- `BaseConn.ReadPacketTo`, with what is in the writer already.  Every packet takes its header
off the input, so as much fuel as the input has bytes is enough. -/
def readPacketTo : Nat → ReadConn → Bytes → ReadConn × Except EventFailure Bytes
  | 0, c, _ => (c, .error (.panic "out of fuel"))
  | fuel + 1, c, w =>
      if c.input.length < 4 then
        ({ c with input := [] },
          .error (.error (if c.input = [] then "EOF" else "unexpected EOF")))
      else
        let header := c.input.take 4
        let length := Bytes.leNat (header.take 3)
        let c := { c with input := c.input.drop 4 }
        if length < 1 then (c, .error (.error "invalid payload length %d"))
        else if header.getD 3 0 ≠ c.sequence then
          (c, .error (.error "invalid sequence %d != %d"))
        else
          let c := { c with sequence := c.sequence + 1 }
          if c.input.length < length then ({ c with input := [] }, .error (.error "EOF"))
          else
            let w := w ++ c.input.take length
            let c := { c with input := c.input.drop length }
            if length < maxPayloadLen then (c, .ok w) else readPacketTo fuel c w

/-- `BaseConn.ReadPacket`. -/
def readPacket (c : ReadConn) : ReadConn × Except EventFailure Bytes :=
  readPacketTo (c.input.length + 1) c []

end ReadConn

/-- One sequence number further. -/
theorem add_one_add_ofNat (seq : UInt8) (n : Nat) :
    seq + 1 + UInt8.ofNat n = seq + UInt8.ofNat (n + 1) := by
  rw [UInt8.ofNat_add, UInt8.add_assoc, UInt8.add_comm 1]
  rfl

/-! ## What is written -/

section Write
variable {c : BaseConn} {header payload : Bytes}

/-- A header of the maximal length. -/
theorem leBytes_maxPayloadLen : Bytes.leBytes 3 maxPayloadLen = [0xff, 0xff, 0xff] := by decide

/-- The header is put over the four bytes in front. -/
theorem overwrite_header (hh : header.length = 4) {h : Bytes} (h4 : h.length = 4) :
    Bytes.overwrite (header ++ payload) 0 h = h ++ payload := by
  have := Bytes.overwrite_append (a := []) (m := header) (c := payload) (d := h) (by rw [hh, h4])
  simpa only [List.nil_append, List.length_nil] using this

/-- What stands behind the first packet: the last four bytes written and the rest of the
payload. -/
theorem drop_packet {h : Bytes} (payload : Bytes) (h4 : h.length = 4)
    (hle : maxPayloadLen ≤ payload.length) :
    ∃ header, header.length = 4 ∧
      (h ++ payload).drop maxPayloadLen = header ++ payload.drop maxPayloadLen := by
  refine ⟨((h ++ payload).drop maxPayloadLen).take 4, ?_, ?_⟩
  · rw [List.length_take, List.length_drop, List.length_append]
    omega
  · have hrest : ((h ++ payload).drop maxPayloadLen).drop 4 = payload.drop maxPayloadLen := by
      rw [List.drop_drop, Nat.add_comm, ← h4, List.drop_length_add_append]
    rw [← hrest, List.take_append_drop]

/-- **What `WritePacket` writes**: the full pieces of the payload and the rest, which may be
empty, one packet each. -/
theorem writeLoop_eq (n : Nat) {fuel : Nat} {c : BaseConn} {header payload : Bytes}
    (hh : header.length = 4) (hn : payload.length / maxPayloadLen = n) (hfuel : n < fuel) :
    c.writeLoop fuel (header ++ payload) payload.length =
      .ok ⟨c.sequence + UInt8.ofNat (n + 1),
        c.written ++ Packets.stream c.sequence (Packets.cut maxPayloadLen (n + 1) payload)⟩ := by
  have hmax : 0 < maxPayloadLen := by decide
  induction n generalizing fuel c header payload with
  | zero =>
      obtain ⟨fuel, rfl⟩ : ∃ k, fuel = k + 1 := ⟨fuel - 1, by omega⟩
      have hlt : payload.length < maxPayloadLen := (Nat.div_eq_zero_iff_lt hmax).mp hn
      have hlen : (Bytes.leBytes 3 payload.length ++ [c.sequence]).length = 4 := by
        rw [List.length_append, Bytes.length_leBytes, List.length_singleton]
      simp only [BaseConn.writeLoop, if_neg (Nat.not_le_of_lt hlt), overwrite_header hh hlen]
      rw [Packets.cut, Packets.cut, List.take_of_length_le (Nat.le_of_lt hlt), Packets.stream,
        Packets.stream, List.append_nil, Packets.frame, List.append_assoc]
      rfl
  | succ n ih =>
      obtain ⟨fuel, rfl⟩ : ∃ k, fuel = k + 1 := ⟨fuel - 1, by omega⟩
      have hle : maxPayloadLen ≤ payload.length := by
        by_contra hlt
        rw [Nat.div_eq_of_lt (Nat.lt_of_not_le hlt)] at hn
        omega
      have h4 : [0xff, 0xff, 0xff, c.sequence].length = 4 := rfl
      obtain ⟨header', hh', hdrop⟩ := drop_packet payload h4 hle
      have htake : ([0xff, 0xff, 0xff, c.sequence] ++ payload).take (4 + maxPayloadLen) =
          Packets.frame c.sequence (payload.take maxPayloadLen) := by
        rw [Packets.frame, List.length_take, Nat.min_eq_left hle, leBytes_maxPayloadLen, ← h4,
          List.take_length_add_append]
        rfl
      have hrest : (payload.drop maxPayloadLen).length / maxPayloadLen = n := by
        have := Nat.div_eq_sub_div hmax hle
        rw [List.length_drop]
        omega
      simp only [BaseConn.writeLoop, if_pos hle, overwrite_header hh h4, htake, hdrop]
      rw [← List.length_drop, ih hh' hrest (by omega)]
      rw [List.append_assoc, add_one_add_ofNat]
      rfl

theorem writePacket_eq (c : BaseConn) (hh : header.length = 4) (payload : Bytes) :
    c.writePacket (header ++ payload) =
      .ok ⟨c.sequence + UInt8.ofNat (payload.length / maxPayloadLen + 1),
        c.written ++ Packets.stream c.sequence
          (Packets.cut maxPayloadLen (payload.length / maxPayloadLen + 1) payload)⟩ := by
  have hlen : (header ++ payload).length = 4 + payload.length := by rw [List.length_append, hh]
  have hdiv := Nat.div_le_self payload.length maxPayloadLen
  rw [BaseConn.writePacket, if_neg (by omega), hlen, Nat.add_sub_cancel_left]
  exact writeLoop_eq _ hh rfl (by omega)

end Write

/-! ## What is read back -/

section Read
variable {seq : UInt8} {p last rest w : Bytes} {fuel : Nat}

theorem take_frame : (Packets.frame seq p ++ rest).take 4 = Bytes.leBytes 3 p.length ++ [seq] := by
  rw [Packets.frame, ← List.append_assoc (Bytes.leBytes 3 _), List.append_assoc]
  exact List.take_left' (by rw [List.length_append, Bytes.length_leBytes, List.length_singleton])

theorem drop_frame : (Packets.frame seq p ++ rest).drop 4 = p ++ rest := by
  rw [Packets.frame, ← List.append_assoc (Bytes.leBytes 3 _), List.append_assoc]
  exact List.drop_left' (by rw [List.length_append, Bytes.length_leBytes, List.length_singleton])

/-- A packet without payload is refused. -/
theorem readPacketTo_empty :
    ReadConn.readPacketTo (fuel + 1) ⟨seq, Packets.frame seq [] ++ rest⟩ w =
      (⟨seq, rest⟩, .error (.error "invalid payload length %d")) := by
  rfl

/-- One packet with a payload: the end of the message, or one more round. -/
theorem readPacketTo_frame (hpos : 0 < p.length) (hlt : p.length < 2 ^ 24) :
    ReadConn.readPacketTo (fuel + 1) ⟨seq, Packets.frame seq p ++ rest⟩ w =
      if p.length < maxPayloadLen then (⟨seq + 1, rest⟩, .ok (w ++ p))
      else ReadConn.readPacketTo fuel ⟨seq + 1, rest⟩ (w ++ p) := by
  have hlen : Bytes.leNat (Bytes.leBytes 3 p.length) = p.length := Bytes.leNat_leBytes_of_lt hlt
  have hheader : (Bytes.leBytes 3 p.length ++ [seq]).take 3 = Bytes.leBytes 3 p.length :=
    List.take_left' (Bytes.length_leBytes 3 _)
  have hseq : (Bytes.leBytes 3 p.length ++ [seq]).getD 3 0 = seq := rfl
  have hroom : ¬ (Packets.frame seq p ++ rest).length < 4 := by
    rw [List.length_append, Packets.length_frame]
    omega
  have hall : ¬ (p ++ rest).length < p.length := by
    rw [List.length_append]
    omega
  simp only [ReadConn.readPacketTo, if_neg hroom, take_frame, drop_frame, hheader, hlen, hseq,
    if_neg (show ¬ p.length < 1 by omega), ne_eq, not_true_eq_false, if_false, if_neg hall,
    List.take_left, List.drop_left]

/-- Full packets and a short one. -/
theorem readPacketTo_stream {full : List Bytes} (hfull : ∀ p ∈ full, p.length = maxPayloadLen)
    (hlast : last.length < maxPayloadLen) (hfuel : full.length < fuel) :
    ReadConn.readPacketTo fuel ⟨seq, Packets.stream seq (full ++ [last])⟩ w =
      if last = [] then
        (⟨seq + UInt8.ofNat full.length, []⟩, .error (.error "invalid payload length %d"))
      else (⟨seq + UInt8.ofNat (full.length + 1), []⟩, .ok (w ++ full.flatten ++ last)) := by
  have hmax : maxPayloadLen < 2 ^ 24 := by decide
  induction full generalizing fuel seq w with
  | nil =>
      obtain ⟨fuel, rfl⟩ : ∃ k, fuel = k + 1 := ⟨fuel - 1, by omega⟩
      rw [List.nil_append, Packets.stream, Packets.stream]
      by_cases h0 : last = []
      · rw [if_pos h0, h0, readPacketTo_empty]
        simp
      · rw [if_neg h0, readPacketTo_frame (List.length_pos_of_ne_nil h0) (by omega), if_pos hlast]
        simp
  | cons p full ih =>
      obtain ⟨fuel, rfl⟩ : ∃ k, fuel = k + 1 := ⟨fuel - 1, by omega⟩
      have hp := hfull p List.mem_cons_self
      rw [List.length_cons] at hfuel
      rw [List.cons_append, Packets.stream, readPacketTo_frame (by rw [hp]; decide) (by omega),
        if_neg (by omega), ih (fun q hq => hfull q (List.mem_cons_of_mem p hq)) (by omega)]
      simp only [add_one_add_ofNat, List.length_cons, List.flatten_cons, List.append_assoc]

/-- The last packet is empty exactly for the multiples of the maximal length. -/
theorem drop_full_eq_nil_iff (payload : Bytes) :
    payload.drop (payload.length / maxPayloadLen * maxPayloadLen) = [] ↔
      maxPayloadLen ∣ payload.length := by
  rw [List.drop_eq_nil_iff, Nat.dvd_iff_div_mul_eq]
  have := Nat.div_mul_le_self payload.length maxPayloadLen
  omega

/-- **What `ReadPacket` makes of the bytes of `WritePacket`.** -/
theorem readPacket_writePacket (c : BaseConn) (header payload : Bytes)
    (hh : header.length = 4) :
    ∃ c' emitted, c.writePacket (header ++ payload) = .ok c' ∧
      c'.written = c.written ++ emitted ∧
      ReadConn.readPacket ⟨c.sequence, emitted⟩ =
        if maxPayloadLen ∣ payload.length then
          (⟨c.sequence + UInt8.ofNat (payload.length / maxPayloadLen), []⟩,
            .error (.error "invalid payload length %d"))
        else (⟨c'.sequence, []⟩, .ok payload) := by
  have hmax : 0 < maxPayloadLen := by decide
  have hdiv := Nat.div_mul_le_self payload.length maxPayloadLen
  have hrest : (payload.drop (payload.length / maxPayloadLen * maxPayloadLen)).length <
      maxPayloadLen := by
    have hmod := Nat.mod_lt payload.length hmax
    have hsplit := Nat.mod_add_div' payload.length maxPayloadLen
    rw [List.length_drop]
    omega
  have hfuel := Packets.length_le_stream (Packets.cut maxPayloadLen
    (payload.length / maxPayloadLen) payload ++
    [payload.drop (payload.length / maxPayloadLen * maxPayloadLen)]) c.sequence
  rw [List.length_append, List.length_singleton] at hfuel
  refine ⟨_, Packets.stream c.sequence
    (Packets.cut maxPayloadLen (payload.length / maxPayloadLen + 1) payload),
    writePacket_eq c hh payload, rfl, ?_⟩
  rw [ReadConn.readPacket, Packets.cut_succ, List.take_of_length_le (Nat.le_of_lt hrest),
    readPacketTo_stream (fun p hp => Packets.length_of_mem_cut hdiv hp) hrest
      (Nat.lt_succ_of_lt hfuel)]
  by_cases hdvd : maxPayloadLen ∣ payload.length
  · rw [if_pos hdvd, if_pos ((drop_full_eq_nil_iff payload).mpr hdvd), Packets.length_cut]
  · rw [if_neg hdvd, if_neg fun h0 => hdvd ((drop_full_eq_nil_iff payload).mp h0),
      Packets.length_cut, Packets.flatten_cut, List.nil_append, List.take_append_drop]

/-- **Reading undoes writing** exactly for the payloads whose length is not a multiple of the
maximal length. -/
theorem readPacket_writePacket_iff (c : BaseConn) (header payload : Bytes)
    (hh : header.length = 4) :
    ∃ c' emitted, c.writePacket (header ++ payload) = .ok c' ∧
      c'.written = c.written ++ emitted ∧
      (ReadConn.readPacket ⟨c.sequence, emitted⟩ = (⟨c'.sequence, []⟩, .ok payload) ↔
        ¬ maxPayloadLen ∣ payload.length) := by
  obtain ⟨c', emitted, hwrite, hemitted, hread⟩ := readPacket_writePacket c header payload hh
  refine ⟨c', emitted, hwrite, hemitted, ?_⟩
  rw [hread]
  by_cases hdvd : maxPayloadLen ∣ payload.length
  · rw [if_pos hdvd]
    exact iff_of_false (fun heq => by cases congrArg Prod.snd heq) fun hno => hno hdvd
  · rw [if_neg hdvd]
    exact iff_of_true rfl hdvd

/-- Three bytes come back. -/
theorem readPacket_writePacket_short :
    ∃ c' emitted, BaseConn.writePacket ⟨7, []⟩ ([0, 0, 0, 0] ++ [1, 2, 3]) = .ok c' ∧
      c'.written = [] ++ emitted ∧
      ReadConn.readPacket ⟨7, emitted⟩ = (⟨c'.sequence, []⟩, .ok [1, 2, 3]) := by
  obtain ⟨c', emitted, hwrite, hemitted, hiff⟩ :=
    readPacket_writePacket_iff ⟨7, []⟩ [0, 0, 0, 0] [1, 2, 3] rfl
  exact ⟨c', emitted, hwrite, hemitted, hiff.mpr (by decide)⟩

/-- A payload of the maximal length. -/
@[irreducible] def longPayload : Bytes := Bytes.zeros maxPayloadLen

theorem length_longPayload : longPayload.length = maxPayloadLen := by
  rw [longPayload, Bytes.length_zeros]

/-- **A payload that is not read back**: it is written as a full packet and an empty one, and
the reader refuses the empty one. -/
theorem readPacket_refuses_longPayload :
    ∃ c' emitted, BaseConn.writePacket ⟨0, []⟩ ([0, 0, 0, 0] ++ longPayload) = .ok c' ∧
      c'.written = [] ++ emitted ∧
      (ReadConn.readPacket ⟨0, emitted⟩).2 = .error (.error "invalid payload length %d") := by
  obtain ⟨c', emitted, hwrite, hemitted, hread⟩ :=
    readPacket_writePacket ⟨0, []⟩ [0, 0, 0, 0] longPayload rfl
  refine ⟨c', emitted, hwrite, hemitted, ?_⟩
  rw [hread, if_pos (by rw [length_longPayload])]

end Read

end Kingbus
