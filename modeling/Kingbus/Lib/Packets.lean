import Kingbus.Lib.Bytes

/-! # Messages cut into packets

A packet is a three-byte length, a sequence number and a payload.  A message is
what the payloads spell up to and including the first one that is shorter than
the maximum, so a message that ends with a payload of maximal length needs an
empty packet behind it. -/

namespace Packets

/-- A packet on the wire. -/
def frame (seq : UInt8) (payload : Bytes) : Bytes :=
  Bytes.leBytes 3 payload.length ++ ([seq] ++ payload)

/-- The payload of the first packet of a stream, and what follows the packet. -/
def next (b : Bytes) : Option (Bytes × Bytes) :=
  (Bytes.slice b 0 3).bind fun header =>
    (Bytes.slice b 4 (4 + Bytes.leNat header)).map fun payload =>
      (payload, b.drop (4 + Bytes.leNat header))

/-- The payloads of a stream, with a bound on their number; `none` when the stream
does not end with a packet. -/
def payloadsAux : Nat → Bytes → Option (List Bytes)
  | _, [] => some []
  | 0, _ :: _ => none
  | fuel + 1, b :: t =>
      (next (b :: t)).bind fun r => (payloadsAux fuel r.2).map (r.1 :: ·)

/-- The payloads of a stream. -/
def payloads (b : Bytes) : Option (List Bytes) := payloadsAux b.length b

theorem length_frame (seq : UInt8) (payload : Bytes) :
    (frame seq payload).length = 4 + payload.length := by
  simp only [frame, List.length_append, Bytes.length_leBytes, List.length_singleton]
  omega

/-- The first packet is read back, whatever follows it. -/
theorem next_frame {payload : Bytes} (seq : UInt8) (rest : Bytes) (h : payload.length < 2 ^ 24) :
    next (frame seq payload ++ rest) = some (payload, rest) := by
  have hlen : Bytes.leNat (Bytes.leBytes 3 payload.length) = payload.length :=
    Bytes.leNat_leBytes_of_lt h
  have hheader : Bytes.slice (frame seq payload ++ rest) 0 3 =
      some (Bytes.leBytes 3 payload.length) := by
    rw [frame, List.append_assoc]
    exact Bytes.slice_append_of_eq (a := []) rfl (by rw [Bytes.length_leBytes 3 payload.length])
  have hpayload : Bytes.slice (frame seq payload ++ rest) 4 (4 + payload.length) =
      some payload := by
    rw [frame, ← List.append_assoc (Bytes.leBytes 3 _), List.append_assoc]
    exact Bytes.slice_append_of_eq
      (by rw [List.length_append, Bytes.length_leBytes, List.length_singleton]) rfl
  rw [next, hheader, Option.bind_some, hlen, hpayload, Option.map_some,
    ← length_frame seq payload, List.drop_left]

/-- A stream of packets, numbered from `seq` on. -/
def stream (seq : UInt8) : List Bytes → Bytes
  | [] => []
  | p :: ps => frame seq p ++ stream (seq + 1) ps

theorem stream_append (ps qs : List Bytes) : ∀ seq,
    stream seq (ps ++ qs) = stream seq ps ++ stream (seq + UInt8.ofNat ps.length) qs := by
  induction ps with
  | nil =>
      intro seq
      rw [List.length_nil, show UInt8.ofNat 0 = 0 from rfl, UInt8.add_zero]
      rfl
  | cons p ps ih =>
      intro seq
      rw [List.cons_append, stream, stream, ih, List.length_cons, List.append_assoc,
        UInt8.add_assoc, UInt8.ofNat_add, UInt8.add_comm 1]
      rfl

theorem payloadsAux_stream {ps : List Bytes} (h : ∀ p ∈ ps, p.length < 2 ^ 24) :
    ∀ {fuel : Nat} {seq : UInt8}, ps.length ≤ fuel → payloadsAux fuel (stream seq ps) = some ps := by
  induction ps with
  | nil =>
      intro fuel seq _
      cases fuel <;> rfl
  | cons p ps ih =>
      intro fuel seq hfuel
      obtain ⟨f, rfl⟩ : ∃ f, fuel = f + 1 := ⟨fuel - 1, by rw [List.length_cons] at hfuel; omega⟩
      have hnext := next_frame seq (stream (seq + 1) ps) (h p (List.mem_cons_self ..))
      have hrest : payloadsAux f (stream (seq + 1) ps) = some ps :=
        ih (fun q hq => h q (List.mem_cons_of_mem _ hq)) (by rw [List.length_cons] at hfuel; omega)
      rw [stream]
      cases hs : frame seq p ++ stream (seq + 1) ps with
      | nil =>
          have hlen := congrArg List.length hs
          rw [List.length_append, length_frame, List.length_nil] at hlen
          omega
      | cons b t => rw [payloadsAux, ← hs, hnext, Option.bind_some, hrest, Option.map_some]

theorem length_le_stream (ps : List Bytes) : ∀ seq, ps.length ≤ (stream seq ps).length := by
  induction ps with
  | nil => exact fun _ => Nat.le_refl 0
  | cons p ps ih =>
      intro seq
      have := ih (seq + 1)
      rw [stream, List.length_append, length_frame, List.length_cons]
      omega

/-- **The payloads are read back** when the length of each fits in its header. -/
theorem payloads_stream {ps : List Bytes} (h : ∀ p ∈ ps, p.length < 2 ^ 24)
    (seq : UInt8) :
    payloads (stream seq ps) = some ps :=
  payloadsAux_stream h (length_le_stream ps seq)

/-! ## Cutting and reassembly -/

section Reassembly
variable {α : Type*} {max : Nat}

/-- The first `n` pieces of length `max`. -/
def cut (max : Nat) : Nat → List α → List (List α)
  | 0, _ => []
  | n + 1, b => b.take max :: cut max n (b.drop max)

@[simp] theorem length_cut : ∀ (n : Nat) (b : List α), (cut max n b).length = n
  | 0, _ => rfl
  | n + 1, b => by rw [cut, List.length_cons, length_cut n]

theorem length_le_of_mem_cut : ∀ {n : Nat} {b p : List α}, p ∈ cut max n b → p.length ≤ max
  | 0, _, _, h => by cases h
  | n + 1, b, p, h => by
      rcases List.mem_cons.mp h with rfl | h
      · exact List.length_take_le _ _
      · exact length_le_of_mem_cut h

theorem length_of_mem_cut : ∀ {n : Nat} {b p : List α}, n * max ≤ b.length → p ∈ cut max n b →
    p.length = max
  | 0, _, _, _, h => by cases h
  | n + 1, b, p, hle, h => by
      rw [Nat.succ_mul] at hle
      rcases List.mem_cons.mp h with rfl | h
      · rw [List.length_take, Nat.min_eq_left (by omega)]
      · exact length_of_mem_cut (by rw [List.length_drop]; omega) h

theorem flatten_cut : ∀ (n : Nat) (b : List α), (cut max n b).flatten = b.take (n * max)
  | 0, b => by rw [cut, List.flatten_nil, Nat.zero_mul, List.take_zero]
  | n + 1, b => by
      rw [cut, List.flatten_cons, flatten_cut n, Nat.succ_mul, Nat.add_comm, List.take_add]

theorem cut_succ : ∀ (n : Nat) (b : List α),
    cut max (n + 1) b = cut max n b ++ [(b.drop (n * max)).take max]
  | 0, b => by rw [Nat.zero_mul, List.drop_zero]; rfl
  | n + 1, b => by
      rw [cut, cut_succ n, cut, List.cons_append, List.drop_drop, Nat.succ_mul,
        Nat.add_comm max]

/-- The first message of a list of payloads and the payloads behind it. -/
def reassemble (max : Nat) : List (List α) → Option (List α × List (List α))
  | [] => none
  | p :: ps =>
      if p.length < max then some (p, ps)
      else (reassemble max ps).map fun (message, rest) => (p ++ message, rest)

/-- Full payloads and a short one are a message. -/
theorem reassemble_append {full : List (List α)} {last : List α}
    (hfull : ∀ p ∈ full, p.length = max) (hlast : last.length < max) (rest : List (List α)) :
    reassemble max (full ++ last :: rest) = some (full.flatten ++ last, rest) := by
  induction full with
  | nil => rw [List.nil_append, reassemble, if_pos hlast, List.flatten_nil, List.nil_append]
  | cons p ps ih =>
      have hp : ¬ p.length < max := by
        rw [hfull p (List.mem_cons_self ..)]
        exact Nat.lt_irrefl max
      rw [List.cons_append, reassemble, if_neg hp, ih fun q hq => hfull q (List.mem_cons_of_mem _ hq),
        Option.map_some, List.flatten_cons, List.append_assoc]

/-- **Cutting once more than the full pieces is undone by reassembly.** -/
theorem reassemble_cut (hmax : 0 < max) (b : List α) (rest : List (List α)) :
    reassemble max (cut max (b.length / max + 1) b ++ rest) = some (b, rest) := by
  have hdiv := Nat.div_mul_le_self b.length max
  have hmod := Nat.mod_add_div b.length max
  have hlt := Nat.mod_lt b.length hmax
  rw [Nat.mul_comm] at hmod
  have hlast : (b.drop (b.length / max * max)).take max = b.drop (b.length / max * max) :=
    List.take_of_length_le (by rw [List.length_drop]; omega)
  rw [cut_succ, List.append_assoc, List.singleton_append, hlast,
    reassemble_append (fun p hp => length_of_mem_cut hdiv hp) (by rw [List.length_drop]; omega),
    flatten_cut, List.take_append_drop]

/-- Reassembly neither drops nor adds anything. -/
theorem flatten_of_reassemble {ps rest : List (List α)} {message : List α}
    (h : reassemble max ps = some (message, rest)) : ps.flatten = message ++ rest.flatten := by
  induction ps generalizing message with
  | nil => cases h
  | cons p ps ih =>
      rw [reassemble] at h
      split at h
      · cases h
        rw [List.flatten_cons]
      · cases hr : reassemble max ps with
        | none => rw [hr] at h; cases h
        | some r =>
            obtain ⟨m, r⟩ := r
            rw [hr] at h
            cases h
            rw [List.flatten_cons, ih hr, List.append_assoc]

end Reassembly

end Packets
