import Kingbus.PacketRoundTrip
import Kingbus.TrxBoundary
import Kingbus.Lib.GoSlice
import Kingbus.Lib.Sha1

/-! # The handshake with a slave

A slave connects: the server greets it with its version and a salt (`writeInitialHandshake`,
`mysql/auth.go`), the client answers with its user and a hash of salt and password, and the
server lets it in or sends an error (`handshake`, `mysql/conn.go`).  The client is that of
`go-mysql` (`client/auth.go`), with which a Kingbus itself connects to its master.

* `handshake_completes`: what the two of them make of any user and password.
* `handshake_response_outcomes`: what the server makes of any packet.  The packet is read before
  anything is recovered from, so where it panics the process ends.

TLS is left out; the syncer does not use it. -/

namespace Kingbus

/-! ## Passwords -/

/-- A hash with the width of SHA-1. -/
structure Sha1 where
  sum : Bytes → Bytes
  length_sum : ∀ b, (sum b).length = 20

/-- The hash of `crypto/sha1`. -/
def sha1 : Sha1 := ⟨Sha1Digest.sum, Sha1Digest.length_sum⟩

/-- `CalcPassword`. -/
def calcPassword (h : Sha1) (scramble password : Bytes) : Bytes :=
  if password = [] then []
  else
    let stage1 := h.sum password
    List.zipWith (· ^^^ ·) (h.sum (scramble ++ h.sum stage1)) stage1

theorem length_calcPassword (h : Sha1) (scramble password : Bytes) :
    (calcPassword h scramble password).length ≤ 20 := by
  rw [calcPassword]
  split
  · exact Nat.zero_le _
  · rw [List.length_zipWith, h.length_sum, h.length_sum]
    exact Nat.le_refl _

/-- Only no password has no scramble. -/
theorem calcPassword_eq_nil_iff {h : Sha1} {scramble password : Bytes} :
    calcPassword h scramble password = [] ↔ password = [] := by
  refine ⟨fun hnil => ?_, fun hnil => if_pos hnil⟩
  by_contra hne
  have hlen := congrArg List.length hnil
  rw [calcPassword, if_neg hne, List.length_zipWith, h.length_sum, h.length_sum] at hlen
  exact absurd hlen (by decide)

/-! ## Errors of the protocol -/

/-- How a rune goes on behind its first byte: its length and the range of its second byte. -/
def runeShape (b : UInt8) : Nat × UInt8 × UInt8 :=
  if 0xC2 ≤ b ∧ b ≤ 0xDF then (2, 0x80, 0xBF)
  else if b = 0xE0 then (3, 0xA0, 0xBF)
  else if b = 0xED then (3, 0x80, 0x9F)
  else if 0xE1 ≤ b ∧ b ≤ 0xEF then (3, 0x80, 0xBF)
  else if b = 0xF0 then (4, 0x90, 0xBF)
  else if 0xF1 ≤ b ∧ b ≤ 0xF3 then (4, 0x80, 0xBF)
  else if b = 0xF4 then (4, 0x80, 0x8F)
  else (1, 0, 0)

/-- The bytes of the first rune of a string, as `range` walks over it. -/
def runeLen : Bytes → Nat
  | [] => 0
  | b :: t =>
      let (size, lo, hi) := runeShape b
      let rest := t.take (size - 1)
      if rest.length = size - 1 ∧ rest.head?.all (fun x => decide (lo ≤ x ∧ x ≤ hi)) ∧
          rest.tail.all (fun x => decide (0x80 ≤ x ∧ x ≤ 0xBF)) then size
      else 1

/-- What `%.ns` prints of a string: its first `n` runes. -/
def truncateRunes : Nat → Bytes → Bytes
  | 0, _ => []
  | n + 1, s => s.take (runeLen s) ++ truncateRunes n (s.drop (runeLen s))

/-- `MyError`. -/
structure MyError where
  code : UInt16
  message : Bytes
  state : Bytes
  deriving DecidableEq

/-- `NewDefaultError(ER_NO_SUCH_USER, user, addr)`. -/
def errNoSuchUser (user addr : Bytes) : MyError where
  code := 1449
  message := ascii "The user specified as a definer ('" ++ truncateRunes 64 user ++ ascii "'@'" ++
    truncateRunes 64 addr ++ ascii "') does not exist"
  state := ascii "HY000"

/-- `NewDefaultError(ER_ACCESS_DENIED_ERROR, addr, user, "Yes")`.  The text has the user first, so
the two change places in it. -/
def errAccessDenied (addr user : Bytes) : MyError where
  code := 1045
  message := ascii "Access denied for user '" ++ truncateRunes 48 addr ++ ascii "'@'" ++
    truncateRunes 64 user ++ ascii "' (using password: Yes)"
  state := ascii "28000"

/-! ## The server -/

def clientLongPassword : UInt32 := 0x0001
def clientLongFlag : UInt32 := 0x0004
def clientConnectWithDB : UInt32 := 0x0008
def clientProtocol41 : UInt32 := 0x0200
def clientTransactions : UInt32 := 0x2000
def clientSecureConnection : UInt32 := 0x8000

/-- What `writeInitialHandshake` offers. -/
def serverCapability : UInt32 :=
  clientLongPassword ||| clientLongFlag ||| clientConnectWithDB ||| clientProtocol41 |||
    clientTransactions ||| clientSecureConnection

/-- `mysql.Conn` in the handshake. -/
structure ServerConn where
  capability : UInt32
  connectionID : UInt32
  status : UInt16
  user : Bytes
  salt : Bytes
  remoteAddr : Bytes
  salt_length : salt.length = 20

/-- `Result` in `writeOK`. -/
structure OkResult where
  affectedRows : UInt64
  insertId : UInt64
  status : UInt16
  deriving DecidableEq

/-- `PutLengthEncodedInt`. -/
def putLengthEncodedInt (n : UInt64) : Bytes :=
  if n ≤ 250 then [n.toUInt8]
  else if n ≤ 0xffff then 0xfc :: Bytes.leBytes 2 n.toNat
  else if n ≤ 0xffffff then 0xfd :: Bytes.leBytes 3 n.toNat
  else 0xfe :: Bytes.leBytes 8 n.toNat

namespace ServerConn

/-- The payload of `writeInitialHandshake` behind the version. -/
def greetingTail (c : ServerConn) : Bytes :=
  List.flatten [Bytes.leBytes 4 c.connectionID.toNat, c.salt.take 8, [0],
    Bytes.leBytes 2 serverCapability.toNat, [33], Bytes.leBytes 2 c.status.toNat,
    Bytes.leBytes 2 (serverCapability >>> 16).toNat, [0x15], Bytes.zeros 10, c.salt.drop 8, [0]]

/-- The payload of `writeInitialHandshake`. -/
def initialHandshake (c : ServerConn) (serverVersion : Bytes) : Bytes :=
  (10 :: serverVersion ++ [0]) ++ c.greetingTail

/-- The payload of `writeOK`. -/
def okPayload (c : ServerConn) (r : OkResult) : Bytes :=
  0x00 :: (putLengthEncodedInt r.affectedRows ++ (putLengthEncodedInt r.insertId ++
    if 0 < c.capability &&& clientProtocol41 then
      Bytes.leBytes 2 (r.status ||| c.status).toNat ++ [0, 0]
    else []))

/-- The payload of `writeError`. -/
def errorPayload (c : ServerConn) (e : MyError) : Bytes :=
  0xff :: (Bytes.leBytes 2 e.code.toNat ++
    ((if 0 < c.capability &&& clientProtocol41 then 35 :: e.state else []) ++ e.message))

/-- What `readHandshakeResponse` does behind the user name. -/
def readAuth (h : Sha1) (c : ServerConn) (password : Bytes) (data : GoSlice) (pos : Nat) :
    Option (Option MyError) :=
  (data.index pos).bind fun authLen =>
    (data.range (pos + 1) (pos + 1 + authLen.toNat)).bind fun auth =>
      if auth ≠ calcPassword h c.salt password then
        some (some (errAccessDenied c.remoteAddr c.user))
      else
        -- the test of `CLIENT_CONNECT_WITH_DB` uses `|` and is always true
        (data.tail (pos + 1 + authLen.toNat)).bind fun t =>
          if t.bytes = [] then some none
          else
            (GoSlice.indexByte t.bytes 0).bind fun n =>
              (data.range (pos + 1 + authLen.toNat) (pos + 1 + authLen.toNat + n)).map fun _ => none

/-- `readHandshakeResponse`: the capability of the client and the error, `none` where it panics. -/
def readHandshakeResponse (h : Sha1) (c : ServerConn) (password : Bytes) (data : GoSlice) :
    Option (UInt32 × Option MyError) :=
  (data.range 0 4).bind fun head =>
    (data.tail 32).bind fun t =>
      -- without a zero byte the end of the name is in front of its start
      (GoSlice.indexByte t.bytes 0).bind fun n =>
        (data.range 32 (32 + n)).bind fun user =>
          if c.user ≠ user then
            some (UInt32.ofNat (Bytes.leNat head), some (errNoSuchUser user c.remoteAddr))
          else
            (c.readAuth h password data (32 + user.length + 1)).map
              (UInt32.ofNat (Bytes.leNat head), ·)

end ServerConn

/-! ## The client -/

/-- `client.Conn`. -/
structure ClientConn where
  user : Bytes
  password : Bytes
  db : Bytes
  capability : UInt32
  status : UInt16
  salt : Bytes
  connectionID : UInt32
  deriving DecidableEq

/-- `LengthEncodedInt`, with the number of bytes that were read. -/
def lengthEncodedInt (b : GoSlice) : Option (Nat × Nat) :=
  (b.index 0).bind fun first =>
    if first = 0xfb then some (0, 1)
    else if first = 0xfc then (b.le 1 2).map (·, 3)
    else if first = 0xfd then (b.le 1 3).map (·, 4)
    else if first = 0xfe then (b.le 1 8).map (·, 9)
    else some (first.toNat, 1)

/-- `client/auth.go` and `client/resp.go`, as far as the errors go. -/
inductive ClientError where
  | initialHandshake
  | protocolVersion (version : UInt8)
  | invalidOK
  | refused (e : MyError)
  deriving DecidableEq

namespace ClientConn

/-- What `writeAuthHandshake` asks for. -/
def authCapability (c : ClientConn) : UInt32 :=
  let capability := (clientProtocol41 ||| clientSecureConnection ||| clientLongPassword |||
    clientTransactions ||| clientLongFlag) &&& c.capability
  if 0 < c.db.length then capability ||| clientConnectWithDB else capability

/-- `readInitialHandshake`, `none` where it panics. -/
def readInitialHandshake (c : ClientConn) (data : GoSlice) :
    Option (Except ClientError ClientConn) :=
  (data.index 0).bind fun version =>
    if version = 0xff then some (.error .initialHandshake)
    else if version < 10 then some (.error (.protocolVersion version))
    else
      (data.tail 1).bind fun t =>
        let pos := match GoSlice.indexByte t.bytes 0 with
          | some n => n + 2
          | none => 1
        (data.range pos (pos + 4)).bind fun connectionID =>
          (data.range (pos + 4) (pos + 12)).bind fun salt =>
            (data.range (pos + 13) (pos + 15)).bind fun low =>
              let c := { c with
                connectionID := UInt32.ofNat (Bytes.leNat connectionID)
                salt := salt
                capability := UInt32.ofNat (Bytes.leNat low) }
              if pos + 15 < data.bytes.length then
                (data.range (pos + 16) (pos + 18)).bind fun status =>
                  (data.range (pos + 18) (pos + 20)).bind fun high =>
                    (data.range (pos + 31) (pos + 43)).map fun salt' =>
                      .ok { c with
                        status := UInt16.ofNat (Bytes.leNat status)
                        capability := (UInt32.ofNat (Bytes.leNat high)) <<< 16 ||| c.capability
                        salt := salt ++ salt' }
              else some (.ok c)

/-- The payload of `writeAuthHandshake`. -/
def authHandshake (h : Sha1) (c : ClientConn) : Bytes :=
  let auth := calcPassword h c.salt c.password
  List.flatten [Bytes.leBytes 4 c.authCapability.toNat, Bytes.zeros 4, [33], Bytes.zeros 23] ++
    (c.user ++ (0 :: (UInt8.ofNat auth.length :: (auth ++
      ((if 0 < c.db.length then c.db ++ [0] else []) ++ (ascii "mysql_native_password" ++ [0]))))))

/-- `handleOKPacket`: the status. -/
def handleOKPacket (c : ClientConn) (data : GoSlice) : Option ClientConn :=
  (data.tail 1).bind fun t =>
    (lengthEncodedInt t).bind fun r =>
      (data.tail (1 + r.2)).bind fun t' =>
        (lengthEncodedInt t').bind fun r' =>
          if 0 < c.capability &&& clientProtocol41 ∨ 0 < c.capability &&& clientTransactions then
            (data.le (1 + r.2 + r'.2) 2).map fun status => { c with status := UInt16.ofNat status }
          else some c

/-- `handleErrorPacket`. -/
def handleErrorPacket (c : ClientConn) (data : GoSlice) : Option MyError :=
  (data.le 1 2).bind fun code =>
    if 0 < c.capability &&& clientProtocol41 then
      (data.range 4 9).bind fun state =>
        (data.tail 9).map fun t => ⟨UInt16.ofNat code, t.bytes, state⟩
    else (data.tail 3).map fun t => ⟨UInt16.ofNat code, t.bytes, []⟩

/-- `readOK`. -/
def readOK (c : ClientConn) (data : GoSlice) : Option (Except ClientError ClientConn) :=
  (data.index 0).bind fun first =>
    if first = 0x00 then (c.handleOKPacket data).map .ok
    else if first = 0xff then (c.handleErrorPacket data).map fun e => .error (.refused e)
    else some (.error .invalidOK)

end ClientConn

/-! ## The packets of the handshake -/

/-- The client's `ReadPacketTo`: it takes an empty packet as the end of a payload. -/
def ReadConn.clientReadPacketTo : Nat → ReadConn → Bytes → ReadConn × Except EventFailure Bytes
  | 0, c, _ => (c, .error (.panic "out of fuel"))
  | fuel + 1, c, w =>
      if c.input.length < 4 then
        ({ c with input := [] },
          .error (.error (if c.input = [] then "EOF" else "unexpected EOF")))
      else
        let header := c.input.take 4
        let length := Bytes.leNat (header.take 3)
        let c := { c with input := c.input.drop 4 }
        if header.getD 3 0 ≠ c.sequence then (c, .error (.error "invalid sequence %d != %d"))
        else
          let c := { c with sequence := c.sequence + 1 }
          if length = 0 then (c, .ok w)
          else if c.input.length < length then
            ({ c with input := [] }, .error (.error "connection was bad"))
          else
            let w := w ++ c.input.take length
            let c := { c with input := c.input.drop length }
            if length < maxPayloadLen then (c, .ok w) else clientReadPacketTo fuel c w

/-- The client's `ReadPacket`. -/
def ReadConn.clientReadPacket (c : ReadConn) : ReadConn × Except EventFailure Bytes :=
  clientReadPacketTo (c.input.length + 1) c []

section Packets
variable {seq : UInt8} {p : Bytes}

/-- A short payload is one packet. -/
theorem writePacket_short_append (hlt : p.length < maxPayloadLen) (w : Bytes) :
    BaseConn.writePacket ⟨seq, w⟩ (Bytes.zeros 4 ++ p) =
      .ok ⟨seq + 1, w ++ Packets.frame seq p⟩ := by
  have hdiv : p.length / maxPayloadLen = 0 := Nat.div_eq_of_lt hlt
  rw [writePacket_eq _ rfl, hdiv]
  rw [Packets.cut, Packets.cut, List.take_of_length_le (Nat.le_of_lt hlt), Packets.stream,
    Packets.stream, List.append_nil]
  rfl

theorem writePacket_short (hlt : p.length < maxPayloadLen) :
    BaseConn.writePacket ⟨seq, []⟩ (Bytes.zeros 4 ++ p) = .ok ⟨seq + 1, Packets.frame seq p⟩ :=
  writePacket_short_append hlt []

theorem readPacket_frame (hpos : p ≠ []) (hlt : p.length < maxPayloadLen) :
    ReadConn.readPacket ⟨seq, Packets.frame seq p⟩ = (⟨seq + 1, []⟩, .ok p) := by
  have hmax : maxPayloadLen < 2 ^ 24 := by decide
  have hread := @readPacketTo_frame seq p [] [] (Packets.frame seq p).length
    (List.length_pos_of_ne_nil hpos) (by omega)
  rw [if_pos hlt, List.append_nil, List.nil_append] at hread
  exact hread

theorem clientReadPacket_frame_append (hlt : p.length < maxPayloadLen) (rest : Bytes) :
    ReadConn.clientReadPacket ⟨seq, Packets.frame seq p ++ rest⟩ = (⟨seq + 1, rest⟩, .ok p) := by
  have hmax : maxPayloadLen < 2 ^ 24 := by decide
  have hlen : Bytes.leNat (Bytes.leBytes 3 p.length) = p.length :=
    Bytes.leNat_leBytes_of_lt (by omega)
  have hheader : (Bytes.leBytes 3 p.length ++ [seq]).take 3 = Bytes.leBytes 3 p.length :=
    List.take_left' (Bytes.length_leBytes 3 _)
  have hseq : (Bytes.leBytes 3 p.length ++ [seq]).getD 3 0 = seq := rfl
  have hroom : ¬ (Packets.frame seq p ++ rest).length < 4 := by
    rw [List.length_append, Packets.length_frame]
    omega
  have hwhole : ¬ (p ++ rest).length < p.length := by
    rw [List.length_append]
    omega
  rw [ReadConn.clientReadPacket]
  simp only [ReadConn.clientReadPacketTo, if_neg hroom, take_frame, drop_frame, hheader, hlen, hseq,
    ne_eq, not_true_eq_false, if_false, if_neg hwhole, List.take_left, List.drop_left,
    List.nil_append, if_pos hlt]
  by_cases h0 : p.length = 0
  · rw [if_pos h0, List.length_eq_zero_iff.mp h0, List.nil_append]
  · rw [if_neg h0]

theorem clientReadPacket_frame (hlt : p.length < maxPayloadLen) :
    ReadConn.clientReadPacket ⟨seq, Packets.frame seq p⟩ = (⟨seq + 1, []⟩, .ok p) := by
  have h := @clientReadPacket_frame_append seq p hlt []
  rwa [List.append_nil] at h

end Packets

/-! ## What the client reads of the greeting -/

theorem ofNat_leBytes_four (x : UInt32) :
    UInt32.ofNat (Bytes.leNat (Bytes.leBytes 4 x.toNat)) = x := by
  rw [Bytes.leNat_leBytes_of_lt x.toNat_lt, UInt32.ofNat_toNat]

theorem ofNat_leBytes_two (x : UInt16) :
    UInt16.ofNat (Bytes.leNat (Bytes.leBytes 2 x.toNat)) = x := by
  rw [Bytes.leNat_leBytes_of_lt x.toNat_lt, UInt16.ofNat_toNat]

section Greeting
variable (s : ServerConn) (spare : Bytes)

theorem length_greetingTail : s.greetingTail.length = 44 := by
  simp [ServerConn.greetingTail, s.salt_length]

theorem range_greetingTail :
    GoSlice.range ⟨s.greetingTail, spare⟩ 0 4 = some (Bytes.leBytes 4 s.connectionID.toNat) ∧
    GoSlice.range ⟨s.greetingTail, spare⟩ 4 12 = some (s.salt.take 8) ∧
    GoSlice.range ⟨s.greetingTail, spare⟩ 13 15 =
      some (Bytes.leBytes 2 serverCapability.toNat) ∧
    GoSlice.range ⟨s.greetingTail, spare⟩ 16 18 = some (Bytes.leBytes 2 s.status.toNat) ∧
    GoSlice.range ⟨s.greetingTail, spare⟩ 18 20 =
      some (Bytes.leBytes 2 (serverCapability >>> 16).toNat) ∧
    GoSlice.range ⟨s.greetingTail, spare⟩ 31 43 = some (s.salt.drop 8) := by
  have hsalt : (s.salt.take 8).length = 8 := by
    rw [List.length_take, s.salt_length]
    rfl
  have hsalt' : (s.salt.drop 8).length = 12 := by rw [List.length_drop, s.salt_length]
  refine ⟨?_, ?_, ?_, ?_, ?_, ?_⟩
  · exact GoSlice.range_flatten [] _ rfl rfl
  · exact GoSlice.range_flatten [Bytes.leBytes 4 s.connectionID.toNat] _ rfl (by rw [hsalt])
  · exact GoSlice.range_flatten [Bytes.leBytes 4 s.connectionID.toNat, s.salt.take 8, [0]] _
      (by simp [hsalt]) rfl
  · exact GoSlice.range_flatten [Bytes.leBytes 4 s.connectionID.toNat, s.salt.take 8, [0],
      Bytes.leBytes 2 serverCapability.toNat, [33]] _ (by simp [hsalt]) rfl
  · exact GoSlice.range_flatten [Bytes.leBytes 4 s.connectionID.toNat, s.salt.take 8, [0],
      Bytes.leBytes 2 serverCapability.toNat, [33], Bytes.leBytes 2 s.status.toNat] _
      (by simp [hsalt]) rfl
  · exact GoSlice.range_flatten [Bytes.leBytes 4 s.connectionID.toNat, s.salt.take 8, [0],
      Bytes.leBytes 2 serverCapability.toNat, [33], Bytes.leBytes 2 s.status.toNat,
      Bytes.leBytes 2 (serverCapability >>> 16).toNat, [0x15], Bytes.zeros 10] _
      (by simp [hsalt]) (by rw [hsalt'])

/-- The client has the salt, the id and the capabilities of the server. -/
theorem readInitialHandshake_greeting (c : ClientConn) {version : Bytes}
    (hversion : (0 : UInt8) ∉ version) :
    c.readInitialHandshake ⟨s.initialHandshake version, spare⟩ =
      some (.ok { c with
        connectionID := s.connectionID
        salt := s.salt
        capability := serverCapability
        status := s.status }) := by
  have hlen : version.length + 2 = (10 :: version ++ [(0 : UInt8)]).length := by simp
  have htail : GoSlice.tail ⟨s.initialHandshake version, spare⟩ 1 =
      some ⟨version ++ 0 :: s.greetingTail, spare⟩ := by
    have heq : s.initialHandshake version = [10] ++ (version ++ 0 :: s.greetingTail) := by
      simp [ServerConn.initialHandshake]
    rw [heq]
    exact GoSlice.tail_append rfl
  have hrange : ∀ lo hi, GoSlice.range ⟨s.initialHandshake version, spare⟩
      (version.length + 2 + lo) (version.length + 2 + hi) =
        GoSlice.range ⟨s.greetingTail, spare⟩ lo hi := by
    intro lo hi
    rw [hlen]
    exact GoSlice.range_add _ _
  obtain ⟨hid, hsalt, hlow, hstatus, hhigh, hsalt'⟩ := range_greetingTail s spare
  have hlong : version.length + 2 + 15 < (s.initialHandshake version).length := by
    rw [ServerConn.initialHandshake, List.length_append, ← hlen, length_greetingTail]
    omega
  have hid' := (hrange 0 4).trans hid
  rw [Nat.add_zero] at hid'
  have hcap : UInt32.ofNat (Bytes.leNat (Bytes.leBytes 2 (serverCapability >>> 16).toNat)) <<< 16 |||
      UInt32.ofNat (Bytes.leNat (Bytes.leBytes 2 serverCapability.toNat)) = serverCapability := by
    decide
  rw [ClientConn.readInitialHandshake]
  change Option.bind (some (10 : UInt8)) _ = _
  simp only [Option.bind_some, htail, GoSlice.indexByte_append hversion, hid',
    (hrange 4 12).trans hsalt, (hrange 13 15).trans hlow, if_pos hlong,
    (hrange 16 18).trans hstatus, (hrange 18 20).trans hhigh, (hrange 31 43).trans hsalt',
    Option.map_some, ofNat_leBytes_four, ofNat_leBytes_two, hcap, List.take_append_drop]
  rfl

end Greeting

/-! ## What the server reads of the response -/

section Response
variable {h : Sha1} {c : ServerConn} {password : Bytes} {head user rest spare : Bytes}

theorem range_head {b : Bytes} (hhead : head.length = 32) :
    GoSlice.range ⟨head ++ b, spare⟩ 0 4 = some (head.take 4) := by
  have hsplit : head ++ b = [] ++ (head.take 4 ++ (head.drop 4 ++ b)) := by
    rw [List.nil_append, ← List.append_assoc, List.take_append_drop]
  rw [hsplit]
  refine GoSlice.range_append rfl ?_
  rw [List.length_take, hhead]
  rfl

/-- Without a zero byte behind the fixed part there is no user, and the server panics. -/
theorem readHandshakeResponse_eq_none {data : GoSlice} (hno : (0 : UInt8) ∉ data.bytes.drop 32) :
    c.readHandshakeResponse h password data = none := by
  rw [ServerConn.readHandshakeResponse]
  cases data.range 0 4 with
  | none => rfl
  | some capability =>
      rw [Option.bind_some, GoSlice.tail]
      by_cases hlen : 32 ≤ data.bytes.length
      · rw [if_pos hlen, Option.bind_some, GoSlice.indexByte_eq_none.mpr hno]
        rfl
      · rw [if_neg hlen]
        rfl

/-- The user and what follows it. -/
theorem readHandshakeResponse_user (hhead : head.length = 32) (huser : (0 : UInt8) ∉ user) :
    c.readHandshakeResponse h password ⟨head ++ (user ++ 0 :: rest), spare⟩ =
      if c.user ≠ user then
        some (UInt32.ofNat (Bytes.leNat (head.take 4)), some (errNoSuchUser user c.remoteAddr))
      else
        (c.readAuth h password ⟨head ++ (user ++ 0 :: rest), spare⟩
          (head ++ (user ++ [0])).length).map (UInt32.ofNat (Bytes.leNat (head.take 4)), ·) := by
  have hpos : (head ++ (user ++ [(0 : UInt8)])).length = 32 + user.length + 1 := by
    rw [List.length_append, List.length_append, hhead, List.length_singleton]
    omega
  rw [ServerConn.readHandshakeResponse, range_head hhead, Option.bind_some,
    GoSlice.tail_append hhead.symm, Option.bind_some, GoSlice.indexByte_append huser,
    Option.bind_some, GoSlice.range_append hhead.symm rfl, Option.bind_some, hpos]

/-- What is behind the user: the length of the hash, the hash and a database. -/
theorem readAuth_cons (pre : Bytes) (n : UInt8) (body : Bytes) :
    c.readAuth h password ⟨pre ++ n :: body, spare⟩ pre.length =
      (Bytes.slice (body ++ spare) 0 n.toNat).bind fun auth =>
        if auth ≠ calcPassword h c.salt password then
          some (some (errAccessDenied c.remoteAddr c.user))
        else if n.toNat ≤ body.length ∧ (body.drop n.toNat = [] ∨ (0 : UInt8) ∈ body.drop n.toNat) then
          some none
        else none := by
  have hpre : pre ++ n :: body = (pre ++ [n]) ++ body := by rw [List.append_assoc]; rfl
  have hlen : pre.length + 1 = (pre ++ [n]).length := by rw [List.length_append]; rfl
  have hrange : GoSlice.range ⟨pre ++ n :: body, spare⟩ (pre.length + 1)
      (pre.length + 1 + n.toNat) = Bytes.slice (body ++ spare) 0 n.toNat := by
    have hadd := @GoSlice.range_add spare 0 n.toNat (pre ++ [n]) body
    rw [Nat.add_zero] at hadd
    rw [hpre, hlen, hadd]
    rfl
  rw [ServerConn.readAuth, GoSlice.index_append rfl, Option.bind_some, hrange]
  cases Bytes.slice (body ++ spare) 0 n.toNat with
  | none => rfl
  | some auth =>
      rw [Option.bind_some, Option.bind_some]
      by_cases hauth : auth ≠ calcPassword h c.salt password
      · rw [if_pos hauth, if_pos hauth]
      rw [if_neg hauth, if_neg hauth]
      by_cases hle : n.toNat ≤ body.length
      · have hstart : pre.length + 1 + n.toNat = (pre ++ [n] ++ body.take n.toNat).length := by
          rw [List.length_append, ← hlen, List.length_take, Nat.min_eq_left hle]
        have hall : pre ++ n :: body = (pre ++ [n] ++ body.take n.toNat) ++ body.drop n.toNat := by
          rw [hpre, List.append_assoc _ (body.take n.toNat), List.take_append_drop]
        have htail : GoSlice.tail ⟨pre ++ n :: body, spare⟩ (pre.length + 1 + n.toNat) =
            some ⟨body.drop n.toNat, spare⟩ := by
          rw [hall]
          exact GoSlice.tail_append hstart
        rw [htail, Option.bind_some]
        by_cases hnil : body.drop n.toNat = []
        · rw [if_pos hnil, if_pos ⟨hle, .inl hnil⟩]
        rw [if_neg hnil]
        by_cases hzero : (0 : UInt8) ∈ body.drop n.toNat
        · obtain ⟨db, more, hdb, hno⟩ := List.eq_append_cons_of_mem hzero
          rw [if_pos ⟨hle, .inr hzero⟩, hall, hdb, GoSlice.indexByte_append hno, Option.bind_some,
            GoSlice.range_append hstart rfl]
          rfl
        · have hno : ¬ (n.toNat ≤ body.length ∧
              (body.drop n.toNat = [] ∨ (0 : UInt8) ∈ body.drop n.toNat)) := by
            rintro ⟨-, hor⟩
            exact hor.elim hnil hzero
          rw [if_neg hno, GoSlice.indexByte_eq_none.mpr hzero]
          rfl
      · have htail : GoSlice.tail ⟨pre ++ n :: body, spare⟩ (pre.length + 1 + n.toNat) = none := by
          rw [GoSlice.tail, if_neg]
          rw [hpre, List.length_append, ← hlen]
          omega
        rw [htail, if_neg fun hand => hle hand.1]
        rfl

theorem readAuth_nil (pre : Bytes) :
    c.readAuth h password ⟨pre, spare⟩ pre.length = none := by
  rw [ServerConn.readAuth, GoSlice.index, List.getElem?_eq_none (Nat.le_refl _)]
  rfl

end Response

/-! ## Any packet -/

/-- What stands behind the user name makes the server panic: nothing, a length beyond the array,
or the hash it asks for with less behind it than the length says or a database without an end. -/
def AuthPanics (hash spare : Bytes) : Bytes → Prop
  | [] => True
  | n :: body =>
      body.length + spare.length < n.toNat ∨
        ((body ++ spare).take n.toNat = hash ∧
          (body.length < n.toNat ∨ body.drop n.toNat ≠ [] ∧ (0 : UInt8) ∉ body.drop n.toNat))

theorem first_zero_unique {a a' b b' : Bytes} (ha : (0 : UInt8) ∉ a) (ha' : (0 : UInt8) ∉ a')
    (h : a ++ 0 :: b = a' ++ 0 :: b') : a = a' ∧ b = b' := by
  have hlen : a.length = a'.length := by
    have hindex := GoSlice.indexByte_append (c := b) ha
    rw [h, GoSlice.indexByte_append ha'] at hindex
    exact (Option.some.inj hindex).symm
  obtain ⟨hhead, htail⟩ := List.append_inj h hlen
  exact ⟨hhead, (List.cons.inj htail).2⟩

section Outcomes
variable {h : Sha1} {c : ServerConn} {password rest spare pre : Bytes}

theorem slice_zero {b : Bytes} {n : Nat} :
    Bytes.slice b 0 n = if n ≤ b.length then some (b.take n) else none := by
  rw [Bytes.slice, List.drop_zero, Nat.sub_zero]
  simp only [Nat.zero_le, true_and]

theorem readAuth_accepts_iff :
    c.readAuth h password ⟨pre ++ rest, spare⟩ pre.length = some none ↔
      ∃ more, rest = UInt8.ofNat (calcPassword h c.salt password).length ::
        (calcPassword h c.salt password ++ more) ∧ (more = [] ∨ (0 : UInt8) ∈ more) := by
  have hle := length_calcPassword h c.salt password
  cases rest with
  | nil =>
      rw [List.append_nil, readAuth_nil]
      simp
  | cons n body =>
      rw [readAuth_cons, slice_zero]
      constructor
      · intro haccept
        by_cases hlen : n.toNat ≤ (body ++ spare).length
        · rw [if_pos hlen, Option.bind_some] at haccept
          by_cases hauth : (body ++ spare).take n.toNat ≠ calcPassword h c.salt password
          · rw [if_pos hauth] at haccept
            cases haccept
          rw [if_neg hauth] at haccept
          split at haccept
          · next hrest =>
            have hhash := not_not.mp hauth
            rw [List.take_append_of_le_length hrest.1] at hhash
            have hn : (calcPassword h c.salt password).length = n.toNat := by
              rw [← hhash, List.length_take, Nat.min_eq_left hrest.1]
            refine ⟨body.drop n.toNat, ?_, hrest.2⟩
            rw [hn, UInt8.ofNat_toNat, ← hhash, List.take_append_drop]
          · cases haccept
        · rw [if_neg hlen] at haccept
          cases haccept
      · rintro ⟨more, heq, hmore⟩
        obtain ⟨rfl, rfl⟩ := List.cons.inj heq
        have hn : (UInt8.ofNat (calcPassword h c.salt password).length).toNat =
            (calcPassword h c.salt password).length := by
          rw [UInt8.toNat_ofNat']
          omega
        rw [hn, if_pos (by simp), Option.bind_some, List.append_assoc, List.take_left,
          if_neg (not_not.mpr rfl), List.drop_left, if_pos ⟨by simp, hmore⟩]

theorem readAuth_panics_iff :
    c.readAuth h password ⟨pre ++ rest, spare⟩ pre.length = none ↔
      AuthPanics (calcPassword h c.salt password) spare rest := by
  cases rest with
  | nil =>
      rw [List.append_nil, readAuth_nil]
      exact iff_of_true rfl trivial
  | cons n body =>
      rw [readAuth_cons, slice_zero, AuthPanics]
      by_cases hlen : n.toNat ≤ (body ++ spare).length
      · have hno : ¬ body.length + spare.length < n.toNat := by
          rw [List.length_append] at hlen
          omega
        rw [if_pos hlen, Option.bind_some]
        by_cases hauth : (body ++ spare).take n.toNat = calcPassword h c.salt password
        · rw [if_neg (not_not.mpr hauth)]
          by_cases hle : n.toNat ≤ body.length
          · by_cases hnil : body.drop n.toNat = []
            · simp [hno, hauth, hle, hnil]
            · by_cases hzero : (0 : UInt8) ∈ body.drop n.toNat
              · simp [hno, hauth, hle, hzero]
              · simp [hno, hauth, hle, hnil, hzero]
          · simp [hno, hauth, hle, Nat.lt_of_not_le hle]
        · rw [if_pos hauth]
          simp [hno, hauth]
      · have hyes : body.length + spare.length < n.toNat := by
          rw [List.length_append] at hlen
          omega
        rw [if_neg hlen]
        exact iff_of_true rfl (.inl hyes)

end Outcomes

/-- **What the server makes of any packet.**  It lets a client in exactly when the packet has the
user, the hash and either nothing or a terminated string behind it.  It panics exactly when there
is no zero byte behind the fixed part, or when the user is right and `AuthPanics` holds of what
follows. -/
theorem handshake_response_outcomes (h : Sha1) (c : ServerConn) (password : Bytes)
    (data : GoSlice) (huser : (0 : UInt8) ∉ c.user) :
    ((∃ capability, c.readHandshakeResponse h password data = some (capability, none)) ↔
      ∃ head more, head.length = 32 ∧ (more = [] ∨ (0 : UInt8) ∈ more) ∧
        data.bytes = head ++ (c.user ++ 0 ::
          UInt8.ofNat (calcPassword h c.salt password).length ::
            (calcPassword h c.salt password ++ more))) ∧
    (c.readHandshakeResponse h password data = none ↔
      (0 : UInt8) ∉ data.bytes.drop 32 ∨
        ∃ head rest, head.length = 32 ∧ data.bytes = head ++ (c.user ++ 0 :: rest) ∧
          AuthPanics (calcPassword h c.salt password) data.spare rest) := by
  obtain ⟨bytes, spare⟩ := data
  have hdrop : ∀ {head b : Bytes}, head.length = 32 → (head ++ b).drop 32 = b := by
    intro head b hhead
    exact List.drop_left' hhead
  by_cases hzero : (0 : UInt8) ∈ bytes.drop 32
  · obtain ⟨user, rest, hsplit, hno⟩ := List.eq_append_cons_of_mem hzero
    have hhead : (bytes.take 32).length = 32 := by
      have hpos : 0 < (bytes.drop 32).length := List.length_pos_of_mem hzero
      rw [List.length_drop] at hpos
      rw [List.length_take]
      omega
    have hbytes : bytes = bytes.take 32 ++ (user ++ 0 :: rest) := by
      rw [← hsplit, List.take_append_drop]
    have hpre : bytes = (bytes.take 32 ++ (user ++ [0])) ++ rest := by
      rw [List.append_assoc, List.append_assoc]
      exact hbytes
    -- the user and the rest are those of any other way to cut the packet
    have hunique : ∀ {head' rest' : Bytes}, head'.length = 32 →
        bytes = head' ++ (c.user ++ 0 :: rest') → user = c.user ∧ rest = rest' := by
      intro head' rest' hhead' heq
      have hdrops := congrArg (List.drop 32) heq
      rw [hdrop hhead', hsplit] at hdrops
      exact first_zero_unique hno huser hdrops
    have hread := @readHandshakeResponse_user h c password (bytes.take 32) user rest spare hhead hno
    rw [← hbytes] at hread
    rw [hread]
    by_cases hname : c.user = user
    · subst hname
      rw [if_neg (not_not.mpr rfl)]
      have haccepts := @readAuth_accepts_iff h c password rest spare (bytes.take 32 ++ (c.user ++ [0]))
      have hpanics := @readAuth_panics_iff h c password rest spare (bytes.take 32 ++ (c.user ++ [0]))
      rw [← hpre] at haccepts hpanics
      constructor
      · constructor
        · rintro ⟨capability, hmap⟩
          obtain ⟨r, hr, heq⟩ := Option.map_eq_some_iff.mp hmap
          obtain rfl : r = none := (Prod.mk.inj heq).2
          obtain ⟨more, hrest, hmore⟩ := haccepts.mp hr
          exact ⟨bytes.take 32, more, hhead, hmore, hrest ▸ hbytes⟩
        · rintro ⟨head', more, hhead', hmore, heq⟩
          obtain ⟨-, hrest⟩ := hunique hhead' heq
          exact ⟨_, by rw [haccepts.mpr ⟨more, hrest, hmore⟩]; rfl⟩
      · rw [Option.map_eq_none_iff, hpanics]
        constructor
        · intro hp
          exact .inr ⟨bytes.take 32, rest, hhead, hbytes, hp⟩
        · rintro (hno' | ⟨head', rest', hhead', heq, hp⟩)
          · exact absurd hzero hno'
          · obtain ⟨-, rfl⟩ := hunique hhead' heq
            exact hp
    · rw [if_pos hname]
      constructor
      · refine iff_of_false (fun ⟨_, hc⟩ => ?_) fun ⟨head', more, hhead', _, heq⟩ => ?_
        · cases hc
        · exact hname (hunique hhead' heq).1.symm
      · refine iff_of_false (fun hc => ?_) ?_
        · cases hc
        · rintro (hno' | ⟨head', rest', hhead', heq, -⟩)
          · exact hno' hzero
          · exact hname (hunique hhead' heq).1.symm
  · rw [readHandshakeResponse_eq_none hzero]
    constructor
    · refine iff_of_false (fun ⟨_, hc⟩ => ?_) fun ⟨head', more, hhead', _, heq⟩ => hzero ?_
      · cases hc
      · change bytes = _ at heq
        rw [heq, hdrop hhead']
        exact List.mem_append_right _ List.mem_cons_self
    · exact iff_of_true rfl (.inl hzero)

/-- A server for the user `r`. -/
def sampleServer : ServerConn where
  capability := 0
  connectionID := 10001
  status := 0
  user := [114]
  salt := List.replicate 20 7
  remoteAddr := [49]
  salt_length := List.length_replicate

/-- Forty bytes without a zero are enough. -/
theorem handshake_response_panics :
    sampleServer.readHandshakeResponse sha1 [1] ⟨List.replicate 40 1, []⟩ = none :=
  (handshake_response_outcomes sha1 sampleServer [1] ⟨List.replicate 40 1, []⟩
    (by decide)).2.mpr (.inl (by decide))

/-! ## Both sides -/

/-- How a handshake ends: both connections, and what `Connect` of the client returns. -/
structure HandshakeEnd where
  server : ServerConn
  serverSequence : UInt8
  client : ClientConn
  clientSequence : UInt8
  refused : Option MyError

/-- A panic ends it, and so does an error of the client that is not one of the server. -/
def ofPanic {α : Type} : Option α → Except EventFailure α
  | none => .error (.panic "runtime error")
  | some a => .ok a

/-- `handshake` of both sides, over a connection that delivers every byte.  The spare bytes are
those behind the packets in the buffers they are read into. -/
def handshake (h : Sha1) (s : ServerConn) (version password : Bytes) (c : ClientConn)
    (spare spare' spare'' : Bytes) : Except EventFailure HandshakeEnd := do
  -- `writeInitialHandshake` and `readInitialHandshake`
  let greeting ← BaseConn.writePacket ⟨0, []⟩ (Bytes.zeros 4 ++ s.initialHandshake version)
  let (reader, data) := ReadConn.clientReadPacket ⟨0, greeting.written⟩
  let read ← ofPanic (c.readInitialHandshake ⟨← data, spare⟩)
  let c ← read.mapError fun _ => .error "client"
  -- `writeAuthHandshake` and `readHandshakeResponse`
  let response ← BaseConn.writePacket ⟨reader.sequence, []⟩ (Bytes.zeros 4 ++ c.authHandshake h)
  let c := { c with capability := c.authCapability }
  let (reader, data) := ReadConn.readPacket ⟨greeting.sequence, response.written⟩
  let (capability, refused) ← ofPanic (s.readHandshakeResponse h password ⟨← data, spare'⟩)
  let s := { s with capability := capability }
  -- `writeOK` or `writeError`, and `readOK`
  let answer := match refused with
    | none => s.okPayload ⟨0, 0, 0⟩
    | some e => s.errorPayload e
  let reply ← BaseConn.writePacket ⟨reader.sequence, []⟩ (Bytes.zeros 4 ++ answer)
  let (reader, data) := ReadConn.clientReadPacket ⟨response.sequence, reply.written⟩
  match ← ofPanic (c.readOK ⟨← data, spare''⟩) with
  -- the server resets its sequence when it has let the client in
  | .ok c => .ok ⟨s, 0, c, reader.sequence, none⟩
  | .error (.refused e) => .ok ⟨s, reply.sequence, c, reader.sequence, some e⟩
  | .error _ => .error (.error "client")

section Lengths

theorem runeShape_le (b : UInt8) : (runeShape b).1 ≤ 4 := by
  unfold runeShape
  repeat' split
  all_goals decide

theorem runeLen_le (s : Bytes) : runeLen s ≤ 4 := by
  cases s with
  | nil => exact Nat.zero_le 4
  | cons b t =>
      have hshape := runeShape_le b
      simp only [runeLen]
      split
      · exact hshape
      · decide

theorem length_truncateRunes (n : Nat) (s : Bytes) : (truncateRunes n s).length ≤ 4 * n := by
  induction n generalizing s with
  | zero => exact Nat.le_refl _
  | succ n ih =>
      have hrune := runeLen_le s
      have hrest := ih (s.drop (runeLen s))
      rw [truncateRunes, List.length_append, List.length_take]
      omega

/-- The errors of the handshake fit into a packet. -/
theorem length_errorPayload (s : ServerConn) (e : MyError) (hstate : e.state.length = 5)
    (hmessage : e.message.length ≤ 1000) : (s.errorPayload e).length < maxPayloadLen := by
  have hmax : 2000 < maxPayloadLen := by decide
  rw [ServerConn.errorPayload, List.length_cons, List.length_append, List.length_append,
    Bytes.length_leBytes]
  split
  · rw [List.length_cons]
    omega
  · rw [List.length_nil]
    omega

theorem length_okPayload (s : ServerConn) : (s.okPayload ⟨0, 0, 0⟩).length < maxPayloadLen := by
  have hmax : 7 < maxPayloadLen := by decide
  have hzero : putLengthEncodedInt 0 = [0] := rfl
  rw [ServerConn.okPayload, hzero]
  split
  · simp only [List.length_cons, List.length_append, List.length_nil, Bytes.length_leBytes]
    omega
  · simp only [List.length_cons, List.length_append, List.length_nil]
    omega

theorem length_errNoSuchUser (user addr : Bytes) : (errNoSuchUser user addr).message.length ≤ 1000 := by
  have huser := length_truncateRunes 64 user
  have haddr := length_truncateRunes 64 addr
  have h1 : (ascii "The user specified as a definer ('").length = 34 := rfl
  have h2 : (ascii "'@'").length = 3 := rfl
  have h3 : (ascii "') does not exist").length = 17 := rfl
  simp only [errNoSuchUser, List.length_append]
  omega

theorem length_errAccessDenied (addr user : Bytes) :
    (errAccessDenied addr user).message.length ≤ 1000 := by
  have haddr := length_truncateRunes 48 addr
  have huser := length_truncateRunes 64 user
  have h1 : (ascii "Access denied for user '").length = 24 := rfl
  have h2 : (ascii "'@'").length = 3 := rfl
  have h3 : (ascii "' (using password: Yes)").length = 23 := rfl
  simp only [errAccessDenied, List.length_append]
  omega

end Lengths

/-! ### What the client reads of the answer -/

section Answer
variable {c : ClientConn} {s : ServerConn} {spare rest : Bytes}

theorem lengthEncodedInt_cons (first : UInt8) (t : Bytes) :
    lengthEncodedInt ⟨first :: t, spare⟩ =
      if first = 0xfb then some (0, 1)
      else if first = 0xfc then (GoSlice.le ⟨[first] ++ t, spare⟩ 1 2).map (·, 3)
      else if first = 0xfd then (GoSlice.le ⟨[first] ++ t, spare⟩ 1 3).map (·, 4)
      else if first = 0xfe then (GoSlice.le ⟨[first] ++ t, spare⟩ 1 8).map (·, 9)
      else some (first.toNat, 1) := rfl

theorem lengthEncodedInt_put (n : UInt64) :
    lengthEncodedInt ⟨putLengthEncodedInt n ++ rest, spare⟩ =
      some (n.toNat, (putLengthEncodedInt n).length) := by
  have hn := n.toNat_lt
  have hread : ∀ (first : UInt8) (k : Nat), n.toNat < 256 ^ k →
      GoSlice.le ⟨[first] ++ (Bytes.leBytes k n.toNat ++ rest), spare⟩ 1 k = some n.toNat :=
    fun first k hk => GoSlice.le_append rfl hk
  rw [putLengthEncodedInt]
  split
  · next h =>
    have hle : n.toNat ≤ 250 := UInt64.le_iff_toNat_le.mp h
    have hbyte : n.toUInt8.toNat = n.toNat := by
      rw [UInt64.toNat_toUInt8]
      omega
    have hne : ∀ x : UInt8, 250 < x.toNat → n.toUInt8 ≠ x := by
      rintro x hx rfl
      omega
    rw [List.singleton_append, lengthEncodedInt_cons, if_neg (hne 0xfb (by decide)),
      if_neg (hne 0xfc (by decide)), if_neg (hne 0xfd (by decide)), if_neg (hne 0xfe (by decide)),
      hbyte]
    rfl
  split
  · next h =>
    have hle : n.toNat ≤ 0xffff := UInt64.le_iff_toNat_le.mp h
    rw [List.cons_append, lengthEncodedInt_cons, if_neg (by decide), if_pos rfl,
      hread _ 2 (by omega), Option.map_some, List.length_cons, Bytes.length_leBytes]
  split
  · next h =>
    have hle : n.toNat ≤ 0xffffff := UInt64.le_iff_toNat_le.mp h
    rw [List.cons_append, lengthEncodedInt_cons, if_neg (by decide), if_neg (by decide), if_pos rfl,
      hread _ 3 (by omega), Option.map_some, List.length_cons, Bytes.length_leBytes]
  · rw [List.cons_append, lengthEncodedInt_cons, if_neg (by decide), if_neg (by decide),
      if_neg (by decide), if_pos rfl, hread _ 8 (by omega), Option.map_some,
      List.length_cons, Bytes.length_leBytes]

/-- What the client makes of what `writeOK` wrote. -/
theorem handleOKPacket_okPayload (r : OkResult) (hc : 0 < c.capability &&& clientProtocol41)
    (hs : 0 < s.capability &&& clientProtocol41) :
    c.handleOKPacket ⟨s.okPayload r, spare⟩ = some { c with status := r.status ||| s.status } := by
  have hpayload : s.okPayload r = [0x00] ++ (putLengthEncodedInt r.affectedRows ++
      (putLengthEncodedInt r.insertId ++
        (Bytes.leBytes 2 (r.status ||| s.status).toNat ++ [0, 0]))) := by
    rw [ServerConn.okPayload, if_pos hs]
    rfl
  have htail : GoSlice.tail ⟨s.okPayload r, spare⟩ (1 + (putLengthEncodedInt r.affectedRows).length) =
      some ⟨putLengthEncodedInt r.insertId ++
        (Bytes.leBytes 2 (r.status ||| s.status).toNat ++ [0, 0]), spare⟩ := by
    rw [hpayload, ← List.append_assoc [0x00]]
    exact GoSlice.tail_append (by rw [List.length_append, List.length_singleton])
  have hstatus : GoSlice.le ⟨s.okPayload r, spare⟩ (1 + (putLengthEncodedInt r.affectedRows).length +
      (putLengthEncodedInt r.insertId).length) 2 = some (r.status ||| s.status).toNat := by
    rw [hpayload, ← List.append_assoc [0x00], ← List.append_assoc ([0x00] ++ _)]
    refine GoSlice.le_append ?_ (UInt16.toNat_lt _)
    rw [List.length_append, List.length_append, List.length_singleton]
  have hfirst : GoSlice.tail ⟨s.okPayload r, spare⟩ 1 = some ⟨putLengthEncodedInt r.affectedRows ++
      (putLengthEncodedInt r.insertId ++
        (Bytes.leBytes 2 (r.status ||| s.status).toNat ++ [0, 0])), spare⟩ := by
    rw [hpayload]
    exact GoSlice.tail_append rfl
  rw [ClientConn.handleOKPacket, hfirst, Option.bind_some, lengthEncodedInt_put, Option.bind_some,
    htail, Option.bind_some, lengthEncodedInt_put, Option.bind_some, if_pos (.inl hc), hstatus,
    Option.map_some, UInt16.ofNat_toNat]

theorem readOK_okPayload (r : OkResult) (hc : 0 < c.capability &&& clientProtocol41)
    (hs : 0 < s.capability &&& clientProtocol41) :
    c.readOK ⟨s.okPayload r, spare⟩ = some (.ok { c with status := r.status ||| s.status }) := by
  have hzero : GoSlice.index ⟨s.okPayload r, spare⟩ 0 = some 0 := rfl
  rw [ClientConn.readOK, hzero, Option.bind_some, if_pos rfl, handleOKPacket_okPayload r hc hs,
    Option.map_some]

/-- What the client makes of what `writeError` wrote. -/
theorem handleErrorPacket_errorPayload {e : MyError} (hstate : e.state.length = 5)
    (hc : 0 < c.capability &&& clientProtocol41) (hs : 0 < s.capability &&& clientProtocol41) :
    c.handleErrorPacket ⟨s.errorPayload e, spare⟩ = some e := by
  have hpayload : s.errorPayload e =
      [0xff] ++ (Bytes.leBytes 2 e.code.toNat ++ (35 :: (e.state ++ e.message))) := by
    rw [ServerConn.errorPayload, if_pos hs]
    rfl
  have hcode : GoSlice.le ⟨s.errorPayload e, spare⟩ 1 2 = some e.code.toNat := by
    rw [hpayload]
    exact GoSlice.le_append rfl e.code.toNat_lt
  have hlen : ([0xff] ++ (Bytes.leBytes 2 e.code.toNat ++ [35]) : Bytes).length = 4 := by simp
  have hsplit : s.errorPayload e =
      ([0xff] ++ (Bytes.leBytes 2 e.code.toNat ++ [35])) ++ (e.state ++ e.message) := by
    rw [hpayload]
    simp
  have hrange : GoSlice.range ⟨s.errorPayload e, spare⟩ 4 9 = some e.state := by
    rw [hsplit]
    exact GoSlice.range_append hlen.symm (by rw [hstate])
  have htail : GoSlice.tail ⟨s.errorPayload e, spare⟩ 9 = some ⟨e.message, spare⟩ := by
    rw [hsplit, ← List.append_assoc]
    exact GoSlice.tail_append (by rw [List.length_append, hlen, hstate])
  rw [ClientConn.handleErrorPacket, hcode, Option.bind_some, if_pos hc, hrange, Option.bind_some,
    htail, Option.map_some, UInt16.ofNat_toNat]

theorem readOK_errorPayload {e : MyError} (hstate : e.state.length = 5)
    (hc : 0 < c.capability &&& clientProtocol41) (hs : 0 < s.capability &&& clientProtocol41) :
    c.readOK ⟨s.errorPayload e, spare⟩ = some (.error (.refused e)) := by
  have hfirst : GoSlice.index ⟨s.errorPayload e, spare⟩ 0 = some 0xff := rfl
  rw [ClientConn.readOK, hfirst, Option.bind_some, if_neg (by decide), if_pos rfl,
    handleErrorPacket_errorPayload hstate hc hs, Option.map_some]

end Answer

/-! ### The whole handshake -/

/-- What the client knows of the server when it answers. -/
def ClientConn.greeted (c : ClientConn) (s : ServerConn) : ClientConn :=
  { c with
    connectionID := s.connectionID
    salt := s.salt
    capability := serverCapability
    status := s.status }

theorem protocol41_greeted (c : ClientConn) (s : ServerConn) :
    0 < (c.greeted s).authCapability &&& clientProtocol41 := by
  have hcap : (c.greeted s).authCapability =
      let capability := (clientProtocol41 ||| clientSecureConnection ||| clientLongPassword |||
        clientTransactions ||| clientLongFlag) &&& serverCapability
      if 0 < c.db.length then capability ||| clientConnectWithDB else capability := rfl
  rw [hcap]
  by_cases hdb : 0 < c.db.length
  · rw [if_pos hdb]
    decide
  · rw [if_neg hdb]
    decide

/-- The verdict on a client. -/
def verdict (h : Sha1) (s : ServerConn) (password : Bytes) (c : ClientConn) : Option MyError :=
  if s.user ≠ c.user then some (errNoSuchUser c.user s.remoteAddr)
  else if calcPassword h s.salt c.password ≠ calcPassword h s.salt password then
    some (errAccessDenied s.remoteAddr s.user)
  else none

theorem verdict_eq_none_iff {h : Sha1} {s : ServerConn} {password : Bytes} {c : ClientConn} :
    verdict h s password c = none ↔ s.user = c.user ∧
      calcPassword h s.salt c.password = calcPassword h s.salt password := by
  rw [verdict]
  by_cases huser : s.user = c.user
  · rw [if_neg (not_not_intro huser)]
    by_cases hpass : calcPassword h s.salt c.password = calcPassword h s.salt password
    · rw [if_neg (not_not_intro hpass)]
      exact iff_of_true rfl ⟨huser, hpass⟩
    · rw [if_pos hpass]
      exact iff_of_false (by simp) fun hboth => hpass hboth.2
  · rw [if_pos huser]
    exact iff_of_false (by simp) fun hboth => huser hboth.1

theorem verdict_fits {h : Sha1} {s : ServerConn} {password : Bytes} {c : ClientConn} {e : MyError}
    (he : verdict h s password c = some e) : e.state.length = 5 ∧ e.message.length ≤ 1000 := by
  rw [verdict] at he
  split at he
  · cases he
    exact ⟨rfl, length_errNoSuchUser ..⟩
  · split at he
    · cases he
      exact ⟨rfl, length_errAccessDenied ..⟩
    · cases he

/-- The parts of the response. -/
theorem authHandshake_split (h : Sha1) (c : ClientConn) :
    ∃ head tail, head.length = 32 ∧ UInt32.ofNat (Bytes.leNat (head.take 4)) = c.authCapability ∧
      (0 : UInt8) ∈ tail ∧ c.authHandshake h = head ++ (c.user ++ 0 ::
        UInt8.ofNat (calcPassword h c.salt c.password).length ::
          (calcPassword h c.salt c.password ++ tail)) := by
  refine ⟨_, _, ?_, ?_, ?_, rfl⟩
  · simp
  · rw [List.flatten_cons, List.take_left' (Bytes.length_leBytes 4 _), ofNat_leBytes_four]
  · exact List.mem_append_right _ (List.mem_append_right _ (List.mem_singleton_self 0))

theorem readAuth_hash {h : Sha1} {s : ServerConn} {password spare pre hash tail : Bytes}
    (hlen : hash.length < 256) (htail : (0 : UInt8) ∈ tail) :
    s.readAuth h password ⟨pre ++ UInt8.ofNat hash.length :: (hash ++ tail), spare⟩ pre.length =
      some (if hash ≠ calcPassword h s.salt password then
        some (errAccessDenied s.remoteAddr s.user) else none) := by
  have hn : (UInt8.ofNat hash.length).toNat = hash.length := by
    rw [UInt8.toNat_ofNat']
    omega
  have hle : hash.length ≤ (hash ++ tail).length := by
    rw [List.length_append]
    exact Nat.le_add_right ..
  have hroom : hash.length ≤ (hash ++ tail ++ spare).length := by
    rw [List.length_append]
    exact Nat.le_add_right_of_le hle
  rw [readAuth_cons, slice_zero, hn, if_pos hroom, Option.bind_some, List.append_assoc,
    List.take_left, List.drop_left]
  by_cases hhash : hash ≠ calcPassword h s.salt password
  · rw [if_pos hhash, if_pos hhash]
  · rw [if_neg hhash, if_neg hhash, if_pos ⟨hle, .inr htail⟩]

/-- The server reads what the client means. -/
theorem readHandshakeResponse_authHandshake (h : Sha1) (s : ServerConn) (password spare : Bytes)
    {c : ClientConn} (huser : (0 : UInt8) ∉ c.user) :
    s.readHandshakeResponse h password ⟨(c.greeted s).authHandshake h, spare⟩ =
      some ((c.greeted s).authCapability, verdict h s password c) := by
  obtain ⟨head, tail, hhead, hcap, htail, hsplit⟩ := authHandshake_split h (c.greeted s)
  have hlen := length_calcPassword h s.salt c.password
  change _ = head ++ (c.user ++ 0 :: UInt8.ofNat (calcPassword h s.salt c.password).length ::
    (calcPassword h s.salt c.password ++ tail)) at hsplit
  rw [hsplit, readHandshakeResponse_user hhead huser, hcap, verdict]
  by_cases hname : s.user ≠ c.user
  · rw [if_pos hname, if_pos hname]
  · rw [if_neg hname, if_neg hname]
    have hauth := @readAuth_hash h s password spare (head ++ (c.user ++ [0]))
      (calcPassword h s.salt c.password) tail (by omega) htail
    rw [List.append_assoc, List.append_assoc, List.singleton_append] at hauth
    rw [hauth, Option.map_some]

/-- The packets of both sides, one after the other. -/
theorem handshake_ends (h : Sha1) (s : ServerConn) {version : Bytes} (password : Bytes)
    {c : ClientConn} (spare spare' spare'' : Bytes) (hversion : (0 : UInt8) ∉ version)
    (huser : (0 : UInt8) ∉ c.user) (hlen : version.length + 46 < maxPayloadLen)
    (hlen' : (c.user.length + c.db.length) + 100 < maxPayloadLen) :
    ∃ e, handshake h s version password c spare spare' spare'' = .ok e ∧
      e.refused = verdict h s password c ∧ e.client.salt = s.salt ∧
      e.client.connectionID = s.connectionID ∧ e.server.capability = e.client.capability ∧
      (e.refused = none → e.client.status = s.status ∧ e.serverSequence = 0) := by
  have hgreeting : (s.initialHandshake version).length < maxPayloadLen := by
    rw [ServerConn.initialHandshake, List.length_append, length_greetingTail]
    simp only [List.cons_append, List.length_cons, List.length_append, List.length_nil]
    omega
  have hresponse : ((c.greeted s).authHandshake h).length < maxPayloadLen := by
    have hhash := length_calcPassword h s.salt c.password
    have hname : (ascii "mysql_native_password").length = 21 := rfl
    have hdb : (if 0 < (c.greeted s).db.length then (c.greeted s).db ++ [0] else []).length ≤
        c.db.length + 1 := by
      split
      · rw [List.length_append, List.length_singleton]
        exact Nat.le_refl _
      · exact Nat.zero_le _
    have hhash' : (calcPassword h (c.greeted s).salt (c.greeted s).password).length ≤ 20 := hhash
    have hsame : (c.greeted s).user.length = c.user.length := rfl
    simp only [ClientConn.authHandshake, List.length_append, List.length_cons,
      List.length_flatten, List.map_cons, List.map_nil, List.sum_cons, List.sum_nil,
      Bytes.length_leBytes, Bytes.length_zeros, List.length_nil, hname]
    omega
  have hne : (c.greeted s).authHandshake h ≠ [] := by
    intro hnil
    have hlen0 := congrArg List.length hnil
    simp [ClientConn.authHandshake] at hlen0
  have hread := readInitialHandshake_greeting s spare c hversion
  have hserver := readHandshakeResponse_authHandshake h s password spare' huser
  have h41 := protocol41_greeted c s
  change _ = some (Except.ok (c.greeted s)) at hread
  simp only [handshake, writePacket_short hgreeting, clientReadPacket_frame hgreeting, hread,
    ofPanic, bind, Except.bind, Except.mapError, writePacket_short hresponse,
    readPacket_frame hne hresponse, hserver]
  generalize (c.greeted s).authCapability = capability at h41 ⊢
  cases hverdict : verdict h s password c with
  | none =>
      have hok := length_okPayload { s with capability := capability }
      simp only [writePacket_short hok, clientReadPacket_frame hok,
        readOK_okPayload (c := { c.greeted s with capability := capability })
          (s := { s with capability := capability }) ⟨0, 0, 0⟩ h41 h41]
      exact ⟨_, rfl, rfl, rfl, rfl, rfl, fun _ => ⟨UInt16.zero_or, rfl⟩⟩
  | some e =>
      obtain ⟨hstate, hmessage⟩ := verdict_fits hverdict
      have herr := length_errorPayload { s with capability := capability } e hstate hmessage
      simp only [writePacket_short herr, clientReadPacket_frame herr,
        readOK_errorPayload (c := { c.greeted s with capability := capability })
          (s := { s with capability := capability }) hstate h41 h41]
      refine ⟨_, rfl, rfl, rfl, rfl, rfl, fun hnone => ?_⟩
      cases hnone

/-- **A handshake between the two** always ends, and with the verdict: a client is let in exactly
if it has the user and its password the scramble of the server's, which only no password has of no
password.  The client then knows the salt and the id of its connection, both have the same
capabilities, and a client that is let in has the status of the server, which starts to count
packets anew. -/
theorem handshake_completes (h : Sha1) (s : ServerConn) (version password : Bytes)
    (c : ClientConn) (spare spare' spare'' : Bytes) (hversion : (0 : UInt8) ∉ version)
    (huser : (0 : UInt8) ∉ c.user) (hlen : version.length + 46 < maxPayloadLen)
    (hlen' : (c.user.length + c.db.length) + 100 < maxPayloadLen) :
    ∃ e, handshake h s version password c spare spare' spare'' = .ok e ∧
      e.refused = verdict h s password c ∧
      (e.refused = none ↔ s.user = c.user ∧
        calcPassword h s.salt c.password = calcPassword h s.salt password) ∧
      (e.refused = none → (c.password = [] ↔ password = [])) ∧ e.client.salt = s.salt ∧
      e.client.connectionID = s.connectionID ∧ e.server.capability = e.client.capability ∧
      (e.refused = none → e.client.status = s.status ∧ e.serverSequence = 0) := by
  obtain ⟨e, he, hrefused, hrest⟩ :=
    handshake_ends h s password spare spare' spare'' hversion huser hlen hlen'
  have hlet : e.refused = none ↔ s.user = c.user ∧
      calcPassword h s.salt c.password = calcPassword h s.salt password := by
    rw [hrefused, verdict_eq_none_iff]
  refine ⟨e, he, hrefused, hlet, fun hnone => ?_, hrest⟩
  rw [← @calcPassword_eq_nil_iff h s.salt c.password, (hlet.mp hnone).2, calcPassword_eq_nil_iff]

/-- A client of `sampleServer`. -/
def sampleClient : ClientConn := ⟨[114], [1], [], 0, 0, [], 0⟩

/-- It is let in if the server has the same password, and refused if the server has another. -/
theorem handshake_completes_sample :
    (∃ e, handshake sha1 sampleServer [53] [1] sampleClient [] [] [] = .ok e ∧
      e.refused = none ∧ e.client.connectionID = 10001) ∧
    ∃ e, handshake sha1 sampleServer [53] [2] sampleClient [] [] [] = .ok e ∧
      e.refused = some (errAccessDenied [49] [114]) := by
  obtain ⟨e, he, hrefused, -, -, -, hid, -⟩ := handshake_completes sha1 sampleServer [53] [1]
    sampleClient [] [] [] (by decide) (by decide) (by decide) (by decide)
  obtain ⟨e', he', hrefused', -⟩ := handshake_completes sha1 sampleServer [53] [2]
    sampleClient [] [] [] (by decide) (by decide) (by decide) (by decide)
  exact ⟨⟨e, he, hrefused.trans (by decide +kernel), hid⟩, e', he',
    hrefused'.trans (by decide +kernel)⟩

end Kingbus
