import MySQL.Lib.Memory

/-!
# Sending packets

A payload is cut into physical packets.  Each of them has a header with its length and its number,
and all are full but the last one, which may be empty.  The bytes go through a buffer that is
handed to the socket whenever it is full.
-/

namespace MySQL.Sql.NetServ

open Lib List

/-- `MAX_PACKET_LENGTH`. -/
def maxPacketLength : ℕ := 256 * 256 * 256 - 1

theorem maxPacketLength_pos : 0 < maxPacketLength := by decide

theorem maxPacketLength_lt : maxPacketLength < 16777216 := by decide

-- No proof should count up to this number.
attribute [irreducible] maxPacketLength

/-- `int3store`. -/
def int3store (n : ℕ) : List UInt8 := [.ofNat n, .ofNat (n / 256), .ofNat (n / 65536)]

/-- `uint3korr`. -/
def uint3korr (mem : ℕ → UInt8) (p : ℕ) : ℕ :=
  (mem p).toNat + 256 * (mem (p + 1)).toNat + 65536 * (mem (p + 2)).toNat

/-- The fields of `NET`.  The input is what the next reads from the socket get, the output what
was handed to `net_real_write`. -/
structure Net where
  buff : ℕ → UInt8
  writePos : ℕ
  readPos : ℕ
  maxPacket : ℕ
  maxPacketSize : ℕ
  pktNr : ℕ
  compressPktNr : ℕ
  compress : Bool
  whereB : ℕ
  bufLength : ℕ
  remainInBuf : ℕ
  saveChar : UInt8
  input : List (List UInt8)
  output : List (List UInt8)

/-- A packet number is an `unsigned int`. -/
def nextNr (nr : ℕ) : ℕ := (nr + 1) % 4294967296

def packetHeader (len : ℕ) (nr : UInt8) : List UInt8 := int3store len ++ [nr]

variable {net : Net} {packet header bytes : List UInt8} {len nr : ℕ}

/-! ## The functions -/

section

variable (net : Net) (packet : List UInt8)

def netRealWrite : Net :=
  { net with
    output := net.output ++ [packet]
    compressPktNr := if net.compress then nextNr net.compressPktNr else net.compressPktNr }

/-- Without room for more than `MAX_PACKET_LENGTH` bytes in a compressed packet. -/
def leftLength : ℕ :=
  if net.compress && net.maxPacket > maxPacketLength then maxPacketLength - net.writePos
  else net.maxPacket - net.writePos

def fillUp : Net × List UInt8 :=
  if net.writePos ≠ 0 then
    let buff := write net.buff net.writePos (packet.take (leftLength net))
    ({ netRealWrite { net with buff := buff }
        (slice buff 0 (net.writePos + leftLength net)) with writePos := 0 },
      packet.drop (leftLength net))
  else (net, packet)

/-- A compressed packet has at most `MAX_PACKET_LENGTH` bytes. -/
def sendFull (net : Net) (packet : List UInt8) : Net × List UInt8 :=
  if packet.length > maxPacketLength then
    sendFull (netRealWrite net (packet.take maxPacketLength)) (packet.drop maxPacketLength)
  else (net, packet)
termination_by packet.length
decreasing_by
  have := maxPacketLength_pos
  rw [length_drop]
  omega

def storeBuff : Net :=
  { net with
    buff := write net.buff net.writePos packet
    writePos := net.writePos + packet.length }

def netWriteBuff : Net :=
  if packet.length > leftLength net then
    let (net, packet) := fillUp net packet
    let (net, packet) := if net.compress then sendFull net packet else (net, packet)
    if packet.length > net.maxPacket then netRealWrite net packet else storeBuff net packet
  else storeBuff net packet

def netFlush : Net :=
  let net :=
    if net.writePos ≠ 0 then
      { netRealWrite net (slice net.buff 0 net.writePos) with writePos := 0 }
    else net
  if net.compress then { net with pktNr := net.compressPktNr } else net

def writeHeader (len : ℕ) (command : List UInt8) : Net :=
  netWriteBuff { net with pktNr := nextNr net.pktNr }
    (packetHeader len (.ofNat net.pktNr) ++ command)

end

def myNetWrite (net : Net) (packet : List UInt8) : Net :=
  if packet.length ≥ maxPacketLength then
    myNetWrite
      (netWriteBuff (writeHeader net maxPacketLength []) (packet.take maxPacketLength))
      (packet.drop maxPacketLength)
  else netWriteBuff (writeHeader net packet.length []) packet
termination_by packet.length
decreasing_by
  have := maxPacketLength_pos
  rw [length_drop]
  omega

/-- The variables of the loop of `net_write_command`: what follows the header of a packet, and how
much of it is written. -/
structure CommandVars where
  net : Net
  packet : List UInt8
  length : ℕ
  len : ℕ
  command : List UInt8
  header : List UInt8

/-- The loop of `net_write_command`; it fails when it reads behind the end of the packet. -/
def commandLoop (v : CommandVars) : Option CommandVars :=
  if v.packet.length < v.len then none
  else
    let net := netWriteBuff (netWriteBuff (writeHeader v.net maxPacketLength v.command) v.header)
      (v.packet.take v.len)
    let v' : CommandVars :=
      ⟨net, v.packet.drop v.len, v.length - maxPacketLength, maxPacketLength, [], []⟩
    if v.length - maxPacketLength ≥ maxPacketLength then commandLoop v' else some v'
termination_by v.length
decreasing_by
  have := maxPacketLength_pos
  omega

/-- What of the packet comes behind the command and the header; the lengths are of type `size_t`. -/
def firstLength (headLen : ℕ) : ℕ :=
  (18446744073709551616 + maxPacketLength - 1 - headLen) % 18446744073709551616

def netWriteCommand (net : Net) (command : UInt8) (header packet : List UInt8) : Option Net :=
  let length := packet.length + 1 + header.length
  let v? : Option CommandVars :=
    if length ≥ maxPacketLength then
      commandLoop ⟨net, packet, length, firstLength header.length, [command], header⟩
    else some ⟨net, packet, length, packet.length, [command], header⟩
  v?.bind fun v =>
    let len := if length ≥ maxPacketLength then v.length else v.len
    if v.packet.length < len then none
    else
      let net := writeHeader v.net v.length v.command
      let net := if v.header.length ≠ 0 then netWriteBuff net v.header else net
      some (netFlush (netWriteBuff net (v.packet.take len)))

/-! ## The physical packets of a payload -/

/-- A payload is cut at `MAX_PACKET_LENGTH`; the last piece is not full. -/
def fragments (payload : List UInt8) : List (List UInt8) :=
  if payload.length ≥ maxPacketLength then
    payload.take maxPacketLength :: fragments (payload.drop maxPacketLength)
  else [payload]
termination_by payload.length
decreasing_by
  have := maxPacketLength_pos
  rw [length_drop]
  omega

def wire (nr : UInt8) : List (List UInt8) → List UInt8
  | [] => []
  | f :: fs => packetHeader f.length nr ++ f ++ wire (nr + 1) fs

theorem fragments_of_lt (h : bytes.length < maxPacketLength) : fragments bytes = [bytes] := by
  rw [fragments, if_neg (by omega)]

theorem fragments_of_le (h : maxPacketLength ≤ bytes.length) :
    fragments bytes = bytes.take maxPacketLength :: fragments (bytes.drop maxPacketLength) := by
  rw [fragments, if_pos h]

theorem fragments_induction {motive : List UInt8 → Prop}
    (last : ∀ p, p.length < maxPacketLength → motive p)
    (full : ∀ f p, f.length = maxPacketLength → motive p → motive (f ++ p))
    (payload : List UInt8) : motive payload := by
  induction hn : payload.length using Nat.strongRecOn generalizing payload with
  | _ n ih =>
    by_cases hlt : payload.length < maxPacketLength
    · exact last payload hlt
    · rw [← take_append_drop maxPacketLength payload]
      have hpos := maxPacketLength_pos
      refine full _ _ (by rw [length_take]; omega) (ih _ ?_ _ rfl)
      rw [length_drop]
      omega

theorem fragments_append {f : List UInt8} (h : f.length = maxPacketLength) :
    fragments (f ++ bytes) = f :: fragments bytes := by
  rw [fragments_of_le (by rw [length_append]; omega), ← h, take_left, drop_left]

@[simp] theorem length_packetHeader (len : ℕ) (nr : UInt8) : (packetHeader len nr).length = 4 := rfl

theorem wire_append (nr : UInt8) (fs gs : List (List UInt8)) :
    wire nr (fs ++ gs) = wire nr fs ++ wire (nr + .ofNat fs.length) gs := by
  induction fs generalizing nr with
  | nil => simp [wire]
  | cons f fs ih =>
    have hnr : nr + 1 + UInt8.ofNat fs.length = nr + UInt8.ofNat (f :: fs).length := by
      rw [length_cons, UInt8.ofNat_add, UInt8.add_assoc, UInt8.add_comm 1]
      rfl
    simp only [cons_append, wire, ih, hnr, append_assoc]

/-! ## What is sent -/

def stream (net : Net) : List UInt8 := net.output.flatten ++ slice net.buff 0 net.writePos

def limit (net : Net) : ℕ :=
  if net.compress && net.maxPacket > maxPacketLength then maxPacketLength else net.maxPacket

theorem leftLength_eq : leftLength net = limit net - net.writePos := by
  unfold leftLength limit
  split <;> rfl

/-- Some bytes were written, with the headers of some packets among them. -/
structure Sent (bytes : List UInt8) (packets : ℕ) (net net' : Net) : Prop where
  stream_eq : stream net' = stream net ++ bytes
  room : net'.writePos ≤ limit net'
  pktNr_eq : UInt8.ofNat net'.pktNr = .ofNat net.pktNr + .ofNat packets
  maxPacket_eq : net'.maxPacket = net.maxPacket
  compress_eq : net'.compress = net.compress

namespace Sent

variable {net net' net'' : Net} {bytes bytes' : List UInt8} {k k' : ℕ}

theorem trans (h : Sent bytes k net net') (h' : Sent bytes' k' net' net'') :
    Sent (bytes ++ bytes') (k + k') net net'' where
  stream_eq := by rw [h'.stream_eq, h.stream_eq, append_assoc]
  room := h'.room
  pktNr_eq := by rw [h'.pktNr_eq, h.pktNr_eq, UInt8.ofNat_add, UInt8.add_assoc]
  maxPacket_eq := h'.maxPacket_eq.trans h.maxPacket_eq
  compress_eq := h'.compress_eq.trans h.compress_eq

end Sent

theorem stream_storeBuff (net : Net) (packet : List UInt8) :
    stream (storeBuff net packet) = stream net ++ packet := by
  have hold : Stands (write net.buff net.writePos packet) 0 (slice net.buff 0 net.writePos) :=
    (stands_slice _ _ _).write_of_disjoint (.inr (by simp))
  have hnew := stands_write net.buff net.writePos packet
  have hnew' : Stands (write net.buff net.writePos packet) (0 + net.writePos) packet := by
    rwa [Nat.zero_add]
  simp only [stream, storeBuff]
  rw [slice_add, hold.slice_eq (by simp), hnew'.slice_eq rfl, append_assoc]

theorem sent_storeBuff (h : net.writePos + packet.length ≤ limit net) :
    Sent packet 0 net (storeBuff net packet) where
  stream_eq := stream_storeBuff net packet
  room := h
  pktNr_eq := (UInt8.add_zero _).symm
  maxPacket_eq := rfl
  compress_eq := rfl

theorem sent_netRealWrite (h : net.writePos = 0) : Sent packet 0 net (netRealWrite net packet) where
  stream_eq := by simp [stream, netRealWrite, h]
  room := by simp [netRealWrite, h]
  pktNr_eq := (UInt8.add_zero _).symm
  maxPacket_eq := rfl
  compress_eq := rfl

/-- The rest of a packet comes behind what was sent. -/
structure SentPart (net : Net) (packet : List UInt8) (r : Net × List UInt8) : Prop where
  writePos_eq : r.1.writePos = 0
  sent : ∃ bytes, bytes ++ r.2 = packet ∧ Sent bytes 0 net r.1

theorem SentPart.trans {r r' : Net × List UInt8} (h : SentPart net packet r)
    (h' : SentPart r.1 r.2 r') : SentPart net packet r' := by
  obtain ⟨b, hb, hsent⟩ := h.sent
  obtain ⟨b', hb', hsent'⟩ := h'.sent
  exact ⟨h'.writePos_eq, b ++ b', by rw [append_assoc, hb', hb], hsent.trans hsent'⟩

theorem sentPart_fillUp (hroom : net.writePos ≤ limit net) (h : packet.length > leftLength net) :
    SentPart net packet (fillUp net packet) := by
  unfold fillUp
  split
  · next hpos =>
    refine ⟨rfl, packet.take (leftLength net), take_append_drop _ _, ?_, ?_, ?_, rfl, rfl⟩
    · have hstore := stream_storeBuff net (packet.take (leftLength net))
      rw [storeBuff, length_take, Nat.min_eq_left (Nat.le_of_lt h)] at hstore
      simpa [stream, netRealWrite] using hstore
    · exact Nat.zero_le _
    · exact (UInt8.add_zero _).symm
  · next hpos =>
    rw [not_not] at hpos
    exact ⟨hpos, [], rfl, (append_nil _).symm, hroom, (UInt8.add_zero _).symm, rfl, rfl⟩

theorem sentPart_refl (h : net.writePos = 0) : SentPart net packet (net, packet) :=
  ⟨h, [], rfl, (append_nil _).symm, by simp [h], (UInt8.add_zero _).symm, rfl, rfl⟩

theorem sentPart_sendFull (packet : List UInt8) (h : net.writePos = 0) :
    SentPart net packet (sendFull net packet) ∧
      (sendFull net packet).2.length ≤ maxPacketLength := by
  induction net, packet using sendFull.induct with
  | case1 net packet hlong ih =>
    rw [sendFull, if_pos hlong]
    obtain ⟨hpart, hlen⟩ := ih h
    refine ⟨SentPart.trans (r := (netRealWrite net (packet.take maxPacketLength),
      packet.drop maxPacketLength)) ⟨h, _, ?_, sent_netRealWrite h⟩ hpart, hlen⟩
    exact take_append_drop _ _
  | case2 net packet hshort =>
    rw [sendFull, if_neg hshort]
    exact ⟨sentPart_refl h, Nat.not_lt.mp hshort⟩

theorem netWriteBuff_spec (hroom : net.writePos ≤ limit net) (packet : List UInt8) :
    Sent packet 0 net (netWriteBuff net packet) := by
  unfold netWriteBuff
  split
  · next hlong =>
    have hfill := sentPart_fillUp hroom hlong
    generalize fillUp net packet = r at hfill
    -- With compression the rest is not longer than a compressed packet.
    have hfull : SentPart net packet
        (if r.1.compress then sendFull r.1 r.2 else (r.1, r.2)) ∧
        ((if r.1.compress then sendFull r.1 r.2 else (r.1, r.2)).1.compress = true →
          (if r.1.compress then sendFull r.1 r.2 else (r.1, r.2)).2.length ≤
            maxPacketLength) := by
      split
      · have hsend := sentPart_sendFull r.2 hfill.writePos_eq
        exact ⟨hfill.trans hsend.1, fun _ => hsend.2⟩
      · next hcomp => exact ⟨hfill, fun h => absurd h hcomp⟩
    dsimp only
    generalize (if r.1.compress then sendFull r.1 r.2 else (r.1, r.2)) = r' at hfull
    obtain ⟨⟨hpos, b, rfl, hsent⟩, hshort⟩ := hfull
    split
    · exact hsent.trans (sent_netRealWrite hpos)
    · next hle =>
      refine hsent.trans (sent_storeBuff ?_)
      rw [hpos, Nat.zero_add, limit]
      split
      · next hcomp =>
        rw [Bool.and_eq_true] at hcomp
        exact hshort hcomp.1
      · omega
  · next hfits =>
    rw [leftLength_eq] at hfits
    exact sent_storeBuff (by omega)

theorem ofNat_nextNr (nr : ℕ) : UInt8.ofNat (nextNr nr) = .ofNat nr + 1 := by
  rw [show (1 : UInt8) = .ofNat 1 from rfl, ← UInt8.ofNat_add]
  apply UInt8.toNat_inj.mp
  simp only [UInt8.toNat_ofNat', nextNr]
  omega

theorem writeHeader_spec (hroom : net.writePos ≤ limit net) (len : ℕ) (command : List UInt8) :
    Sent (packetHeader len (.ofNat net.pktNr) ++ command) 1 net
      (writeHeader net len command) := by
  have hsent := @netWriteBuff_spec { net with pktNr := nextNr net.pktNr } hroom
    (packetHeader len (.ofNat net.pktNr) ++ command)
  refine { hsent with pktNr_eq := ?_ }
  rw [writeHeader, hsent.pktNr_eq]
  exact (UInt8.add_zero _).trans (ofNat_nextNr net.pktNr)

theorem myNetWrite_spec (hroom : net.writePos ≤ limit net) (packet : List UInt8) :
    Sent (wire (.ofNat net.pktNr) (fragments packet)) (fragments packet).length net
      (myNetWrite net packet) := by
  induction net, packet using myNetWrite.induct with
  | case1 net packet hlong ih =>
    have hhead := writeHeader_spec hroom maxPacketLength []
    have hbody := netWriteBuff_spec hhead.room (packet.take maxPacketLength)
    have hfirst := hhead.trans hbody
    have hrest := ih hbody.room
    rw [myNetWrite, if_pos hlong, fragments_of_le hlong, wire, length_cons, Nat.add_comm]
    rw [hfirst.pktNr_eq] at hrest
    convert hfirst.trans hrest using 2
    rw [length_take, Nat.min_eq_left hlong, append_nil]
    rfl
  | case2 net packet hshort =>
    have hhead := writeHeader_spec hroom packet.length []
    rw [myNetWrite, if_neg hshort, fragments_of_lt (by omega)]
    simpa [wire] using hhead.trans (netWriteBuff_spec hhead.room packet)

theorem output_netFlush (net : Net) : (netFlush net).output.flatten = stream net := by
  by_cases hpos : net.writePos = 0 <;> cases hcomp : net.compress <;>
    simp [netFlush, stream, netRealWrite, hpos, hcomp]

theorem sent_netFlush (hcomp : net.compress = false) : Sent [] 0 net (netFlush net) := by
  by_cases hpos : net.writePos = 0
  · have hsame : netFlush net = net := by simp [netFlush, hpos, hcomp]
    rw [hsame]
    exact ⟨(append_nil _).symm, by simp [hpos], (UInt8.add_zero _).symm, rfl, rfl⟩
  · have hflush : netFlush net =
        { netRealWrite net (slice net.buff 0 net.writePos) with writePos := 0 } := by
      simp [netFlush, hpos, hcomp, netRealWrite]
    rw [hflush]
    refine ⟨?_, Nat.zero_le _, (UInt8.add_zero _).symm, rfl, rfl⟩
    simp [stream, netRealWrite]

theorem sent_commandTurn (v : CommandVars) (hroom : v.net.writePos ≤ limit v.net)
    (hlen : v.len ≤ v.packet.length)
    (hfull : v.command.length + v.header.length + v.len = maxPacketLength) :
    Sent (wire (.ofNat v.net.pktNr) [v.command ++ v.header ++ v.packet.take v.len]) 1 v.net
      (netWriteBuff (netWriteBuff (writeHeader v.net maxPacketLength v.command) v.header)
        (v.packet.take v.len)) := by
  have hhead := writeHeader_spec hroom maxPacketLength v.command
  have hheader := netWriteBuff_spec hhead.room v.header
  have hbody := netWriteBuff_spec hheader.room (v.packet.take v.len)
  have hlength : (v.command ++ v.header ++ v.packet.take v.len).length = maxPacketLength := by
    simp only [length_append, length_take, Nat.min_eq_left hlen, hfull]
  rw [wire, wire, hlength, append_nil]
  simpa only [append_assoc] using (hhead.trans hheader).trans hbody

theorem commandLoop_spec (v : CommandVars) (hroom : v.net.writePos ≤ limit v.net)
    (hlen : v.len ≤ v.packet.length)
    (hfull : v.command.length + v.header.length + v.len = maxPacketLength)
    (hlength : v.length = v.command.length + v.header.length + v.packet.length) :
    ∃ v' fs, commandLoop v = some v' ∧
      v'.command = [] ∧ v'.header = [] ∧ v'.length = v'.packet.length ∧
      fragments (v.command ++ v.header ++ v.packet) = fs ++ [v'.packet] ∧
      Sent (wire (.ofNat v.net.pktNr) fs) fs.length v.net v'.net := by
  have hsent := sent_commandTurn v hroom hlen hfull
  have hcut : fragments (v.command ++ v.header ++ v.packet) =
      (v.command ++ v.header ++ v.packet.take v.len) :: fragments (v.packet.drop v.len) := by
    rw [← fragments_append, append_assoc _ (v.packet.take v.len), take_append_drop]
    simp only [length_append, length_take, Nat.min_eq_left hlen, hfull]
  have hdrop : v.length - maxPacketLength = (v.packet.drop v.len).length := by
    rw [length_drop]
    omega
  rw [commandLoop, if_neg (by omega)]
  split
  · next hmore =>
    obtain ⟨v', fs, hloop, hcommand, hheader, hlast, hfs, hrest⟩ := commandLoop_spec
      ⟨netWriteBuff (netWriteBuff (writeHeader v.net maxPacketLength v.command) v.header)
        (v.packet.take v.len), v.packet.drop v.len, v.length - maxPacketLength, maxPacketLength,
        [], []⟩ hsent.room (by dsimp only; omega) (by simp) (by simpa using hdrop)
    refine ⟨v', (v.command ++ v.header ++ v.packet.take v.len) :: fs, hloop, hcommand, hheader,
      hlast, ?_, ?_⟩
    · rw [hcut, cons_append, ← hfs]
      rfl
    · rw [hsent.pktNr_eq] at hrest
      rw [length_cons, Nat.add_comm]
      convert hsent.trans hrest using 2
      rw [← singleton_append, wire_append]
      rfl
  · next hlast =>
    refine ⟨_, [_], rfl, rfl, rfl, hdrop, ?_, hsent⟩
    rw [hcut, fragments_of_lt (by omega)]
    rfl
termination_by v.length
decreasing_by
  have := maxPacketLength_pos
  omega

theorem netWriteCommand_spec (hroom : net.writePos ≤ limit net) (hcomp : net.compress = false)
    (command : UInt8) (hheader : header.length < maxPacketLength) (packet : List UInt8) :
    ∃ net', netWriteCommand net command header packet = some net' ∧
      Sent (wire (.ofNat net.pktNr) (fragments (command :: (header ++ packet))))
        (fragments (command :: (header ++ packet))).length net net' := by
  have hmax := maxPacketLength_lt
  unfold netWriteCommand
  dsimp only
  by_cases hlong : packet.length + 1 + header.length ≥ maxPacketLength
  · rw [if_pos hlong]
    have hlen : firstLength header.length = maxPacketLength - 1 - header.length := by
      unfold firstLength
      omega
    obtain ⟨v, fs, hloop, hv, hv', hlast, hfs, hsent⟩ := commandLoop_spec
      ⟨net, packet, packet.length + 1 + header.length,
        firstLength header.length, [command], header⟩ hroom
      (by rw [hlen]; dsimp only; omega) (by rw [length_singleton]; dsimp only; omega)
      (by rw [length_singleton]; dsimp only; omega)
    have hhead := writeHeader_spec hsent.room v.length []
    have hbody := netWriteBuff_spec hhead.room v.packet
    have hrest := (hhead.trans hbody).trans (sent_netFlush (hbody.compress_eq.trans
      (hhead.compress_eq.trans (hsent.compress_eq.trans hcomp))))
    rw [hloop, Option.bind_some, if_pos hlong, hlast, if_neg (by omega), hv, hv', take_length,
      ← hlast]
    refine ⟨_, rfl, ?_⟩
    rw [show command :: (header ++ packet) = [command] ++ header ++ packet from rfl, hfs,
      wire_append, length_append]
    rw [hsent.pktNr_eq] at hrest
    convert hsent.trans hrest using 2
    · simp [wire, hlast]
    · rfl
    · rw [if_neg (by simp)]
  · rw [if_neg hlong, Option.bind_some, if_neg hlong, if_neg (by simp)]
    refine ⟨_, rfl, ?_⟩
    have hhead := writeHeader_spec hroom (packet.length + 1 + header.length) [command]
    have hhead' : Sent
        (packetHeader (packet.length + 1 + header.length) (.ofNat net.pktNr) ++ [command] ++ header)
        1 net (if header.length ≠ 0 then
          netWriteBuff (writeHeader net (packet.length + 1 + header.length) [command]) header
          else writeHeader net (packet.length + 1 + header.length) [command]) := by
      split
      · exact hhead.trans (netWriteBuff_spec hhead.room header)
      · next hnil =>
        rw [not_not, length_eq_zero_iff] at hnil
        rw [hnil]
        rwa [hnil] at hhead
    have hbody := netWriteBuff_spec hhead'.room packet
    have hrest := (hhead'.trans hbody).trans (sent_netFlush (hbody.compress_eq.trans
      (hhead'.compress_eq.trans hcomp)))
    rw [fragments_of_lt (by simp only [length_cons, length_append]; omega),
      take_length]
    convert hrest using 1
    · simp only [wire, length_cons, length_append, append_nil]
      rw [show header.length + packet.length + 1 = packet.length + 1 + header.length by omega]
      simp
    · rfl

end MySQL.Sql.NetServ
