import MySQL.Sql.NetServ.Read

/-!
# What is received without compression

The reader gets the packets of a payload at consecutive places of its buffer, so it finds the
payloads that were sent, whatever the sizes of the buffers and of the reads are.
-/

namespace MySQL.Sql.NetServ

open Lib List

variable {net : Net} {nr : UInt8} {rest : List UInt8}

theorem length_wire_ge (nr : UInt8) (fs : List (List UInt8)) :
    4 * fs.length ≤ (wire nr fs).length := by
  induction fs generalizing nr with
  | nil => simp [wire]
  | cons f fs ih =>
    have := ih (nr + 1)
    simp only [wire, length_append, length_cons, length_packetHeader]
    omega

/-- The reader is in front of the packets of a payload. -/
structure AtPackets (nr : UInt8) (fs : List (List UInt8)) (rest : List UInt8) (net : Net) :
    Prop where
  compress_eq : net.compress = false
  pktNr_eq : UInt8.ofNat net.pktNr = nr
  incoming : Incoming (wire nr fs ++ rest) net.input

theorem AtPackets.read {f : List UInt8} {fs : List (List UInt8)}
    (h : AtPackets nr (f :: fs) rest net) (hf : f.length ≤ maxPacketLength)
    (hroom : f.length + net.whereB < net.maxPacketSize) :
    ∃ net', myRealRead net = some (f.length, 0, net') ∧ Kept net net' ∧
      AtPackets (nr + 1) fs rest net' ∧ Stands net'.buff net.whereB f := by
  have hmax := maxPacketLength_lt
  have hin : Incoming (packetBytes net 0 f ++ (wire (nr + 1) fs ++ rest)) net.input := by
    have hincoming := h.incoming
    rw [wire, ← h.pktNr_eq] at hincoming
    rw [packetBytes, h.compress_eq, ← h.pktNr_eq]
    simpa using hincoming
  obtain ⟨net', hread, hkept, hin', hstands, hnr⟩ := myRealRead_spec net (by omega) (by decide)
    (fun _ => rfl) (by rwa [Nat.max_zero]) hin
  refine ⟨net', hread, hkept, ⟨hkept.compress_eq.trans h.compress_eq, ?_, hin'⟩, hstands⟩
  rw [hnr, ofNat_nextNr, h.pktNr_eq]

/-- What the packets of a payload give behind a place of the buffer. -/
structure Received (pos : ℕ) (payload rest : List UInt8) (nr : UInt8) (net net' : Net) : Prop where
  atEnd : AtPackets (nr + .ofNat (fragments payload).length) [] rest net'
  maxPacketSize_eq : net'.maxPacketSize = net.maxPacketSize
  buff_eq : ∀ q < pos, net'.buff q = net.buff q
  stands : Stands net'.buff pos payload

theorem readOthers_spec {fuel : ℕ} (total : ℕ) (payload : List UInt8)
    (h : AtPackets nr (fragments payload) rest net)
    (hroom : payload.length + (net.whereB + maxPacketLength) < net.maxPacketSize)
    (hfuel : (fragments payload).length ≤ fuel) :
    ∃ net', readOthers fuel net total = some (payload.length + (total + maxPacketLength), net') ∧
      Received (net.whereB + maxPacketLength) payload rest nr net net' := by
  induction payload using fragments_induction generalizing net nr fuel total with
  | last p hp =>
    rw [fragments_of_lt hp] at h hfuel
    obtain ⟨fuel, rfl⟩ : ∃ f, fuel = f + 1 := Nat.exists_eq_add_of_le' hfuel
    have hnext : AtPackets nr [p] rest { net with whereB := net.whereB + maxPacketLength } :=
      { h with }
    obtain ⟨net', hread, hkept, hat, hstands⟩ := hnext.read (Nat.le_of_lt hp) hroom
    rw [readOthers, hread]
    simp only [Option.bind_eq_bind, Option.bind_some, if_neg (Nat.ne_of_lt hp)]
    refine ⟨net', rfl, ?_, hkept.maxPacketSize_eq, hkept.buff_eq, hstands⟩
    rw [fragments_of_lt hp]
    exact hat
  | full f p hf ih =>
    rw [fragments_append hf] at h hfuel
    obtain ⟨fuel, rfl⟩ : ∃ f, fuel = f + 1 := Nat.exists_eq_add_of_le' (by simp at hfuel; omega)
    rw [length_append] at hroom
    have hnext : AtPackets nr (f :: fragments p) rest
      { net with whereB := net.whereB + maxPacketLength } := { h with }
    obtain ⟨net', hread, hkept, hat, hstands⟩ :=
      hnext.read (Nat.le_of_eq hf) (by dsimp only; omega)
    have hwhere : net'.whereB = net.whereB + maxPacketLength := hkept.whereB_eq
    have hsize : net'.maxPacketSize = net.maxPacketSize := hkept.maxPacketSize_eq
    obtain ⟨net'', hothers, hrec⟩ := ih (total + maxPacketLength) hat
      (by omega) (by simpa using hfuel)
    rw [hwhere] at hrec
    rw [readOthers, hread]
    simp only [Option.bind_eq_bind, Option.bind_some, if_pos hf, hothers]
    refine ⟨net'', ?_, ?_, hrec.maxPacketSize_eq.trans hsize, fun q hq => ?_, ?_⟩
    · rw [show p.length + (total + maxPacketLength + maxPacketLength) =
        (f ++ p).length + (total + maxPacketLength) by rw [length_append]; omega]
    · have hnr := hrec.atEnd
      rw [fragments_append hf, length_cons, Nat.add_comm, UInt8.ofNat_add, ← UInt8.add_assoc]
      exact hnr
    · rw [hrec.buff_eq q (by omega)]
      exact hkept.buff_eq q hq
    · rw [stands_append]
      refine ⟨hstands.congr fun q _ hq => hrec.buff_eq q ?_, ?_⟩
      · dsimp only at hq
        omega
      · rw [hf]
        exact hrec.stands

theorem readPlain_spec (payload : List UInt8) (h : AtPackets nr (fragments payload) rest net)
    (hroom : payload.length + net.whereB < net.maxPacketSize) :
    ∃ net', readPlain net = some (payload.length, net') ∧
      slice net'.buff net'.readPos payload.length = payload ∧
      AtPackets (nr + .ofNat (fragments payload).length) [] rest net' ∧
      net'.whereB = net.whereB ∧ net'.maxPacketSize = net.maxPacketSize := by
  suffices ∃ net', Received net.whereB payload rest nr net net' ∧
      readPlain net = some (payload.length,
        { net' with
          whereB := net.whereB, readPos := net.whereB
          buff := write net'.buff (net.whereB + payload.length) [0] }) by
    obtain ⟨net', hrec, hread⟩ := this
    refine ⟨_, hread, ?_, { hrec.atEnd with }, rfl, hrec.maxPacketSize_eq⟩
    have hstands : Stands (write net'.buff (net.whereB + payload.length) [0]) net.whereB payload :=
      hrec.stands.write_of_disjoint (.inr (Nat.le_refl _))
    exact hstands.slice_eq rfl
  by_cases hlt : payload.length < maxPacketLength
  · rw [fragments_of_lt hlt] at h
    obtain ⟨net', hread, hkept, hat, hstands⟩ := h.read (Nat.le_of_lt hlt) hroom
    refine ⟨net', ⟨?_, hkept.maxPacketSize_eq, hkept.buff_eq, hstands⟩, ?_⟩
    · rw [fragments_of_lt hlt]
      exact hat
    · simp only [readPlain, hread, Option.bind_eq_bind, Option.bind_some,
        if_neg (Nat.ne_of_lt hlt)]
  · -- The first packet is full, and the other ones are read behind it.
    rw [Nat.not_lt] at hlt
    obtain ⟨f, p, hf, rfl⟩ : ∃ f p, f.length = maxPacketLength ∧ payload = f ++ p :=
      ⟨_, _, by rw [length_take, Nat.min_eq_left hlt],
        (take_append_drop maxPacketLength payload).symm⟩
    rw [length_append] at hroom
    rw [fragments_append hf] at h
    obtain ⟨net', hread, hkept, hat, hstands⟩ := h.read (Nat.le_of_eq hf) (by omega)
    have hfuel : (fragments p).length ≤ net'.input.flatten.length + 1 := by
      have hwire := length_wire_ge (nr + 1) (fragments p)
      rw [hat.incoming.1, length_append]
      omega
    obtain ⟨net'', hothers, hrec⟩ := readOthers_spec 0 p hat
      (by rw [hkept.whereB_eq, hkept.maxPacketSize_eq]; omega) hfuel
    rw [hkept.whereB_eq] at hrec
    refine ⟨net'', ⟨?_, hrec.maxPacketSize_eq.trans hkept.maxPacketSize_eq, fun q hq => ?_, ?_⟩, ?_⟩
    · rw [fragments_append hf, length_cons, Nat.add_comm, UInt8.ofNat_add, ← UInt8.add_assoc]
      exact hrec.atEnd
    · rw [hrec.buff_eq q (by omega), hkept.buff_eq q hq]
    · rw [stands_append, hf]
      refine ⟨hstands.congr fun q _ hq => hrec.buff_eq q ?_, hrec.stands⟩
      omega
    · simp only [readPlain, hread, Option.bind_eq_bind, Option.bind_some, if_pos hf, hothers,
        Nat.zero_add]
      rw [show p.length + maxPacketLength = (f ++ p).length by rw [length_append]; omega]

/-! ## All payloads -/

/-- What is sent: a packet of `my_net_write`, or a command of `net_write_command`. -/
inductive Message
  | write (packet : List UInt8)
  | command (command : UInt8) (header packet : List UInt8)

namespace Message

def payload : Message → List UInt8
  | write packet => packet
  | command c header packet => c :: (header ++ packet)

def send (net : Net) : Message → Option Net
  | write packet => some (myNetWrite net packet)
  | command c header packet => netWriteCommand net c header packet

def Fits : Message → Prop
  | write _ => True
  | command _ header _ => header.length < maxPacketLength

end Message

def sendAll (net : Net) (msgs : List Message) : Option Net :=
  (msgs.foldlM Message.send net).map netFlush

def allFragments (payloads : List (List UInt8)) : List (List UInt8) := payloads.flatMap fragments

theorem send_spec (hroom : net.writePos ≤ limit net) (hcomp : net.compress = false)
    (msg : Message) (hfits : msg.Fits) :
    ∃ net', msg.send net = some net' ∧
      Sent (wire (.ofNat net.pktNr) (fragments msg.payload)) (fragments msg.payload).length net
        net' := by
  cases msg with
  | write packet => exact ⟨_, rfl, myNetWrite_spec hroom packet⟩
  | command c header packet => exact netWriteCommand_spec hroom hcomp c hfits packet

theorem sends_spec (msgs : List Message) (hroom : net.writePos ≤ limit net)
    (hcomp : net.compress = false) (hfits : ∀ msg ∈ msgs, msg.Fits) :
    ∃ net', msgs.foldlM Message.send net = some net' ∧
      Sent (wire (.ofNat net.pktNr) (allFragments (msgs.map Message.payload)))
        (allFragments (msgs.map Message.payload)).length net net' := by
  induction msgs generalizing net with
  | nil => exact ⟨net, rfl, (append_nil _).symm, hroom, (UInt8.add_zero _).symm, rfl, rfl⟩
  | cons msg msgs ih =>
    rw [forall_mem_cons] at hfits
    obtain ⟨net', hsend, hsent⟩ := send_spec hroom hcomp msg hfits.1
    obtain ⟨net'', hsends, hsents⟩ := ih hsent.room (hsent.compress_eq.trans hcomp) hfits.2
    refine ⟨net'', ?_, ?_⟩
    · rw [foldlM_cons, hsend]
      exact hsends
    · rw [hsent.pktNr_eq] at hsents
      rw [map_cons, allFragments, flatMap_cons, wire_append,
        length_append]
      exact hsent.trans hsents

theorem readPayloads_spec (uncompress : List UInt8 → ℕ → Option (List UInt8))
    (payloads : List (List UInt8)) (h : AtPackets nr (allFragments payloads) rest net)
    (hroom : ∀ p ∈ payloads, p.length + net.whereB < net.maxPacketSize) :
    ∃ net', readPayloads uncompress payloads.length net = some (payloads, net') ∧
      AtPackets (nr + .ofNat (allFragments payloads).length) [] rest net' := by
  induction payloads generalizing net nr with
  | nil =>
    refine ⟨net, rfl, ?_⟩
    rw [show allFragments [] = [] from rfl, length_nil, show UInt8.ofNat 0 = 0 from rfl,
      UInt8.add_zero]
    exact h
  | cons p payloads ih =>
    rw [forall_mem_cons] at hroom
    rw [allFragments, flatMap_cons] at h ⊢
    have hfirst : AtPackets nr (fragments p)
        (wire (nr + .ofNat (fragments p).length) (allFragments payloads) ++ rest) net := by
      refine { h with incoming := ?_ }
      rw [← append_assoc, ← wire_append]
      exact h.incoming
    obtain ⟨net', hread, hslice, hat, hwhere, hsize⟩ := readPlain_spec p hfirst hroom.1
    have hnext : AtPackets (nr + .ofNat (fragments p).length) (allFragments payloads) rest net' :=
      { hat with }
    obtain ⟨net'', hreads, hend⟩ := ih hnext (by rw [hwhere, hsize]; exact hroom.2)
    refine ⟨net'', ?_, ?_⟩
    · rw [length_cons, readPayloads, myNetRead, h.compress_eq]
      simp only [Bool.false_eq_true, if_false, hread, Option.bind_eq_bind, Option.bind_some,
        hreads, hslice]
    · rw [length_append, UInt8.ofNat_add, ← UInt8.add_assoc]
      exact hend

/-- What is sent is received: the messages go to the socket as packets that are numbered one after
the other, and from these bytes, however they arrive, the reader gets the payloads. -/
theorem readPayloads_sendAll (msgs : List Message) (hfits : ∀ msg ∈ msgs, msg.Fits) (w : Net)
    (hw : w.compress = false) (hpos : w.writePos = 0) (hout : w.output = []) :
    ∃ w', sendAll w msgs = some w' ∧
      w'.output.flatten =
        wire (.ofNat w.pktNr) (allFragments (msgs.map Message.payload)) ∧
      ∀ (uncompress : List UInt8 → ℕ → Option (List UInt8)) (r : Net) (rest : List UInt8),
        r.compress = false → r.pktNr % 256 = w.pktNr % 256 →
        Incoming (w'.output.flatten ++ rest) r.input →
        (∀ msg ∈ msgs, msg.payload.length + r.whereB < r.maxPacketSize) →
        ∃ r', readPayloads uncompress msgs.length r = some (msgs.map Message.payload, r') ∧
          Incoming rest r'.input := by
  obtain ⟨net', hsend, hsent⟩ := sends_spec msgs (by simp [hpos]) hw hfits
  have hstream : stream net' =
      wire (.ofNat w.pktNr) (allFragments (msgs.map Message.payload)) := by
    rw [hsent.stream_eq, stream, hout, hpos]
    rfl
  refine ⟨netFlush net', by rw [sendAll, hsend]; rfl, ?_, ?_⟩
  · rw [output_netFlush, hstream]
  · intro uncompress r rest hr hnr hin hroom
    rw [output_netFlush, hstream] at hin
    have hnr' : UInt8.ofNat r.pktNr = .ofNat w.pktNr := by
      apply UInt8.toNat_inj.mp
      exact hnr
    obtain ⟨r', hread, hend⟩ := readPayloads_spec uncompress (msgs.map Message.payload)
      ⟨hr, hnr', hin⟩ (List.forall_mem_map.mpr hroom)
    rw [length_map] at hread
    exact ⟨r', hread, hend.incoming⟩

/-- A connection after `my_net_init`. -/
def initialNet (maxPacket pktNr : ℕ) (input : List (List UInt8)) : Net where
  buff _ := 0
  writePos := 0
  readPos := 0
  maxPacket := maxPacket
  maxPacketSize := 1024
  pktNr := pktNr
  compressPktNr := pktNr
  compress := false
  whereB := 0
  bufLength := 0
  remainInBuf := 0
  saveChar := 0
  input := input
  output := []

/-- An empty payload and a command, over a buffer of two bytes and reads of three bytes. -/
theorem readPayloads_sendAll_command :
    ∃ w' r', sendAll (initialNet 2 255 []) [.write [], .command 3 [1] [2, 3]] = some w' ∧
      w'.output.flatten = [0, 0, 0, 255, 4, 0, 0, 0, 3, 1, 2, 3] ∧
      readPayloads (fun _ _ => none) 2
          (initialNet 0 255 [[0, 0, 0], [255, 4, 0], [0, 0, 3], [1, 2, 3]]) =
        some ([[], [3, 1, 2, 3]], r') := by
  have hfragments {l : List UInt8} (hl : l.length ≤ 4) : fragments l = [l] := by
    refine fragments_of_lt (Nat.lt_of_le_of_lt hl ?_)
    unfold maxPacketLength
    decide
  obtain ⟨w', hsend, hout, hread⟩ := readPayloads_sendAll [.write [], .command 3 [1] [2, 3]]
    (by
      simp only [forall_mem_cons, Message.Fits, length_singleton, maxPacketLength]
      simp)
    (initialNet 2 255 []) rfl rfl rfl
  have hwire : w'.output.flatten = [0, 0, 0, 255, 4, 0, 0, 0, 3, 1, 2, 3] := by
    rw [hout]
    simp only [map_cons, map_nil, Message.payload, allFragments, flatMap_cons,
      flatMap_nil, hfragments (l := []) (by decide),
      hfragments (l := 3 :: ([1] ++ [2, 3])) (by decide)]
    rfl
  obtain ⟨r', hr', -⟩ := hread (fun _ _ => none)
    (initialNet 0 255 [[0, 0, 0], [255, 4, 0], [0, 0, 3], [1, 2, 3]]) [] rfl rfl
    ⟨by rw [hwire]; rfl, by decide⟩
    (by simp [Message.payload, initialNet])
  exact ⟨w', r', hsend, hwire, hr'⟩

/-- A header that does not fit into the first packet: the length of the rest wraps around. -/
theorem sendAll_long_header :
    sendAll (initialNet 2 0 []) [.command 3 (replicate maxPacketLength 0) []] = none := by
  have hlen : firstLength maxPacketLength = 18446744073709551615 := by
    unfold firstLength
    omega
  have hshort : ([] : List UInt8).length < 18446744073709551615 := by
    rw [length_nil]
    omega
  rw [sendAll, foldlM_cons, Message.send, netWriteCommand]
  simp only [length_replicate, hlen]
  rw [if_pos (by rw [length_nil]; omega), commandLoop, if_pos hshort]
  simp only [Option.bind_none, Option.bind_eq_bind, Option.map_none]

end MySQL.Sql.NetServ
