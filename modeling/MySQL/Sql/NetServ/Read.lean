import MySQL.Sql.NetServ.Write

/-!
# Receiving packets

`my_real_read` reads one packet into the buffer, in as many reads from the socket as it takes.
Without compression `my_net_read` puts the packets of a payload one behind the other.  With
compression it reads packets that contain any part of the stream, takes one payload from the
buffer, and leaves the rest for the next call.
-/

namespace MySQL.Sql.NetServ

open Lib List

/-! ## One packet -/

/-- `vio_read` until everything was read; a read gets at most what comes next. -/
def vioReadAll : List (List UInt8) → (ℕ → UInt8) → ℕ → ℕ →
    Option ((ℕ → UInt8) × List (List UInt8))
  | input, buff, _, 0 => some (buff, input)
  | [], _, _, _ + 1 => none
  | c :: input, buff, pos, remain + 1 =>
    if c.length = 0 then none
    else if c.length ≤ remain + 1 then
      vioReadAll input (write buff pos c) (pos + c.length) (remain + 1 - c.length)
    else some (write buff pos (c.take (remain + 1)), c.drop (remain + 1) :: input)

/-- `IO_SIZE`. -/
def ioSize : ℕ := 4096

def netRealloc (net : Net) (length : ℕ) : Option Net :=
  if length ≥ net.maxPacketSize then none
  else some { net with writePos := 0, maxPacket := (length + ioSize - 1) / ioSize * ioSize }

/-- `my_real_read`: the length of the packet, and that of the uncompressed packet. -/
def myRealRead (net : Net) : Option (ℕ × ℕ × Net) := do
  let (buff, input) ← vioReadAll net.input net.buff net.whereB (if net.compress then 7 else 4)
  if buff (net.whereB + 3) ≠ .ofNat net.pktNr then none
  else
    let net : Net :=
      { net with
        buff := buff, input := input
        pktNr := nextNr net.pktNr, compressPktNr := nextNr net.pktNr }
    let complen := if net.compress then uint3korr buff (net.whereB + 4) else 0
    let len := uint3korr buff net.whereB
    if len = 0 then some (len, complen, net)
    else
      let helping := max len complen + net.whereB
      let net ← if helping ≥ net.maxPacket then netRealloc net helping else some net
      let (buff, input) ← vioReadAll net.input net.buff net.whereB len
      some (len, complen, { net with buff := buff, input := input })

/-! ## Payloads -/

def readOthers : ℕ → Net → ℕ → Option (ℕ × Net)
  | 0, _, _ => none
  | fuel + 1, net, totalLength => do
    let (len, _, net) ←
      myRealRead { net with whereB := net.whereB + maxPacketLength }
    if len = maxPacketLength then readOthers fuel net (totalLength + maxPacketLength)
    else some (len + (totalLength + maxPacketLength), net)

/-- `my_net_read` without compression. -/
def readPlain (net : Net) : Option (ℕ × Net) := do
  let savePos := net.whereB
  let (len, _, net) ← myRealRead net
  let (len, net) ←
    if len = maxPacketLength then readOthers (net.input.flatten.length + 1) net 0
    else some (len, net)
  some (len,
    { net with whereB := savePos, readPos := savePos, buff := write net.buff (savePos + len) [0] })

/-- The variables of `my_net_read` with compression. -/
structure ReadVars where
  net : Net
  bufLength : ℕ
  startOfPacket : ℕ
  firstPacketOffset : ℕ
  multiBytePacket : ℕ

/-- `memmove`. -/
def memmove (buff : ℕ → UInt8) (dst src n : ℕ) : ℕ → UInt8 := write buff dst (slice buff src n)

namespace ReadVars

def moveDown (v : ReadVars) : ReadVars :=
  if v.firstPacketOffset ≠ 0 then
    { v with
      net := { v.net with
        buff := memmove v.net.buff 0 v.firstPacketOffset (v.bufLength - v.firstPacketOffset) }
      bufLength := v.bufLength - v.firstPacketOffset
      startOfPacket := v.startOfPacket - v.firstPacketOffset
      firstPacketOffset := 0 }
  else v

def take (v : ReadVars) (readLength : ℕ) : ReadVars :=
  if v.multiBytePacket ≠ 0 then
    { v with
      net := { v.net with
        buff := memmove v.net.buff (v.firstPacketOffset + v.startOfPacket)
          (v.firstPacketOffset + v.startOfPacket + 4) (v.bufLength - v.startOfPacket) }
      startOfPacket := v.startOfPacket + readLength
      bufLength := v.bufLength - 4 }
  else { v with startOfPacket := v.startOfPacket + readLength + 4 }

variable (uncompress : List UInt8 → ℕ → Option (List UInt8))

/-- `my_uncompress`, with what `uncompress` of `zlib` gives. -/
def myUncompress (packet : List UInt8) (complen : ℕ) : Option (List UInt8) :=
  if complen ≠ 0 then uncompress packet complen else some packet

def more (v : ReadVars) : Option ReadVars := do
  let v := v.moveDown
  let (packetLen, complen, net) ← myRealRead { v.net with whereB := v.bufLength }
  let bytes ← myUncompress uncompress (slice net.buff net.whereB packetLen) complen
  some { v with
    net := { net with buff := write net.buff net.whereB bytes }
    bufLength := v.bufLength + bytes.length }

/-- The loop of `my_net_read`. -/
def loop (uncompress : List UInt8 → ℕ → Option (List UInt8)) : ℕ → ReadVars → Option ReadVars
  | 0, _ => none
  | fuel + 1, v =>
    if 4 ≤ v.bufLength - v.startOfPacket then
      let readLength := uint3korr v.net.buff v.startOfPacket
      if readLength = 0 then some { v with startOfPacket := v.startOfPacket + 4 }
      else if readLength + 4 ≤ v.bufLength - v.startOfPacket then
        let v := v.take readLength
        if readLength ≠ maxPacketLength then some { v with multiBytePacket := 0 }
        else loop uncompress fuel { v with multiBytePacket := 4 }.moveDown
      else (v.more uncompress).bind (loop uncompress fuel)
    else (v.more uncompress).bind (loop uncompress fuel)

def init (net : Net) : ReadVars :=
  if net.remainInBuf ≠ 0 then
    let startOfPacket := net.bufLength - net.remainInBuf
    ⟨{ net with buff := write net.buff startOfPacket [net.saveChar] }, net.bufLength,
      startOfPacket, startOfPacket, 0⟩
  else ⟨net, 0, 0, 0, 0⟩

end ReadVars

variable (uncompress : List UInt8 → ℕ → Option (List UInt8)) (net : Net)

/-- `my_net_read` with compression. -/
def readCompressed :
    Option (ℕ × Net) := do
  let v := ReadVars.init net
  -- A compressed packet has a header, and less than `2 ^ 24` bytes.
  let fuel := v.bufLength + 16777216 * net.input.flatten.length + 1
  let v ← v.loop uncompress fuel
  let readPos := v.firstPacketOffset + 4
  let len := v.startOfPacket - v.firstPacketOffset - 4 - v.multiBytePacket
  some (len,
    { v.net with
      readPos := readPos
      bufLength := v.bufLength
      remainInBuf := v.bufLength - v.startOfPacket
      saveChar := v.net.buff (readPos + len)
      buff := write v.net.buff (readPos + len) [0] })

/-- `my_net_read`: the length of the payload, which stands at `read_pos`. -/
def myNetRead : Option (ℕ × Net) :=
  if net.compress then readCompressed uncompress net else readPlain net

def readPayloads (uncompress : List UInt8 → ℕ → Option (List UInt8)) :
    ℕ → Net → Option (List (List UInt8) × Net)
  | 0, net => some ([], net)
  | n + 1, net => do
    let (len, net) ← myNetRead uncompress net
    let (payloads, net') ← readPayloads uncompress n net
    some (slice net.buff net.readPos len :: payloads, net')

/-! ## What one packet gives -/

def Incoming (bytes : List UInt8) (input : List (List UInt8)) : Prop :=
  input.flatten = bytes ∧ ∀ c ∈ input, c ≠ []

theorem vioReadAll_spec {input : List (List UInt8)} (buff : ℕ → UInt8) (pos : ℕ)
    {l rest : List UInt8} (h : Incoming (l ++ rest) input) :
    ∃ buff' input', vioReadAll input buff pos l.length = some (buff', input') ∧
      Incoming rest input' ∧ Stands buff' pos l ∧ ∀ q < pos, buff' q = buff q := by
  induction input generalizing buff pos l with
  | nil =>
    obtain ⟨rfl, rfl⟩ : l = [] ∧ rest = [] := by simpa using h.1.symm
    exact ⟨buff, [], rfl, h, stands_nil _ _, fun _ _ => rfl⟩
  | cons c input ih =>
    obtain ⟨hflat, hne⟩ := h
    rw [forall_mem_cons] at hne
    have hc : c.length ≠ 0 := mt length_eq_zero_iff.mp hne.1
    rw [flatten_cons] at hflat
    cases hl : l.length with
    | zero =>
      rw [length_eq_zero_iff] at hl
      subst hl
      exact ⟨buff, c :: input, rfl, ⟨hflat, forall_mem_cons.mpr hne⟩, stands_nil _ _,
        fun _ _ => rfl⟩
    | succ n =>
      rw [vioReadAll, if_neg hc, ← hl]
      split
      · next hle =>
        obtain ⟨l', rfl⟩ : ∃ l', l = c ++ l' := by
          rcases append_eq_append_iff.mp hflat with ⟨l', hl', -⟩ | ⟨c', hc', -⟩
          · exact ⟨l', hl'⟩
          · refine ⟨[], ?_⟩
            have hnil : c' = [] := by
              rw [← length_eq_zero_iff]
              rw [hc', length_append] at hle
              omega
            rw [hc', hnil, append_nil, append_nil]
        rw [append_assoc, append_cancel_left_eq] at hflat
        obtain ⟨buff', input', hread, hin, hstands, hsame⟩ :=
          ih (write buff pos c) (pos + c.length) ⟨hflat, hne.2⟩
        rw [length_append, Nat.add_sub_cancel_left, hread]
        refine ⟨buff', input', rfl, hin, ?_, fun q hq => ?_⟩
        · rw [stands_append]
          refine ⟨(stands_write buff pos c).congr fun q hq hq' => hsame q hq', hstands⟩
        · rw [hsame q (by omega), write_of_lt hq]
      · next hlt =>
        obtain ⟨c', rfl, rfl⟩ : ∃ c', c = l ++ c' ∧ rest = c' ++ input.flatten := by
          rcases append_eq_append_iff.mp hflat with ⟨l', hl', -⟩ | hc'
          · rw [hl', length_append] at hlt
            omega
          · exact hc'
        rw [take_left, drop_left]
        refine ⟨_, _, rfl, ⟨rfl, ?_⟩, stands_write _ _ _, fun q hq => write_of_lt hq⟩
        rw [forall_mem_cons]
        refine ⟨?_, hne.2⟩
        rintro rfl
        simp at hlt

theorem uint3korr_of_stands {buff : ℕ → UInt8} {p n : ℕ} {l : List UInt8} (hn : n < 16777216)
    (h : Stands buff p (int3store n ++ l)) : uint3korr buff p = n := by
  have h0 := h 0 _ rfl
  have h1 := h 1 _ rfl
  have h2 := h 2 _ rfl
  rw [Nat.add_zero] at h0
  simp only [uint3korr, h0, h1, h2, UInt8.toNat_ofNat']
  omega

/-- What `my_real_read` leaves alone. -/
structure Kept (net net' : Net) : Prop where
  compress_eq : net'.compress = net.compress
  whereB_eq : net'.whereB = net.whereB
  maxPacketSize_eq : net'.maxPacketSize = net.maxPacketSize
  buff_eq : ∀ q < net.whereB, net'.buff q = net.buff q

/-- A packet comes from the socket: the header, with compression also the length of the uncompressed
packet, and the bytes. -/
def packetBytes (net : Net) (complen : ℕ) (body : List UInt8) : List UInt8 :=
  packetHeader body.length (.ofNat net.pktNr) ++
    (if net.compress then int3store complen else []) ++ body

theorem myRealRead_spec (net : Net) {complen : ℕ} {body rest : List UInt8}
    (hlen : body.length < 16777216) (hcomplen : complen < 16777216)
    (hcomp : net.compress = false → complen = 0)
    (hroom : max body.length complen + net.whereB < net.maxPacketSize)
    (h : Incoming (packetBytes net complen body ++ rest) net.input) :
    ∃ net', myRealRead net = some (body.length, complen, net') ∧ Kept net net' ∧
      Incoming rest net'.input ∧ Stands net'.buff net.whereB body ∧
      net'.pktNr = nextNr net.pktNr := by
  unfold packetBytes at h
  rw [append_assoc] at h
  obtain ⟨buff, input, hread, hin, hstands, hsame⟩ := vioReadAll_spec net.buff
    net.whereB h
  have hheader : (packetHeader body.length (.ofNat net.pktNr) ++
      (if net.compress then int3store complen else [])).length = if net.compress then 7 else 4 := by
    split <;> rfl
  rw [hheader] at hread
  have hnr : buff (net.whereB + 3) = .ofNat net.pktNr := hstands 3 _ rfl
  have hbody : uint3korr buff net.whereB = body.length := by
    exact uint3korr_of_stands hlen hstands
  have hcomplen' : (if net.compress then uint3korr buff (net.whereB + 4) else 0) = complen := by
    split
    · next hc =>
      rw [stands_append, if_pos hc] at hstands
      have hstands' := hstands.2
      exact uint3korr_of_stands hcomplen hstands'
    · next hc => exact (hcomp (by simpa using hc)).symm
  unfold myRealRead
  rw [hread]
  simp only [Option.bind_eq_bind, Option.bind_some, hnr, ne_eq, not_true_eq_false, if_false,
    hbody, hcomplen']
  by_cases hzero : body.length = 0
  · rw [length_eq_zero_iff] at hzero
    subst hzero
    exact ⟨_, rfl, ⟨rfl, rfl, rfl, hsame⟩, hin, stands_nil _ _, rfl⟩
  · rw [if_neg hzero]
    obtain ⟨buff', input', hread', hin', hstands', hsame'⟩ := vioReadAll_spec buff
      net.whereB hin
    have hsame'' (q : ℕ) (hq : q < net.whereB) : buff' q = net.buff q := by
      rw [hsame' q hq, hsame q hq]
    split
    · rw [netRealloc, if_neg (by simpa using hroom), Option.bind_some, hread']
      exact ⟨_, rfl, ⟨rfl, rfl, rfl, hsame''⟩, hin', hstands', rfl⟩
    · rw [hread']
      exact ⟨_, rfl, ⟨rfl, rfl, rfl, hsame''⟩, hin', hstands', rfl⟩

end MySQL.Sql.NetServ
