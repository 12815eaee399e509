import Bitle.Codec.Decode

/-!
# Bitle — mesh to trunk (`main/bitle_lora.c`)

`lora_link_send`: trim the BLE padding off an encoded packet (`trunk_true_len`), pass it
through the admission policy (`trunk_admit`) and queue it as one batch.

`trunk_true_len` is a second parser of the frame layout. It knows the version 1 layout only,
so it agrees with the decoder on version 1 frames and on no other
(`trunkTrueLen_exact_iff`).

The airtime credit is a `double`. `trunk_admit` is written over any type with the operations the
code uses on it: over `Float` it is the code, over `Rat` the exact bucket it rounds. The airtime of
a frame is a parameter; `loraAirtimeMs` is the one the node computes.
-/

namespace Bitle

open Wire

/-! ## Admission -/

def pktTypeOff : Nat := 1
def pktSenderOff : Nat := 14
def pktMinLen : Nat := 22
def throttleSlots : Nat := 8
def announceMinIntervalMs : UInt64 := 30000
def govBurstMs {K : Type} [NatCast K] : K := ((5000 : Nat) : K)
def trunkHdrLen : Nat := 16
def trunkChunkTx : Nat := 120

/-- `TRUNK_MAX_FRAGS`. -/
def trunkMaxFrags : Nat := (bitchatBleMaxPacketSize + trunkChunkTx - 1) / trunkChunkTx

/-- `TX_BATCH_QUEUE_DEPTH`. -/
def txBatchQueueDepth : Nat := 5

/-- `throttle_t`. -/
structure Throttle where
  inUse : Bool := false
  tag : Bytes 8 := zeros 8
  lastMs : UInt64 := 0
  deriving DecidableEq

/-- One round of the slot search of `announce_throttled`: the slot of the sender, the first
free slot, and the oldest slot, as indices. -/
def throttleScan (slots : List Throttle) (sender : Bytes 8) :
    Option Nat × Option Nat × Nat :=
  (List.range slots.length).foldl (fun (slot, free, oldest) i =>
    let t := slots.getD i {}
    let hit := t.inUse && t.tag == sender
    (if hit then some i else slot,
      if !hit && !t.inUse && free.isNone then some i else free,
      if t.lastMs < (slots.getD oldest {}).lastMs then i else oldest)) (none, none, 0)

/-- `announce_throttled`: drop a sender's announce within the interval, else stamp its slot. -/
def announceThrottled (slots : List Throttle) (sender : Bytes 8) (now : UInt64) :
    Bool × List Throttle :=
  match throttleScan slots sender with
  | (some i, _, _) =>
    let t := slots.getD i {}
    if now - t.lastMs < announceMinIntervalMs then (true, slots)
    else (false, slots.set i { t with lastMs := now })
  | (none, free, oldest) =>
    (false, slots.set (free.getD oldest) { inUse := true, tag := sender, lastMs := now })

/-- An unsigned integer as a double. -/
instance natCastFloat : NatCast Float := ⟨Float.ofNat⟩

/-- `ceil` of a double that is not negative. -/
def ceilFloat (x : Float) : Float :=
  if x.toUInt64.toFloat < x then x.toUInt64.toFloat + 1.0 else x.toUInt64.toFloat

/-- `lora_airtime_ms` for a spreading factor, a bandwidth and a coding rate: whole milliseconds. -/
def loraAirtimeMs (sf bw cr payloadLen : Nat) : Nat :=
  let tsym : Float := Nat.toFloat (1 <<< sf) / bw.toFloat
  let tpre := (8.0 + 4.25) * tsym
  let de := if (sf ≥ 11 && bw == 125000) || (sf ≥ 12 && bw == 250000) then 1 else 0
  let num := 8.0 * payloadLen.toFloat - 4.0 * sf.toFloat + 28.0 + 16.0
  let den := 4.0 * Nat.toFloat (sf - 2 * de)
  -- a negative number of symbols is clamped to none
  let n := if num / den < 0.0 then 0.0 else ceilFloat (num / den) * Nat.toFloat (cr - 4 + 4)
  let t := tpre + (8.0 + n) * tsym
  (t * 1000.0 + 0.5).toUInt32.toNat

/-- The governor: airtime credit, refill rate, time of the last refill, throttle slots. -/
structure Governor (K : Type) where
  creditMs : K
  refillFrac : K
  lastMs : UInt64
  throttle : List Throttle

/-- The number of frames a packet becomes. -/
def fragCount (len : Nat) : Nat := (len + trunkChunkTx - 1) / trunkChunkTx

/-- Airtime of a packet over all its fragments, which `trunk_admit` counts in a `uint8_t`. -/
def packetAirtime (airtime : Nat → Nat) (len : Nat) : Nat :=
  ((List.range (fragCount len % 256)).map fun i =>
    airtime (trunkHdrLen + min (len - i * trunkChunkTx) trunkChunkTx)).sum

/-- The announce class of the trunk policy. -/
def trunkAnnounce (type : UInt8) : Bool :=
  type == bitchatMsgAnnounce || type == bitchatMsgNoiseIdentityAnnounce ||
    type == bitchatMsgNodeCapability

/-- `trunk_admit`: OTA is opt-in, announces need credit and pass the per-origin throttle,
everything else passes and is debited. -/
def trunkAdmit {K : Type} [NatCast K] [Add K] [Sub K] [Mul K] [Neg K] [LT K] [DecidableLT K]
    (airtime : Nat → Nat) (otaOverTrunk : Bool) (now : UInt64) (g : Governor K)
    (data : List UInt8) : Bool × Governor K :=
  if data.length < pktMinLen then (false, g)
  else
    let type := byteAt data pktTypeOff
    if type ≥ 0xA0 && type ≤ 0xA3 && !otaOverTrunk then (false, g)
    else
      let cost : K := ((packetAirtime airtime data.length : Nat) : K)
      let flowed := g.creditMs + ((now - g.lastMs).toNat : K) * g.refillFrac
      let refilled := if govBurstMs < flowed then govBurstMs else flowed
      let g := { g with creditMs := refilled, lastMs := now }
      if trunkAnnounce type && refilled < cost then (false, g)
      else
        let (dropped, throttle) :=
          if type == bitchatMsgAnnounce || type == bitchatMsgNoiseIdentityAnnounce then
            announceThrottled g.throttle (copyAt 8 data pktSenderOff) now
          else (false, g.throttle)
        if dropped then (false, { g with throttle := throttle })
        else
          let left := refilled - cost
          (true, { g with throttle := throttle
                          creditMs := if left < -govBurstMs then -govBurstMs else left })

/-! ## Trimming and queueing -/

/-- `trunk_true_len`: header, payload, recipient and signature of a version 1 frame, or the
length it was given when the frame claims more. -/
def trunkTrueLen (data : List UInt8) : Nat :=
  if data.length < 14 then data.length
  else
    let flags := byteAt data 11
    let payloadLen := beNat ((data.drop 12).take 2)
    let real := 22 + payloadLen + (if flags &&& 0x01 != 0 then 8 else 0) +
      (if flags &&& 0x02 != 0 then 64 else 0)
    if real ≤ data.length then real else data.length

/-- `lora_batch_t`; `len` is the length of `data`. -/
structure LoraBatch where
  seq : UInt16
  total : Nat
  wantAck : Bool
  data : List UInt8

/-- The sender side of the trunk. -/
structure Trunk where
  active : Bool
  queue : List LoraBatch
  txSeq : UInt16
  otaOverTrunk : Bool
  governor : Governor Float

/-- `lora_link_send`: -1 is an error, 0 says the packet was queued or dropped by policy. -/
def loraLinkSend (airtime : Nat → Nat) (now : UInt64) (t : Trunk) (data : List UInt8) :
    Int × Trunk :=
  if !t.active || data.length = 0 || data.length > bitchatBleMaxPacketSize then (-1, t)
  else
    let data := data.take (trunkTrueLen data)
    if data.length < pktMinLen then (0, t)
    else
      let total := fragCount data.length
      if total = 0 ∨ total > trunkMaxFrags then (-1, t)
      else if txBatchQueueDepth - t.queue.length = 0 then (-1, t)
      else
        let (admitted, governor) := trunkAdmit airtime t.otaOverTrunk now t.governor data
        let t := { t with governor := governor }
        if !admitted then (0, t)
        else
          let batch : LoraBatch :=
            { seq := t.txSeq + 1, total := total,
              wantAck := !trunkAnnounce (byteAt data pktTypeOff), data := data }
          (0, { t with txSeq := t.txSeq + 1, queue := t.queue ++ [batch] })

/-! ## The two length parsers compared -/

/-- On a version 1 frame the trimmed length is what the decoder consumed. -/
theorem trunkTrueLen_v1 {tinfl : Tinfl} {data : List UInt8} {p : BitchatPacket} {off : Nat}
    (s : Sections tinfl data p off) (hv : byteAt data 0 = 1) : trunkTrueLen data = off := by
  have hcons := s.consumed
  obtain ⟨-, -, -, -, -, hlen⟩ := s.offsets
  have hroute : routeLen data (byteAt data 0) (byteAt data 11) s.recipientOff = 0 := by
    simp [routeLen, hv]
  have hfield : lengthField data = beNat ((data.drop 12).take 2) := by
    simp [lengthField, hv]
  have hend : headerEnd (byteAt data 0) = 14 := by simp [headerEnd, hv]
  rw [hroute, hfield, hend] at hcons
  simp only [fieldLen] at hcons
  unfold trunkTrueLen
  rw [if_neg (by omega)]
  simp only
  rw [if_pos (by omega)]
  omega

/-- The two bytes a version 1 parser takes for the length are the high half of a version 2
length, which is zero in every accepted frame. -/
theorem lengthField_v2_high {data : List UInt8} (hv : byteAt data 0 = 2) (hlen : 16 ≤ data.length)
    (hle : lengthField data ≤ 65535) : beNat ((data.drop 12).take 2) = 0 := by
  have hsplit : (data.drop 12).take 4 = (data.drop 12).take 2 ++ (data.drop 14).take 2 := by
    rw [show (4 : Nat) = 2 + 2 from rfl, List.take_add, List.drop_drop]
  have hfield : lengthField data = beNat ((data.drop 12).take 4) := by
    simp [lengthField, hv]
  rw [hfield, hsplit, beNat_append] at hle
  have hl : ((data.drop 14).take 2).length = 2 := by simp; omega
  rw [hl] at hle
  omega

/-- On a version 2 frame the trimmed length cuts into the frame. -/
theorem trunkTrueLen_v2_lt {tinfl : Tinfl} {data : List UInt8} {p : BitchatPacket} {off : Nat}
    (s : Sections tinfl data p off) (hv : byteAt data 0 = 2) : trunkTrueLen data < off := by
  have hcons := s.consumed
  obtain ⟨-, hend, hle, -⟩ := decodeHeader_eq_some_iff.mp s.header
  obtain ⟨-, -, -, -, -, hlen⟩ := s.offsets
  have h16 : headerEnd (byteAt data 0) = 16 := by simp [headerEnd, hv]
  rw [h16] at hcons hend
  simp only [fieldLen] at hcons
  unfold trunkTrueLen
  rw [if_neg (by omega)]
  simp only [lengthField_v2_high hv hend hle]
  rw [if_pos (by omega)]
  omega

/-- What the queue holds: 22 to 520 bytes, counted into fragments. -/
def LoraBatch.Admitted (b : LoraBatch) : Prop :=
  pktMinLen ≤ b.data.length ∧ b.data.length ≤ bitchatBleMaxPacketSize ∧
    b.total = fragCount b.data.length

/-- A packet is queued trimmed, behind what was queued before, or not at all. -/
theorem loraLinkSend_queue (airtime : Nat → Nat) (now : UInt64) (t : Trunk) (data : List UInt8) :
    (loraLinkSend airtime now t data).2.queue = t.queue ∨
      ∃ b : LoraBatch, (loraLinkSend airtime now t data).2.queue = t.queue ++ [b] ∧
        b.data = data.take (trunkTrueLen data) ∧ b.Admitted := by
  unfold loraLinkSend
  split
  · exact Or.inl rfl
  · next hactive =>
    dsimp only
    split
    · exact Or.inl rfl
    · next hmin =>
      split
      · exact Or.inl rfl
      · split
        · exact Or.inl rfl
        · split
          · exact Or.inl rfl
          · refine Or.inr ⟨_, rfl, rfl, Nat.not_lt.mp hmin, ?_, rfl⟩
            have hlen : data.length ≤ bitchatBleMaxPacketSize := by
              simp only [Bool.or_eq_true, decide_eq_true_eq, not_or, Nat.not_lt] at hactive
              exact hactive.2
            exact Nat.le_trans (List.length_take_le' _ _) hlen

/-- The trunk carries an accepted frame faithfully: the trimmed length is the number of bytes
the decoder consumed, and whatever `lora_link_send` queues is the frame without its padding
and decodes to the same packet. -/
def TrimsExactly (tinfl : Tinfl) (data : List UInt8) (p : BitchatPacket) (off : Nat) : Prop :=
  trunkTrueLen data = off ∧
    ∀ airtime now t, (loraLinkSend airtime now t data).2.queue = t.queue ∨
      ∃ b : LoraBatch, (loraLinkSend airtime now t data).2.queue = t.queue ++ [b] ∧
        b.data = data.take off ∧ bitchatPacketDecode tinfl b.data = some p

/-- **`trunk_true_len` against the decoder**: exact on version 1 frames, and on no version 2
frame. -/
theorem trunkTrueLen_exact_iff (tinfl : Tinfl) (data : List UInt8) (p : BitchatPacket) (off : Nat)
    (hd : bitchatPacketDecodeOff tinfl data = some (p, off)) :
    TrimsExactly tinfl data p off ↔ byteAt data 0 = 1 := by
  obtain ⟨s⟩ := decodeOff_eq_some_iff.mp hd
  obtain ⟨hver, -⟩ := decodeHeader_eq_some_iff.mp s.header
  constructor
  · rintro ⟨hlen, -⟩
    rcases hver with hv | hv
    · exact hv
    · have := trunkTrueLen_v2_lt s hv
      omega
  · intro hv
    have hlen := trunkTrueLen_v1 s hv
    refine ⟨hlen, fun airtime now t => ?_⟩
    rcases loraLinkSend_queue airtime now t data with hq | ⟨b, hq, hb, -⟩
    · exact Or.inl hq
    · rw [hlen] at hb
      refine Or.inr ⟨b, hq, hb, ?_⟩
      rw [hb, bitchatPacketDecode, decodeOff_take hd]
      rfl

/-- An inflater that knows no stream; the frames below are not compressed. -/
def noTinfl : Tinfl := fun _ _ _ => (false, [], 0)

/-- The conformance vector `packet.v1.message`, padded with two bytes. -/
def v1Message : List UInt8 :=
  [1, 2, 7, 0, 0, 0, 0, 0, 0, 0, 1, 0, 0, 3, 1, 2, 3, 4, 5, 6, 7, 8, 0x61, 0x62, 0x63, 2, 2]

/-- A version 2 frame with the same fields and payload. -/
def v2Message : List UInt8 :=
  [2, 2, 7, 0, 0, 0, 0, 0, 0, 0, 1, 0, 0, 0, 0, 3, 1, 2, 3, 4, 5, 6, 7, 8, 0x61, 0x62, 0x63]

/-- The packet both frames carry. -/
def messagePacket (version : UInt8) (opaqueOnly : Bool) : BitchatPacket :=
  { version := version, type := 2, ttl := 7, timestampMs := 1
    senderId := copyAt 8 [1, 2, 3, 4, 5, 6, 7, 8] 0, recipientId := zeros 8, hasRecipient := false
    isCompressed := false, isRsr := false, opaqueOnly := opaqueOnly
    payload := ⟨[0x61, 0x62, 0x63], by decide⟩, signature := zeros 64, hasSignature := false }

theorem trunkTrueLen_exact_v1Message :
    TrimsExactly noTinfl v1Message (messagePacket 1 false) 25 :=
  (trunkTrueLen_exact_iff noTinfl v1Message (messagePacket 1 false) 25 (by decide)).mpr (by decide)

/-- The trunk keeps 22 of the 27 bytes of a version 2 frame, and they no longer decode. -/
theorem trunkTrueLen_cuts_v2Message :
    bitchatPacketDecodeOff noTinfl v2Message = some (messagePacket 2 true, 27) ∧
      trunkTrueLen v2Message = 22 ∧
      bitchatPacketDecode noTinfl (v2Message.take (trunkTrueLen v2Message)) = none := by
  decide

end Bitle
