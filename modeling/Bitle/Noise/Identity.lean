import Bitle.Codec.Packet
import Bitle.Noise.Session

/-!
# Bitle — announces, identities and signatures (`main/noise_handshake.c`)

What the worker reads out of a packet before it touches the session table: the TLVs of an
ANNOUNCE, the legacy identity payload, and the canonical bytes a packet signature covers. An
event carries the fields of the packet that are needed to rebuild those bytes.

SHA-256 and the Ed25519 check are parameters.
-/

namespace Bitle

open Wire

/-! ## Events -/

/-- `noise_evt_type_t`. -/
inductive NoiseEvtType where
  | start
  | process
  | announce
  | identity
  | encrypted
  | subscribed
  | courier
  | sync
  | disconnect
  deriving DecidableEq, Repr

/-- `NOISE_EVENT_PAYLOAD_MAX`. -/
def noiseEventPayloadMax : Nat := 456

/-- `NOISE_PACKET_TTL`. -/
def noisePacketTtl : UInt8 := 7

/-- `noise_event_t`. -/
structure NoiseEvent where
  type : NoiseEvtType
  connHandle : UInt16
  initiator : Bool := false
  timestampMs : UInt64 := 0
  ttl : UInt8 := 0
  hasSignature : Bool := false
  hasRecipient : Bool := false
  recipientId : PeerId := zeros 8
  signature : Bytes 64 := zeros 64
  peerId : PeerId := zeros 8
  payload : List UInt8 := []
  payload_le : payload.length ≤ noiseEventPayloadMax := by decide

/-- `event_to_packet`: the wire packet an event stands for. -/
def eventToPacket (evt : NoiseEvent) (type : UInt8) : BitchatPacket :=
  { version := 1, type := type, ttl := evt.ttl, timestampMs := evt.timestampMs
    senderId := evt.peerId
    recipientId := if evt.hasRecipient then evt.recipientId else zeros 8
    hasRecipient := evt.hasRecipient, isCompressed := false, isRsr := false, opaqueOnly := false
    payload := ⟨evt.payload, by have := evt.payload_le; unfold noiseEventPayloadMax at this; omega⟩
    signature := if evt.hasSignature then evt.signature else zeros 64
    hasSignature := evt.hasSignature }

/-! ## Canonical bytes -/

/-- `choose_padding_block`; zero means no padding. -/
def choosePaddingBlock (payloadLen : Nat) : Nat :=
  ([256, 512, 1024, 2048].find? fun block => payloadLen + 16 ≤ block).getD 0

/-- `apply_pkcs7_padding`. -/
def applyPkcs7Padding (buffer : List UInt8) (bufferLen blockSize : Nat) : List UInt8 :=
  if blockSize = 0 ∨ buffer.length ≥ blockSize ∨ blockSize > bufferLen then buffer
  else
    let padLen := blockSize - buffer.length
    if padLen > 255 then buffer else buffer ++ List.replicate padLen padLen.toUInt8

/-- `build_canonical_packet`: TTL zero, only the recipient flag, PKCS#7 padding. -/
def buildCanonicalPacket (packet : BitchatPacket) (maxLen : Nat) : Option (List UInt8) :=
  let header := [packet.version, packet.type, 0] ++ beBytes 8 packet.timestampMs.toNat ++
    [if packet.hasRecipient then 0x01 else 0x00] ++ beBytes 2 packet.payload.val.length ++
    packet.senderId.val ++ (if packet.hasRecipient then packet.recipientId.val else [])
  if header.length + packet.payload.val.length > maxLen then none
  else
    let total := header ++ packet.payload.val
    some (applyPkcs7Padding total maxLen (choosePaddingBlock total.length))

section Signed

variable (sha256 : List UInt8 → Bytes 32)
variable (ed25519SignOpen : List UInt8 → Bytes 32 → Bytes 64 → Bool)

/-- `noise_verify_packet_signature`. -/
def noiseVerifyPacketSignature (packet : BitchatPacket) (signKey : Bytes 32) : Bool :=
  packet.hasSignature &&
    match buildCanonicalPacket packet bitchatBleMaxPacketSize with
    | none => false
    | some canonical => ed25519SignOpen canonical signKey packet.signature

/-! ## ANNOUNCE -/

/-- The record under construction in `parse_announce_tlv`. -/
structure AnnounceParse where
  ident : NoiseIdentity := {}
  haveNick : Bool := false
  haveNoise : Bool := false
  haveSign : Bool := false

/-- One TLV of an ANNOUNCE; unknown types are skipped. -/
def announceTlv (tlvType : UInt8) (value : List UInt8) (acc : AnnounceParse) :
    Option AnnounceParse :=
  if tlvType = 0x01 then if value.length = 0 then none else some { acc with haveNick := true }
  else if tlvType = 0x02 then
    if value.length ≠ 32 then none
    else some { acc with haveNoise := true, ident := { acc.ident with noiseKey := copyAt 32 value 0 } }
  else if tlvType = 0x03 then
    if value.length ≠ 32 then none
    else some { acc with haveSign := true, ident := { acc.ident with signKey := copyAt 32 value 0 } }
  else if tlvType = 0xB0 then
    if value.length = 4 then
      some { acc with ident := { acc.ident with fwVersion := (beNat value).toUInt32 } }
    else some acc
  else if tlvType = 0xB1 then
    if value.length ≥ 1 then
      some { acc with
        ident := { acc.ident with
          isInfra := byteAt value 0 &&& 0x01 != 0
          isAuthoritative := byteAt value 0 &&& 0x02 != 0 } }
    else some acc
  else some acc

/-- The loop of `parse_announce_tlv`; every round consumes two bytes at least, so the payload
length bounds the rounds. -/
def announceLoop (payload : List UInt8) : Nat → Nat → AnnounceParse → Option AnnounceParse
  | 0, _, acc => some acc
  | fuel + 1, offset, acc =>
    if offset + 2 ≤ payload.length then
      let tlvLen := (byteAt payload (offset + 1)).toNat
      if offset + 2 + tlvLen > payload.length then none
      else
        match announceTlv (byteAt payload offset) ((payload.drop (offset + 2)).take tlvLen) acc with
        | none => none
        | some acc => announceLoop payload fuel (offset + 2 + tlvLen) acc
    else some acc

/-- `parse_announce_tlv`. -/
def parseAnnounceTlv (payload : List UInt8) : Option NoiseIdentity :=
  match announceLoop payload payload.length 0 {} with
  | none => none
  | some acc => if acc.haveNick && acc.haveNoise && acc.haveSign then some acc.ident else none

/-- The peer id a Noise key stands for. -/
def peerIdOf (noiseKey : Bytes 32) : PeerId := copyAt 8 (sha256 noiseKey.val).val 0

/-- The packet whose signature `verify_announce_event` checks. -/
def announcePacket (evt : NoiseEvent) : BitchatPacket :=
  { version := 1, type := bitchatMsgAnnounce, ttl := 0, timestampMs := evt.timestampMs
    senderId := evt.peerId, recipientId := zeros 8, hasRecipient := false, isCompressed := false
    isRsr := false, opaqueOnly := false
    payload := ⟨evt.payload, by have := evt.payload_le; unfold noiseEventPayloadMax at this; omega⟩
    signature := zeros 64, hasSignature := false }

/-- `verify_announce_event`: `none` is the hard reject of a sender that is not derived from the
announced key, otherwise `*out_sig_ok`. -/
def verifyAnnounceEvent (evt : NoiseEvent) (record : NoiseIdentity) : Option Bool :=
  if peerIdOf sha256 record.noiseKey ≠ evt.peerId then none
  else if !evt.hasSignature then some false
  else
    match buildCanonicalPacket (announcePacket evt) bitchatBleMaxPacketSize with
    | none => some false
    | some canonical => some (ed25519SignOpen canonical record.signKey evt.signature)

end Signed

/-! ## Legacy identity -/

/-- Skip a length byte and the field behind it. -/
def skipField (p : List UInt8) (offset : Nat) : Option Nat :=
  if offset ≥ p.length then none
  else
    let fieldLen := (byteAt p offset).toNat
    if offset + 1 + fieldLen > p.length then none else some (offset + 1 + fieldLen)

/-- `parse_identity_payload`: flags, peer id, two keys, nickname (1 to 31 bytes), previous id,
timestamp, signature. Nothing of it is verified. -/
def parseIdentityPayload (p : List UInt8) : Option NoiseIdentity :=
  if 9 > p.length then none
  else
    match (skipField p 9).bind (skipField p) with
    | none => none
    | some offset =>
      let nickLen := (byteAt p offset).toNat
      if offset < p.length ∧ (nickLen = 0 ∨ nickLen ≥ 32) then none
      else
        match (skipField p offset).bind (skipField p) with
        | none => none
        | some offset =>
          if offset + 8 > p.length then none
          else
            match skipField p (offset + 8) with
            | none => none
            | some _ =>
              some { valid := true, peerId := copyAt 8 p 1
                     timestampMs := (beNat (copyAt 8 p offset).val).toUInt64 }

end Bitle
