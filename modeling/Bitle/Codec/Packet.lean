import Bitle.Lib.Bytes

/-!
# Bitle — the packet decoder (`main/packet_codec.c`)

`bitchat_packet_decode`, cut at its sections:

```
version | type | ttl | timestamp(8) | flags | payload length(2 or 4) | sender(8)
  | recipient(8)?  | v2 route? | payload | signature(64)? | padding?
```

`bitchatPacketDecodeOff` also returns the offset at which the padding starts, the number of
bytes the decoder consumed. The inflater is the ROM's `tinfl_decompress`, a parameter;
allocation succeeds. A null payload pointer is the empty payload.
-/

namespace Bitle

open Wire

/-! ## Message types (`bitchat_message_type_t`) -/

def bitchatMsgAnnounce : UInt8 := 0x01
def bitchatMsgMessage : UInt8 := 0x02
def bitchatMsgCourierEnvelope : UInt8 := 0x04
def bitchatMsgNoiseHandshake : UInt8 := 0x10
def bitchatMsgNoiseEncrypted : UInt8 := 0x11
def bitchatMsgNoiseIdentityAnnounce : UInt8 := 0x13
def bitchatMsgRequestSync : UInt8 := 0x21
def bitchatMsgPrekeyBundle : UInt8 := 0x24
def bitchatMsgNodeCapability : UInt8 := 0x25

/-! ## Packets -/

/-- `BITCHAT_BLE_MAX_PACKET_SIZE`. -/
def bitchatBleMaxPacketSize : Nat := 520

/-- A payload buffer with its 16-bit length. -/
abbrev Payload : Type := { l : List UInt8 // l.length < 65536 }

/-- `bitchat_packet_t`. -/
structure BitchatPacket where
  version : UInt8
  type : UInt8
  ttl : UInt8
  timestampMs : UInt64
  senderId : Bytes 8
  recipientId : Bytes 8
  hasRecipient : Bool
  isCompressed : Bool
  isRsr : Bool
  opaqueOnly : Bool
  payload : Payload
  signature : Bytes 64
  hasSignature : Bool
  deriving DecidableEq

/-! ## The readers

`read_u8` .. `read_u64_be` share one shape: past the end they clear `ok`, return zero and do
not advance. -/

/-- The cursor of the header reads: `offset` and the sticky `ok`. -/
structure Reader where
  offset : Nat
  ok : Bool

/-- Read `n` bytes big-endian. -/
def readBe (n : Nat) (data : List UInt8) (r : Reader) : Nat × Reader :=
  if r.offset + n > data.length then (0, { r with ok := false })
  else (beNat ((data.drop r.offset).take n), { r with offset := r.offset + n })

/-- `read_u8`. -/
def readU8 (data : List UInt8) (r : Reader) : UInt8 × Reader :=
  ((readBe 1 data r).1.toUInt8, (readBe 1 data r).2)

/-- `read_u16_be`. -/
def readU16Be (data : List UInt8) (r : Reader) : Nat × Reader := readBe 2 data r

/-- `read_u32_be`. -/
def readU32Be (data : List UInt8) (r : Reader) : Nat × Reader := readBe 4 data r

/-- `read_u64_be`. -/
def readU64Be (data : List UInt8) (r : Reader) : UInt64 × Reader :=
  ((readBe 8 data r).1.toUInt64, (readBe 8 data r).2)

/-! ## Inflation -/

/-- `tinfl_decompress` on a whole input: whether it ended with `TINFL_STATUS_DONE`, what it
produced, and how much of the input it consumed. The flag asks for the zlib wrapper. -/
abbrev Tinfl : Type := Bool → List UInt8 → Nat → Bool × List UInt8 × Nat

/-- `inflate_payload_mode`: the stream must end exactly at both boundaries. -/
def inflatePayloadMode (tinfl : Tinfl) (input : List UInt8) (outLen : UInt16) (parseZlib : Bool) :
    Option Payload :=
  let out := tinfl parseZlib input outLen.toNat
  if h : out.2.1.length = outLen.toNat then
    if out.1 = true ∧ out.2.2 = input.length then
      some ⟨out.2.1, by rw [h]; exact outLen.toNat_lt⟩
    else none
  else none

/-- `inflate_payload`: a plausible zlib wrapper is tried first, raw deflate is the fallback. -/
def inflatePayload (tinfl : Tinfl) (input : List UInt8) (outLen : UInt16) : Option Payload :=
  let looksZlib := input.length ≥ 2 && byteAt input 0 &&& 0x0f == 8 &&
    beNat (input.take 2) % 31 == 0
  match (if looksZlib then inflatePayloadMode tinfl input outLen true else none) with
  | some out => some out
  | none => inflatePayloadMode tinfl input outLen false

/-! ## The sections of a frame -/

/-- The fields up to the payload length; `offset` is where the sender ID starts. -/
structure WireHeader where
  version : UInt8
  type : UInt8
  ttl : UInt8
  timestampMs : UInt64
  flags : UInt8
  payloadLen : Nat
  offset : Nat
  deriving DecidableEq

/-- The payload length field: two bytes in version 1, four in version 2. -/
def readPayloadLen (version : UInt8) (data : List UInt8) (r : Reader) : Nat × Reader :=
  if version = 1 then readU16Be data r
  else if version = 2 then readU32Be data r
  else (0, { r with ok := false })

/-- The header reads of `bitchat_packet_decode` and the check behind them. -/
def decodeHeader (data : List UInt8) : Option WireHeader :=
  let version := readU8 data ⟨0, true⟩
  let type := readU8 data version.2
  let ttl := readU8 data type.2
  let timestampMs := readU64Be data ttl.2
  let flags := readU8 data timestampMs.2
  let payloadLen := readPayloadLen version.1 data flags.2
  if !payloadLen.2.ok || payloadLen.1 > 65535 then none
  else some ⟨version.1, type.1, ttl.1, timestampMs.1, flags.1, payloadLen.1, payloadLen.2.offset⟩

/-- A fixed-width field that is there when `present`; an absent one is all zero. -/
def takeField (n : Nat) (present : Bool) (data : List UInt8) (off : Nat) :
    Option (Bytes n × Nat) :=
  if present then
    if off + n > data.length then none else some (copyAt n data off, off + n)
  else some (zeros n, off)

/-- The sender ID, always there. -/
def takeSender (data : List UInt8) (off : Nat) : Option (Bytes 8 × Nat) :=
  takeField 8 true data off

/-- The recipient ID, present with flag 0x01. -/
def takeRecipient (data : List UInt8) (flags : UInt8) (off : Nat) : Option (Bytes 8 × Nat) :=
  takeField 8 (flags &&& 0x01 != 0) data off

/-- The route of a version 2 frame, present with flag 0x08: a count and that many IDs. -/
def skipRoute (data : List UInt8) (version flags : UInt8) (off : Nat) : Option Nat :=
  if version = 2 ∧ flags &&& 0x08 ≠ 0 then
    if off + 1 > data.length then none
    else if (byteAt data off).toNat * 8 > data.length - (off + 1) then none
    else some (off + 1 + (byteAt data off).toNat * 8)
  else some off

/-- The payload bytes as they stand in the frame. -/
def takePayload (data : List UInt8) (payloadLen off : Nat) : Option (Payload × Nat) :=
  if h : off + payloadLen ≤ data.length ∧ payloadLen < 65536 then
    some (⟨(data.drop off).take payloadLen, by
      rw [List.length_take]; exact Nat.lt_of_le_of_lt (Nat.min_le_left _ _) h.2⟩,
      off + payloadLen)
  else none

/-- A compressed version 1 payload is a 2-byte size and a stream that inflates to it; the
second component is `is_compressed` afterwards. -/
def expandPayload (tinfl : Tinfl) (compressed opaqueOnly : Bool) (payload : Payload) :
    Option (Payload × Bool) :=
  if compressed && !opaqueOnly then
    if payload.val.length > 2 then
      let originalLen := (beNat (payload.val.take 2)).toUInt16
      if originalLen > 0 then
        match inflatePayload tinfl (payload.val.drop 2) originalLen with
        | some inflated => some (inflated, false)
        | none => none
      else none
    else none
  else some (payload, compressed)

/-- The signature, present with flag 0x02. -/
def takeSignature (data : List UInt8) (flags : UInt8) (off : Nat) : Option (Bytes 64 × Nat) :=
  takeField 64 (flags &&& 0x02 != 0) data off

/-- What is left behind `off` is nothing, or `k` bytes that are all `k`. -/
def paddingOk (data : List UInt8) (off : Nat) : Bool :=
  if off < data.length then
    let padding := byteAt data (data.length - 1)
    padding != 0 && padding.toNat == data.length - off && (data.drop off).all (· == padding)
  else true

/-- `bitchat_packet_decode`, with the number of bytes consumed before the padding. -/
def bitchatPacketDecodeOff (tinfl : Tinfl) (data : List UInt8) : Option (BitchatPacket × Nat) := do
  let h ← decodeHeader data
  let (senderId, off) ← takeSender data h.offset
  let (recipientId, off) ← takeRecipient data h.flags off
  let off ← skipRoute data h.version h.flags off
  let (payload, off) ← takePayload data h.payloadLen off
  let (payload, isCompressed) ←
    expandPayload tinfl (h.flags &&& 0x04 != 0) (h.version == 2) payload
  let (signature, off) ← takeSignature data h.flags off
  if paddingOk data off then
    some ({ version := h.version, type := h.type, ttl := h.ttl, timestampMs := h.timestampMs,
            senderId, recipientId, hasRecipient := h.flags &&& 0x01 != 0, isCompressed,
            isRsr := h.flags &&& 0x10 != 0, opaqueOnly := h.version == 2, payload, signature,
            hasSignature := h.flags &&& 0x02 != 0 }, off)
  else none

/-- `bitchat_packet_decode`. -/
def bitchatPacketDecode (tinfl : Tinfl) (data : List UInt8) : Option BitchatPacket :=
  (bitchatPacketDecodeOff tinfl data).map Prod.fst

end Bitle
