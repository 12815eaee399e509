import Bitle.Noise.Identity
import Bitle.Codec.Frame

/-!
# Bitle — the bytes a signature covers (`build_canonical_packet` of `main/noise_handshake.c`)

A signature covers a packet with its TTL set to zero and all flags but the recipient's cleared,
padded to a block. Receivers build these bytes again, on the host task and on the worker, and so
does the test client of `tools/courier_test.py`.

`signedBytes` is the packet before the padding. It is a prefix of the canonical bytes
(`signedBytes_prefix`), and each of its fields can be read back from it.
-/

namespace Bitle

open Wire

/-! ## Header, payload and padding -/

/-- The header and the payload, before the padding. -/
def signedBytes (packet : BitchatPacket) : List UInt8 :=
  [packet.version, packet.type, 0] ++ beBytes 8 packet.timestampMs.toNat ++
    [if packet.hasRecipient then 0x01 else 0x00] ++ beBytes 2 packet.payload.val.length ++
    packet.senderId.val ++ (if packet.hasRecipient then packet.recipientId.val else []) ++
    packet.payload.val

theorem length_signedBytes (packet : BitchatPacket) :
    (signedBytes packet).length =
      (if packet.hasRecipient then 30 else 22) + packet.payload.val.length := by
  unfold signedBytes
  simp only [List.length_append, length_beBytes, List.length_cons, List.length_nil,
    packet.senderId.property]
  cases packet.hasRecipient with
  | true =>
    rw [if_pos rfl, if_pos rfl, packet.recipientId.property]
  | false => rfl

/-- What the canonical bytes are, where they fit. -/
theorem buildCanonicalPacket_of_le {packet : BitchatPacket} {maxLen : Nat}
    (h : (signedBytes packet).length ≤ maxLen) :
    buildCanonicalPacket packet maxLen = some (applyPkcs7Padding (signedBytes packet) maxLen
      (choosePaddingBlock (signedBytes packet).length)) := by
  unfold signedBytes at h
  unfold buildCanonicalPacket
  dsimp only
  rw [List.length_append] at h
  rw [if_neg (Nat.not_lt.mpr h)]
  rfl

theorem buildCanonicalPacket_eq_none {packet : BitchatPacket} {maxLen : Nat}
    (h : maxLen < (signedBytes packet).length) : buildCanonicalPacket packet maxLen = none := by
  unfold signedBytes at h
  unfold buildCanonicalPacket
  dsimp only
  rw [List.length_append] at h
  rw [if_pos h]

/-- The padding comes behind. -/
theorem prefix_applyPkcs7Padding (buffer : List UInt8) (bufferLen blockSize : Nat) :
    buffer <+: applyPkcs7Padding buffer bufferLen blockSize := by
  unfold applyPkcs7Padding
  split
  · exact List.prefix_refl buffer
  · dsimp only
    split
    · exact List.prefix_refl buffer
    · exact List.prefix_append _ _

theorem signedBytes_prefix {packet : BitchatPacket} {maxLen : Nat} {canonical : List UInt8}
    (h : buildCanonicalPacket packet maxLen = some canonical) : signedBytes packet <+: canonical := by
  rcases Nat.lt_or_ge maxLen (signedBytes packet).length with hlt | hle
  · rw [buildCanonicalPacket_eq_none hlt] at h
    cases h
  · rw [buildCanonicalPacket_of_le hle, Option.some.injEq] at h
    rw [← h]
    exact prefix_applyPkcs7Padding _ _ _

/-! ## The reference -/

/-- `optimal_block` of `tools/courier_test.py`. -/
def optimalBlock (n : Nat) : Nat := ([256, 512, 1024, 2048].find? fun b => n + 16 ≤ b).getD 0

/-- `canonical` of `tools/courier_test.py`. -/
def canonicalReference (version mtype : UInt8) (timestampMs : UInt64) (sender : Bytes 8)
    (recipient : Option (Bytes 8)) (payload : List UInt8) : List UInt8 :=
  let flags := if recipient.isSome then 0x01 else 0x00
  let h := [version, mtype, 0] ++ beBytes 8 timestampMs.toNat ++ [flags] ++
    beBytes 2 payload.length ++ sender.val ++ (recipient.elim [] Subtype.val) ++ payload
  let block := optimalBlock h.length
  if block ≠ 0 ∧ h.length < block ∧ block - h.length ≤ 255 then
    h ++ List.replicate (block - h.length) (block - h.length).toUInt8
  else h

/-- The blocks of at most `maxLen` bytes are the only ones that matter: a larger one would need
more padding than one byte can say. -/
theorem applyPkcs7Padding_choose (buffer : List UInt8) (h : buffer.length ≤ 520) :
    applyPkcs7Padding buffer 520 (choosePaddingBlock buffer.length) =
      (if optimalBlock buffer.length ≠ 0 ∧ buffer.length < optimalBlock buffer.length ∧
          optimalBlock buffer.length - buffer.length ≤ 255 then
        buffer ++ List.replicate (optimalBlock buffer.length - buffer.length)
          (optimalBlock buffer.length - buffer.length).toUInt8
      else buffer) := by
  have hsame : choosePaddingBlock buffer.length = optimalBlock buffer.length := rfl
  have hblock : optimalBlock buffer.length = 256 ∨ optimalBlock buffer.length = 512 ∨
      optimalBlock buffer.length = 1024 := by
    unfold optimalBlock
    rw [List.find?_cons, List.find?_cons, List.find?_cons]
    by_cases h₁ : buffer.length + 16 ≤ 256
    · rw [decide_eq_true h₁]
      exact .inl rfl
    · by_cases h₂ : buffer.length + 16 ≤ 512
      · rw [decide_eq_false h₁, decide_eq_true h₂]
        exact .inr (.inl rfl)
      · have h₃ : buffer.length + 16 ≤ 1024 := by omega
        rw [decide_eq_false h₁, decide_eq_false h₂, decide_eq_true h₃]
        exact .inr (.inr rfl)
  rw [hsame]
  generalize optimalBlock buffer.length = block at hblock
  unfold applyPkcs7Padding
  dsimp only
  by_cases hfit : block = 0 ∨ buffer.length ≥ block ∨ block > 520
  · rw [if_pos hfit, if_neg (by omega)]
  · rw [if_neg hfit]
    by_cases hpad : block - buffer.length > 255
    · rw [if_pos hpad, if_neg (by omega)]
    · rw [if_neg hpad, if_pos (by omega)]

/-- **The buffer of 520 bytes never changes what is signed**: whenever the packet fits, the bytes
are those of the reference for the same fields. -/
theorem canonical_eq_reference (packet : BitchatPacket)
    (h : (if packet.hasRecipient then 30 else 22) + packet.payload.val.length ≤ 520) :
    buildCanonicalPacket packet bitchatBleMaxPacketSize =
      some (canonicalReference packet.version packet.type packet.timestampMs packet.senderId
        (if packet.hasRecipient then some packet.recipientId else none) packet.payload.val) := by
  have hlen := length_signedBytes packet
  have hsigned : (signedBytes packet).length ≤ 520 := by omega
  have hrecipient : ∀ b : Bool, ∀ id : Bytes 8,
      (if b then some id else none : Option (Bytes 8)).isSome = b ∧
        (if b then some id else none : Option (Bytes 8)).elim [] Subtype.val =
          if b then id.val else [] := by
    intro b id
    cases b with
    | true => exact ⟨rfl, rfl⟩
    | false => exact ⟨rfl, rfl⟩
  rw [show bitchatBleMaxPacketSize = 520 from rfl, buildCanonicalPacket_of_le hsigned,
    applyPkcs7Padding_choose _ hsigned]
  unfold canonicalReference
  dsimp only
  rw [(hrecipient _ _).1, (hrecipient _ _).2]
  rfl

theorem canonical_eq_reference_short :
    buildCanonicalPacket shortMessage bitchatBleMaxPacketSize =
      some (canonicalReference 1 shortMessage.type shortMessage.timestampMs shortMessage.senderId
        none shortMessage.payload.val) :=
  canonical_eq_reference shortMessage (by decide)

/-! ## One signature, one message -/

/-- The fields a signature stands for. -/
structure SameMessage (p q : BitchatPacket) : Prop where
  type : p.type = q.type
  timestampMs : p.timestampMs = q.timestampMs
  senderId : p.senderId = q.senderId
  hasRecipient : p.hasRecipient = q.hasRecipient
  recipientId : p.hasRecipient = true → p.recipientId = q.recipientId
  payload : p.payload = q.payload

theorem beBytes_inj {n v w : Nat} (hv : v < 256 ^ n) (hw : w < 256 ^ n)
    (h : beBytes n v = beBytes n w) : v = w := by
  rw [← beNat_beBytes hv, ← beNat_beBytes hw, h]

/-- **The fields are read back one after the other.** The flags byte tells whether there is a
recipient, and the length where the payload ends, whatever follows it. -/
theorem sameMessage_of_append {p q : BitchatPacket} {post post' : List UInt8}
    (h : signedBytes p ++ post = signedBytes q ++ post') : SameMessage p q := by
  unfold signedBytes at h
  simp only [List.append_assoc] at h
  obtain ⟨hhead, h⟩ := List.append_inj h rfl
  obtain ⟨htime, h⟩ := List.append_inj h (by rw [length_beBytes, length_beBytes])
  obtain ⟨hflags, h⟩ := List.append_inj h rfl
  obtain ⟨hlen, h⟩ := List.append_inj h (by rw [length_beBytes, length_beBytes])
  obtain ⟨hsender, h⟩ := List.append_inj h
    (p.senderId.property.trans q.senderId.property.symm)
  have hhas : p.hasRecipient = q.hasRecipient := by
    revert hflags
    cases p.hasRecipient <;> cases q.hasRecipient <;> decide
  have hidlen : (if p.hasRecipient then p.recipientId.val else []).length =
      (if q.hasRecipient then q.recipientId.val else []).length := by
    rw [hhas]
    split
    · rw [p.recipientId.property, q.recipientId.property]
    · rfl
  obtain ⟨hid, h⟩ := List.append_inj h hidlen
  have hpaylen : p.payload.val.length = q.payload.val.length :=
    beBytes_inj p.payload.property q.payload.property hlen
  obtain ⟨hpayload, -⟩ := List.append_inj h hpaylen
  refine ⟨?_, ?_, Subtype.ext hsender, hhas, fun hp => ?_, Subtype.ext hpayload⟩
  · simp only [List.cons.injEq] at hhead
    exact hhead.2.1
  · exact UInt64.toNat_inj.mp (beBytes_inj p.timestampMs.toNat_lt q.timestampMs.toNat_lt htime)
  · rw [if_pos hp, if_pos (hhas ▸ hp)] at hid
    exact Subtype.ext hid

/-- **Canonical bytes are injective.** Two packets with the same canonical bytes are the same
message: neither the padding nor the cleared flags let one signature stand for two. -/
theorem canonical_injective (p q : BitchatPacket) (canonical : List UInt8)
    (hp : buildCanonicalPacket p bitchatBleMaxPacketSize = some canonical)
    (hq : buildCanonicalPacket q bitchatBleMaxPacketSize = some canonical) : SameMessage p q := by
  obtain ⟨post, hpost⟩ := signedBytes_prefix hp
  obtain ⟨post', hpost'⟩ := signedBytes_prefix hq
  exact sameMessage_of_append (hpost.trans hpost'.symm)

/-- A packet and its relayed copy. -/
theorem canonical_injective_relayed :
    SameMessage shortMessage { shortMessage with ttl := 3, isRsr := true } :=
  canonical_injective _ _ (canonicalReference 1 shortMessage.type shortMessage.timestampMs
    shortMessage.senderId none shortMessage.payload.val) rfl rfl

/-! ## Two verifications of one announce -/

/-- `enqueue_packet_event`: what the worker gets of a packet. -/
def enqueuePacketEvent (type : NoiseEvtType) (connHandle : UInt16) (packet : BitchatPacket) :
    Option NoiseEvent :=
  if h : packet.payload.val.length > noiseEventPayloadMax then none
  else
    some
      { type := type, connHandle := connHandle, timestampMs := packet.timestampMs
        ttl := packet.ttl, hasSignature := packet.hasSignature, hasRecipient := packet.hasRecipient
        recipientId := if packet.hasRecipient then packet.recipientId else zeros 8
        signature := if packet.hasSignature then packet.signature else zeros 64
        peerId := packet.senderId, payload := packet.payload.val
        payload_le := Nat.not_lt.mp h }

/-- The canonical bytes only depend on the header and the payload. -/
theorem buildCanonicalPacket_congr {p q : BitchatPacket} (h : signedBytes p = signedBytes q)
    (maxLen : Nat) : buildCanonicalPacket p maxLen = buildCanonicalPacket q maxLen := by
  rcases Nat.lt_or_ge maxLen (signedBytes p).length with hlt | hle
  · rw [buildCanonicalPacket_eq_none hlt, buildCanonicalPacket_eq_none (h ▸ hlt)]
  · rw [buildCanonicalPacket_of_le hle, buildCanonicalPacket_of_le (h ▸ hle), h]

section Announce

variable {packet : BitchatPacket} {evt : NoiseEvent} {connHandle : UInt16}

/-- The event of a packet. -/
theorem enqueuePacketEvent_inv {type : NoiseEvtType}
    (h : enqueuePacketEvent type connHandle packet = some evt) :
    packet.payload.val.length ≤ noiseEventPayloadMax ∧ evt.timestampMs = packet.timestampMs ∧
      evt.peerId = packet.senderId ∧ evt.payload = packet.payload.val ∧
      evt.hasSignature = packet.hasSignature ∧
      evt.signature = if packet.hasSignature then packet.signature else zeros 64 := by
  unfold enqueuePacketEvent at h
  split at h
  · cases h
  · next hle =>
    obtain rfl := Option.some.inj h
    exact ⟨Nat.not_lt.mp hle, rfl, rfl, rfl, rfl, rfl⟩

/-- The packet the worker rebuilds: the announce without its recipient. -/
theorem signedBytes_announcePacket (hversion : packet.version = 1)
    (htype : packet.type = bitchatMsgAnnounce)
    (henq : enqueuePacketEvent .announce connHandle packet = some evt) :
    signedBytes (announcePacket evt) = signedBytes { packet with hasRecipient := false } := by
  obtain ⟨-, htime, hpeer, hpayload, -, -⟩ := enqueuePacketEvent_inv henq
  show [1, bitchatMsgAnnounce, 0] ++ beBytes 8 evt.timestampMs.toNat ++ [0x00] ++
    beBytes 2 evt.payload.length ++ evt.peerId.val ++ [] ++ evt.payload = _
  rw [htime, hpeer, hpayload, ← hversion, ← htype]
  rfl

/-- Both buffers have room for an announce that was queued. -/
theorem length_signedBytes_le (h : packet.payload.val.length ≤ noiseEventPayloadMax) :
    (signedBytes packet).length ≤ bitchatBleMaxPacketSize := by
  have hlen := length_signedBytes packet
  have hmax : noiseEventPayloadMax = 456 := rfl
  have hsize : bitchatBleMaxPacketSize = 520 := rfl
  split at hlen
  · omega
  · omega

/-- **Two verifications of one announce.** For an announce whose key hashes to its sender, the
worker's verdict on the queued event is the verdict on the packet, under every signature check,
exactly if the packet is unsigned or has no recipient: the worker rebuilds the packet without one. -/
theorem announce_verdicts_agree (sha256 : List UInt8 → Bytes 32) (packet : BitchatPacket)
    (evt : NoiseEvent) (connHandle : UInt16) (ident : NoiseIdentity)
    (hversion : packet.version = 1) (htype : packet.type = bitchatMsgAnnounce)
    (henq : enqueuePacketEvent .announce connHandle packet = some evt)
    (hkey : peerIdOf sha256 ident.noiseKey = packet.senderId) :
    (∀ ed25519SignOpen : List UInt8 → Bytes 32 → Bytes 64 → Bool,
      verifyAnnounceEvent sha256 ed25519SignOpen evt ident =
        some (noiseVerifyPacketSignature ed25519SignOpen packet ident.signKey)) ↔
      (packet.hasSignature = false ∨ packet.hasRecipient = false) := by
  obtain ⟨hle, -, hpeer, -, hsig, hsignature⟩ := enqueuePacketEvent_inv henq
  have hsigned := signedBytes_announcePacket hversion htype henq
  have hevent := buildCanonicalPacket_congr hsigned bitchatBleMaxPacketSize
  have hfits : (signedBytes packet).length ≤ bitchatBleMaxPacketSize := length_signedBytes_le hle
  have hfits' : (signedBytes { packet with hasRecipient := false }).length ≤
      bitchatBleMaxPacketSize := length_signedBytes_le hle
  obtain ⟨c, hc⟩ : ∃ c, buildCanonicalPacket packet bitchatBleMaxPacketSize = some c :=
    ⟨_, buildCanonicalPacket_of_le hfits⟩
  obtain ⟨c', hc'⟩ : ∃ c', buildCanonicalPacket { packet with hasRecipient := false }
      bitchatBleMaxPacketSize = some c' := ⟨_, buildCanonicalPacket_of_le hfits'⟩
  -- the two verdicts, on the two canonical byte strings
  have hverdict : ∀ ed25519SignOpen : List UInt8 → Bytes 32 → Bytes 64 → Bool,
      verifyAnnounceEvent sha256 ed25519SignOpen evt ident =
        some (packet.hasSignature && ed25519SignOpen c' ident.signKey packet.signature) ∧
      noiseVerifyPacketSignature ed25519SignOpen packet ident.signKey =
        (packet.hasSignature && ed25519SignOpen c ident.signKey packet.signature) := by
    intro ed25519SignOpen
    unfold verifyAnnounceEvent noiseVerifyPacketSignature
    rw [if_neg (not_not.mpr (hkey.trans hpeer.symm)), hsig, hevent, hc, hc']
    cases hs : packet.hasSignature with
    | false => exact ⟨rfl, rfl⟩
    | true =>
      rw [hs, if_pos rfl] at hsignature
      rw [hsignature]
      exact ⟨rfl, rfl⟩
  constructor
  · intro h
    by_contra hboth
    rw [not_or, Bool.not_eq_false, Bool.not_eq_false] at hboth
    -- a check that accepts the packet's own canonical bytes and nothing else
    have hsame := h fun m _ _ => m == c
    rw [(hverdict _).1, (hverdict _).2, hboth.1, Bool.true_and, Bool.true_and, beq_self_eq_true,
      Option.some.injEq, beq_iff_eq] at hsame
    rw [hsame] at hc'
    obtain ⟨post, hpost⟩ := signedBytes_prefix hc'
    obtain ⟨post', hpost'⟩ := signedBytes_prefix hc
    have hhas := (sameMessage_of_append (hpost.trans hpost'.symm)).hasRecipient
    rw [hboth.2] at hhas
    cases hhas
  · intro h ed25519SignOpen
    rw [(hverdict _).1, (hverdict _).2]
    rcases h with hs | hr
    · rw [hs, Bool.false_and, Bool.false_and]
    · have hsame : ({ packet with hasRecipient := false } : BitchatPacket) = packet := by
        rw [← hr]
      rw [hsame, hc] at hc'
      rw [Option.some.inj hc']

/-- An announce of the peer with the key `A1 00 …`, to everyone. -/
def broadcastAnnounce : BitchatPacket where
  version := 1
  type := bitchatMsgAnnounce
  ttl := 7
  timestampMs := 1700000000000
  senderId := copyAt 8 [0xA1] 0
  recipientId := ⟨List.replicate 8 0xFF, by decide⟩
  hasRecipient := true
  isCompressed := false
  isRsr := false
  opaqueOnly := false
  payload := ⟨[0x01, 1, 0x41] ++ [0x02, 32] ++ (copyAt 32 [0xA1] 0).val ++ [0x03, 32] ++
    (copyAt 32 [0xA1] 0).val, by decide⟩
  signature := zeros 64
  hasSignature := false

/-- The packet with a signature: the first 64 bytes of what is signed. -/
def BitchatPacket.headSigned (packet : BitchatPacket) : BitchatPacket :=
  { packet with signature := copyAt 64 (signedBytes packet) 0, hasSignature := true }

/-- The announce of a peer that names no recipient. -/
theorem announce_verdicts_agree_plain :
    ∃ evt ident, enqueuePacketEvent .announce 1
        { broadcastAnnounce with hasRecipient := false }.headSigned = some evt ∧
      parseAnnounceTlv broadcastAnnounce.payload.val = some ident ∧
      verifyAnnounceEvent (fun l => copyAt 32 l 0) (fun m _ sig => sig == copyAt 64 m 0) evt ident =
        some (noiseVerifyPacketSignature (fun m _ sig => sig == copyAt 64 m 0)
          { broadcastAnnounce with hasRecipient := false }.headSigned ident.signKey) := by
  refine ⟨_, _, rfl, rfl, ?_⟩
  apply (announce_verdicts_agree (fun l => copyAt 32 l 0) _ _ 1 _ rfl rfl rfl ?_).mpr (.inr rfl)
  decide +kernel

/-- **An honest announce with a recipient**, decoded from its frame: its signature is good, and the
worker finds it is not. -/
theorem announce_with_recipient_unverified :
    bitchatPacketDecode (fun _ _ _ => (false, [], 0)) broadcastAnnounce.headSigned.frame.bytes =
        some broadcastAnnounce.headSigned ∧
      ∃ evt ident, enqueuePacketEvent .announce 1 broadcastAnnounce.headSigned = some evt ∧
        parseAnnounceTlv broadcastAnnounce.headSigned.payload.val = some ident ∧
        peerIdOf (fun l => copyAt 32 l 0) ident.noiseKey = broadcastAnnounce.headSigned.senderId ∧
        noiseVerifyPacketSignature (fun m _ sig => sig == copyAt 64 m 0)
          broadcastAnnounce.headSigned ident.signKey = true ∧
        verifyAnnounceEvent (fun l => copyAt 32 l 0) (fun m _ sig => sig == copyAt 64 m 0) evt
          ident = some false := by
  refine ⟨by decide +kernel, _, _, rfl, rfl, ?_, ?_, ?_⟩
  · decide +kernel
  · decide +kernel
  · decide +kernel

end Announce

end Bitle
