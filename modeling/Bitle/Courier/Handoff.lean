import Bitle.Courier.Mail
import Bitle.Mesh.Transit

/-!
# Bitle — handing an envelope over (`main/bitle_courier.c`, `main/noise_handshake.c`)

A deposit arrives as an event of the noise worker with a payload of up to
`NOISE_EVENT_PAYLOAD_MAX` bytes, since fragments and compression carry more than one frame does.
`bitle_courier_accept` checks it against the size of a store record only. To hand the envelope
over, `send_envelope` encodes it again and `noise_send_packet` puts it into one signed packet with
a recipient, which leaves `520 - 94` bytes.
-/

namespace Bitle

open Wire

/-- `noise_send_packet`: the bytes it passes to `bitle_link_send`. -/
def noiseSendPacket (ed25519Sign : List UInt8 → Bytes 64) (peerId : Bytes 8) (timestampMs : UInt64)
    (type : UInt8) (recipient : Option (Bytes 8)) (payload : Payload) (ttl : UInt8) (sign : Bool) :
    Option (List UInt8) :=
  if timestampMs = 0 then none
  else
    let packet : BitchatPacket :=
      { version := 1, type := type, ttl := ttl, timestampMs := timestampMs, senderId := peerId
        recipientId := recipient.getD (zeros 8), hasRecipient := recipient.isSome
        isCompressed := false, isRsr := false, opaqueOnly := false, payload := payload
        signature := zeros 64, hasSignature := false }
    match if sign then signPacket ed25519Sign packet else some packet with
    | none => none
    | some packet => bitchatPacketEncode packet bitchatBleMaxPacketSize

/-- `send_envelope`, as far as the packet: `len` is a `uint16_t`. -/
def sendEnvelopePacket (ed25519Sign : List UInt8 → Bytes 64) (peerId : Bytes 8)
    (timestampMs : UInt64) (recipient : Bytes 8) (envelope : Envelope) (copies : UInt8) :
    Option (List UInt8) :=
  match encodeEnvelope envelope copies bitleStorePayloadMax with
  | none => none
  | some payload =>
    noiseSendPacket ed25519Sign peerId timestampMs bitchatMsgCourierEnvelope (some recipient)
      ⟨payload.take (payload.length % 65536),
        Nat.lt_of_le_of_lt (List.length_take_le _ _) (Nat.mod_lt _ (by decide))⟩ 7 true

/-- Every size check on the way lets the envelope through, with any copy count up to its own,
once the clock is set. -/
def HandoffEncodes (envelope : Envelope) : Prop :=
  ∀ copies ≤ envelope.copies, ∀ ed25519Sign peerId timestampMs recipient, timestampMs ≠ 0 →
    (sendEnvelopePacket ed25519Sign peerId timestampMs recipient envelope copies).isSome = true

/-! ## Sizes -/

theorem buildCanonicalPacket_isSome (packet : BitchatPacket) (maxLen : Nat) :
    (buildCanonicalPacket packet maxLen).isSome = true ↔
      22 + (if packet.hasRecipient then 8 else 0) + packet.payload.val.length ≤ maxLen := by
  have hlen : ([packet.version, packet.type, 0] ++ beBytes 8 packet.timestampMs.toNat ++
      [if packet.hasRecipient then 0x01 else 0x00] ++ beBytes 2 packet.payload.val.length ++
      packet.senderId.val ++ (if packet.hasRecipient then packet.recipientId.val else [])).length =
      22 + if packet.hasRecipient then 8 else 0 := by
    split <;> simp [length_beBytes, packet.senderId.property, packet.recipientId.property]
  unfold buildCanonicalPacket
  dsimp only
  rw [hlen]
  by_cases hfits : 22 + (if packet.hasRecipient then 8 else 0) + packet.payload.val.length ≤ maxLen
  · rw [if_neg (Nat.not_lt.mpr hfits)]
    exact ⟨fun _ => hfits, fun _ => rfl⟩
  · rw [if_pos (Nat.not_le.mp hfits)]
    exact ⟨fun h => absurd h Bool.false_ne_true, fun h => absurd h hfits⟩

theorem bitchatPacketEncode_isSome {packet : BitchatPacket} (hv : packet.version = 1)
    (maxLen : Nat) :
    (bitchatPacketEncode packet maxLen).isSome = true ↔
      22 + (if packet.hasRecipient then 8 else 0) + packet.payload.val.length +
        (if packet.hasSignature then 64 else 0) ≤ maxLen := by
  unfold bitchatPacketEncode
  rw [if_neg (not_not_intro hv)]
  dsimp only
  rw [show 1 + 1 + 1 + 8 + 1 + 2 + 8 = 22 from rfl]
  by_cases hfits : 22 + (if packet.hasRecipient then 8 else 0) + packet.payload.val.length +
      (if packet.hasSignature then 64 else 0) ≤ maxLen
  · rw [if_neg (Nat.not_lt.mpr hfits)]
    exact ⟨fun _ => hfits, fun _ => rfl⟩
  · rw [if_pos (Nat.not_le.mp hfits)]
    exact ⟨fun h => absurd h Bool.false_ne_true, fun h => absurd h hfits⟩

/-- A signed packet with a recipient leaves 426 bytes for the payload; the canonical bytes that
are signed are fewer than those of the packet. -/
theorem noiseSendPacket_isSome (ed25519Sign : List UInt8 → Bytes 64) (peerId : Bytes 8)
    {timestampMs : UInt64} (htime : timestampMs ≠ 0) (type : UInt8) (recipient : Bytes 8)
    (payload : Payload) (ttl : UInt8) :
    (noiseSendPacket ed25519Sign peerId timestampMs type (some recipient) payload ttl
      true).isSome = true ↔ payload.val.length ≤ 426 := by
  unfold noiseSendPacket
  rw [if_neg htime]
  dsimp only
  rw [if_pos rfl, signPacket]
  generalize hpacket : BitchatPacket.mk 1 type ttl timestampMs peerId
    ((some recipient).getD (zeros 8)) (some recipient).isSome false false false payload (zeros 64)
    false = packet
  have hcanonical := buildCanonicalPacket_isSome packet bitchatBleMaxPacketSize
  cases hbuild : buildCanonicalPacket packet bitchatBleMaxPacketSize with
  | none =>
    rw [hbuild, ← hpacket] at hcanonical
    refine ⟨nofun, fun hle => ?_⟩
    apply hcanonical.mpr
    show 22 + 8 + payload.val.length ≤ 520
    omega
  | some canonical =>
    rw [Option.map_some]
    dsimp only
    rw [bitchatPacketEncode_isSome (by rw [← hpacket]), ← hpacket]
    show 22 + 8 + payload.val.length + 64 ≤ 520 ↔ payload.val.length ≤ 426
    omega

/-- The bytes the canonical encoding takes, beside the tag and the expiry. -/
def Envelope.mailLen (envelope : Envelope) : Nat :=
  envelope.ciphertext.length + (if envelope.copies > 1 then 4 else 0) +
    (if envelope.prekeyId.isSome then 7 else 0)

/-- **A parsed envelope** from a payload that an event may carry can be handed over exactly when
its canonical encoding leaves room for the packet around it. -/
theorem handoffEncodes_iff {p : List UInt8} (hp : p.length ≤ noiseEventPayloadMax)
    {envelope : Envelope} (h : parseEnvelope p = some envelope) :
    HandoffEncodes envelope ↔ envelope.mailLen ≤ 393 := by
  obtain ⟨-, -, -, hbytes⟩ := parseEnvelope_wf h
  -- `encode_envelope` itself never refuses: its buffer holds more than an event brings
  have hencode : ∀ copies ≤ envelope.copies,
      encodeEnvelope envelope copies bitleStorePayloadMax = some (envelope.bytes copies) ∧
        (envelope.bytes copies).length < 65536 := by
    intro copies hle
    have hlen := hbytes copies hle
    have hmax : (envelope.bytes copies).length ≤ 456 := Nat.le_trans hlen hp
    refine ⟨encodeEnvelope_of_le ?_ (by decide), by omega⟩
    unfold bitleStorePayloadMax
    omega
  have hsend : ∀ copies ≤ envelope.copies, ∀ ed25519Sign peerId timestampMs recipient,
      timestampMs ≠ 0 →
      ((sendEnvelopePacket ed25519Sign peerId timestampMs recipient envelope copies).isSome =
        true ↔ (envelope.bytes copies).length ≤ 426) := by
    intro copies hle ed25519Sign peerId timestampMs recipient htime
    obtain ⟨henc, hlt⟩ := hencode copies hle
    unfold sendEnvelopePacket
    rw [henc]
    dsimp only
    rw [noiseSendPacket_isSome _ _ htime]
    dsimp only
    rw [Nat.mod_eq_of_lt hlt, List.take_length]
  constructor
  · intro hall
    have hown := (hsend envelope.copies (Std.le_refl _) (fun _ => zeros 64) (zeros 8) 1 (zeros 8)
      (by decide)).mp (hall _ (Std.le_refl _) _ _ _ _ (by decide))
    rw [Envelope.length_bytes] at hown
    unfold Envelope.mailLen
    omega
  · intro hsize copies hle ed25519Sign peerId timestampMs recipient htime
    apply (hsend copies hle ed25519Sign peerId timestampMs recipient htime).mpr
    have hcopies : (if copies > 1 then 4 else 0) ≤ if envelope.copies > 1 then 4 else 0 := by
      split
      · next hc => exact Nat.le_of_eq (if_pos (Std.lt_of_lt_of_le hc hle)).symm
      · exact Nat.zero_le _
    unfold Envelope.mailLen at hsize
    rw [Envelope.length_bytes]
    omega

/-! ## Deposits -/

/-- The deposit that `process_courier_event` makes of an event. -/
def NoiseEvent.deposit (evt : NoiseEvent) (nowMs : UInt64) : Deposit :=
  ⟨evt.peerId, true, evt.payload, nowMs⟩

/-- What is accepted has passed the checks on the deposit. -/
theorem accept_admissible {lib : CourierLib} {env : CourierEnv} {d : Deposit}
    {st st' : CourierState} (h : bitleCourierAccept lib env d st = .ok (true, st')) :
    ∃ envelope, d.admissible = some envelope := by
  cases hadm : d.admissible with
  | some envelope => exact ⟨envelope, rfl⟩
  | none =>
    rw [bitleCourierAccept, hadm] at h
    cases h

/-- **Accepted mail can be handed over** exactly when its ciphertext, with four bytes more for a
copy count above one and seven more for a prekey id, has at most 393 bytes. -/
theorem accepted_handoff_iff (lib : CourierLib) (env : CourierEnv) (evt : NoiseEvent)
    (nowMs : UInt64) (st st' : CourierState)
    (haccept : bitleCourierAccept lib env (evt.deposit nowMs) st = .ok (true, st')) :
    ∃ envelope, parseEnvelope evt.payload = some envelope ∧
      (HandoffEncodes envelope ↔ envelope.mailLen ≤ 393) := by
  obtain ⟨envelope, hadm⟩ := accept_admissible haccept
  have hparse := (Deposit.admissible_eq_some hadm).1
  exact ⟨envelope, hparse, handoffEncodes_iff evt.payload_le hparse⟩

/-! ### A letter that fits an event and no packet -/

/-- A letter with `n` bytes of ciphertext, and the event that brings it. -/
def plainLetter (n : Nat) : Envelope where
  expiryMs := 61000
  ciphertext := List.replicate n 0

def letterEvent (n : Nat) (h : n ≤ 423) : NoiseEvent where
  type := .courier
  connHandle := 0
  payload := (plainLetter n).bytes 1
  payload_le := by
    rw [Envelope.length_bytes, plainLetter, List.length_replicate]
    show 33 + n + 0 + 0 ≤ 456
    omega

/-- A fresh mailbox takes it. -/
theorem accept_letter (lib : CourierLib) {n : Nat} (hpos : 0 < n) (h : n ≤ 423) :
    (∃ st st', bitleCourierAccept lib {} ((letterEvent n h).deposit 1000) st = .ok (true, st')) ∧
      parseEnvelope (letterEvent n h).payload = some (plainLetter n) := by
  have hlen : ((plainLetter n).bytes 1).length = 33 + n := by
    rw [Envelope.length_bytes, plainLetter, List.length_replicate]
    rfl
  have hparse : parseEnvelope (letterEvent n h).payload = some (plainLetter n) := by
    have hne : (plainLetter n).ciphertext ≠ [] := by
      show List.replicate n (0 : UInt8) ≠ []
      rw [Ne, List.replicate_eq_nil_iff]
      omega
    have hlt : (plainLetter n).ciphertext.length < 65536 := by
      show (List.replicate n (0 : UInt8)).length < 65536
      rw [List.length_replicate]
      omega
    exact parseEnvelope_bytes (plainLetter n) (by decide) (by decide) hne hlt
  -- it is not expired, not too far ahead, and fits the store with its depositor
  have hadm : ((letterEvent n h).deposit 1000).admissible = some (plainLetter n) := by
    show (if !true then none else _) = _
    rw [if_neg (by decide), show ((letterEvent n h).deposit 1000).payload =
      (letterEvent n h).payload from rfl, hparse]
    dsimp only
    rw [show (plainLetter n).expiryMs = 61000 from rfl,
      show ((letterEvent n h).deposit 1000).nowMs = 1000 from rfl, if_neg (by decide),
      if_neg (by decide), show (letterEvent n h).payload = (plainLetter n).bytes 1 from rfl, hlen,
      if_neg]
    unfold courierDepositorLen bitleStorePayloadMax
    omega
  obtain ⟨store, S, head, -, hinv, hempty⟩ := storeInv_firstBoot lib.crc32 1
  have hgood : StoreGood lib.crc32 1 (CourierState.mk store .zero).store := ⟨S, head, hinv⟩
  have hflash : CourierEnv.FlashGood {} := fun _ => rfl
  obtain ⟨st', heq⟩ :=
    accept_empty hgood hflash (fun k => hinv.storeMap_eq_none (hempty k)) hadm
  exact ⟨⟨_, st', heq⟩, hparse⟩

theorem mailLen_plainLetter (n : Nat) : (plainLetter n).mailLen = n := by
  rw [Envelope.mailLen, plainLetter, List.length_replicate]
  rfl

theorem accepted_handoff_iff_short :
    ∃ st st', bitleCourierAccept plainLib {} ((letterEvent 1 (by decide)).deposit 1000) st =
      .ok (true, st') ∧ HandoffEncodes (plainLetter 1) := by
  obtain ⟨⟨st, st', heq⟩, hparse⟩ := accept_letter plainLib (n := 1) (by decide) (by decide)
  obtain ⟨envelope, henv, hiff⟩ := accepted_handoff_iff _ _ _ _ _ _ heq
  rw [hparse, Option.some.injEq] at henv
  subst henv
  exact ⟨st, st', heq, hiff.mpr (by rw [mailLen_plainLetter]; decide)⟩

/-- The letter is accepted and never leaves: 394 bytes of ciphertext make a packet of 521. -/
theorem long_letter_undeliverable :
    ¬ ∀ (lib : CourierLib) (env : CourierEnv) (evt : NoiseEvent) (nowMs : UInt64)
      (st st' : CourierState), bitleCourierAccept lib env (evt.deposit nowMs) st = .ok (true, st') →
        ∀ envelope, parseEnvelope evt.payload = some envelope → HandoffEncodes envelope := by
  intro hall
  obtain ⟨⟨st, st', heq⟩, hparse⟩ := accept_letter plainLib (n := 394) (by decide) (by decide)
  have hencodes := hall _ _ _ _ _ _ heq _ hparse
  have hlen := (handoffEncodes_iff (letterEvent 394 (by decide)).payload_le hparse).mp hencodes
  rw [mailLen_plainLetter] at hlen
  exact absurd hlen (by decide)

end Bitle
