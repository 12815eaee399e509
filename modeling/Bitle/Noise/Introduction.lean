import Bitle.Mesh.Transit
import Bitle.Noise.Canonical
import Bitle.Noise.Nickname
import Bitle.Noise.Roles

/-!
# Bitle — how a node introduces itself (`main/noise_handshake.c`)

A node tells who it is twice: in the TLVs of the signed ANNOUNCE that `send_announce` and
`noise_announce_link` build, and in the payload of the legacy identity announce. This module has
the two builders, and takes what they build through the network (`Hop`) to the worker of another
node.

X25519, Ed25519 and SHA-256 are parameters.
-/

namespace Bitle

open Wire

variable {H K : Type}

/-! ## The sender -/

/-- What `load_identity` and `load_nickname` leave: `s_static_public`, `s_ed25519_public`,
`s_peer_id` and `s_nickname`. The peer id stands for the static key. -/
structure LocalIdentity (sha256 : List UInt8 → Bytes 32) where
  staticPublic : Bytes 32
  ed25519Public : Bytes 32
  peerId : PeerId
  nickname : Nickname
  peerId_eq : peerId = peerIdOf sha256 staticPublic

/-- `load_identity` and `load_nickname`, once the two private keys are there. -/
def loadIdentity (sha256 : List UInt8 → Bytes 32) (curve25519 ed25519Publickey : Bytes 32 → Bytes 32)
    (staticPrivate ed25519Private : Bytes 32) (nvs : NicknameNvs) : LocalIdentity sha256 where
  staticPublic := curve25519 staticPrivate
  ed25519Public := ed25519Publickey ed25519Private
  peerId := peerIdOf sha256 (curve25519 staticPrivate)
  nickname :=
    ⟨loadNickname (peerIdOf sha256 (curve25519 staticPrivate)) nvs, loadNickname_valid _ nvs⟩
  peerId_eq := rfl

variable {sha256 : List UInt8 → Bytes 32}

/-- `build_announce_payload`. The check leaves out the last two TLVs. -/
def buildAnnouncePayload (node : LocalIdentity sha256) (fwVersion : UInt32) (authoritative : Bool)
    (bufferLen : Nat) : Option (List UInt8) :=
  if bufferLen < 2 + node.nickname.val.length + 2 + 32 + 2 + 32 then none
  else
    some ([0x01, node.nickname.val.length.toUInt8] ++ node.nickname.val ++
      [0x02, 32] ++ node.staticPublic.val ++ [0x03, 32] ++ node.ed25519Public.val ++
      [0xB0, 4] ++ beBytes 4 fwVersion.toNat ++
      [0xB1, 1] ++ [0x01 ||| if authoritative then 0x02 else 0x00])

/-- `"%02x"` for each byte. -/
def hexOf (data : List UInt8) : List UInt8 :=
  data.flatMap fun b => [b / 16, b % 16].map fun d => if d < 10 then 0x30 + d else 0x57 + d

/-- The bytes that the signature of the legacy identity announce covers. -/
def identityBinding (node : LocalIdentity sha256) (timestampMs : UInt64) : List UInt8 :=
  ascii "bitchat-announce-v1" ++ hexOf node.peerId.val ++ hexOf node.staticPublic.val ++
    ascii (toString timestampMs.toNat)

/-- `build_identity_payload`. -/
def buildIdentityPayload (ed25519Sign : List UInt8 → Bytes 64) (node : LocalIdentity sha256)
    (timestampMs : UInt64) (bufferLen : Nat) : Option (List UInt8) :=
  if bufferLen < 1 + 8 + 1 + 32 + 1 + 32 + 1 + node.nickname.val.length + 1 + 8 + 1 + 64 then none
  else
    some ([0x00] ++ node.peerId.val ++ [32] ++ node.staticPublic.val ++
      [32] ++ node.ed25519Public.val ++ [node.nickname.val.length.toUInt8] ++ node.nickname.val ++
      [0x00] ++ beBytes 8 timestampMs.toNat ++
      [64] ++ (ed25519Sign (identityBinding node timestampMs)).val)

/-- A packet to everyone, as `encode_and_send`, `send_announce` and `noise_announce_link` set it
up. -/
def localPacket (peerId : PeerId) (type : UInt8) (timestampMs : UInt64) (payload : Payload) :
    BitchatPacket :=
  { version := 1, type := type, ttl := noisePacketTtl, timestampMs := timestampMs
    senderId := peerId, recipientId := zeros 8, hasRecipient := false, isCompressed := false
    isRsr := false, opaqueOnly := false, payload := payload, signature := zeros 64
    hasSignature := false }

/-- The frame of a packet that has to be signed. -/
def signedFrame (ed25519Sign : List UInt8 → Bytes 64) (packet : BitchatPacket) :
    Option (List UInt8) :=
  match signPacket ed25519Sign packet with
  | none => none
  | some packet => bitchatPacketEncode packet bitchatBleMaxPacketSize

/-- The frame that `send_announce` and `noise_announce_link` pass to `bitle_link_send`; without a
valid clock there is none. -/
def noiseAnnounceLink (ed25519Sign : List UInt8 → Bytes 64) (node : LocalIdentity sha256)
    (fwVersion : UInt32) (authoritative timeValid : Bool) (nowMs : UInt64) : Option (List UInt8) :=
  if !timeValid then none
  else
    match buildAnnouncePayload node fwVersion authoritative 128 with
    | none => none
    | some payload =>
      if h : payload.length < 65536 then
        signedFrame ed25519Sign (localPacket node.peerId bitchatMsgAnnounce nowMs ⟨payload, h⟩)
      else none

/-- The frame of `send_identity_announce`. `encode_and_send` refuses the time zero and sends a
packet that it cannot sign without a signature. -/
def sendIdentityAnnounceFrame (ed25519Sign : List UInt8 → Bytes 64) (node : LocalIdentity sha256)
    (timeValid : Bool) (nowMs : UInt64) : Option (List UInt8) :=
  if !timeValid then none
  else
    match buildIdentityPayload ed25519Sign node nowMs 256 with
    | none => none
    | some payload =>
      if nowMs = 0 then none
      else if h : payload.length < 65536 then
        let packet := localPacket node.peerId bitchatMsgNoiseIdentityAnnounce nowMs ⟨payload, h⟩
        bitchatPacketEncode ((signPacket ed25519Sign packet).getD packet) bitchatBleMaxPacketSize
      else none

/-! ## What the sender builds -/

variable (node : LocalIdentity sha256)

theorem length_nickname : 1 ≤ node.nickname.val.length ∧ node.nickname.val.length ≤ 31 := by
  have h := node.nickname.property
  unfold nicknameIsCustomValid nicknameMaxCustomLen at h
  simp only [Bool.and_eq_true, Bool.not_eq_true', Bool.or_eq_false_iff, beq_eq_false_iff_ne,
    decide_eq_false_iff_not] at h
  omega

theorem toNat_length_nickname :
    node.nickname.val.length.toUInt8.toNat = node.nickname.val.length := by
  have h := length_nickname node
  show node.nickname.val.length % 256 = _
  omega

/-- **The announce fits**, though the check of its length forgets nine bytes: a nickname is short. -/
theorem buildAnnouncePayload_fits (fwVersion : UInt32) (authoritative : Bool) :
    ∃ payload, buildAnnouncePayload node fwVersion authoritative 128 = some payload ∧
      payload.length = 79 + node.nickname.val.length ∧ payload.length ≤ 128 := by
  have hnick := length_nickname node
  obtain ⟨payload, hpayload⟩ : ∃ payload,
      buildAnnouncePayload node fwVersion authoritative 128 = some payload := by
    unfold buildAnnouncePayload
    rw [if_neg (by omega)]
    exact ⟨_, rfl⟩
  have hlen : payload.length = 79 + node.nickname.val.length := by
    unfold buildAnnouncePayload at hpayload
    rw [if_neg (by omega)] at hpayload
    rw [← Option.some.inj hpayload]
    simp only [List.length_append, length_beBytes, node.staticPublic.property,
      node.ed25519Public.property, List.length_cons, List.length_nil]
    omega
  exact ⟨payload, hpayload, hlen, by omega⟩

theorem buildIdentityPayload_fits (ed25519Sign : List UInt8 → Bytes 64) (timestampMs : UInt64) :
    ∃ payload, buildIdentityPayload ed25519Sign node timestampMs 256 = some payload ∧
      payload.length = 150 + node.nickname.val.length ∧ payload.length ≤ 256 := by
  have hnick := length_nickname node
  obtain ⟨payload, hpayload⟩ : ∃ payload,
      buildIdentityPayload ed25519Sign node timestampMs 256 = some payload := by
    unfold buildIdentityPayload
    rw [if_neg (by omega)]
    exact ⟨_, rfl⟩
  have hlen : payload.length = 150 + node.nickname.val.length := by
    unfold buildIdentityPayload at hpayload
    rw [if_neg (by omega)] at hpayload
    rw [← Option.some.inj hpayload]
    simp only [List.length_append, length_beBytes, node.staticPublic.property,
      node.ed25519Public.property, node.peerId.property, List.length_cons, List.length_nil,
      (ed25519Sign (identityBinding node timestampMs)).property]
    omega
  exact ⟨payload, hpayload, hlen, by omega⟩

/-! ## The TLVs -/

section Parse

variable {payload v post : List UInt8} {off : Nat}

/-- One round of `parse_announce_tlv`. -/
theorem announceLoop_tlv {t n : UInt8} (h : payload.drop off = [t, n] ++ (v ++ post))
    (hn : v.length = n.toNat) (fuel : Nat) {acc acc' : AnnounceParse}
    (htlv : announceTlv t v acc = some acc') :
    announceLoop payload (fuel + 1) off acc =
      announceLoop payload fuel (off + [t, n].length + v.length) acc' := by
  have hvalue := drop_next h
  have hlen := congrArg List.length h
  simp only [List.length_drop, List.length_append, List.length_cons, List.length_nil] at hlen
  have ht : byteAt payload off = t := byteAt_of_drop h
  have hhead : payload.drop off = [t] ++ (n :: (v ++ post)) := h
  have hnext : payload.drop (off + 1) = n :: (v ++ post) := drop_next hhead
  rw [announceLoop, if_pos (by omega), byteAt_of_drop hnext, ← hn, ht]
  dsimp only
  rw [if_neg (by omega), show payload.drop (off + 2) = v ++ post from hvalue, List.take_left, htlv]
  rfl

theorem announceTlv_nick {v : List UInt8} (h : 1 ≤ v.length) (acc : AnnounceParse) :
    announceTlv 0x01 v acc = some { acc with haveNick := true } := by
  unfold announceTlv
  rw [if_pos rfl, if_neg (by omega)]

theorem announceTlv_noise (key : Bytes 32) (acc : AnnounceParse) :
    announceTlv 0x02 key.val acc =
      some { acc with haveNoise := true, ident := { acc.ident with noiseKey := key } } := by
  unfold announceTlv
  rw [if_neg (by decide), if_pos rfl, if_neg (not_not_intro key.property), copyAt_self]

theorem announceTlv_sign (key : Bytes 32) (acc : AnnounceParse) :
    announceTlv 0x03 key.val acc =
      some { acc with haveSign := true, ident := { acc.ident with signKey := key } } := by
  unfold announceTlv
  rw [if_neg (by decide), if_neg (by decide), if_pos rfl, if_neg (not_not_intro key.property),
    copyAt_self]

theorem announceTlv_version (fwVersion : UInt32) (acc : AnnounceParse) :
    announceTlv 0xB0 (beBytes 4 fwVersion.toNat) acc =
      some { acc with ident := { acc.ident with fwVersion := fwVersion } } := by
  unfold announceTlv
  rw [if_neg (by decide), if_neg (by decide), if_neg (by decide), if_pos rfl,
    if_pos (length_beBytes _ _), beNat_beBytes fwVersion.toNat_lt,
    show fwVersion.toNat.toUInt32 = fwVersion from UInt32.ofNat_toNat]

theorem announceTlv_role (authoritative : Bool) (acc : AnnounceParse) :
    announceTlv 0xB1 [0x01 ||| if authoritative then 0x02 else 0x00] acc =
      some { acc with
        ident := { acc.ident with isInfra := true, isAuthoritative := authoritative } } := by
  cases authoritative with
  | true => rfl
  | false => rfl

theorem announceLoop_end (fuel : Nat) (acc : AnnounceParse) :
    announceLoop payload fuel payload.length acc = some acc := by
  cases fuel with
  | zero => rfl
  | succ fuel => rw [announceLoop, if_neg (by omega)]

/-- A length byte and the field behind it. -/
theorem skipField_of_drop {n : UInt8} (h : payload.drop off = [n] ++ (v ++ post))
    (hn : v.length = n.toNat) :
    skipField payload off = some (off + [n].length + v.length) := by
  have hlen := congrArg List.length h
  simp only [List.length_drop, List.length_append, List.length_cons, List.length_nil] at hlen
  unfold skipField
  rw [if_neg (by omega), byteAt_of_drop h, ← hn]
  dsimp only
  rw [if_neg (by omega)]
  rfl

theorem skipField_empty (h : payload.drop off = [0x00] ++ post) :
    skipField payload off = some (off + [(0x00 : UInt8)].length) :=
  skipField_of_drop (v := []) h rfl

end Parse

/-- What the announce of a node says. -/
def announcedIdentity (fwVersion : UInt32) (authoritative : Bool) : NoiseIdentity :=
  { noiseKey := node.staticPublic, signKey := node.ed25519Public, fwVersion := fwVersion
    isInfra := true, isAuthoritative := authoritative }

/-- **The announce is read back**, TLV by TLV. -/
theorem parseAnnounceTlv_build {fwVersion : UInt32} {authoritative : Bool} {payload : List UInt8}
    (h : buildAnnouncePayload node fwVersion authoritative 128 = some payload) :
    parseAnnounceTlv payload = some (announcedIdentity node fwVersion authoritative) := by
  obtain ⟨payload', h', hlen, -⟩ := buildAnnouncePayload_fits node fwVersion authoritative
  obtain rfl : payload' = payload := Option.some.inj (h'.symm.trans h)
  have hnick := length_nickname node
  unfold buildAnnouncePayload at h
  rw [if_neg (by omega)] at h
  have hdata := Option.some.inj h
  simp only [List.append_assoc] at hdata
  -- where each TLV starts
  have h1 : payload'.drop 0 = [0x01, node.nickname.val.length.toUInt8] ++ (node.nickname.val ++ _) :=
    hdata.symm
  have h2 := drop_next (drop_next h1)
  have h3 := drop_next (drop_next h2)
  have h4 := drop_next (drop_next h3)
  have h5 := drop_next (drop_next h4)
  have h5' := h5.trans (congrArg ([(0xB1 : UInt8), 1] ++ ·) (List.append_nil _).symm)
  have hfuel : payload'.length = (73 + node.nickname.val.length) + 1 + 1 + 1 + 1 + 1 + 1 := by
    rw [hlen]
    omega
  have hend : 0 + [0x01, node.nickname.val.length.toUInt8].length + node.nickname.val.length +
      [(0x02 : UInt8), 32].length + node.staticPublic.val.length +
      [(0x03 : UInt8), 32].length + node.ed25519Public.val.length +
      [(0xB0 : UInt8), 4].length + (beBytes 4 fwVersion.toNat).length +
      [(0xB1 : UInt8), 1].length +
      [0x01 ||| if authoritative then (0x02 : UInt8) else 0x00].length = payload'.length := by
    simp only [hlen, length_beBytes, node.staticPublic.property, node.ed25519Public.property,
      List.length_cons, List.length_nil]
    omega
  unfold parseAnnounceTlv
  rw [hfuel,
    announceLoop_tlv h1 (toNat_length_nickname node).symm _ (announceTlv_nick hnick.1 _),
    announceLoop_tlv h2 node.staticPublic.property _ (announceTlv_noise _ _),
    announceLoop_tlv h3 node.ed25519Public.property _ (announceTlv_sign _ _),
    announceLoop_tlv h4 (length_beBytes _ _) _ (announceTlv_version _ _),
    announceLoop_tlv h5' rfl _ (announceTlv_role _ _), hend, announceLoop_end]
  rfl

/-- **The legacy identity is read back**: the peer id and the timestamp, whatever the signature. -/
theorem parseIdentityPayload_build {ed25519Sign : List UInt8 → Bytes 64} {timestampMs : UInt64}
    {payload : List UInt8}
    (h : buildIdentityPayload ed25519Sign node timestampMs 256 = some payload) :
    parseIdentityPayload payload =
      some { valid := true, peerId := node.peerId, timestampMs := timestampMs } := by
  obtain ⟨payload', h', hlen, -⟩ := buildIdentityPayload_fits node ed25519Sign timestampMs
  obtain rfl : payload' = payload := Option.some.inj (h'.symm.trans h)
  have hnick := length_nickname node
  unfold buildIdentityPayload at h
  rw [if_neg (by omega)] at h
  have hdata := Option.some.inj h
  simp only [List.append_assoc] at hdata
  have h0 : payload'.drop 0 = [0x00] ++ (node.peerId.val ++ ([32] ++ _)) := hdata.symm
  -- the fields one after another, as the parser walks over them
  have h1 := drop_next h0
  change payload'.drop 1 = _ at h1
  have h2 := drop_next h1
  rw [node.peerId.property] at h2
  change payload'.drop 9 = _ at h2
  have h3 := drop_next (drop_next h2)
  have h4 := drop_next (drop_next h3)
  have h5 := drop_next (drop_next h4)
  have h6 := drop_next h5
  have h7 := drop_next h6
  rw [length_beBytes, ← List.append_nil (ed25519Sign _).val] at h7
  have hle := congrArg List.length h7
  simp only [List.length_drop, List.length_append, List.length_cons, List.length_nil,
    (ed25519Sign (identityBinding node timestampMs)).property] at hle
  unfold parseIdentityPayload
  rw [if_neg (by omega), skipField_of_drop h2 node.staticPublic.property, Option.bind_some,
    skipField_of_drop h3 node.ed25519Public.property]
  dsimp only
  rw [byteAt_of_drop h4, toNat_length_nickname, if_neg (by omega),
    skipField_of_drop h4 (toNat_length_nickname node).symm, Option.bind_some,
    skipField_empty h5]
  dsimp only
  rw [if_neg (by simp only [List.length_cons, List.length_nil]; omega),
    skipField_of_drop h7 (ed25519Sign (identityBinding node timestampMs)).property]
  dsimp only
  rw [copyAt_of_drop h6 (length_beBytes _ _), copyAt_of_drop h1 node.peerId.property, copyAt_self]
  have htime : (beNat (copyAt 8 (beBytes 8 timestampMs.toNat) 0).val).toUInt64 = timestampMs := by
    have hcopy := copyAt_self ⟨beBytes 8 timestampMs.toNat, length_beBytes _ _⟩
    rw [hcopy, beNat_beBytes timestampMs.toNat_lt]
    exact UInt64.ofNat_toNat
  rw [htime]

/-! ## On the way -/

section Transit

variable {tinfl : Tinfl} {ed25519Sign : List UInt8 → Bytes 64} {b b' : List UInt8}

/-- A packet at the receiver: the signed packet of the sender, but for its TTL and the replay
flag. -/
structure SignedArrival (ed25519Sign : List UInt8 → Bytes 64) (packet q : BitchatPacket) : Prop where
  version : q.version = 1
  type : q.type = packet.type
  timestampMs : q.timestampMs = packet.timestampMs
  senderId : q.senderId = packet.senderId
  payload : q.payload = packet.payload
  hasRecipient : q.hasRecipient = false
  hasSignature : q.hasSignature = true
  signature : ∃ canonical, buildCanonicalPacket q bitchatBleMaxPacketSize = some canonical ∧
    q.signature = ed25519Sign canonical

/-- **A signed packet to everyone arrives**, whatever way its frame takes. -/
theorem arrived_of_hops {packet : BitchatPacket} (hv : packet.version = 1)
    (hrecipient : packet.hasRecipient = false) (hframe : signedFrame ed25519Sign packet = some b)
    (hops : Relation.ReflTransGen (Hop tinfl) b b') :
    ∃ q, bitchatPacketDecode tinfl b' = some q ∧
      SignedArrival ed25519Sign packet q := by
  unfold signedFrame signPacket at hframe
  cases hcanon : buildCanonicalPacket packet bitchatBleMaxPacketSize with
  | none =>
    rw [hcanon] at hframe
    cases hframe
  | some canonical =>
    rw [hcanon] at hframe
    obtain ⟨-, -, rfl⟩ := bitchatPacketEncode_eq_some_iff.mp hframe
    obtain ⟨f, pad, hf, hpad, rfl⟩ := Carries.run hops
    -- what the hops change is not under the signature
    have hsame : buildCanonicalPacket (f.packet packet.payload false) bitchatBleMaxPacketSize =
        buildCanonicalPacket packet bitchatBleMaxPacketSize :=
      buildCanonicalPacket_resent (q := { packet with
        signature := ed25519Sign canonical, hasSignature := true }) hv hf bitchatBleMaxPacketSize
    obtain ⟨hversion, htype, htimestamp, hsender, -, -, hsig, hflags⟩ := hf.fields
    refine ⟨f.packet packet.payload false, ?_, ?_⟩
    · rw [bitchatPacketDecode, Carries.decode tinfl hf hpad]
      rfl
    · constructor
      · exact hversion
      · exact htype
      · show (beNat f.timestamp.val).toUInt64 = packet.timestampMs
        rw [htimestamp]
        show (beNat (beBytes 8 packet.timestampMs.toNat)).toUInt64 = _
        rw [beNat_beBytes packet.timestampMs.toNat_lt]
        exact UInt64.ofNat_toNat
      · exact hsender
      · rfl
      · show (f.flags &&& 0x01 != 0) = false
        rw [hflags _ (by decide), ← hrecipient]
        exact (BitchatPacket.flags_and _).1
      · show (f.flags &&& 0x02 != 0) = true
        rw [hflags _ (by decide)]
        exact (BitchatPacket.flags_and _).2.1
      · refine ⟨canonical, hsame.trans hcanon, ?_⟩
        show copyAt 64 f.signature 0 = _
        rw [hsig]
        exact copyAt_self _

/-- A packet that is small enough has a frame. -/
theorem bitchatPacketEncode_of_le {packet : BitchatPacket} (hv : packet.version = 1)
    (hle : packet.payload.val.length ≤ 256) :
    ∃ b, bitchatPacketEncode packet bitchatBleMaxPacketSize = some b := by
  have hsize : bitchatBleMaxPacketSize = 520 := rfl
  have hrecipient : (if packet.hasRecipient then 8 else 0) ≤ 8 := by
    split
    · exact Nat.le_refl 8
    · exact Nat.zero_le 8
  have hsignature : (if packet.hasSignature then 64 else 0) ≤ 64 := by
    split
    · exact Nat.le_refl 64
    · exact Nat.zero_le 64
  unfold bitchatPacketEncode
  rw [if_neg (not_not_intro hv)]
  dsimp only
  rw [if_neg (by omega)]
  exact ⟨_, rfl⟩

theorem signedFrame_localPacket (ed25519Sign : List UInt8 → Bytes 64) (peerId : PeerId)
    (type : UInt8) (timestampMs : UInt64) (payload : Payload) (hle : payload.val.length ≤ 256) :
    ∃ b, signedFrame ed25519Sign (localPacket peerId type timestampMs payload) = some b := by
  have hfits : (signedBytes (localPacket peerId type timestampMs payload)).length ≤
      bitchatBleMaxPacketSize := by
    rw [length_signedBytes]
    show 22 + payload.val.length ≤ 520
    omega
  unfold signedFrame signPacket
  rw [buildCanonicalPacket_of_le hfits]
  exact bitchatPacketEncode_of_le rfl hle

end Transit

/-! ## The receiver -/

variable {ed25519Sign : List UInt8 → Bytes 64}
  {ed25519SignOpen : List UInt8 → Bytes 32 → Bytes 64 → Bool}

/-- **The announce verifies** on the worker, which rebuilds the packet from the event. -/
theorem verifyAnnounceEvent_arrived {packet q : BitchatPacket} {evt : NoiseEvent}
    {ident : NoiseIdentity} {connHandle : UInt16} (h : SignedArrival ed25519Sign packet q)
    (htype : packet.type = bitchatMsgAnnounce)
    (henq : enqueuePacketEvent .announce connHandle q = some evt)
    (hkey : peerIdOf sha256 ident.noiseKey = packet.senderId)
    (hopen : ∀ m, ed25519SignOpen m ident.signKey (ed25519Sign m) = true) :
    verifyAnnounceEvent sha256 ed25519SignOpen evt ident = some true := by
  obtain ⟨-, -, hpeer, -, hsig, hsignature⟩ := enqueuePacketEvent_inv henq
  obtain ⟨canonical, hcanon, hsign⟩ := h.signature
  have hplain : ({ q with hasRecipient := false } : BitchatPacket) = q := by rw [← h.hasRecipient]
  have hsigned := signedBytes_announcePacket h.version (h.type.trans htype) henq
  rw [hplain] at hsigned
  have hsender : evt.peerId = packet.senderId := hpeer.trans h.senderId
  unfold verifyAnnounceEvent
  rw [if_neg (not_not_intro (hkey.trans hsender.symm)), hsig, h.hasSignature,
    buildCanonicalPacket_congr hsigned, hcanon]
  rw [h.hasSignature, if_pos rfl, hsign] at hsignature
  rw [hsignature]
  exact congrArg some (hopen canonical)

/-- **What an announce of a node does at another node**: the calls it makes, and, if it comes from
the peer itself, the identity and the peer of its link. -/
structure Introduced (node : LocalIdentity sha256) (fwVersion : UInt32) (authoritative : Bool)
    (timestampMs : UInt64) (direct : Bool) (connHandle : UInt16) (nowMs : UInt64)
    (w w' : NoiseWorker H K) : Prop where
  calls : ∃ more, w'.log = w.log ++ ([.markHealthy, .peerVersionSeen connHandle node.peerId fwVersion,
      .courierPeerAnnounced connHandle node.peerId node.staticPublic direct nowMs] ++
    (if direct then [.considerPeerAnnounce timestampMs true authoritative] else []) ++ more)
  identity : direct = true → ∀ i w₁, w.alloc connHandle = some (i, w₁) →
    w'.table.identities i = { announcedIdentity node fwVersion authoritative with
      valid := true, verified := true, timestampMs := timestampMs, peerId := node.peerId } ∧
    w'.link i = (w₁.link i).bound node.peerId
  relayed : direct = false → SameBinding w w'

theorem notifyAnnounce_log (env : NoiseEnv H K) (w : NoiseWorker H K) (evt : NoiseEvent)
    (ident : NoiseIdentity) (direct : Bool) :
    (notifyAnnounce env w evt ident direct).log = w.log ++ ([.markHealthy,
      .peerVersionSeen evt.connHandle evt.peerId ident.fwVersion,
      .courierPeerAnnounced evt.connHandle evt.peerId ident.noiseKey direct env.nowMs] ++
      if direct then
        [.considerPeerAnnounce evt.timestampMs ident.isInfra ident.isAuthoritative] else []) := by
  unfold notifyAnnounce NoiseWorker.call
  cases direct with
  | true => simp only [if_true, List.append_assoc, List.cons_append, List.nil_append]
  | false => simp only [Bool.false_eq_true, if_false, List.append_assoc, List.cons_append,
      List.nil_append]

theorem identities_bindUnknown (w : NoiseWorker H K) (i : Fin noiseMaxSessions) (peer : PeerId) :
    (bindUnknown w i peer).table.identities = w.table.identities := by
  unfold bindUnknown
  split
  · rfl
  · rfl

/-- A verified direct announce is recorded in the slot of its connection. -/
theorem identity_recordAnnounce (env : NoiseEnv H K) (w : NoiseWorker H K)
    (i : Fin noiseMaxSessions) (evt : NoiseEvent) (ident : NoiseIdentity) :
    (recordAnnounce env w i evt ident true).table.identities i = { ident with
      valid := true, verified := true, timestampMs := evt.timestampMs, peerId := evt.peerId } := by
  unfold recordAnnounce
  dsimp only
  rw [Bool.or_true, if_pos rfl, (sameBinding_dropDuplicate env _ i evt.peerId).identities,
    identities_bindUnknown]
  exact Function.update_self ..

variable (node : LocalIdentity sha256)

/-- **One announce event** of the node, on any worker. -/
theorem processAnnounceEvent_introduces (env : NoiseEnv H K) (w : NoiseWorker H K)
    {evt : NoiseEvent} {fwVersion : UInt32} {authoritative : Bool}
    (hparse : parseAnnounceTlv evt.payload = some (announcedIdentity node fwVersion authoritative))
    (hverify : verifyAnnounceEvent sha256 ed25519SignOpen evt
      (announcedIdentity node fwVersion authoritative) = some true)
    (hpeer : evt.peerId = node.peerId) :
    Introduced node fwVersion authoritative evt.timestampMs (evt.ttl == noisePacketTtl)
      evt.connHandle env.nowMs w (processAnnounceEvent env sha256 ed25519SignOpen w evt) := by
  have hlog := notifyAnnounce_log env w evt (announcedIdentity node fwVersion authoritative)
    (evt.ttl == noisePacketTtl)
  have hnotify := sameBinding_notifyAnnounce env w evt
    (announcedIdentity node fwVersion authoritative) (evt.ttl == noisePacketTtl)
  have htable : (notifyAnnounce env w evt (announcedIdentity node fwVersion authoritative)
      (evt.ttl == noisePacketTtl)).table = w.table := by
    unfold notifyAnnounce
    dsimp only
    split
    · rfl
    · rfl
  rw [hpeer] at hlog
  unfold processAnnounceEvent
  rw [hparse]
  dsimp only
  rw [hverify]
  dsimp only
  rw [if_pos rfl]
  generalize hw₁ : notifyAnnounce env w evt (announcedIdentity node fwVersion authoritative)
    (evt.ttl == noisePacketTtl) = w₁ at hlog hnotify htable
  -- the rest of the event adds to the log
  have hadds : ∀ w₂, Still w₁ w₂ → ∃ more,
      (offerIdentity env w₂ evt.connHandle).log = w.log ++ ([.markHealthy,
        .peerVersionSeen evt.connHandle node.peerId fwVersion,
        .courierPeerAnnounced evt.connHandle node.peerId node.staticPublic
          (evt.ttl == noisePacketTtl) env.nowMs] ++
        (if evt.ttl == noisePacketTtl then
          [.considerPeerAnnounce evt.timestampMs true authoritative] else []) ++ more) := by
    intro w₂ h₂
    obtain ⟨more, hmore, -⟩ := (h₂.trans (still_offerIdentity env w₂ evt.connHandle)).sends
    refine ⟨more, ?_⟩
    rw [hmore, hlog, List.append_assoc, List.append_assoc]
    rfl
  cases hdirect : evt.ttl == noisePacketTtl with
  | false =>
    rw [hdirect] at hadds
    rw [if_neg Bool.false_ne_true]
    refine ⟨hadds w₁ (HandshakeStep.refl w₁), fun h => absurd h Bool.false_ne_true, fun _ => ?_⟩
    exact hnotify.trans (sameBinding_offerIdentity env w₁ evt.connHandle)
  | true =>
    rw [hdirect] at hadds
    rw [if_pos rfl]
    -- the notifications leave the table alone, so the same slot is found or taken
    have halloc : ∀ i w₂, w.alloc evt.connHandle = some (i, w₂) →
        w₁.alloc evt.connHandle = some (i, { w₁ with table := w₂.table }) := by
      intro i w₂ h
      unfold NoiseWorker.alloc at h ⊢
      rw [htable]
      obtain ⟨x, hx, hxw⟩ := Option.map_eq_some_iff.mp h
      rw [hx]
      obtain ⟨rfl, rfl⟩ := Prod.mk.inj hxw
      rfl
    cases hslot : w₁.alloc evt.connHandle with
    | none =>
      refine ⟨hadds w₁ (HandshakeStep.refl w₁), ?_, fun h => absurd h (by decide)⟩
      intro _ i w₂ h
      rw [halloc i w₂ h] at hslot
      cases hslot
    | some x =>
      obtain ⟨i, w₂⟩ := x
      have hoffer := sameBinding_offerIdentity env (recordAnnounce env w₂ i evt
        (announcedIdentity node fwVersion authoritative) true) evt.connHandle
      refine ⟨hadds _ ((still_alloc hslot).trans (still_recordAnnounce env w₂ i evt _ true)), ?_,
        fun h => absurd h (by decide)⟩
      intro _ j w₃ h
      rw [halloc j w₃ h] at hslot
      obtain ⟨rfl, rfl⟩ := Prod.mk.inj (Option.some.inj hslot)
      constructor
      · rw [hoffer.identities, identity_recordAnnounce, hpeer]
      · have hconn := (slot_alloc_self h).2
        have hw₁ : (({ w₁ with table := w₃.table } : NoiseWorker H K).session j).connHandle =
            evt.connHandle := hconn
        have hspec := (recordAnnounce_spec env (announcedIdentity node fwVersion authoritative) true
          hw₁).2
        rw [hoffer.link, hspec, if_pos rfl, hpeer]
        rfl

variable (ed25519Sign ed25519SignOpen)

/-- **A node introduces itself to the whole mesh.** With a valid clock its announce has a frame;
and whatever relays, replays, trunk crossings and padding the frame goes through, any node that gets
it finds the keys, the version and the roles of the sender in it, with a signature that verifies. A
node that gets it first-hand records them as the verified identity of the link, and binds the link
while its peer is unknown; from further away it changes no link. -/
theorem announce_introduces (tinfl : Tinfl)
    (hopen : ∀ m, ed25519SignOpen m node.ed25519Public (ed25519Sign m) = true)
    (fwVersion : UInt32) (authoritative : Bool) (nowMs : UInt64) :
    ∃ b, noiseAnnounceLink ed25519Sign node fwVersion authoritative true nowMs = some b ∧
      ∀ b', Relation.ReflTransGen (Hop tinfl) b b' →
        ∃ p, bitchatPacketDecode tinfl b' = some p ∧ p.type = bitchatMsgAnnounce ∧
          ∀ connHandle, ∃ evt, enqueuePacketEvent .announce connHandle p = some evt ∧
            ∀ (env : NoiseEnv H K) (w : NoiseWorker H K),
              Introduced node fwVersion authoritative nowMs (p.ttl == noisePacketTtl) connHandle
                env.nowMs w (processAnnounceEvent env sha256 ed25519SignOpen w evt) := by
  obtain ⟨payload, hbuild, hlen, hle⟩ := buildAnnouncePayload_fits node fwVersion authoritative
  have hshort : payload.length < 65536 := by omega
  obtain ⟨b, hframe⟩ := signedFrame_localPacket ed25519Sign node.peerId bitchatMsgAnnounce
    nowMs ⟨payload, hshort⟩ (by
      show payload.length ≤ 256
      omega)
  refine ⟨b, ?_, ?_⟩
  · unfold noiseAnnounceLink
    rw [Bool.not_true, if_neg Bool.false_ne_true, hbuild]
    dsimp only
    rw [dif_pos hshort]
    exact hframe
  · intro b' hops
    obtain ⟨p, hdecode, harrived⟩ := arrived_of_hops rfl rfl hframe hops
    refine ⟨p, hdecode, harrived.type, ?_⟩
    intro connHandle
    have hpayload : p.payload.val = payload := congrArg Subtype.val harrived.payload
    obtain ⟨evt, henq, httl, hconn⟩ : ∃ evt, enqueuePacketEvent .announce connHandle p = some evt ∧
        evt.ttl = p.ttl ∧ evt.connHandle = connHandle := by
      unfold enqueuePacketEvent noiseEventPayloadMax
      rw [dif_neg (by rw [hpayload]; omega)]
      exact ⟨_, rfl, rfl, rfl⟩
    refine ⟨evt, henq, ?_⟩
    intro env w
    obtain ⟨-, htime, hpeer, hevt, -, -⟩ := enqueuePacketEvent_inv henq
    have hparse : parseAnnounceTlv evt.payload =
        some (announcedIdentity node fwVersion authoritative) := by
      rw [hevt, hpayload]
      exact parseAnnounceTlv_build node hbuild
    have hkey : peerIdOf sha256 (announcedIdentity node fwVersion authoritative).noiseKey =
        node.peerId := node.peerId_eq.symm
    have hverify := verifyAnnounceEvent_arrived harrived rfl henq hkey hopen
    have hinto := processAnnounceEvent_introduces node env w hparse hverify
      (hpeer.trans harrived.senderId)
    rw [htime.trans harrived.timestampMs, httl, hconn] at hinto
    exact hinto

/-- A node whose keys are its private ones, with no nickname in NVS. -/
def plainNode : LocalIdentity fun l => copyAt 32 l 0 :=
  loadIdentity _ id id (copyAt 32 [0xA1] 0) (copyAt 32 [0xB2] 0) {}

/-- Its announce, at a node that was just booted: first-hand, and replayed by another node. -/
theorem announce_introduces_booted :
    ∃ b p evt p' evt' i w₁, noiseAnnounceLink headSign plainNode 5 false true 1700000000000 = some b ∧
      (bitchatPacketDecode noTinfl b = some p ∧ enqueuePacketEvent .announce 1 p = some evt ∧
        ({} : NoiseWorker Nat Unit).alloc 1 = some (i, w₁) ∧
        (processAnnounceEvent dialingEnv (fun l => copyAt 32 l 0)
          (fun m _ sig => sig == headSign m) {} evt).table.identities i =
          { announcedIdentity plainNode 5 false with
            valid := true, verified := true, timestampMs := 1700000000000,
            peerId := plainNode.peerId }) ∧
      bitchatPacketDecode noTinfl (replayFrame b) = some p' ∧
      enqueuePacketEvent .announce 1 p' = some evt' ∧
      Introduced plainNode 5 false 1700000000000 (p'.ttl == noisePacketTtl) 1 dialingEnv.nowMs {}
        (processAnnounceEvent dialingEnv (fun l => copyAt 32 l 0)
          (fun m _ sig => sig == headSign m) {} evt') := by
  obtain ⟨b, hb, harrives⟩ := announce_introduces (H := Nat) (K := Unit) headSign
    (fun m _ sig => sig == headSign m) plainNode noTinfl (fun m => beq_self_eq_true _) 5 false
    1700000000000
  obtain ⟨p, hp, -, hevents⟩ := harrives b .refl
  obtain ⟨evt, hevt, hintroduced⟩ := hevents 1
  obtain ⟨p', hp', -, hevents'⟩ := harrives _ (.single (.replay b))
  obtain ⟨evt', hevt', hintroduced'⟩ := hevents' 1
  have hdirect : (p.ttl == noisePacketTtl) = true := by
    have hrun : ((noiseAnnounceLink headSign plainNode 5 false true 1700000000000).bind
        (bitchatPacketDecode noTinfl)).map (·.ttl) = some noisePacketTtl := by decide +kernel
    rw [hb, Option.bind_some, hp, Option.map_some, Option.some.injEq] at hrun
    exact beq_iff_eq.mpr hrun
  obtain ⟨⟨i, w₁⟩, halloc⟩ :
      ∃ x, ({} : NoiseWorker Nat Unit).alloc 1 = some x := ⟨_, rfl⟩
  exact ⟨b, p, evt, p', evt', i, w₁, hb, ⟨hp, hevt, halloc,
    ((hintroduced dialingEnv {}).identity hdirect i w₁ halloc).1⟩, hp', hevt',
    hintroduced' dialingEnv {}⟩

/-! ## The legacy identity -/

theorem still_recordIdentity (w : NoiseWorker H K) (i : Fin noiseMaxSessions) (evt : NoiseEvent)
    (ident : NoiseIdentity) : Still w (recordIdentity w i evt ident) := by
  unfold recordIdentity
  refine HandshakeStep.trans ?_ (still_bindUnknown _ i evt.peerId)
  split
  · exact still_setIdentity _ i _
  · exact HandshakeStep.refl _

theorem identity_recordIdentity (w : NoiseWorker H K) (i : Fin noiseMaxSessions) (evt : NoiseEvent)
    (ident : NoiseIdentity) :
    (recordIdentity w i evt ident).table.identities i =
        (if (w.table.identities i).verified then w.table.identities i
        else { ident with peerId := evt.peerId }) ∧
      (recordIdentity w i evt ident).link i = (w.link i).bound evt.peerId := by
  unfold recordIdentity
  dsimp only
  rw [identities_bindUnknown, link_bindUnknown, if_pos rfl]
  cases hverified : (w.table.identities i).verified with
  | true =>
    rw [Bool.not_true, if_neg Bool.false_ne_true, if_pos rfl]
    exact ⟨rfl, rfl⟩
  | false =>
    rw [Bool.not_false, if_pos rfl, if_neg Bool.false_ne_true]
    exact ⟨Function.update_self .., rfl⟩

theorem log_alloc {w w₁ : NoiseWorker H K} {connHandle : UInt16} {i : Fin noiseMaxSessions}
    (h : w.alloc connHandle = some (i, w₁)) : w₁.log = w.log := by
  rcases alloc_cases h with ⟨-, rfl⟩ | ⟨-, -, rfl⟩
  · rfl
  · rfl

/-- **The legacy identity announce** reaches any node as well: its timestamp goes to the clock, and
its peer id is recorded and bound, unverified, where the link has no verified identity. -/
theorem identityAnnounce_introduces (tinfl : Tinfl) (nowMs : UInt64) (hnow : nowMs ≠ 0) :
    ∃ b, sendIdentityAnnounceFrame ed25519Sign node true nowMs = some b ∧
      ∀ b', Relation.ReflTransGen (Hop tinfl) b b' →
        ∃ p, bitchatPacketDecode tinfl b' = some p ∧ p.type = bitchatMsgNoiseIdentityAnnounce ∧
          ∀ connHandle, ∃ evt, enqueuePacketEvent .identity connHandle p = some evt ∧
            ∀ (env : NoiseEnv H K) (w : NoiseWorker H K) i w₁,
              w.alloc connHandle = some (i, w₁) →
                (∃ more, (processIdentityEvent env w evt).log =
                  w.log ++ .considerPeer nowMs :: more) ∧
                (processIdentityEvent env w evt).table.identities i =
                  (if (w₁.table.identities i).verified then w₁.table.identities i
                  else { valid := true, peerId := node.peerId, timestampMs := nowMs }) ∧
                (processIdentityEvent env w evt).link i = (w₁.link i).bound node.peerId := by
  obtain ⟨payload, hbuild, hlen, hle⟩ := buildIdentityPayload_fits node ed25519Sign nowMs
  have hshort : payload.length < 65536 := by omega
  obtain ⟨b, hframe⟩ := signedFrame_localPacket ed25519Sign node.peerId
    bitchatMsgNoiseIdentityAnnounce nowMs ⟨payload, hshort⟩ hle
  refine ⟨b, ?_, ?_⟩
  · unfold sendIdentityAnnounceFrame
    rw [Bool.not_true, if_neg Bool.false_ne_true, hbuild]
    dsimp only
    rw [if_neg hnow, dif_pos hshort]
    unfold signedFrame at hframe
    split at hframe
    · cases hframe
    · next q hq =>
      rw [hq]
      exact hframe
  · intro b' hops
    -- whatever the hops, the packet arrives with its payload and sender
    obtain ⟨p, hdecode, harrived⟩ := arrived_of_hops rfl rfl hframe hops
    refine ⟨p, hdecode, harrived.type, ?_⟩
    intro connHandle
    have hpayload : p.payload.val = payload := congrArg Subtype.val harrived.payload
    obtain ⟨evt, henq, hconn⟩ : ∃ evt, enqueuePacketEvent .identity connHandle p = some evt ∧
        evt.connHandle = connHandle := by
      unfold enqueuePacketEvent noiseEventPayloadMax
      rw [dif_neg (by rw [hpayload]; omega)]
      exact ⟨_, rfl, rfl⟩
    refine ⟨evt, henq, ?_⟩
    intro env w i w₁ halloc
    -- on the worker: the payload parses, and the clock is told before anything is recorded
    obtain ⟨-, -, hpeer, hevt, -, -⟩ := enqueuePacketEvent_inv henq
    have hnode : evt.peerId = node.peerId := hpeer.trans harrived.senderId
    have hparse := parseIdentityPayload_build node hbuild
    unfold processIdentityEvent
    rw [hconn, halloc, hevt, hpayload]
    dsimp only
    rw [hparse]
    dsimp only
    have hbind := sameBinding_trySendIdentity env (recordIdentity
      (w₁.call (.considerPeer nowMs)) i evt
      { valid := true, peerId := node.peerId, timestampMs := nowMs }) i
    have hrecord := identity_recordIdentity (w₁.call (.considerPeer nowMs)) i evt
      { valid := true, peerId := node.peerId, timestampMs := nowMs }
    rw [hnode] at hrecord
    obtain ⟨more, hmore, -⟩ := ((still_recordIdentity (w₁.call (.considerPeer nowMs)) i evt
      { valid := true, peerId := node.peerId, timestampMs := nowMs }).trans
      (still_trySendIdentity env _ i)).sends
    refine ⟨⟨more, ?_⟩, ?_, ?_⟩
    · rw [hmore, ← log_alloc halloc]
      exact List.append_assoc ..
    · rw [hbind.identities]
      exact hrecord.1
    · rw [hbind.link]
      exact hrecord.2

/-- It is replayed, and a node that was just booted gets it. -/
theorem identityAnnounce_introduces_replayed :
    ∃ b p evt i w₁, sendIdentityAnnounceFrame headSign plainNode true 1700000000000 = some b ∧
      bitchatPacketDecode noTinfl (replayFrame b) = some p ∧
      p.type = bitchatMsgNoiseIdentityAnnounce ∧
      enqueuePacketEvent .identity 1 p = some evt ∧
      ({} : NoiseWorker Nat Unit).alloc 1 = some (i, w₁) ∧
      (∃ more, (processIdentityEvent dialingEnv ({} : NoiseWorker Nat Unit) evt).log =
        .considerPeer 1700000000000 :: more) ∧
      (processIdentityEvent dialingEnv ({} : NoiseWorker Nat Unit) evt).table.identities i =
        { valid := true, peerId := plainNode.peerId, timestampMs := 1700000000000 } ∧
      (processIdentityEvent dialingEnv ({} : NoiseWorker Nat Unit) evt).link i =
        (w₁.link i).bound plainNode.peerId := by
  obtain ⟨b, hb, harrives⟩ := identityAnnounce_introduces (H := Nat) (K := Unit)
    headSign plainNode noTinfl 1700000000000 (by decide)
  obtain ⟨p, hp, htype, hevents⟩ := harrives _ (.single (.replay b))
  obtain ⟨evt, hevt, hworker⟩ := hevents 1
  obtain ⟨⟨i, w₁⟩, halloc⟩ :
      ∃ x, ({} : NoiseWorker Nat Unit).alloc 1 = some x := ⟨_, rfl⟩
  have hunverified : (w₁.table.identities i).verified = false := by
    cases halloc
    rfl
  obtain ⟨hlog, hidentity, hlink⟩ := hworker dialingEnv {} i w₁ halloc
  rw [hunverified, if_neg Bool.false_ne_true] at hidentity
  exact ⟨b, p, evt, i, w₁, hb, hp, htype, hevt, halloc, hlog, hidentity, hlink⟩

end Bitle
