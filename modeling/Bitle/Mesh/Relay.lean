import Bitle.Codec.Frame

/-!
# Bitle — relaying and the duplicate check (`main/bitle_mesh.c`, `main/packet_codec.c`)

A node knows a packet again by `bitchat_relay_fingerprint`, a hash over the frame with the two
things a relay may change blanked out: the TTL byte and the replay flag 0x10. Where the frame
ends it finds with a length parser of its own, `relay_wire_len`.

`relayWireLen_bytes` is the agreement of that parser with the decoder, over the sections of a
`WireFrame`; `relay_fingerprint_exact` is what the duplicate check rests on. SHA-256 is a
parameter.
-/

namespace Bitle

open Wire

/-! ## The second length parser -/

/-- The sections behind the sender ID as `relay_wire_len` adds them up; zero is a failed parse. -/
def relaySectionsLen (data : List UInt8) (version flags : UInt8) (headerLen payloadLen : Nat) :
    Nat :=
  let wireLen := headerLen + (if flags &&& 0x01 ≠ 0 then 8 else 0)
  let route :=
    if version = 2 ∧ flags &&& 0x08 ≠ 0 then
      if wireLen ≥ data.length then none
      else
        let routeLen := 1 + (byteAt data wireLen).toNat * 8
        if routeLen > data.length - wireLen then none else some (wireLen + routeLen)
    else some wireLen
  match route with
  | none => 0
  | some wireLen =>
    if wireLen > data.length then 0
    else
      let trailerLen := if flags &&& 0x02 ≠ 0 then 64 else 0
      if payloadLen > data.length - wireLen ∨
          trailerLen > data.length - wireLen - payloadLen then 0
      else wireLen + (payloadLen + trailerLen)

/-- `relay_wire_len`. -/
def relayWireLen (data : List UInt8) : Nat :=
  if data.length < 22 then 0
  else
    let version := byteAt data 0
    let flags := byteAt data 11
    if version = 1 then
      relaySectionsLen data version flags 22 (beNat ((data.drop 12).take 2))
    else if version = 2 ∧ data.length ≥ 24 then
      relaySectionsLen data version flags 24 (beNat ((data.drop 12).take 4))
    else 0

/-! ## The fingerprint -/

/-- The bytes `bitchat_relay_fingerprint` feeds to the hash. -/
def relayHashInput (data : List UInt8) : Option (List UInt8) :=
  let canonicalLen := relayWireLen data
  if canonicalLen < 12 then none
  else
    some (data.take 2 ++ [0] ++ (data.drop 3).take 8 ++ [byteAt data 11 &&& ~~~0x10] ++
      (data.drop 12).take (canonicalLen - 12))

/-- `bitchat_relay_fingerprint`. -/
def bitchatRelayFingerprint (sha256 : List UInt8 → Bytes 32) (data : List UInt8) :
    Option (Bytes 16) :=
  (relayHashInput data).map fun input => copyAt 16 (sha256 input).val 0

/-- `relay_fingerprint` of the mesh: the first eight bytes, or 0 when there is no parse. -/
def relayFingerprint (sha256 : List UInt8 → Bytes 32) (data : List UInt8) : UInt64 :=
  match bitchatRelayFingerprint sha256 data with
  | none => 0
  | some digest => (beNat (digest.val.take 8)).toUInt64

/-! ## What relays do to a frame -/

/-- `is_local_recipient`. -/
def isLocalRecipient (localId : Bytes 8) (packet : BitchatPacket) : Bool :=
  packet.hasRecipient && packet.recipientId == localId

/-- `relay_packet`: the bytes it broadcasts, if it does. -/
def relayPacket (localId : Bytes 8) (buffer : List UInt8) (packet : BitchatPacket) :
    Option (List UInt8) :=
  if packet.ttl ≤ 1 then none
  else if packet.senderId = localId then none
  else if packet.type = bitchatMsgRequestSync then none
  else if isLocalRecipient localId packet then none
  else if !packet.hasRecipient ∧ packet.type = bitchatMsgNoiseHandshake then none
  else some (buffer.set 2 (packet.ttl - 1))

/-- The copy `bitle_sync_handle_request` replays: TTL 0, flag RSR. -/
def replayFrame (frame : List UInt8) : List UInt8 :=
  let frame := frame.set 2 0
  frame.set 11 (byteAt frame 11 ||| 0x10)

/-! ## The two parsers agree -/

/-- Both parsers step over the route alike. -/
theorem relayRoute_eq_skipRoute (data : List UInt8) (version flags : UInt8) (wireLen : Nat) :
    (if version = 2 ∧ flags &&& 0x08 ≠ 0 then
      if wireLen ≥ data.length then none
      else
        if 1 + (byteAt data wireLen).toNat * 8 > data.length - wireLen then none
        else some (wireLen + (1 + (byteAt data wireLen).toNat * 8))
    else some wireLen) = skipRoute data version flags wireLen := by
  unfold skipRoute
  by_cases hr : version = 2 ∧ flags &&& 0x08 ≠ 0
  · rw [if_pos hr, if_pos hr]
    by_cases hlen : wireLen ≥ data.length
    · have hlen' : wireLen + 1 > data.length := by omega
      rw [if_pos hlen, if_pos hlen']
    · have hlen' : ¬ wireLen + 1 > data.length := by omega
      rw [if_neg hlen, if_neg hlen']
      by_cases hroute : 1 + (byteAt data wireLen).toNat * 8 > data.length - wireLen
      · rw [if_pos hroute, if_pos (by omega)]
      · rw [if_neg hroute, if_neg (by omega), Nat.add_assoc]
  · rw [if_neg hr, if_neg hr]

theorem fieldLen_eq_ite (n : Nat) (flags bit : UInt8) :
    (if flags &&& bit ≠ 0 then n else 0) = fieldLen n (flags &&& bit != 0) := by
  unfold fieldLen
  by_cases h : flags &&& bit = 0
  · rw [if_neg (not_not.mpr h), h]
    rfl
  · rw [if_pos h, if_pos (bne_iff_ne.mpr h)]

theorem relaySectionsLen_bytes (f : WireFrame) (post : List UInt8) :
    relaySectionsLen (f.bytes ++ post) f.version f.flags (headerEnd f.version + 8)
      f.payload.val.length = f.bytes.length := by
  have hlen : (f.bytes ++ post).length = f.bytes.length + post.length := List.length_append
  have hbytes := f.length_bytes
  have hroute : (f.bytes ++ post).drop
      (headerEnd f.version + 8 + fieldLen 8 (f.flags &&& 0x01 != 0)) =
        f.route ++ (f.payload.val ++ (f.signature ++ post)) := by
    have hdata : (f.bytes ++ post).drop 0 = (f.head ++ f.senderId.val ++ f.recipientId) ++
        (f.route ++ (f.payload.val ++ (f.signature ++ post))) := by
      simp [WireFrame.bytes]
    have h := drop_next hdata
    rwa [List.length_append, List.length_append, f.length_head, f.senderId.property,
      f.length_recipientId, Nat.zero_add] at h
  unfold relaySectionsLen
  dsimp only
  rw [relayRoute_eq_skipRoute, fieldLen_eq_ite, fieldLen_eq_ite, skipRoute_of_drop f hroute]
  dsimp only
  rw [if_neg (by omega), if_neg (by omega)]
  omega

/-- **`relay_wire_len` ends where the decoder's padding starts**, whatever follows the frame. -/
theorem relayWireLen_bytes (f : WireFrame) (post : List UInt8) :
    relayWireLen (f.bytes ++ post) = f.bytes.length := by
  have hlen : (f.bytes ++ post).length = f.bytes.length + post.length := List.length_append
  have hbytes := f.length_bytes
  have hdata : f.bytes ++ post = f.head ++ (f.senderId.val ++ (f.recipientId ++ (f.route ++
      (f.payload.val ++ f.signature))) ++ post) := by
    simp [WireFrame.bytes]
  have hversion : byteAt (f.bytes ++ post) 0 = f.version := rfl
  have hflags : byteAt (f.bytes ++ post) 11 = f.flags := by
    rw [hdata]
    exact byteAt_of_drop (f.drop_flags _)
  have hfield : beNat (((f.bytes ++ post).drop 12).take (lenWidth f.version)) =
      f.payload.val.length := by
    rw [hdata]
    exact f.beNat_length _
  have hsections := relaySectionsLen_bytes f post
  unfold relayWireLen
  dsimp only
  rw [hversion, hflags]
  rcases f.version_ok with hv | hv
  · rw [hv, show headerEnd 1 = 14 from rfl] at hbytes hsections
    rw [hv, show lenWidth 1 = 2 from rfl] at hfield
    rw [hv, if_neg (by omega), if_pos rfl, hfield]
    exact hsections
  · rw [hv, show headerEnd 2 = 16 from rfl] at hbytes hsections
    rw [hv, show lenWidth 2 = 4 from rfl] at hfield
    rw [hv, if_neg (by omega), if_neg (by decide), if_pos ⟨rfl, by omega⟩, hfield]
    exact hsections

/-! ## What is hashed -/

/-- The frame with the bytes a relay may change blanked out. -/
def WireFrame.blanked (f : WireFrame) : List UInt8 :=
  f.version :: f.type :: 0 :: (f.timestamp.val ++ ((f.flags &&& ~~~0x10) ::
    (beBytes (lenWidth f.version) f.payload.val.length ++ (f.senderId.val ++ (f.recipientId ++
      (f.route ++ (f.payload.val ++ f.signature)))))))

theorem relayHashInput_bytes (f : WireFrame) (post : List UInt8) :
    relayHashInput (f.bytes ++ post) = some f.blanked := by
  have hbytes := f.length_bytes
  have hend : 14 ≤ headerEnd f.version := by unfold headerEnd; split <;> omega
  have hdata : f.bytes ++ post = f.head ++ (f.senderId.val ++ (f.recipientId ++ (f.route ++
      (f.payload.val ++ f.signature))) ++ post) := by
    simp [WireFrame.bytes]
  have hflags : byteAt (f.bytes ++ post) 11 = f.flags := by
    rw [hdata]
    exact byteAt_of_drop (f.drop_flags _)
  have htime : ((f.bytes ++ post).drop 3).take 8 = f.timestamp.val := by
    rw [hdata, f.drop_timestamp, List.take_left' f.timestamp.property]
  have hrest : ((f.bytes ++ post).drop 12).take (f.bytes.length - 12) =
      beBytes (lenWidth f.version) f.payload.val.length ++ (f.senderId.val ++ (f.recipientId ++
        (f.route ++ (f.payload.val ++ f.signature)))) := by
    rw [List.drop_append_of_le_length (by omega), List.take_left' List.length_drop]
    exact f.drop_length _
  unfold relayHashInput
  dsimp only
  rw [relayWireLen_bytes, if_neg (by omega), hflags, htime, hrest]
  simp [WireFrame.blanked, WireFrame.bytes, WireFrame.head]

/-- The first `n` bytes of two frames agree, but for the TTL and flag 0x10. -/
def SameButRelayed (n : Nat) (b b' : List UInt8) : Prop :=
  ∀ i, i < n → i ≠ 2 →
    if i = 11 then byteAt b 11 &&& ~~~0x10 = byteAt b' 11 &&& ~~~0x10
    else byteAt b i = byteAt b' i

theorem WireFrame.le_length_bytes (f : WireFrame) : 22 ≤ f.bytes.length := by
  have h := f.length_bytes
  have hend : 14 ≤ headerEnd f.version := by unfold headerEnd; split <;> omega
  omega

theorem WireFrame.byteAt_flags (f : WireFrame) : byteAt f.bytes 11 = f.flags :=
  byteAt_of_drop (f.drop_flags _)

/-- Blanking is two writes. -/
theorem WireFrame.blanked_eq_set (f : WireFrame) :
    f.blanked = (f.bytes.set 2 0).set 11 (byteAt f.bytes 11 &&& ~~~0x10) := by
  have hts := f.timestamp.property
  rw [f.byteAt_flags]
  unfold WireFrame.blanked WireFrame.bytes WireFrame.head
  simp only [List.cons_append, List.append_assoc, List.set_cons_succ, List.set_cons_zero]
  rw [List.set_append_right _ _ (by omega), hts]
  rfl

theorem blanked_eq_iff (f g : WireFrame) :
    f.blanked = g.blanked ↔
      f.bytes.length = g.bytes.length ∧ SameButRelayed f.bytes.length f.bytes g.bytes := by
  have hf := f.le_length_bytes
  have hg := g.le_length_bytes
  -- blanking changes two bytes, the TTL and the flags
  have hbyte : ∀ (k : WireFrame) (i : Nat), byteAt k.blanked i =
      if 11 = i then byteAt k.bytes 11 &&& ~~~0x10 else if 2 = i then 0 else byteAt k.bytes i := by
    intro k i
    have hk := k.le_length_bytes
    rw [k.blanked_eq_set, byteAt_set _ _ (by rw [List.length_set]; omega),
      byteAt_set _ _ (by omega)]
  have hlen : ∀ k : WireFrame, k.blanked.length = k.bytes.length := by
    intro k
    rw [k.blanked_eq_set, List.length_set, List.length_set]
  constructor
  · intro h
    refine ⟨by rw [← hlen f, ← hlen g, h], ?_⟩
    intro i _ hi2
    have hi := congrArg (fun l => byteAt l i) h
    simp only [hbyte] at hi
    by_cases h11 : i = 11
    · rw [if_pos h11.symm, if_pos h11.symm] at hi
      rwa [if_pos h11]
    · rw [if_neg (Ne.symm h11), if_neg (Ne.symm h11), if_neg (Ne.symm hi2),
        if_neg (Ne.symm hi2)] at hi
      rwa [if_neg h11]
  · rintro ⟨hl, hsame⟩
    refine eq_of_byteAt (by rw [hlen, hlen, hl]) ?_
    intro i hi
    rw [hlen] at hi
    rw [hbyte, hbyte]
    by_cases h11 : 11 = i
    · have := hsame 11 (by omega) (by decide)
      rw [if_pos rfl] at this
      rw [if_pos h11, if_pos h11, this]
    · by_cases h2 : 2 = i
      · rw [if_neg h11, if_neg h11, if_pos h2, if_pos h2]
      · have := hsame i hi (Ne.symm h2)
        rw [if_neg (Ne.symm h11)] at this
        rw [if_neg h11, if_neg h11, if_neg h2, if_neg h2, this]

/-! ## The rewrites, on frames -/

theorem or_and_of_and_eq_zero (flags bit : UInt8) (h : 0x10 &&& bit = 0) :
    (flags ||| 0x10) &&& bit = flags &&& bit := by
  have hdistrib : (flags ||| 0x10) &&& bit = (flags &&& bit) ||| (0x10 &&& bit) :=
    UInt8.toBitVec_inj.mp BitVec.and_or_distrib_right
  rw [hdistrib, h, UInt8.or_zero]

namespace WireFrame

/-- The frame with another TTL. -/
def setTtl (f : WireFrame) (ttl : UInt8) : WireFrame := { f with ttl := ttl }

/-- The frame with the replay flag set. -/
def setRsr (f : WireFrame) : WireFrame where
  version := f.version
  type := f.type
  ttl := f.ttl
  timestamp := f.timestamp
  flags := f.flags ||| 0x10
  senderId := f.senderId
  recipientId := f.recipientId
  route := f.route
  payload := f.payload
  signature := f.signature
  version_ok := f.version_ok
  length_recipientId := by
    rw [or_and_of_and_eq_zero _ _ (by decide)]
    exact f.length_recipientId
  route_some := by
    intro h
    rw [hasRoute, or_and_of_and_eq_zero _ _ (by decide)] at h
    exact f.route_some h
  route_none := by
    intro h
    rw [hasRoute, or_and_of_and_eq_zero _ _ (by decide)] at h
    exact f.route_none h
  length_signature := by
    rw [or_and_of_and_eq_zero _ _ (by decide)]
    exact f.length_signature

variable (f : WireFrame)

theorem bytes_setTtl (ttl : UInt8) : (f.setTtl ttl).bytes = f.bytes.set 2 ttl := rfl

theorem bytes_setRsr : f.setRsr.bytes = f.bytes.set 11 (f.flags ||| 0x10) := by
  have hts := f.timestamp.property
  unfold bytes head
  simp only [List.cons_append, List.append_assoc, List.set_cons_succ]
  rw [List.set_append_right _ _ (by omega), hts]
  rfl

theorem blanked_setTtl (ttl : UInt8) : (f.setTtl ttl).blanked = f.blanked := rfl

theorem blanked_setRsr : f.setRsr.blanked = f.blanked := by
  unfold blanked
  rw [show f.setRsr.flags = f.flags ||| 0x10 from rfl, or_and_of_and_eq_zero _ _ (by decide)]
  rfl

theorem set_bytes_append (post : List UInt8) {i : Nat} (hi : i < 22) (v : UInt8) :
    (f.bytes ++ post).set i v = f.bytes.set i v ++ post := by
  have h := f.le_length_bytes
  rw [List.set_append_left _ _ (by omega)]

theorem replayFrame_bytes (post : List UInt8) :
    replayFrame (f.bytes ++ post) = (f.setTtl 0).setRsr.bytes ++ post := by
  have h : 11 < (f.setTtl 0).bytes.length :=
    Nat.lt_of_lt_of_le (by decide) (f.setTtl 0).le_length_bytes
  unfold replayFrame
  dsimp only
  rw [f.set_bytes_append _ (by decide), ← bytes_setTtl, byteAt_append _ _ h, byteAt_flags,
    set_bytes_append _ _ (by decide), ← bytes_setRsr]

end WireFrame

theorem relayPacket_eq_some {localId : Bytes 8} {b b' : List UInt8} {p : BitchatPacket}
    (h : relayPacket localId b p = some b') : 1 < p.ttl ∧ b' = b.set 2 (p.ttl - 1) := by
  unfold relayPacket at h
  repeat (split at h; · cases h)
  next httl _ _ _ _ =>
  cases h
  exact ⟨UInt8.not_le.mp httl, rfl⟩

/-- **The duplicate check sees exactly the frame.** The length parser of the fingerprint stops
where the decoder does; two accepted frames hash the same bytes just when they agree up to their
padding but for the TTL and the replay flag. So relaying, replaying and padding leave the
fingerprint alone, and the fallback 0 is never taken. -/
theorem relay_fingerprint_exact (tinfl : Tinfl) (sha256 : List UInt8 → Bytes 32) :
    (∀ b p off, bitchatPacketDecodeOff tinfl b = some (p, off) →
      relayWireLen b = off ∧ (bitchatRelayFingerprint sha256 b).isSome) ∧
    (∀ b p off b' p' off', bitchatPacketDecodeOff tinfl b = some (p, off) →
      bitchatPacketDecodeOff tinfl b' = some (p', off') →
      (relayHashInput b = relayHashInput b' ↔ off = off' ∧ SameButRelayed off b b')) ∧
    (∀ b p off, bitchatPacketDecodeOff tinfl b = some (p, off) →
      (∀ localId b', relayPacket localId b p = some b' →
        bitchatRelayFingerprint sha256 b' = bitchatRelayFingerprint sha256 b) ∧
      bitchatRelayFingerprint sha256 (replayFrame b) = bitchatRelayFingerprint sha256 b ∧
      (∀ pad, Padding pad →
        bitchatRelayFingerprint sha256 (b.take off ++ pad) = bitchatRelayFingerprint sha256 b) ∧
      ∃ digest, bitchatRelayFingerprint sha256 b = some digest ∧
        relayFingerprint sha256 b = (beNat (digest.val.take 8)).toUInt64) := by
  have hprint : ∀ (f : WireFrame) post, bitchatRelayFingerprint sha256 (f.bytes ++ post) =
      some (copyAt 16 (sha256 f.blanked).val 0) := by
    intro f post
    rw [bitchatRelayFingerprint, relayHashInput_bytes]
    rfl
  refine ⟨?_, ?_, ?_⟩
  · intro b p off hd
    obtain ⟨f, hb, hoff, -, -, -⟩ := exists_wireFrame hd
    rw [hb, relayWireLen_bytes, hprint]
    exact ⟨hoff.symm, rfl⟩
  · intro b p off b' p' off' hd hd'
    obtain ⟨f, hb, hoff, -, -, -⟩ := exists_wireFrame hd
    obtain ⟨g, hb', hoff', -, -, -⟩ := exists_wireFrame hd'
    have hhash : relayHashInput b = some f.blanked := by rw [hb, relayHashInput_bytes]
    have hhash' : relayHashInput b' = some g.blanked := by rw [hb', relayHashInput_bytes]
    rw [hhash, hhash', Option.some.injEq, blanked_eq_iff, ← hoff, ← hoff']
    apply and_congr_right
    intro hlen
    -- within the frames, the bytes of the buffers are the frames' own
    rw [SameButRelayed, SameButRelayed]
    refine forall_congr' fun i => forall_congr' fun hi => ?_
    have h22 := f.le_length_bytes
    have hbyte : ∀ j, j < off → byteAt b j = byteAt f.bytes j := by
      intro j hj
      rw [hb, byteAt_append _ _ (by omega)]
    have hbyte' : ∀ j, j < off → byteAt b' j = byteAt g.bytes j := by
      intro j hj
      rw [hb', byteAt_append _ _ (by omega)]
    rw [hbyte i hi, hbyte' i hi, hbyte 11 (by omega), hbyte' 11 (by omega)]
  · intro b p off hd
    obtain ⟨f, hb, hoff, -, -, -⟩ := exists_wireFrame hd
    rw [hb]
    refine ⟨?_, ?_, ?_, ?_⟩
    · intro localId b' hrelay
      rw [(relayPacket_eq_some hrelay).2, f.set_bytes_append _ (by decide), ← f.bytes_setTtl,
        hprint, hprint, f.blanked_setTtl]
    · rw [f.replayFrame_bytes, hprint, hprint, WireFrame.blanked_setRsr, f.blanked_setTtl]
    · intro pad _
      rw [hoff, List.take_left, hprint, hprint]
    · refine ⟨_, hprint f _, ?_⟩
      unfold relayFingerprint
      rw [hprint]

/-- The bytes of `shortMessage`, padded. -/
def shortFrame : List UInt8 :=
  [1, 2, 7, 0, 0, 1, 139, 207, 229, 104, 0, 0, 0, 2, 1, 2, 3, 4, 5, 6, 7, 8, 104, 105, 3, 3, 3]

theorem relay_fingerprint_exact_short :
    relayWireLen shortFrame = 24 ∧
      bitchatRelayFingerprint (fun _ => zeros 32) (shortFrame.set 2 6) =
        bitchatRelayFingerprint (fun _ => zeros 32) shortFrame :=
  have h := relay_fingerprint_exact (fun _ _ _ => (false, [], 0)) (fun _ => zeros 32)
  ⟨(h.1 shortFrame shortMessage 24 (by decide)).1,
    (h.2.2 shortFrame shortMessage 24 (by decide)).1 (zeros 8) (shortFrame.set 2 6) (by decide)⟩

end Bitle
