import Bitle.Codec.Decode

/-!
# Bitle — well-formed frames

`WireFrame` is the frame format in its own terms: the sections of a frame with the lengths the
version and the flags give them. `decodeOff_bytes` runs the decoder over the bytes of such a
frame; `exists_wireFrame` takes an accepted byte string apart. `bitchatPacketEncode` is
`bitchat_packet_encode`.

The decoder is followed with a cursor: `data.drop off` is what lies ahead, and each section
takes its bytes off the front of it.
-/

namespace Bitle

open Wire

/-! ## What lies ahead of the cursor -/

section Cursor

variable {data : List UInt8} {off n : Nat} {field post : List UInt8}

/-- Behind a section. -/
theorem drop_next (h : data.drop off = field ++ post) :
    data.drop (off + field.length) = post := by
  rw [← List.drop_drop, h, List.drop_left]

theorem le_of_drop (h : data.drop off = field ++ post) (hf : field ≠ []) :
    off + field.length ≤ data.length := by
  have hlen := congrArg List.length h
  have hpos := List.length_pos_iff.mpr hf
  rw [List.length_drop, List.length_append] at hlen
  omega

theorem byteAt_of_drop {b : UInt8} (h : data.drop off = b :: post) : byteAt data off = b := by
  have hget := congrArg (fun l : List UInt8 => l[0]?) h
  rw [byteAt, List.getD_eq_getElem?_getD]
  simpa using congrArg (fun o : Option UInt8 => o.getD 0) hget

theorem drop_eq_byteAt_cons (h : off < data.length) :
    data.drop off = byteAt data off :: data.drop (off + 1) := by
  rw [List.drop_eq_getElem_cons h, byteAt, List.getD_eq_getElem?_getD,
    List.getElem?_eq_getElem h, Option.getD_some]

theorem drop_eq_take_append (data : List UInt8) (off n : Nat) :
    data.drop off = (data.drop off).take n ++ data.drop (off + n) := by
  rw [← List.drop_drop, List.take_append_drop]

theorem copyAt_of_drop (h : data.drop off = field ++ post) (hn : field.length = n) :
    copyAt n data off = copyAt n field 0 := by
  apply Subtype.ext
  show (data.drop off).takeD n 0 = (field.drop 0).takeD n 0
  rw [h, List.drop_zero, List.takeD_eq_take _ (by simp; omega),
    List.takeD_eq_take _ (Nat.le_of_eq hn.symm), List.take_left' hn,
    List.take_of_length_le (Nat.le_of_eq hn)]

/-- An optional field; one that is absent reads as zeros. -/
theorem takeField_of_drop {present : Bool} (hn : 0 < n) (h : data.drop off = field ++ post)
    (hf : field.length = fieldLen n present) :
    takeField n present data off = some (copyAt n field 0, off + field.length) := by
  cases present with
  | true =>
    have hlen : field.length = n := hf
    have hne : field ≠ [] := List.length_pos_iff.mp (by omega)
    have hle := le_of_drop h hne
    rw [takeField, if_pos rfl, if_neg (by omega), copyAt_of_drop h hlen, hlen]
  | false =>
    have hnil : field = [] := List.length_eq_zero_iff.mp hf
    have hzero : copyAt n [] 0 = zeros n := by
      apply Subtype.ext
      show ([].drop 0).takeD n (0 : UInt8) = List.replicate n 0
      rw [List.drop_nil, List.takeD_nil]
    rw [takeField, if_neg (by decide), hnil, hzero]
    rfl

end Cursor

/-! ## Frames -/

/-- The width of the payload length field. -/
def lenWidth (version : UInt8) : Nat := if version = 1 then 2 else 4

/-- A route is there in version 2 frames with flag 0x08. -/
def hasRoute (version flags : UInt8) : Prop := version = 2 ∧ flags &&& 0x08 ≠ 0

/-- A frame, by its sections. -/
structure WireFrame where
  version : UInt8
  type : UInt8
  ttl : UInt8
  timestamp : Bytes 8
  flags : UInt8
  senderId : Bytes 8
  recipientId : List UInt8
  route : List UInt8
  payload : Payload
  signature : List UInt8
  version_ok : version = 1 ∨ version = 2
  length_recipientId : recipientId.length = fieldLen 8 (flags &&& 0x01 != 0)
  route_some : hasRoute version flags →
    ∃ count ids, route = count :: ids ∧ ids.length = count.toNat * 8
  route_none : ¬ hasRoute version flags → route = []
  length_signature : signature.length = fieldLen 64 (flags &&& 0x02 != 0)

namespace WireFrame

/-- The fields up to the payload length. -/
def head (f : WireFrame) : List UInt8 :=
  f.version :: f.type :: f.ttl :: (f.timestamp.val ++
    (f.flags :: beBytes (lenWidth f.version) f.payload.val.length))

/-- The frame on the wire. -/
def bytes (f : WireFrame) : List UInt8 :=
  f.head ++ (f.senderId.val ++ (f.recipientId ++ (f.route ++ (f.payload.val ++ f.signature))))

/-- What the payload says it inflates to. -/
def declaredLen (f : WireFrame) : UInt16 := (beNat (f.payload.val.take 2)).toUInt16

/-- A compressed version 1 payload has more than two bytes and declares a size that the inflater
reproduces. -/
def Inflates (tinfl : Tinfl) (f : WireFrame) : Prop :=
  f.version = 1 → f.flags &&& 0x04 ≠ 0 → 2 < f.payload.val.length ∧ 0 < f.declaredLen ∧
    (inflatePayload tinfl (f.payload.val.drop 2) f.declaredLen).isSome

/-- The packet a frame carries, with its payload as inflated. -/
def packet (f : WireFrame) (payload : Payload) (isCompressed : Bool) : BitchatPacket where
  version := f.version
  type := f.type
  ttl := f.ttl
  timestampMs := (beNat f.timestamp.val).toUInt64
  senderId := f.senderId
  recipientId := copyAt 8 f.recipientId 0
  hasRecipient := f.flags &&& 0x01 != 0
  isCompressed := isCompressed
  isRsr := f.flags &&& 0x10 != 0
  opaqueOnly := f.version == 2
  payload := payload
  signature := copyAt 64 f.signature 0
  hasSignature := f.flags &&& 0x02 != 0

end WireFrame

/-- Nothing, or `k` bytes that are all `k`. -/
def Padding (pad : List UInt8) : Prop :=
  pad = [] ∨ ∃ k, 1 ≤ k ∧ k ≤ 255 ∧ pad = List.replicate k (UInt8.ofNat k)

/-! ## The decoder on a frame -/

section Decode

variable {data : List UInt8} {off : Nat} {post : List UInt8}

theorem skipRoute_of_drop (f : WireFrame) (h : data.drop off = f.route ++ post) :
    skipRoute data f.version f.flags off = some (off + f.route.length) := by
  unfold skipRoute
  by_cases hr : hasRoute f.version f.flags
  · have hcond : f.version = 2 ∧ f.flags &&& 0x08 ≠ 0 := hr
    obtain ⟨count, ids, hroute, hids⟩ := f.route_some hr
    rw [hroute] at h ⊢
    have hle := le_of_drop h (List.cons_ne_nil _ _)
    have hb : byteAt data off = count := byteAt_of_drop h
    rw [List.length_cons] at hle ⊢
    rw [if_pos hcond, if_neg (by omega), hb, if_neg (by omega), hids]
    congr 1
    omega
  · have hcond : ¬ (f.version = 2 ∧ f.flags &&& 0x08 ≠ 0) := hr
    rw [f.route_none hr, if_neg hcond]
    rfl

theorem takePayload_of_drop {payload : Payload} (hoff : off ≤ data.length)
    (h : data.drop off = payload.val ++ post) :
    takePayload data payload.val.length off = some (payload, off + payload.val.length) := by
  have hlen := congrArg List.length h
  rw [List.length_drop, List.length_append] at hlen
  rw [takePayload, dif_pos ⟨by omega, payload.property⟩]
  congr 2
  apply Subtype.ext
  show (data.drop off).take payload.val.length = payload.val
  rw [h, List.take_left]

theorem paddingOk_iff (data : List UInt8) (off : Nat) :
    paddingOk data off = true ↔ Padding (data.drop off) := by
  unfold paddingOk Padding
  by_cases hlt : off < data.length
  · have hlen : (data.drop off).length = data.length - off := List.length_drop
    have hne : data.drop off ≠ [] := List.length_pos_iff.mp (by omega)
    rw [if_pos hlt]
    simp only [Bool.and_eq_true, bne_iff_ne, beq_iff_eq, List.all_eq_true]
    constructor
    · rintro ⟨⟨hz, hk⟩, hall⟩
      right
      have hpos := UInt8.toNat_lt (byteAt data (data.length - 1))
      refine ⟨data.length - off, by omega, by omega, ?_⟩
      rw [← hk, UInt8.ofNat_toNat]
      exact List.eq_replicate_iff.mpr ⟨by omega, hall⟩
    · rintro (hnil | ⟨k, h1, h255, hrep⟩)
      · exact absurd hnil hne
      -- the last byte of the buffer is one of the padding's
      have hk : data.length - off = k := by rw [← hlen, hrep, List.length_replicate]
      have hlast : byteAt data (data.length - 1) = UInt8.ofNat k := by
        have hdrop : data.drop (data.length - 1) = [UInt8.ofNat k] := by
          rw [show data.length - 1 = off + (k - 1) by omega, ← List.drop_drop, hrep,
            List.drop_replicate, show k - (k - 1) = 1 by omega]
          rfl
        exact byteAt_of_drop hdrop
      have htoNat : (UInt8.ofNat k).toNat = k := by
        rw [UInt8.toNat_ofNat']
        omega
      rw [hlast, hrep]
      refine ⟨⟨?_, by rw [htoNat, hk]⟩, fun b hb => List.eq_of_mem_replicate hb⟩
      intro hz
      rw [hz] at htoNat
      have : (0 : UInt8).toNat = 0 := rfl
      omega
  · have hnil : data.drop off = [] := List.drop_eq_nil_of_le (by omega)
    rw [if_neg hlt, hnil]
    exact ⟨fun _ => .inl rfl, fun _ => rfl⟩

/-- The header as the decoder reads it. -/
def WireFrame.header (f : WireFrame) : WireHeader where
  version := f.version
  type := f.type
  ttl := f.ttl
  timestampMs := (beNat f.timestamp.val).toUInt64
  flags := f.flags
  payloadLen := f.payload.val.length
  offset := headerEnd f.version

theorem WireFrame.length_head (f : WireFrame) : f.head.length = headerEnd f.version := by
  have hts := f.timestamp.property
  simp only [WireFrame.head, List.length_cons, List.length_append, length_beBytes, hts, lenWidth,
    headerEnd]
  split <;> rfl

theorem WireFrame.length_bytes (f : WireFrame) :
    f.bytes.length = headerEnd f.version + 8 + fieldLen 8 (f.flags &&& 0x01 != 0) +
      f.route.length + f.payload.val.length + fieldLen 64 (f.flags &&& 0x02 != 0) := by
  simp only [WireFrame.bytes, List.length_append, f.length_head, f.senderId.property,
    f.length_recipientId, f.length_signature]
  omega

-- the cursor after the first three bytes, after the timestamp, after the flags
theorem WireFrame.drop_timestamp (f : WireFrame) (post : List UInt8) :
    (f.head ++ post).drop 3 = f.timestamp.val ++
      (f.flags :: (beBytes (lenWidth f.version) f.payload.val.length ++ post)) := by
  simp [WireFrame.head]

theorem WireFrame.drop_flags (f : WireFrame) (post : List UInt8) :
    (f.head ++ post).drop 11 =
      f.flags :: (beBytes (lenWidth f.version) f.payload.val.length ++ post) := by
  have h := drop_next (f.drop_timestamp post)
  rwa [f.timestamp.property] at h

theorem WireFrame.drop_length (f : WireFrame) (post : List UInt8) :
    (f.head ++ post).drop 12 = beBytes (lenWidth f.version) f.payload.val.length ++ post := by
  rw [show 12 = 11 + 1 from rfl, ← List.drop_drop, f.drop_flags]
  rfl

theorem WireFrame.beNat_length (f : WireFrame) (post : List UInt8) :
    beNat (((f.head ++ post).drop 12).take (lenWidth f.version)) = f.payload.val.length := by
  have hpl := f.payload.property
  rw [f.drop_length, List.take_left' (length_beBytes _ _), beNat_beBytes]
  unfold lenWidth
  split <;> omega

theorem decodeHeader_head (f : WireFrame) (post : List UInt8) :
    decodeHeader (f.head ++ post) = some f.header := by
  have hpl := f.payload.property
  have hversion : byteAt (f.head ++ post) 0 = f.version := rfl
  have hfield : lengthField (f.head ++ post) = f.payload.val.length := f.beNat_length post
  apply decodeHeader_eq_some_iff.mpr
  rw [hversion, hfield]
  refine ⟨f.version_ok, ?_, by omega, ?_⟩
  · rw [List.length_append, f.length_head]
    omega
  · unfold headerAt WireFrame.header
    rw [hversion, hfield, byteAt_of_drop (f.drop_flags post), f.drop_timestamp,
      List.take_left' f.timestamp.property]
    rfl

/-- **The decoder over a frame**: it returns the frame's packet and stops where the padding
starts, whatever valid padding follows. -/
theorem decodeOff_bytes (tinfl : Tinfl) (f : WireFrame) {pad : List UInt8} (hpad : Padding pad)
    {payload : Payload} {isCompressed : Bool}
    (hexpand : expandPayload tinfl (f.flags &&& 0x04 != 0) (f.version == 2) f.payload =
      some (payload, isCompressed)) :
    bitchatPacketDecodeOff tinfl (f.bytes ++ pad) =
      some (f.packet payload isCompressed, f.bytes.length) := by
  have hdata : (f.bytes ++ pad).drop 0 = f.head ++ (f.senderId.val ++ (f.recipientId ++
      (f.route ++ (f.payload.val ++ (f.signature ++ pad))))) := by
    simp [WireFrame.bytes]
  -- one section after the other
  have hsender := drop_next hdata
  rw [Nat.zero_add] at hsender
  have hrecipient := drop_next hsender
  have hroute := drop_next hrecipient
  have hpayload := drop_next hroute
  have hsignature := drop_next hpayload
  have hend := drop_next hsignature
  have hlen : f.head.length + f.senderId.val.length + f.recipientId.length + f.route.length +
      f.payload.val.length + f.signature.length = f.bytes.length := by
    simp only [WireFrame.bytes, List.length_append]
    omega
  refine decodeOff_eq_some_iff.mpr ⟨⟨f.header, _, _, _, _, f.payload, ?_, ?_,
    takeField_of_drop (by decide) hrecipient f.length_recipientId, skipRoute_of_drop f hroute,
    takePayload_of_drop ?_ hpayload, hexpand, ?_, ?_, rfl, rfl, rfl, rfl, rfl, rfl, rfl, rfl⟩⟩
  · show decodeHeader (f.bytes ++ pad) = some f.header
    rw [← List.drop_zero (l := f.bytes ++ pad), hdata]
    exact decodeHeader_head f _
  · show takeField 8 true (f.bytes ++ pad) (headerEnd f.version) = _
    have hfield : f.senderId.val.length = fieldLen 8 true := f.senderId.property
    rw [← f.length_head, takeField_of_drop (by decide) hsender hfield, copyAt_self]
    rfl
  · rw [List.length_append]
    omega
  · rw [← hlen]
    exact takeField_of_drop (by decide) hsignature f.length_signature
  · rw [paddingOk_iff, List.drop_left]
    exact hpad

end Decode

/-! ## Accepted byte strings -/

section Accepted

variable {tinfl : Tinfl} {data : List UInt8} {p : BitchatPacket} {off : Nat}

theorem head_bytes (hlen : headerEnd (byteAt data 0) ≤ data.length) :
    data = byteAt data 0 :: byteAt data 1 :: byteAt data 2 :: ((copyAt 8 data 3).val ++
      (byteAt data 11 :: (beBytes (lenWidth (byteAt data 0)) (lengthField data) ++
        data.drop (headerEnd (byteAt data 0))))) := by
  have h14 : 14 ≤ headerEnd (byteAt data 0) := by unfold headerEnd; split <;> omega
  have hend : 12 + lenWidth (byteAt data 0) = headerEnd (byteAt data 0) := by
    unfold lenWidth headerEnd
    split <;> rfl
  have hfield : beBytes (lenWidth (byteAt data 0)) (lengthField data) =
      (data.drop 12).take (lenWidth (byteAt data 0)) := by
    have hwidth : ((data.drop 12).take (lenWidth (byteAt data 0))).length =
        lenWidth (byteAt data 0) := by
      rw [List.length_take, List.length_drop]
      omega
    have := beBytes_beNat ((data.drop 12).take (lenWidth (byteAt data 0)))
    rwa [hwidth] at this
  rw [hfield, copyAt_val (by omega), ← hend, ← drop_eq_take_append,
    ← drop_eq_byteAt_cons (by omega), ← drop_eq_take_append, ← drop_eq_byteAt_cons (by omega),
    ← drop_eq_byteAt_cons (by omega), ← drop_eq_byteAt_cons (by omega), List.drop_zero]

/-- The frame an accepted byte string holds. -/
def Sections.frame (s : Sections tinfl data p off) : WireFrame where
  version := byteAt data 0
  type := byteAt data 1
  ttl := byteAt data 2
  timestamp := copyAt 8 data 3
  flags := byteAt data 11
  senderId := p.senderId
  recipientId := (data.drop s.senderOff).take (fieldLen 8 (byteAt data 11 &&& 0x01 != 0))
  route := (data.drop s.recipientOff).take
    (routeLen data (byteAt data 0) (byteAt data 11) s.recipientOff)
  payload := s.raw
  signature := (data.drop s.payloadEnd).take (fieldLen 64 (byteAt data 11 &&& 0x02 != 0))
  version_ok := (decodeHeader_eq_some_iff.mp s.header).1
  length_recipientId := by
    have hoff := s.offsets
    have hr := (takeField_inv s.recipient).1
    rw [(decodeHeader_eq_some_iff.mp s.header).2.2.2] at hr
    rw [List.length_take, List.length_drop]
    have : s.recipientOff = s.senderOff + fieldLen 8 (byteAt data 11 &&& 0x01 != 0) := hr
    omega
  route_some := by
    intro hr
    have hoff := s.offsets
    have hro := (skipRoute_inv s.route).1
    rw [(decodeHeader_eq_some_iff.mp s.header).2.2.2] at hro
    have hlen : routeLen data (byteAt data 0) (byteAt data 11) s.recipientOff =
        1 + (byteAt data s.recipientOff).toNat * 8 := if_pos hr
    have hnext : s.payloadOff = s.recipientOff +
        routeLen data (byteAt data 0) (byteAt data 11) s.recipientOff := hro
    refine ⟨byteAt data s.recipientOff, (data.drop (s.recipientOff + 1)).take
      ((byteAt data s.recipientOff).toNat * 8), ?_, ?_⟩
    · rw [hlen, drop_eq_byteAt_cons (by omega), Nat.add_comm 1, List.take_succ_cons]
    · rw [List.length_take, List.length_drop]
      omega
  route_none := by
    intro hr
    rw [show routeLen data (byteAt data 0) (byteAt data 11) s.recipientOff = 0 from if_neg hr,
      List.take_zero]
  length_signature := by
    have hoff := s.offsets
    have hsig := (takeField_inv s.signature).1
    rw [(decodeHeader_eq_some_iff.mp s.header).2.2.2] at hsig
    rw [List.length_take, List.length_drop]
    have : off = s.payloadEnd + fieldLen 64 (byteAt data 11 &&& 0x02 != 0) := hsig
    omega

theorem Sections.bytes_frame (s : Sections tinfl data p off) :
    data = s.frame.bytes ++ data.drop off := by
  obtain ⟨-, hend, -, hh⟩ := decodeHeader_eq_some_iff.mp s.header
  obtain ⟨hs, -⟩ := takeField_inv s.sender
  obtain ⟨hr, -⟩ := takeField_inv s.recipient
  obtain ⟨hro, -⟩ := skipRoute_inv s.route
  obtain ⟨hp, -⟩ := takePayload_inv s.payload
  obtain ⟨hsig, -⟩ := takeField_inv s.signature
  have hoff := s.offsets
  have hsender := s.sender
  have hpayload := s.payload
  rw [hh] at hs hr hro hp hsig hoff hsender hpayload
  simp only [headerAt] at hs hr hro hp hsig hoff hsender hpayload
  have hsid : p.senderId.val = (data.drop (headerEnd (byteAt data 0))).take 8 := by
    unfold takeSender takeField at hsender
    rw [if_pos rfl] at hsender
    split at hsender
    · simp at hsender
    · next hle =>
      simp only [Option.some.injEq, Prod.mk.injEq] at hsender
      rw [← hsender.1, copyAt_val (by omega)]
  have hraw : s.raw.val = (data.drop s.payloadOff).take (lengthField data) := by
    unfold takePayload at hpayload
    split at hpayload
    · simp only [Option.some.injEq, Prod.mk.injEq] at hpayload
      rw [← hpayload.1]
    · simp at hpayload
  have hrawLen : s.raw.val.length = lengthField data := by
    rw [hraw, List.length_take, List.length_drop]
    omega
  have hsender8 : s.senderOff = headerEnd (byteAt data 0) + 8 := hs
  -- from the back, each section joins what lies behind it
  simp only [WireFrame.bytes, WireFrame.head, Sections.frame, List.cons_append, List.append_assoc]
  have join : ∀ {i n j}, j = i + n → (data.drop i).take n ++ data.drop j = data.drop i :=
    fun hj => hj ▸ (drop_eq_take_append data _ _).symm
  rw [hrawLen, hsid, hraw, join hsig, join hp, join hro, join hr, join hsender8]
  exact head_bytes hend

/-- An accepted byte string is a frame and its padding; the decoder stops between the two. -/
theorem exists_wireFrame (hd : bitchatPacketDecodeOff tinfl data = some (p, off)) :
    ∃ f : WireFrame, data = f.bytes ++ data.drop off ∧ off = f.bytes.length ∧
      Padding (data.drop off) ∧
      expandPayload tinfl (f.flags &&& 0x04 != 0) (f.version == 2) f.payload =
        some (p.payload, p.isCompressed) ∧
      p = f.packet p.payload p.isCompressed := by
  obtain ⟨s⟩ := decodeOff_eq_some_iff.mp hd
  have hpad := (paddingOk_iff data off).mp s.padding
  have hexpand := s.expand
  rw [(decodeHeader_eq_some_iff.mp s.header).2.2.2] at hexpand
  have hagain := decodeOff_bytes tinfl s.frame hpad hexpand
  rw [← s.bytes_frame, hd, Option.some.injEq, Prod.mk.injEq] at hagain
  exact ⟨s.frame, s.bytes_frame, hagain.2, hpad, hexpand, hagain.1⟩

end Accepted

/-! ## The encoder -/

/-- The flags `bitchat_packet_encode` writes. -/
def BitchatPacket.flags (p : BitchatPacket) : UInt8 :=
  (if p.hasRecipient then 0x01 else 0) ||| (if p.hasSignature then 0x02 else 0) |||
    (if p.isRsr then 0x10 else 0)

/-- `bitchat_packet_encode` into a buffer of `maxLen` bytes. -/
def bitchatPacketEncode (p : BitchatPacket) (maxLen : Nat) : Option (List UInt8) :=
  if p.version ≠ 1 then none
  else
    let headerLen := 1 + 1 + 1 + 8 + 1 + 2 + 8 + (if p.hasRecipient then 8 else 0)
    let totalLen := headerLen + p.payload.val.length + (if p.hasSignature then 64 else 0)
    if totalLen > maxLen then none
    else
      some ([p.version, p.type, p.ttl] ++ beBytes 8 p.timestampMs.toNat ++ [p.flags] ++
        beBytes 2 p.payload.val.length ++ p.senderId.val ++
        (if p.hasRecipient then p.recipientId.val else []) ++ p.payload.val ++
        (if p.hasSignature then p.signature.val else []))

namespace BitchatPacket

variable (p : BitchatPacket)

theorem flags_and : (p.flags &&& 0x01 != 0) = p.hasRecipient ∧
    (p.flags &&& 0x02 != 0) = p.hasSignature ∧ p.flags &&& 0x04 = 0 ∧
    (p.flags &&& 0x10 != 0) = p.isRsr := by
  unfold flags
  generalize p.hasRecipient = r, p.hasSignature = s, p.isRsr = q
  revert r s q
  decide

/-- The frame a version 1 packet is encoded to. -/
def frame : WireFrame where
  version := 1
  type := p.type
  ttl := p.ttl
  timestamp := ⟨beBytes 8 p.timestampMs.toNat, length_beBytes _ _⟩
  flags := p.flags
  senderId := p.senderId
  recipientId := if p.hasRecipient then p.recipientId.val else []
  route := []
  payload := p.payload
  signature := if p.hasSignature then p.signature.val else []
  version_ok := .inl rfl
  length_recipientId := by
    rw [p.flags_and.1]
    cases p.hasRecipient with
    | true => exact p.recipientId.property
    | false => rfl
  route_some := fun h => absurd h.1 (by decide)
  route_none := fun _ => rfl
  length_signature := by
    rw [p.flags_and.2.1]
    cases p.hasSignature with
    | true => exact p.signature.property
    | false => rfl

/-- An absent field is zero, as the decoder leaves it. -/
def AbsentZero : Prop :=
  (p.hasRecipient = false → p.recipientId = zeros 8) ∧
    (p.hasSignature = false → p.signature = zeros 64)

end BitchatPacket

theorem bitchatPacketEncode_eq_some_iff {p : BitchatPacket} {maxLen : Nat} {b : List UInt8} :
    bitchatPacketEncode p maxLen = some b ↔
      p.version = 1 ∧ b.length ≤ maxLen ∧ b = p.frame.bytes := by
  have hbytes : p.version = 1 → [p.version, p.type, p.ttl] ++ beBytes 8 p.timestampMs.toNat ++
      [p.flags] ++ beBytes 2 p.payload.val.length ++ p.senderId.val ++
      (if p.hasRecipient then p.recipientId.val else []) ++ p.payload.val ++
      (if p.hasSignature then p.signature.val else []) = p.frame.bytes := by
    intro hv
    simp [WireFrame.bytes, WireFrame.head, BitchatPacket.frame, lenWidth, hv]
  -- the length the encoder checks is that of the frame
  have hlen : p.frame.bytes.length = 1 + 1 + 1 + 8 + 1 + 2 + 8 +
      (if p.hasRecipient then 8 else 0) + p.payload.val.length +
      (if p.hasSignature then 64 else 0) := by
    rw [WireFrame.length_bytes]
    show _ + fieldLen 8 (p.flags &&& 0x01 != 0) + 0 + p.payload.val.length +
      fieldLen 64 (p.flags &&& 0x02 != 0) = _
    rw [p.flags_and.1, p.flags_and.2.1]
    rfl
  unfold bitchatPacketEncode
  by_cases hv : p.version = 1
  · rw [if_neg (not_not.mpr hv), hbytes hv]
    simp only [hv, true_and, ← hlen]
    split
    · next hgt =>
      constructor
      · intro h
        cases h
      · rintro ⟨hle, rfl⟩
        omega
    · next hle =>
      rw [Option.some.injEq]
      exact ⟨fun h => ⟨by rw [← h]; omega, h.symm⟩, fun h => h.2.symm⟩
  · rw [if_pos hv]
    constructor
    · intro h
      cases h
    · intro h
      exact absurd h.1 hv

theorem expandPayload_compressed (tinfl : Tinfl) (payload : Payload) :
    expandPayload tinfl true false payload =
      if 2 < payload.val.length ∧ 0 < (beNat (payload.val.take 2)).toUInt16 then
        (inflatePayload tinfl (payload.val.drop 2)
          (beNat (payload.val.take 2)).toUInt16).map (·, false)
      else none := by
  unfold expandPayload
  dsimp only
  rw [if_pos (by decide)]
  by_cases hlen : payload.val.length > 2
  · rw [if_pos hlen]
    by_cases hpos : (beNat (payload.val.take 2)).toUInt16 > 0
    · rw [if_pos hpos, if_pos ⟨hlen, hpos⟩]
      cases inflatePayload tinfl (payload.val.drop 2) (beNat (payload.val.take 2)).toUInt16 <;> rfl
    · rw [if_neg hpos, if_neg fun h => hpos h.2]
  · rw [if_neg hlen, if_neg fun h => hlen h.1]

theorem WireFrame.inflates_iff (tinfl : Tinfl) (f : WireFrame) :
    f.Inflates tinfl ↔ ∃ payload isCompressed,
      expandPayload tinfl (f.flags &&& 0x04 != 0) (f.version == 2) f.payload =
        some (payload, isCompressed) := by
  unfold WireFrame.Inflates
  by_cases hon : f.version = 1 ∧ f.flags &&& 0x04 ≠ 0
  · obtain ⟨hv, hc⟩ := hon
    have hflag : (f.flags &&& 0x04 != 0) = true := bne_iff_ne.mpr hc
    have hplain : (f.version == 2) = false := by
      rw [hv]
      rfl
    rw [hflag, hplain, expandPayload_compressed]
    show _ ↔ ∃ payload isCompressed,
      (if 2 < f.payload.val.length ∧ 0 < f.declaredLen then
        (inflatePayload tinfl (f.payload.val.drop 2) f.declaredLen).map (·, false)
      else none) = some (payload, isCompressed)
    constructor
    · intro h
      obtain ⟨hlen, hpos, hsome⟩ := h hv hc
      obtain ⟨out, hout⟩ := Option.isSome_iff_exists.mp hsome
      exact ⟨out, false, by rw [if_pos ⟨hlen, hpos⟩, hout]; rfl⟩
    · rintro ⟨out, c, hout⟩ - -
      split at hout
      · next hcond =>
        refine ⟨hcond.1, hcond.2, ?_⟩
        obtain ⟨inflated, hinf, -⟩ := Option.map_eq_some_iff.mp hout
        rw [hinf]
        rfl
      · cases hout
  · -- not compressed, or a version 2 frame, which is never inflated
    have hoff : (f.flags &&& 0x04 != 0 && !(f.version == 2)) = false := by
      rcases f.version_ok with hv | hv
      · have hc : f.flags &&& 0x04 = 0 := by
          by_contra hne
          exact hon ⟨hv, hne⟩
        rw [hc]
        rfl
      · rw [hv]
        exact Bool.and_false _
    constructor
    · intro _
      refine ⟨f.payload, f.flags &&& 0x04 != 0, ?_⟩
      unfold expandPayload
      rw [hoff]
      rfl
    · intro _ hv hc
      exact absurd ⟨hv, hc⟩ hon

/-- Decoding an encoded packet, padded or not, gives it back. -/
theorem decode_encode (tinfl : Tinfl) {p : BitchatPacket} {maxLen : Nat} {b pad : List UInt8}
    (henc : bitchatPacketEncode p maxLen = some b) (hcomp : p.isCompressed = false)
    (hplain : p.opaqueOnly = false) (hzero : p.AbsentZero) (hpad : Padding pad) :
    bitchatPacketDecodeOff tinfl (b ++ pad) = some (p, b.length) := by
  obtain ⟨hv, -, rfl⟩ := bitchatPacketEncode_eq_some_iff.mp henc
  have hexpand : expandPayload tinfl (p.frame.flags &&& 0x04 != 0) (p.frame.version == 2)
      p.frame.payload = some (p.payload, false) := by
    have hflag : (p.frame.flags &&& 0x04 != 0) = false := by
      rw [show p.frame.flags = p.flags from rfl, p.flags_and.2.2.1]
      rfl
    rw [hflag]
    rfl
  rw [decodeOff_bytes tinfl p.frame hpad hexpand]
  -- a field that is left out decodes to zeros, which it is in the packet
  have hrecipient : copyAt 8 p.frame.recipientId 0 = p.recipientId := by
    show copyAt 8 (if p.hasRecipient then p.recipientId.val else []) 0 = p.recipientId
    cases hr : p.hasRecipient with
    | true => exact copyAt_self _
    | false => exact (hzero.1 hr).symm
  have hsignature : copyAt 64 p.frame.signature 0 = p.signature := by
    show copyAt 64 (if p.hasSignature then p.signature.val else []) 0 = p.signature
    cases hs : p.hasSignature with
    | true => exact copyAt_self _
    | false => exact (hzero.2 hs).symm
  have htime : (beNat (beBytes 8 p.timestampMs.toNat)).toUInt64 = p.timestampMs := by
    rw [beNat_beBytes (by have := p.timestampMs.toNat_lt; omega)]
    exact UInt64.ofNat_toNat
  have hrsr : (p.frame.flags &&& 0x10 != 0) = p.isRsr := p.flags_and.2.2.2
  have hhasRecipient : (p.frame.flags &&& 0x01 != 0) = p.hasRecipient := p.flags_and.1
  have hhasSignature : (p.frame.flags &&& 0x02 != 0) = p.hasSignature := p.flags_and.2.1
  have hversion : p.frame.version = p.version := hv.symm
  have htimestamp : (beNat p.frame.timestamp.val).toUInt64 = p.timestampMs := htime
  have hv2 : (p.version == 2) = p.opaqueOnly := by
    rw [hv, hplain]
    rfl
  unfold WireFrame.packet
  rw [hrecipient, hsignature, hrsr, hhasRecipient, hhasSignature, hversion, htimestamp, hv2,
    ← hcomp]
  rfl

/-- **The decoder accepts the frames**: a well-formed frame and its padding and nothing else; and
what `bitchat_packet_encode` wrote, padded or not, is read back. -/
theorem decode_accepts_exactly_frames (tinfl : Tinfl) :
    (∀ b : List UInt8, (bitchatPacketDecode tinfl b).isSome ↔
      ∃ (f : WireFrame) (pad : List UInt8),
        f.Inflates tinfl ∧ Padding pad ∧ b = f.bytes ++ pad) ∧
    (∀ (p : BitchatPacket) (maxLen : Nat) (b pad : List UInt8),
      bitchatPacketEncode p maxLen = some b → p.isCompressed = false → p.opaqueOnly = false →
      p.AbsentZero → Padding pad → bitchatPacketDecode tinfl (b ++ pad) = some p) := by
  constructor
  · intro b
    unfold bitchatPacketDecode
    rw [Option.isSome_map]
    constructor
    · intro hsome
      obtain ⟨⟨p, off⟩, hd⟩ := Option.isSome_iff_exists.mp hsome
      obtain ⟨f, hb, -, hpad, hexpand, -⟩ := exists_wireFrame hd
      exact ⟨f, b.drop off, (f.inflates_iff tinfl).mpr ⟨_, _, hexpand⟩, hpad, hb⟩
    · rintro ⟨f, pad, hinf, hpad, rfl⟩
      obtain ⟨payload, isCompressed, hexpand⟩ := (f.inflates_iff tinfl).mp hinf
      rw [decodeOff_bytes tinfl f hpad hexpand]
      rfl
  · intro p maxLen b pad henc hcomp hplain hzero hpad
    unfold bitchatPacketDecode
    rw [decode_encode tinfl henc hcomp hplain hzero hpad]
    rfl

/-- A two-byte message without recipient or signature. -/
def shortMessage : BitchatPacket where
  version := 1
  type := bitchatMsgMessage
  ttl := 7
  timestampMs := 1700000000000
  senderId := ⟨[1, 2, 3, 4, 5, 6, 7, 8], rfl⟩
  recipientId := zeros 8
  hasRecipient := false
  isCompressed := false
  isRsr := false
  opaqueOnly := false
  payload := ⟨[104, 105], by decide⟩
  signature := zeros 64
  hasSignature := false

theorem decode_accepts_exactly_frames_short :
    bitchatPacketDecode (fun _ _ _ => (false, [], 0))
      ([1, 2, 7, 0, 0, 1, 139, 207, 229, 104, 0, 0, 0, 2, 1, 2, 3, 4, 5, 6, 7, 8, 104, 105] ++
        [3, 3, 3]) = some shortMessage :=
  (decode_accepts_exactly_frames _).2 shortMessage 520 _ [3, 3, 3] (by decide) rfl rfl
    ⟨fun _ => rfl, fun _ => rfl⟩ (.inr ⟨3, by decide, by decide, rfl⟩)

/-! ## Encoding what was decoded -/

/-- The flags a decoded packet is encoded with: the recipient, the signature and the replay. -/
theorem flags_masked : ∀ flags : UInt8,
    (if flags &&& 0x01 != 0 then (0x01 : UInt8) else 0) |||
      (if flags &&& 0x02 != 0 then 0x02 else 0) ||| (if flags &&& 0x10 != 0 then 0x10 else 0) =
    flags &&& 0x13 := by
  intro ⟨b⟩
  revert b
  decide +kernel

/-- A field that is there or not, as the decoder keeps it and the encoder writes it. -/
theorem field_copyAt {n : Nat} {field : List UInt8} {present : Bool}
    (h : field.length = fieldLen n present) :
    (if present then (copyAt n field 0).val else []) = field := by
  unfold fieldLen at h
  cases present with
  | true => exact congrArg Subtype.val (copyAt_self (⟨field, h⟩ : Bytes n))
  | false => exact (List.eq_nil_of_length_eq_zero h).symm

/-- The packet of a version 1 frame is encoded to the frame, with the flags masked. -/
theorem WireFrame.frame_packet (f : WireFrame) (hv : f.version = 1) :
    (f.packet f.payload false).frame.bytes = f.bytes.set 11 (f.flags &&& 0x13) := by
  have hts := f.timestamp.property
  have htime : beBytes 8 (beNat f.timestamp.val).toUInt64.toNat = f.timestamp.val := by
    have hlt := beNat_lt f.timestamp.val
    rw [hts] at hlt
    have hnat : (beNat f.timestamp.val).toUInt64.toNat = beNat f.timestamp.val :=
      Nat.mod_eq_of_lt hlt
    rw [hnat]
    have hback := beBytes_beNat f.timestamp.val
    rw [hts] at hback
    exact hback
  have hflags : (f.packet f.payload false).flags = f.flags &&& 0x13 := flags_masked f.flags
  have hroute : f.route = [] := f.route_none fun h => by
    rw [hv] at h
    exact absurd h.1 (by decide)
  have hbytes : (f.packet f.payload false).frame.bytes =
      1 :: f.type :: f.ttl :: (beBytes 8 (beNat f.timestamp.val).toUInt64.toNat ++
        ((f.packet f.payload false).flags :: beBytes 2 f.payload.val.length)) ++
      (f.senderId.val ++
        ((if f.flags &&& 0x01 != 0 then (copyAt 8 f.recipientId 0).val else []) ++
          ([] ++ (f.payload.val ++
            (if f.flags &&& 0x02 != 0 then (copyAt 64 f.signature 0).val else []))))) := rfl
  rw [hbytes, htime, hflags, field_copyAt f.length_recipientId, field_copyAt f.length_signature]
  unfold bytes head
  rw [hv, hroute]
  simp only [List.cons_append, List.append_assoc, List.set_cons_succ]
  rw [List.set_append_right _ _ (by omega), hts]
  rfl

/-- What is known of the packet of a version 1 frame. -/
theorem decoded_plain {tinfl : Tinfl} {b : List UInt8} {p : BitchatPacket} {off : Nat}
    (hd : bitchatPacketDecodeOff tinfl b = some (p, off)) (hv : byteAt b 0 = 1) :
    p.version = 1 ∧ p.isCompressed = false ∧ p.opaqueOnly = false ∧ p.AbsentZero := by
  obtain ⟨f, hb, -, -, hexpand, hp⟩ := exists_wireFrame hd
  have hversion : f.version = 1 := by
    rw [hb] at hv
    exact hv
  have hplain : (f.version == 2) = false := by
    rw [hversion]
    rfl
  -- an inflated payload is handed on without the flag
  have hcomp : p.isCompressed = false := by
    rw [hplain] at hexpand
    cases hc : (f.flags &&& 0x04 != 0) with
    | false =>
      rw [hc] at hexpand
      exact (Prod.mk.inj (Option.some.inj hexpand)).2.symm
    | true =>
      rw [hc, expandPayload_compressed] at hexpand
      split at hexpand
      · obtain ⟨inflated, -, heq⟩ := Option.map_eq_some_iff.mp hexpand
        exact (Prod.mk.inj heq).2.symm
      · cases hexpand
  refine ⟨by rw [hp]; exact hversion, hcomp, by rw [hp]; exact hplain, ?_⟩
  rw [hp]
  refine ⟨fun hr => ?_, fun hs => ?_⟩
  · have hlen := f.length_recipientId
    rw [show (f.flags &&& 0x01 != 0) = false from hr] at hlen
    show copyAt 8 f.recipientId 0 = zeros 8
    rw [List.eq_nil_of_length_eq_zero hlen]
    rfl
  · have hlen := f.length_signature
    rw [show (f.flags &&& 0x02 != 0) = false from hs] at hlen
    show copyAt 64 f.signature 0 = zeros 64
    rw [List.eq_nil_of_length_eq_zero hlen]
    rfl

/-- **Encode is the inverse of decode on its image.** A version 1 frame without compression is
encoded back to its bytes before the padding, with the flags masked to those the encoder knows. A
compressed one is not, but what it is encoded to decodes to the same packet. -/
theorem encode_decoded (tinfl : Tinfl) :
    (∀ b p off maxLen, bitchatPacketDecodeOff tinfl b = some (p, off) → byteAt b 0 = 1 →
      byteAt b 11 &&& 0x04 = 0 → off ≤ maxLen →
      bitchatPacketEncode p maxLen = some ((b.take off).set 11 (byteAt b 11 &&& 0x13))) ∧
    ∀ b p, bitchatPacketDecode tinfl b = some p → byteAt b 0 = 1 →
      (∃ room, ∀ maxLen, room ≤ maxLen → (bitchatPacketEncode p maxLen).isSome) ∧
      ∀ maxLen b', bitchatPacketEncode p maxLen = some b' →
        bitchatPacketDecode tinfl b' = some p := by
  constructor
  · intro b p off maxLen hd hv hc hroom
    obtain ⟨hpv, -, -, -⟩ := decoded_plain hd hv
    obtain ⟨f, hb, hoff, -, hexpand, hp⟩ := exists_wireFrame hd
    have hversion : f.version = 1 := by
      rw [hb] at hv
      exact hv
    have hflags : byteAt b 11 = f.flags := by
      rw [hb, WireFrame.bytes, List.append_assoc]
      exact byteAt_of_drop (f.drop_flags _)
    rw [hflags] at hc
    -- a frame without the compression flag carries its payload as it is
    have hexpand' : expandPayload tinfl (f.flags &&& 0x04 != 0) (f.version == 2) f.payload =
        some (f.payload, false) := by
      rw [hc]
      rfl
    rw [hexpand', Option.some.injEq, Prod.mk.injEq] at hexpand
    rw [← hexpand.1, ← hexpand.2] at hp
    have htake : b.take off = f.bytes := by
      rw [hb, hoff, List.take_left]
    rw [htake, hflags, ← f.frame_packet hversion, ← hp]
    apply bitchatPacketEncode_eq_some_iff.mpr
    refine ⟨hpv, ?_, rfl⟩
    rw [hp, f.frame_packet hversion, List.length_set, ← hoff]
    exact hroom
  · intro b p hd hv
    obtain ⟨⟨q, off⟩, hoff, hq⟩ := Option.map_eq_some_iff.mp hd
    obtain rfl : q = p := hq
    obtain ⟨hpv, hcomp, hplain, hzero⟩ := decoded_plain hoff hv
    constructor
    · refine ⟨q.frame.bytes.length, fun maxLen hroom => ?_⟩
      rw [bitchatPacketEncode_eq_some_iff.mpr ⟨hpv, hroom, rfl⟩]
      rfl
    · intro maxLen b' henc
      -- a decoded packet of version 1 is what the encoder takes
      have hagain := decode_encode tinfl henc hcomp hplain hzero (.inl rfl)
      rw [List.append_nil] at hagain
      rw [bitchatPacketDecode, hagain]
      rfl

/-- The short message again, with an unknown flag and a padding of one byte. -/
theorem encode_decoded_unknown_flag :
    bitchatPacketEncode shortMessage 520 = some (([1, 2, 7, 0, 0, 1, 139, 207, 229, 104, 0, 0x40, 0,
      2, 1, 2, 3, 4, 5, 6, 7, 8, 104, 105, 1].take 24).set 11 (0x40 &&& 0x13)) :=
  (encode_decoded fun _ _ _ => (false, [], 0)).1 _ _ 24 520 (by decide +kernel) (by decide)
    (by decide) (by decide)

end Bitle
