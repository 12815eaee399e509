import Bitle.Codec.Packet

/-!
# Bitle — what the packet decoder consumes

The decoder is a chain of sections, each of which takes a bounded run of bytes at an offset.
Three facts per section carry everything else:

* how far it advances (`takeField_inv`, `skipRoute_inv`, `takePayload_inv`);
* it stays inside the buffer (the same lemmas);
* it reads nothing behind the offset it returns (`takeField_take`, ...), so it gives the same
  answer on any prefix of the buffer that holds the section.

`decodeOff_inv` chains the first two, `decodeOff_take` the third: a frame cut at the offset
where its padding starts decodes to the same packet.
-/

namespace Bitle

open Wire

/-! ## The header -/

/-- In bounds a read succeeds and advances. -/
theorem readBe_of_le {n : Nat} {data : List UInt8} {r : Reader} (h : r.offset + n ≤ data.length) :
    readBe n data r =
      (beNat ((data.drop r.offset).take n), { r with offset := r.offset + n }) := by
  unfold readBe
  rw [if_neg (by omega)]

/-- A read that leaves `ok` set was in bounds, and `ok` was set before it. -/
theorem readBe_ok {n : Nat} {data : List UInt8} {r : Reader} (h : (readBe n data r).2.ok = true) :
    r.ok = true ∧ r.offset + n ≤ data.length ∧ (readBe n data r).2.offset = r.offset + n := by
  by_cases hle : r.offset + n ≤ data.length
  · rw [readBe_of_le hle] at h ⊢
    exact ⟨h, hle, rfl⟩
  · unfold readBe at h
    rw [if_pos (by omega)] at h
    simp at h

/-- A one-byte read in bounds. -/
theorem readU8_of_lt {data : List UInt8} {off : Nat} (h : off < data.length) :
    readU8 data ⟨off, true⟩ = (byteAt data off, ⟨off + 1, true⟩) := by
  unfold readU8
  rw [readBe_of_le (by simp only; omega)]
  have hone : (data.drop off).take 1 = [data[off]] := by
    rw [List.drop_eq_getElem_cons h, List.take_succ_cons, List.take_zero]
  have hbyte : byteAt data off = data[off] := by
    simp [byteAt, List.getD_eq_getElem?_getD, List.getElem?_eq_getElem h]
  simp [hone, hbyte, beNat]

/-- The size of the fields up to the sender ID. -/
def headerEnd (version : UInt8) : Nat := if version = 1 then 14 else 16

/-- The payload length field of a frame: two bytes in version 1, four in version 2. -/
def lengthField (data : List UInt8) : Nat :=
  beNat ((data.drop 12).take (if byteAt data 0 = 1 then 2 else 4))

/-- The header fields as they stand in the bytes. -/
def headerAt (data : List UInt8) : WireHeader :=
  { version := byteAt data 0, type := byteAt data 1, ttl := byteAt data 2
    timestampMs := (beNat ((data.drop 3).take 8)).toUInt64, flags := byteAt data 11
    payloadLen := lengthField data, offset := headerEnd (byteAt data 0) }

/-- With twelve bytes the fixed fields are read; version, length field and its value decide. -/
theorem decodeHeader_of_le {data : List UInt8} (h : 12 ≤ data.length) :
    decodeHeader data =
      if (byteAt data 0 = 1 ∨ byteAt data 0 = 2) ∧ headerEnd (byteAt data 0) ≤ data.length ∧
          lengthField data ≤ 65535 then
        some (headerAt data)
      else none := by
  have hts : readU64Be data ⟨3, true⟩ =
      ((beNat ((data.drop 3).take 8)).toUInt64, ⟨11, true⟩) := by
    unfold readU64Be
    rw [readBe_of_le (by simp only; omega)]
  unfold decodeHeader
  simp only [readU8_of_lt (show 0 < data.length by omega), Nat.zero_add,
    readU8_of_lt (show 1 < data.length by omega), Nat.reduceAdd,
    readU8_of_lt (show 2 < data.length by omega), hts,
    readU8_of_lt (show 11 < data.length by omega)]
  unfold readPayloadLen readU16Be readU32Be headerAt lengthField headerEnd
  by_cases h1 : byteAt data 0 = 1
  · simp only [h1, if_true, true_or, true_and]
    by_cases hlen : 14 ≤ data.length
    · rw [readBe_of_le (by simpa using hlen)]
      simp only [hlen, true_and, Bool.not_true, Bool.false_or, decide_eq_true_eq]
      split <;> split <;> first | rfl | omega
    · simp [readBe, show 12 + 2 > data.length by omega, hlen]
  · by_cases h2 : byteAt data 0 = 2
    · simp only [h2, if_true, or_true, true_and, show ¬ ((2 : UInt8) = 1) by decide, if_false]
      by_cases hlen : 16 ≤ data.length
      · rw [readBe_of_le (by simpa using hlen)]
        simp only [hlen, true_and, Bool.not_true, Bool.false_or, decide_eq_true_eq]
        split <;> split <;> first | rfl | omega
      · simp [readBe, show 12 + 4 > data.length by omega, hlen]
    · simp [h1, h2]

/-- Without twelve bytes some read of the fixed fields fails, and `ok` stays cleared. -/
theorem decodeHeader_of_lt {data : List UInt8} (h : data.length < 12) :
    decodeHeader data = none := by
  unfold decodeHeader
  dsimp only
  rw [if_pos]
  rw [Bool.or_eq_true, Bool.not_eq_true']
  left
  by_contra hok
  rw [Bool.not_eq_false] at hok
  -- walk back through the reads: each one was in bounds
  have hflags : (readU8 data (readU64Be data (readU8 data (readU8 data
      (readU8 data ⟨0, true⟩).2).2).2).2).2.ok = true := by
    unfold readPayloadLen at hok
    split at hok
    · exact (readBe_ok hok).1
    · split at hok
      · exact (readBe_ok hok).1
      · simp at hok
  obtain ⟨hts, hlt, -⟩ := readBe_ok hflags
  obtain ⟨httl, -, hts⟩ := readBe_ok hts
  obtain ⟨htype, -, httl⟩ := readBe_ok httl
  obtain ⟨hver, -, htype⟩ := readBe_ok htype
  obtain ⟨-, -, hver⟩ := readBe_ok hver
  simp only [readU8, readU64Be] at *
  omega

/-- **The header, read off the bytes.** -/
theorem decodeHeader_eq_some_iff {data : List UInt8} {h : WireHeader} :
    decodeHeader data = some h ↔
      (byteAt data 0 = 1 ∨ byteAt data 0 = 2) ∧ headerEnd (byteAt data 0) ≤ data.length ∧
        lengthField data ≤ 65535 ∧ h = headerAt data := by
  by_cases hlen : 12 ≤ data.length
  · rw [decodeHeader_of_le hlen]
    split
    · next hc =>
      rw [Option.some.injEq]
      exact ⟨fun h => ⟨hc.1, hc.2.1, hc.2.2, h.symm⟩, fun h => h.2.2.2.symm⟩
    · next hc => simp only [reduceCtorEq, false_iff]; tauto
  · rw [decodeHeader_of_lt (by omega)]
    simp only [reduceCtorEq, false_iff, not_and]
    intro _ hend
    exact absurd hend (by unfold headerEnd; split <;> omega)

/-- A prefix that holds the header has the same header. -/
theorem decodeHeader_take {data : List UInt8} {h : WireHeader} {k : Nat}
    (hd : decodeHeader data = some h) (hk : h.offset ≤ k) (hlen : k ≤ data.length) :
    decodeHeader (data.take k) = some h := by
  obtain ⟨hver, hend, hpl, rfl⟩ := decodeHeader_eq_some_iff.mp hd
  have hk' : headerEnd (byteAt data 0) ≤ k := hk
  have h14 : 14 ≤ headerEnd (byteAt data 0) := by unfold headerEnd; split <;> omega
  have hb : ∀ i, i < 14 → byteAt (data.take k) i = byteAt data i :=
    fun i hi => byteAt_take _ (by omega)
  have hfield : lengthField (data.take k) = lengthField data := by
    unfold lengthField
    rw [hb 0 (by omega), slice_take]
    unfold headerEnd at hk'
    split <;> simp_all
  refine decodeHeader_eq_some_iff.mpr ⟨?_, ?_, ?_, ?_⟩
  · rwa [hb 0 (by omega)]
  · rw [hb 0 (by omega), List.length_take]
    omega
  · rwa [hfield]
  · unfold headerAt
    rw [hfield, hb 0 (by omega), hb 1 (by omega), hb 2 (by omega), hb 11 (by omega),
      slice_take (by omega)]

/-! ## The sections behind the header -/

section Sections

variable {data : List UInt8} {flags : UInt8} {off off' k : Nat}

/-- The bytes a field takes when it is there. -/
def fieldLen (n : Nat) (present : Bool) : Nat := if present then n else 0

theorem takeField_inv {n : Nat} {present : Bool} {field : Bytes n}
    (h : takeField n present data off = some (field, off')) :
    off' = off + fieldLen n present ∧ (off ≤ data.length → off' ≤ data.length) := by
  unfold takeField at h
  unfold fieldLen
  cases present with
  | true =>
    simp only [if_true] at h ⊢
    split at h
    · simp at h
    · simp only [Option.some.injEq, Prod.mk.injEq] at h
      omega
  | false =>
    simp only [Bool.false_eq_true, if_false, Option.some.injEq, Prod.mk.injEq] at h ⊢
    omega

theorem takeField_take {n : Nat} {present : Bool} {field : Bytes n}
    (h : takeField n present data off = some (field, off')) (hk : off' ≤ k)
    (hlen : k ≤ data.length) : takeField n present (data.take k) off = some (field, off') := by
  obtain ⟨hoff, -⟩ := takeField_inv h
  unfold fieldLen at hoff
  unfold takeField at h ⊢
  cases present with
  | true =>
    simp only [if_true] at h hoff ⊢
    split at h
    · simp at h
    · rw [if_neg (by rw [List.length_take]; omega), copyAt_take (by omega) hlen]
      exact h
  | false => exact h

/-- The bytes a route takes: none in version 1. -/
def routeLen (data : List UInt8) (version flags : UInt8) (off : Nat) : Nat :=
  if version = 2 ∧ flags &&& 0x08 ≠ 0 then 1 + (byteAt data off).toNat * 8 else 0

theorem skipRoute_inv {version : UInt8} (h : skipRoute data version flags off = some off') :
    off' = off + routeLen data version flags off ∧ (off ≤ data.length → off' ≤ data.length) := by
  unfold skipRoute at h
  unfold routeLen
  split at h
  · next hf =>
    rw [if_pos hf]
    split at h
    · simp at h
    · split at h
      · simp at h
      · simp only [Option.some.injEq] at h
        omega
  · next hf =>
    rw [if_neg hf]
    simp only [Option.some.injEq] at h
    omega

theorem skipRoute_take {version : UInt8} (h : skipRoute data version flags off = some off')
    (hk : off' ≤ k) (hlen : k ≤ data.length) :
    skipRoute (data.take k) version flags off = some off' := by
  obtain ⟨hoff, -⟩ := skipRoute_inv h
  unfold skipRoute at h ⊢
  unfold routeLen at hoff
  by_cases hf : version = 2 ∧ flags &&& 0x08 ≠ 0
  · rw [if_pos hf] at h ⊢ hoff
    rw [byteAt_take _ (by omega), if_neg (by rw [List.length_take]; omega),
      if_neg (by rw [List.length_take]; omega), hoff, Nat.add_assoc]
  · rw [if_neg hf] at h ⊢
    exact h

theorem takePayload_inv {n : Nat} {payload : Payload}
    (h : takePayload data n off = some (payload, off')) :
    off' = off + n ∧ off' ≤ data.length := by
  unfold takePayload at h
  split at h
  · simp only [Option.some.injEq, Prod.mk.injEq] at h
    omega
  · simp at h

theorem takePayload_take {n : Nat} {payload : Payload}
    (h : takePayload data n off = some (payload, off')) (hk : off' ≤ k) (hlen : k ≤ data.length) :
    takePayload (data.take k) n off = some (payload, off') := by
  obtain ⟨hoff, -⟩ := takePayload_inv h
  unfold takePayload at h ⊢
  split at h
  · next hc =>
    rw [dif_pos ⟨by rw [List.length_take]; omega, hc.2⟩]
    rw [← h]
    congr 2
    apply Subtype.ext
    exact slice_take (by omega)
  · simp at h

end Sections

/-! ## The whole frame -/

/-- The sections of an accepted frame, in order. -/
structure Sections (tinfl : Tinfl) (data : List UInt8) (p : BitchatPacket) (off : Nat) where
  h : WireHeader
  senderOff : Nat
  recipientOff : Nat
  payloadOff : Nat
  payloadEnd : Nat
  raw : Payload
  header : decodeHeader data = some h
  sender : takeSender data h.offset = some (p.senderId, senderOff)
  recipient : takeRecipient data h.flags senderOff = some (p.recipientId, recipientOff)
  route : skipRoute data h.version h.flags recipientOff = some payloadOff
  payload : takePayload data h.payloadLen payloadOff = some (raw, payloadEnd)
  expand : expandPayload tinfl (h.flags &&& 0x04 != 0) (h.version == 2) raw =
    some (p.payload, p.isCompressed)
  signature : takeSignature data h.flags payloadEnd = some (p.signature, off)
  padding : paddingOk data off = true
  fields : p.version = h.version ∧ p.type = h.type ∧ p.ttl = h.ttl ∧
    p.timestampMs = h.timestampMs ∧ p.hasRecipient = (h.flags &&& 0x01 != 0) ∧
    p.isRsr = (h.flags &&& 0x10 != 0) ∧ p.opaqueOnly = (h.version == 2) ∧
    p.hasSignature = (h.flags &&& 0x02 != 0)

/-- **Inversion of the decoder**: an accepted frame is its sections. -/
theorem decodeOff_eq_some_iff {tinfl : Tinfl} {data : List UInt8} {p : BitchatPacket} {off : Nat} :
    bitchatPacketDecodeOff tinfl data = some (p, off) ↔ Nonempty (Sections tinfl data p off) := by
  unfold bitchatPacketDecodeOff
  constructor
  · intro hd
    simp only [Option.bind_eq_bind, Option.bind_eq_some_iff, Prod.exists] at hd
    obtain ⟨h, hh, sid, o1, hs, rid, o2, hr, o3, hro, raw, o4, hp, pl, c, he, sig, o5, hsig, hd⟩ := hd
    split at hd
    · next hpad =>
      simp only [Option.some.injEq, Prod.mk.injEq] at hd
      obtain ⟨rfl, rfl⟩ := hd
      exact ⟨⟨h, o1, o2, o3, o4, raw, hh, hs, hr, hro, hp, he, hsig, hpad,
        rfl, rfl, rfl, rfl, rfl, rfl, rfl, rfl⟩⟩
    · simp at hd
  · rintro ⟨s⟩
    obtain ⟨f1, f2, f3, f4, f5, f6, f7, f8⟩ := s.fields
    simp only [Option.bind_eq_bind, s.header, s.sender, s.recipient, s.route, s.payload, s.expand,
      s.signature, s.padding, Option.bind_some, if_true]
    rw [← f1, ← f2, ← f3, ← f4, ← f5, ← f6, ← f8, f1, ← f7, ← f1]

/-- The offsets between the sections only grow, up to the end of the buffer. -/
theorem Sections.offsets {tinfl : Tinfl} {data : List UInt8} {p : BitchatPacket} {off : Nat}
    (s : Sections tinfl data p off) :
    s.h.offset ≤ s.senderOff ∧ s.senderOff ≤ s.recipientOff ∧ s.recipientOff ≤ s.payloadOff ∧
      s.payloadOff ≤ s.payloadEnd ∧ s.payloadEnd ≤ off ∧ off ≤ data.length := by
  obtain ⟨hs, -⟩ := takeField_inv s.sender
  obtain ⟨hr, -⟩ := takeField_inv s.recipient
  obtain ⟨hro, -⟩ := skipRoute_inv s.route
  obtain ⟨hp, hle⟩ := takePayload_inv s.payload
  obtain ⟨hsig, hlen⟩ := takeField_inv s.signature
  have := hlen hle
  omega

/-- **The number of bytes an accepted frame takes before its padding.** -/
theorem Sections.consumed {tinfl : Tinfl} {data : List UInt8} {p : BitchatPacket} {off : Nat}
    (s : Sections tinfl data p off) :
    off = headerEnd (byteAt data 0) + 8 + fieldLen 8 (byteAt data 11 &&& 0x01 != 0) +
      routeLen data (byteAt data 0) (byteAt data 11) s.recipientOff + lengthField data +
      fieldLen 64 (byteAt data 11 &&& 0x02 != 0) := by
  obtain ⟨-, -, -, hh⟩ := decodeHeader_eq_some_iff.mp s.header
  obtain ⟨hs, -⟩ := takeField_inv s.sender
  obtain ⟨hr, -⟩ := takeField_inv s.recipient
  obtain ⟨hro, -⟩ := skipRoute_inv s.route
  obtain ⟨hp, -⟩ := takePayload_inv s.payload
  obtain ⟨hsig, -⟩ := takeField_inv s.signature
  rw [hh] at hs hr hro hp hsig
  simp only [headerAt] at hs hr hro hp hsig
  have hsender : fieldLen 8 true = 8 := rfl
  omega

/-- **A frame cut where its padding starts decodes to the same packet.** -/
theorem decodeOff_take {tinfl : Tinfl} {data : List UInt8} {p : BitchatPacket} {off : Nat}
    (hd : bitchatPacketDecodeOff tinfl data = some (p, off)) :
    bitchatPacketDecodeOff tinfl (data.take off) = some (p, off) := by
  obtain ⟨s⟩ := decodeOff_eq_some_iff.mp hd
  obtain ⟨h1, h2, h3, h4, h5, hlen⟩ := s.offsets
  refine decodeOff_eq_some_iff.mpr ⟨⟨s.h, s.senderOff, s.recipientOff, s.payloadOff, s.payloadEnd,
    s.raw, ?_, ?_, ?_, ?_, ?_, s.expand, ?_, ?_, s.fields⟩⟩
  · exact decodeHeader_take s.header (by omega) hlen
  · exact takeField_take s.sender (by omega) hlen
  · exact takeField_take s.recipient (by omega) hlen
  · exact skipRoute_take s.route (by omega) hlen
  · exact takePayload_take s.payload (by omega) hlen
  · exact takeField_take s.signature (by omega) hlen
  · unfold paddingOk
    rw [if_neg (by rw [List.length_take]; omega)]

end Bitle
