import Bitle.Mesh.Relay
import Bitle.Lora.Reassembly
import Bitle.Noise.Identity
import Mathlib.Logic.Relation

/-!
# Bitle — a signed packet on its way

Between the node that signs a packet and the one that verifies it, the frame is relayed, replayed
by the sync store, carried over the trunk in fragments, padded and stripped of its padding. `Hop`
is one such step on the bytes of the frame.

`build_canonical_packet` leaves out what these steps change, so the bytes that are verified are
the bytes that were signed. The Ed25519 functions are parameters.
-/

namespace Bitle

open Wire

/-- `sign_packet`: the signature over the canonical bytes, with the node's own key. -/
def signPacket (ed25519Sign : List UInt8 → Bytes 64) (packet : BitchatPacket) :
    Option BitchatPacket :=
  (buildCanonicalPacket packet bitchatBleMaxPacketSize).map fun canonical =>
    { packet with signature := ed25519Sign canonical, hasSignature := true }

/-- The trunk carries `b` as `b'`: `lora_link_send` queues a batch for `b`, and among whatever
else a receiver hears, a frame of that batch makes `rx_frame` pass on `b'`. -/
def CarriedByTrunk (b b' : List UInt8) : Prop :=
  ∃ airtime now t batch, (loraLinkSend airtime now t b).2.queue = t.queue ++ [batch] ∧
    ∃ srcTag h a, Network (h ++ [a]) ∧ a.batch = batch ∧
      (rxFrame a.now (rxAfter (Receiver.init srcTag) h) a.frame.data).2 = some b'

/-- What the network does to a frame. -/
inductive Hop (tinfl : Tinfl) : List UInt8 → List UInt8 → Prop
  | relay {b b' : List UInt8} {p : BitchatPacket} {localId : Bytes 8} :
      bitchatPacketDecode tinfl b = some p → relayPacket localId b p = some b' → Hop tinfl b b'
  | replay (b : List UInt8) : Hop tinfl b (replayFrame b)
  | trunk {b b' : List UInt8} : CarriedByTrunk b b' → Hop tinfl b b'
  | pad {b pad : List UInt8} {p : BitchatPacket} {off : Nat} :
      bitchatPacketDecodeOff tinfl b = some (p, off) → Padding pad → Hop tinfl b (b.take off ++ pad)

/-! ## The frame behind the bytes -/

namespace WireFrame

/-- The frame may have another TTL and the replay flag. -/
def Resent (g f : WireFrame) : Prop := ∃ ttl, f = g.setTtl ttl ∨ f = (g.setTtl ttl).setRsr

theorem setRsr_setRsr (f : WireFrame) : f.setRsr.setRsr = f.setRsr := by
  have hflags : f.flags ||| 0x10 ||| 0x10 = f.flags ||| 0x10 := by
    rw [UInt8.or_assoc]
    rfl
  unfold setRsr
  congr 1

theorem Resent.refl (g : WireFrame) : g.Resent g := ⟨g.ttl, .inl rfl⟩

theorem Resent.setTtl {g f : WireFrame} (h : g.Resent f) (ttl : UInt8) :
    g.Resent (f.setTtl ttl) := by
  obtain ⟨ttl', rfl | rfl⟩ := h
  · exact ⟨ttl, .inl rfl⟩
  · exact ⟨ttl, .inr rfl⟩

theorem Resent.setRsr {g f : WireFrame} (h : g.Resent f) : g.Resent f.setRsr := by
  obtain ⟨ttl, rfl | rfl⟩ := h
  · exact ⟨ttl, .inr rfl⟩
  · exact ⟨ttl, .inr (setRsr_setRsr _)⟩

/-- The fields a resent frame shares with the original. -/
theorem Resent.fields {g f : WireFrame} (h : g.Resent f) :
    f.version = g.version ∧ f.type = g.type ∧ f.timestamp = g.timestamp ∧
      f.senderId = g.senderId ∧ f.recipientId = g.recipientId ∧ f.payload = g.payload ∧
      f.signature = g.signature ∧ ∀ bit, 0x10 &&& bit = 0 → f.flags &&& bit = g.flags &&& bit := by
  obtain ⟨ttl, rfl | rfl⟩ := h
  · exact ⟨rfl, rfl, rfl, rfl, rfl, rfl, rfl, fun _ _ => rfl⟩
  · exact ⟨rfl, rfl, rfl, rfl, rfl, rfl, rfl, fun bit hbit => or_and_of_and_eq_zero _ bit hbit⟩

end WireFrame

/-- The bytes are the frame of `q`, resent and padded or not. -/
def Carries (q : BitchatPacket) (b : List UInt8) : Prop :=
  ∃ f pad, q.frame.Resent f ∧ Padding pad ∧ b = f.bytes ++ pad

/-- What such bytes decode to. -/
theorem Carries.decode (tinfl : Tinfl) {q : BitchatPacket} {f : WireFrame} {pad : List UInt8}
    (hf : q.frame.Resent f) (hpad : Padding pad) :
    bitchatPacketDecodeOff tinfl (f.bytes ++ pad) =
      some (f.packet q.payload false, f.bytes.length) := by
  obtain ⟨-, -, -, -, -, hpayload, -, hflags⟩ := hf.fields
  apply decodeOff_bytes tinfl f hpad
  have hcomp : (f.flags &&& 0x04 != 0) = false := by
    rw [hflags _ (by decide), show q.frame.flags = q.flags from rfl, q.flags_and.2.2.1]
    rfl
  rw [hcomp, hpayload]
  rfl

/-- What comes out of the trunk is the packet of the frame that completed it. -/
theorem packet_of_rxFrame {srcTag : Bytes 4} {h : List Arrival} {a : Arrival}
    (hnet : Network (h ++ [a])) {packet : List UInt8}
    (hout : (rxFrame a.now (rxAfter (Receiver.init srcTag) h) a.frame.data).2 = some packet) :
    packet = a.batch.data := by
  obtain ⟨-, hok⟩ := rxAfter_slotsOk srcTag hnet.front
  obtain ⟨hown, hother⟩ := rxFrame_arrival (rxAfter (Receiver.init srcTag) h) hnet.wf_last
  by_cases htag : a.tag = (rxAfter (Receiver.init srcTag) h).srcTag
  · rw [hown htag] at hout
    cases hout
  · obtain ⟨outbox, hframe⟩ := hother htag
    rw [hframe] at hout
    exact (rxData_ok hnet hok).2 packet hout

/-- **One hop** leaves the frame the same but for the TTL, the replay flag and the padding. -/
theorem Hop.carries {tinfl : Tinfl} {q : BitchatPacket} {b b' : List UInt8}
    (hop : Hop tinfl b b') (hb : Carries q b) : Carries q b' := by
  obtain ⟨f, pad, hf, hpad, rfl⟩ := hb
  have hdec := Carries.decode tinfl hf hpad
  cases hop with
  | relay hd hr =>
    rw [(relayPacket_eq_some hr).2, f.set_bytes_append _ (by decide), ← f.bytes_setTtl]
    exact ⟨_, pad, hf.setTtl _, hpad, rfl⟩
  | replay =>
    rw [f.replayFrame_bytes]
    exact ⟨_, pad, (hf.setTtl 0).setRsr, hpad, rfl⟩
  | pad hd hpad' =>
    rw [hdec, Option.some.injEq, Prod.mk.injEq] at hd
    rw [← hd.2, List.take_left]
    exact ⟨f, _, hf, hpad', rfl⟩
  | trunk h =>
    obtain ⟨airtime, now, t, batch, hqueue, srcTag, h, a, hnet, hbatch, hout⟩ := h
    obtain ⟨s⟩ := decodeOff_eq_some_iff.mp hdec
    have hv : byteAt (f.bytes ++ pad) 0 = 1 := hf.fields.1
    have htrim := trunkTrueLen_v1 s hv
    -- the batch is the frame without its padding
    have hdata : batch.data = f.bytes := by
      rcases loraLinkSend_queue airtime now t (f.bytes ++ pad) with hq | ⟨batch', hq, hb', -⟩
      · have hlen := congrArg List.length (hqueue.symm.trans hq)
        simp at hlen
      · have heq := List.append_cancel_left (hqueue.symm.trans hq)
        rw [List.singleton_inj.mp heq, hb', htrim, List.take_left]
    have hpacket := packet_of_rxFrame hnet hout
    rw [hpacket, hbatch, hdata]
    exact ⟨f, [], hf, .inl rfl, by rw [List.append_nil]⟩

/-- Along the whole way the bytes carry the packet. -/
theorem Carries.run {tinfl : Tinfl} {q : BitchatPacket} {b' : List UInt8}
    (hops : Relation.ReflTransGen (Hop tinfl) q.frame.bytes b') : Carries q b' := by
  induction hops with
  | refl => exact ⟨_, [], .refl _, .inl rfl, by rw [List.append_nil]⟩
  | tail _ hop ih => exact hop.carries ih

/-! ## The canonical bytes -/

/-- The canonical bytes of a resent frame's packet are those of the original: the TTL is forced to
zero, of the flags only the recipient's is kept, and the signature is left out. -/
theorem buildCanonicalPacket_resent {q : BitchatPacket} (hv : q.version = 1) {f : WireFrame}
    (hf : q.frame.Resent f) (maxLen : Nat) :
    buildCanonicalPacket (f.packet q.payload false) maxLen = buildCanonicalPacket q maxLen := by
  obtain ⟨hversion, htype, htimestamp, hsender, hrecipient, -, -, hflags⟩ := hf.fields
  have hhas : (f.flags &&& 0x01 != 0) = q.hasRecipient := by
    rw [hflags _ (by decide)]
    exact q.flags_and.1
  have htime : (beNat f.timestamp.val).toUInt64 = q.timestampMs := by
    rw [htimestamp]
    show (beNat (beBytes 8 q.timestampMs.toNat)).toUInt64 = _
    rw [beNat_beBytes q.timestampMs.toNat_lt]
    exact UInt64.ofNat_toNat
  have hid : (if q.hasRecipient then (copyAt 8 f.recipientId 0).val else []) =
      if q.hasRecipient then q.recipientId.val else [] := by
    cases hr : q.hasRecipient with
    | false => rfl
    | true =>
      have hrid : f.recipientId = q.recipientId.val := by
        rw [hrecipient]
        show (if q.hasRecipient then q.recipientId.val else []) = _
        rw [hr]
        rfl
      rw [if_pos rfl, if_pos rfl, hrid, copyAt_self]
  unfold buildCanonicalPacket WireFrame.packet
  dsimp only
  rw [hversion, htype, htime, hsender, hhas, hid, show q.frame.version = q.version from hv.symm]
  rfl

/-- **A signature survives the network.** Whatever finite sequence of relays, replays, trunk
crossings and changes of padding a signed packet goes through, it arrives as a packet with the
canonical bytes of the signer, so its signature verifies under the signer's key. -/
theorem signature_survives_transit (tinfl : Tinfl) (ed25519Sign : List UInt8 → Bytes 64)
    (ed25519SignOpen : List UInt8 → Bytes 32 → Bytes 64 → Bool) (signKey : Bytes 32)
    (hopen : ∀ m, ed25519SignOpen m signKey (ed25519Sign m) = true)
    (p q : BitchatPacket) (maxLen : Nat) (b b' : List UInt8)
    (hsign : signPacket ed25519Sign p = some q) (henc : bitchatPacketEncode q maxLen = some b)
    (hops : Relation.ReflTransGen (Hop tinfl) b b') :
    ∃ q', bitchatPacketDecode tinfl b' = some q' ∧
      buildCanonicalPacket q' bitchatBleMaxPacketSize =
        buildCanonicalPacket p bitchatBleMaxPacketSize ∧
      noiseVerifyPacketSignature ed25519SignOpen q' signKey = true := by
  obtain ⟨canonical, hcanon, rfl⟩ := Option.map_eq_some_iff.mp hsign
  obtain ⟨hv, -, rfl⟩ := bitchatPacketEncode_eq_some_iff.mp henc
  obtain ⟨f, pad, hf, hpad, rfl⟩ := Carries.run hops
  have hsame := buildCanonicalPacket_resent hv hf bitchatBleMaxPacketSize
  have hcanon' : buildCanonicalPacket (f.packet p.payload false) bitchatBleMaxPacketSize =
      some canonical := by
    rw [← hcanon]
    exact hsame
  obtain ⟨-, -, -, -, -, -, hsig, hflags⟩ := hf.fields
  refine ⟨f.packet p.payload false, ?_, hcanon'.trans hcanon.symm, ?_⟩
  · rw [bitchatPacketDecode, Carries.decode tinfl hf hpad]
    rfl
  · have hhas : (f.packet p.payload false).hasSignature = true := by
      show (f.flags &&& 0x02 != 0) = true
      rw [hflags _ (by decide)]
      exact BitchatPacket.flags_and _ |>.2.1
    have hsignature : (f.packet p.payload false).signature = ed25519Sign canonical := by
      show copyAt 64 f.signature 0 = _
      rw [hsig]
      exact copyAt_self _
    rw [noiseVerifyPacketSignature, hhas, hcanon', hsignature, Bool.true_and]
    exact hopen canonical

/-- A signature scheme for `shortMessage`: the first 64 bytes of what is signed. -/
def headSign (m : List UInt8) : Bytes 64 := copyAt 64 m 0

theorem signature_survives_transit_replayed :
    ∃ q b q', signPacket headSign shortMessage = some q ∧ bitchatPacketEncode q 520 = some b ∧
      bitchatPacketDecode noTinfl (replayFrame b) = some q' ∧
      noiseVerifyPacketSignature (fun m _ sig => sig == headSign m) q' (zeros 32) = true := by
  obtain ⟨q, hq⟩ : ∃ q, signPacket headSign shortMessage = some q := ⟨_, rfl⟩
  obtain ⟨b, hb⟩ : ∃ b, bitchatPacketEncode q 520 = some b := by
    cases hq
    exact ⟨_, rfl⟩
  obtain ⟨q', hd, -, hverify⟩ := signature_survives_transit noTinfl headSign
    (fun m _ sig => sig == headSign m) (zeros 32) (fun m => beq_self_eq_true _) shortMessage q 520 b
    (replayFrame b) hq hb (.single (.replay b))
  exact ⟨q, b, q', hq, hb, hd, hverify⟩

end Bitle
