import Bitle.Lib.Ring
import Bitle.Mesh.Fragment
import Bitle.Mesh.Network
import Bitle.Noise.Identity
import Bitle.Ota.Task
import Mathlib.Data.Finset.Card

/-!
# Bitle — inbound packets (`bitle_mesh_inbound` and `dispatch_packet` of `main/bitle_mesh.c`)

Every frame that comes in is checked against the ring of the last 64 fingerprints before anything
is done with it. The frame of a fragment can complete a packet while it is being dispatched, and
that packet is checked against the same ring, in between.

`log` is what the node has done, oldest first: each question put to the ring with its answer, and
each call to another component. The ring is the one of `Mesh/Network`, whose
`bitle_mesh_inbound` leaves out what is handled locally; the frames that are sent on are the same
(`relays_meshInbound`).
-/

namespace Bitle

open Wire Run

/-- `BITLE_ORIGIN_TTL`. -/
def bitleOriginTtl : UInt8 := 7

/-! ## Dispatch -/

/-- Where `dispatch_packet` hands a packet to. -/
inductive MeshHandler where
  | announce
  | handshake
  | encrypted
  | identityAnnounce
  | publicMessage
  | ota
  | courier
  | requestSync
  deriving DecidableEq

/-- What the node does with what comes in. -/
inductive MeshCall where
  | check (fingerprint : UInt64) (seen : Bool)
  | dispatch (fingerprint : UInt64) (linkHandle : UInt16) (packet : BitchatPacket)
  | considerPeer (timestampMs : UInt64)
  | handle (handler : MeshHandler) (linkHandle : UInt16) (packet : BitchatPacket)
  | ingest (packet : BitchatPacket) (buffer : List UInt8)
  | relay (link : UInt16) (frame : List UInt8)
  deriving DecidableEq

/-- The ring of fingerprints and the fragment slots. -/
structure Mesh where
  cache : RelayCache := {}
  frags : FragTable := fun _ => {}
  log : List MeshCall := []

/-- One frame that comes in, with what is read from outside. -/
structure MeshInput where
  now : UInt64
  localId : Bytes 8
  links : LinkTable
  ok : UInt16 → Bool
  linkHandle : UInt16
  buffer : List UInt8

/-- Record a call. -/
def Mesh.call (m : Mesh) (c : MeshCall) : Mesh := { m with log := m.log ++ [c] }

/-- Ask the ring. -/
def Mesh.check (m : Mesh) (fingerprint : UInt64) : Bool × Mesh :=
  let (seen, cache) := relaySeenBefore m.cache fingerprint
  (seen, { m with cache }.call (.check fingerprint seen))

/-- `is_broadcast_recipient`. -/
def isBroadcastRecipient (packet : BitchatPacket) : Bool :=
  !packet.hasRecipient || packet.recipientId.val.all (· == 0xFF)

/-- The node acts on the packet: it can be read, and is for everyone or for us. -/
def actsOn (localId : Bytes 8) (packet : BitchatPacket) : Bool :=
  !packet.opaqueOnly && !packet.isCompressed &&
    (isBroadcastRecipient packet || isLocalRecipient localId packet)

/-- The `switch` of `dispatch_packet`, but for fragments. -/
def handlerOf (localId : Bytes 8) (packet : BitchatPacket) : Option MeshHandler :=
  if packet.type = bitchatMsgAnnounce then some .announce
  else if packet.type = bitchatMsgNoiseHandshake then some .handshake
  else if packet.type = bitchatMsgNoiseEncrypted then some .encrypted
  else if packet.type = bitchatMsgNoiseIdentityAnnounce then some .identityAnnounce
  else if packet.type = bitchatMsgMessage then some .publicMessage
  else if packet.type = bitleMsgOtaManifest ∨ packet.type = bitleMsgOtaReq ∨
      packet.type = bitleMsgOtaChunk ∨ packet.type = bitleMsgOtaStatus then some .ota
  else if packet.type = bitchatMsgCourierEnvelope then
    if isLocalRecipient localId packet then some .courier else none
  else if packet.type = bitchatMsgRequestSync then some .requestSync
  else none

/-- `dispatch_packet`. What a fragment does is a parameter: the packet that comes out of one is
not dispatched if it is a fragment itself, so the recursion ends there. -/
def dispatchPacket (fragment : Mesh → Mesh) (localId : Bytes 8) (linkHandle : UInt16)
    (fingerprint : UInt64) (packet : BitchatPacket) (m : Mesh) : Mesh :=
  let m := m.call (.dispatch fingerprint linkHandle packet)
  let m :=
    if !packet.opaqueOnly ∧ packet.ttl = bitleOriginTtl ∧ packet.type ≠ bitchatMsgAnnounce then
      m.call (.considerPeer packet.timestampMs)
    else m
  if actsOn localId packet then
    if packet.type = bitchatMsgFragment then fragment m
    else
      match handlerOf localId packet with
      | none => m
      | some handler => m.call (.handle handler linkHandle packet)
  else m

section Inbound

variable (tinfl : Tinfl) (sha256 : List UInt8 → Bytes 32)

/-- `handle_fragment`: what is put together is decoded, checked against the ring and dispatched. -/
def handleFragment (x : MeshInput) (packet : BitchatPacket) (m : Mesh) : Mesh :=
  let (frags, reassembled) := reassemble m.frags ⟨x.now, packet⟩
  let m := { m with frags }
  match reassembled with
  | none => m
  | some bytes =>
    match bitchatPacketDecode tinfl bytes with
    | none => m
    | some inner =>
      let fingerprint := relayFingerprint sha256 bytes
      let (seen, m) := m.check fingerprint
      if seen then m
      else if inner.type ≠ bitchatMsgFragment then
        dispatchPacket id x.localId x.linkHandle fingerprint inner m
      else m

/-- `bitle_mesh_inbound`. -/
def meshInbound (m : Mesh) (x : MeshInput) : Mesh :=
  match bitchatPacketDecode tinfl x.buffer with
  | none => m
  | some packet =>
    let fingerprint := relayFingerprint sha256 x.buffer
    let (seen, m) := m.check fingerprint
    if seen then m
    else
      let m := dispatchPacket (handleFragment tinfl sha256 x packet) x.localId x.linkHandle
        fingerprint packet m
      let m :=
        if !packet.isCompressed ∧ !packet.opaqueOnly then m.call (.ingest packet x.buffer) else m
      match relayPacket x.localId x.buffer packet with
      | none => m
      | some frame =>
        (bitleLinkBroadcast x.links x.linkHandle frame x.ok).foldl
          (fun m link => m.call (.relay link frame)) m

end Inbound

/-! ## The ring and the record -/

/-- The fingerprint a call has recorded as new. -/
def MeshCall.newFingerprint : MeshCall → Option UInt64
  | .check fingerprint false => some fingerprint
  | _ => none

/-- The fingerprints recorded as new, the oldest first. -/
def recorded (log : List MeshCall) : List UInt64 := log.filterMap MeshCall.newFingerprint

/-- The last 64 fingerprints recorded as new. -/
def seenWindow (log : List MeshCall) : List UInt64 := Ring.lastOf relayCacheSize (recorded log)

/-- **The answers are exact**: a fingerprint was seen exactly if it is among the last 64 recorded
as new. -/
def ExactLog (log : List MeshCall) : Prop :=
  ∀ pre fingerprint seen post, log = pre ++ .check fingerprint seen :: post →
    (seen = true ↔ fingerprint ∈ seenWindow pre)

/-- Whatever is dispatched has just been recorded. -/
def DispatchesNew (log : List MeshCall) : Prop :=
  ∀ pre fingerprint linkHandle packet post,
    log = pre ++ .dispatch fingerprint linkHandle packet :: post →
    ∃ pre', pre = pre' ++ [.check fingerprint false]

/-- The ring holds what the record says, and the record is exact. -/
structure Mesh.Sound (m : Mesh) : Prop where
  shows : Ring.Shows relayCacheSize m.cache.seen m.cache.next (recorded m.log)
  exact : ExactLog m.log
  dispatches : DispatchesNew m.log

theorem recorded_append (log log' : List MeshCall) :
    recorded (log ++ log') = recorded log ++ recorded log' :=
  List.filterMap_append

/-- `relay_seen_before` says whether the ring has the fingerprint. -/
theorem relaySeenBefore_fst (cache : RelayCache) (fingerprint : UInt64) :
    (relaySeenBefore cache fingerprint).1 = true ↔ some fingerprint ∈ cache.seen := by
  have hany : cache.seen.any (· == some fingerprint) = true ↔ some fingerprint ∈ cache.seen := by
    rw [List.any_eq_true]
    constructor
    · rintro ⟨y, hy, heq⟩
      rwa [← beq_iff_eq.mp heq]
    · exact fun h => ⟨_, h, beq_self_eq_true _⟩
  unfold relaySeenBefore
  split
  · next h => exact iff_of_true rfl (hany.mp h)
  · next h => exact iff_of_false Bool.false_ne_true (mt hany.mpr h)

section Sound

variable {m : Mesh}

theorem Mesh.Sound.init : ({} : Mesh).Sound := by
  refine ⟨.init (by decide), fun pre fp seen post h => ?_, fun pre fp link packet post h => ?_⟩
  · cases pre with
    | nil => cases h
    | cons c pre => cases h
  · cases pre with
    | nil => cases h
    | cons c pre => cases h

/-- A call that neither asks the ring nor dispatches. -/
theorem Mesh.Sound.call (h : m.Sound) {c : MeshCall} (hcheck : ∀ fp seen, c ≠ .check fp seen)
    (hdispatch : ∀ fp link packet, c ≠ .dispatch fp link packet) : (m.call c).Sound := by
  have hnew : c.newFingerprint = none := by
    cases c with
    | check fp seen => exact absurd rfl (hcheck fp seen)
    | dispatch | considerPeer | handle | ingest | relay => rfl
  refine ⟨?_, fun pre fp seen post heq => ?_, fun pre fp link packet post heq => ?_⟩
  · show Ring.Shows _ m.cache.seen m.cache.next (recorded (m.log ++ [c]))
    have hsame : recorded [c] = [] := by rw [recorded, List.filterMap_cons, hnew]; rfl
    rw [recorded_append, hsame, List.append_nil]
    exact h.shows
  · rcases concat_eq_split heq with ⟨-, hc⟩ | ⟨post', hlog⟩
    · exact absurd hc (hcheck fp seen)
    · exact h.exact pre fp seen post' hlog
  · rcases concat_eq_split heq with ⟨-, hc⟩ | ⟨post', hlog⟩
    · exact absurd hc (hdispatch fp link packet)
    · exact h.dispatches pre fp link packet post' hlog

/-- **One question to the ring.** -/
theorem Mesh.Sound.check (h : m.Sound) (fingerprint : UInt64) :
    (m.check fingerprint).2.Sound ∧
      ((m.check fingerprint).1 = true ↔ fingerprint ∈ seenWindow m.log) ∧
      (m.check fingerprint).2.log = m.log ++ [.check fingerprint (m.check fingerprint).1] := by
  have hseen : (m.check fingerprint).1 = true ↔ fingerprint ∈ seenWindow m.log :=
    (relaySeenBefore_fst m.cache fingerprint).trans (h.shows.mem_iff fingerprint)
  refine ⟨⟨?_, fun pre fp seen post heq => ?_, fun pre fp link packet post heq => ?_⟩, hseen, rfl⟩
  · show Ring.Shows _ (relaySeenBefore m.cache fingerprint).2.seen
      (relaySeenBefore m.cache fingerprint).2.next
      (recorded (m.log ++ [.check fingerprint (relaySeenBefore m.cache fingerprint).1]))
    rw [recorded_append]
    unfold relaySeenBefore
    split
    · -- seen: neither the ring nor the record changes
      show Ring.Shows _ _ _ (recorded m.log ++ [])
      rw [List.append_nil]
      exact h.shows
    · exact h.shows.write fingerprint
  · rcases concat_eq_split heq with ⟨rfl, hc⟩ | ⟨post', hlog⟩
    · obtain ⟨rfl, rfl⟩ := MeshCall.check.inj hc
      exact hseen
    · exact h.exact pre fp seen post' hlog
  · rcases concat_eq_split heq with ⟨-, hc⟩ | ⟨post', hlog⟩
    · cases hc
    · exact h.dispatches pre fp link packet post' hlog

/-- What has just been recorded may be dispatched. -/
theorem Mesh.Sound.dispatch (h : m.Sound) {fingerprint : UInt64} {pre : List MeshCall}
    (hlog : m.log = pre ++ [.check fingerprint false]) (linkHandle : UInt16)
    (packet : BitchatPacket) : (m.call (.dispatch fingerprint linkHandle packet)).Sound := by
  refine ⟨?_, fun pre' fp seen post heq => ?_, fun pre' fp link p post heq => ?_⟩
  · show Ring.Shows _ m.cache.seen m.cache.next (recorded (m.log ++ [_]))
    rw [recorded_append]
    show Ring.Shows _ _ _ (recorded m.log ++ [])
    rw [List.append_nil]
    exact h.shows
  · rcases concat_eq_split heq with ⟨-, hc⟩ | ⟨post', hlog'⟩
    · cases hc
    · exact h.exact pre' fp seen post' hlog'
  · rcases concat_eq_split heq with ⟨rfl, hc⟩ | ⟨post', hlog'⟩
    · obtain ⟨rfl, -, -⟩ := MeshCall.dispatch.inj hc
      exact ⟨pre, hlog⟩
    · exact h.dispatches pre' fp link p post' hlog'

theorem Mesh.Sound.dispatchPacket (h : m.Sound) {fingerprint : UInt64} {pre : List MeshCall}
    (hlog : m.log = pre ++ [.check fingerprint false]) {fragment : Mesh → Mesh}
    (hfragment : ∀ m : Mesh, m.Sound → (fragment m).Sound) (localId : Bytes 8)
    (linkHandle : UInt16) (packet : BitchatPacket) :
    (dispatchPacket fragment localId linkHandle fingerprint packet m).Sound := by
  have hdispatch := h.dispatch hlog linkHandle packet
  unfold Bitle.dispatchPacket
  dsimp only
  generalize m.call (.dispatch fingerprint linkHandle packet) = m₁ at hdispatch
  have hclock : ∀ (c : Prop) [Decidable c],
      (if c then m₁.call (.considerPeer packet.timestampMs) else m₁).Sound := by
    intro c _
    split
    · exact hdispatch.call nofun nofun
    · exact hdispatch
  split
  · split
    · exact hfragment _ (hclock _)
    · split
      · exact hclock _
      · exact (hclock _).call nofun nofun
  · exact hclock _

variable (tinfl : Tinfl) (sha256 : List UInt8 → Bytes 32)

/-- A packet put together from fragments goes through the same ring. -/
theorem Mesh.Sound.handleFragment (h : m.Sound) (x : MeshInput) (packet : BitchatPacket) :
    (handleFragment tinfl sha256 x packet m).Sound := by
  unfold Bitle.handleFragment
  dsimp only
  generalize hm₁ : ({ m with frags := (reassemble m.frags ⟨x.now, packet⟩).1 } : Mesh) = m₁
  have h₁ : m₁.Sound := by
    rw [← hm₁]
    exact ⟨h.shows, h.exact, h.dispatches⟩
  split
  · exact h₁
  · next bytes hbytes =>
    split
    · exact h₁
    · obtain ⟨hsound, -, hlog⟩ := h₁.check (relayFingerprint sha256 bytes)
      split
      · exact hsound
      · next hseen =>
        rw [Bool.not_eq_true] at hseen
        rw [hseen] at hlog
        split
        · exact hsound.dispatchPacket hlog (fun _ h => h) _ _ _
        · exact hsound

/-- **One frame.** -/
theorem Mesh.Sound.inbound (h : m.Sound) (x : MeshInput) :
    (meshInbound tinfl sha256 m x).Sound := by
  unfold meshInbound
  split
  · exact h
  · next packet _ =>
    obtain ⟨hsound, -, hlog⟩ := h.check (relayFingerprint sha256 x.buffer)
    dsimp only
    split
    · exact hsound
    · next hseen =>
      rw [Bool.not_eq_true] at hseen
      rw [hseen] at hlog
      have hdispatched := hsound.dispatchPacket hlog
        (fun _ h => Mesh.Sound.handleFragment tinfl sha256 h x packet) x.localId x.linkHandle packet
      generalize Bitle.dispatchPacket _ x.localId x.linkHandle _ packet _ = m₁ at hdispatched
      have hingest : ∀ (c : Prop) [Decidable c],
          (if c then m₁.call (.ingest packet x.buffer) else m₁).Sound := by
        intro c _
        split
        · exact hdispatched.call nofun nofun
        · exact hdispatched
      have hrelay : ∀ (links : List UInt16) (frame : List UInt8) (m : Mesh), m.Sound →
          (links.foldl (fun m link => m.call (.relay link frame)) m).Sound := by
        intro links frame
        induction links with
        | nil => exact fun _ h => h
        | cons link links ih => exact fun m h => ih _ (h.call nofun nofun)
      split
      · exact hingest _
      · exact hrelay _ _ _ (hingest _)

end Sound

/-! ## What goes out -/

/-- The frame a call sends on. -/
def MeshCall.sent : MeshCall → Option (UInt16 × List UInt8)
  | .relay link frame => some (link, frame)
  | _ => none

/-- The frames a node has sent on. -/
def framesSent (log : List MeshCall) : List (UInt16 × List UInt8) := log.filterMap MeshCall.sent

/-- The record has grown, and nothing was sent on. -/
def HandledTo (m m' : Mesh) : Prop := ∃ l, m'.log = m.log ++ l ∧ framesSent l = []

theorem HandledTo.refl (m : Mesh) : HandledTo m m := ⟨[], (List.append_nil _).symm, rfl⟩

theorem HandledTo.trans {m m' m'' : Mesh} (h : HandledTo m m') (h' : HandledTo m' m'') :
    HandledTo m m'' := by
  obtain ⟨l, hl, hsent⟩ := h
  obtain ⟨l', hl', hsent'⟩ := h'
  refine ⟨l ++ l', by rw [hl', hl, List.append_assoc], ?_⟩
  unfold framesSent at hsent hsent' ⊢
  rw [List.filterMap_append, hsent, hsent']
  rfl

theorem handledTo_call (m : Mesh) {c : MeshCall} (h : c.sent = none) : HandledTo m (m.call c) := by
  refine ⟨[c], rfl, ?_⟩
  unfold framesSent
  rw [List.filterMap_cons, h]
  rfl

theorem handledTo_dispatchPacket {fragment : Mesh → Mesh}
    (hfragment : ∀ m, HandledTo m (fragment m)) (localId : Bytes 8) (linkHandle : UInt16)
    (fingerprint : UInt64) (packet : BitchatPacket) (m : Mesh) :
    HandledTo (m.call (.dispatch fingerprint linkHandle packet))
      (dispatchPacket fragment localId linkHandle fingerprint packet m) := by
  unfold dispatchPacket
  dsimp only
  generalize m.call (.dispatch fingerprint linkHandle packet) = m₁
  have hclock : ∀ (c : Prop) [Decidable c],
      HandledTo m₁ (if c then m₁.call (.considerPeer packet.timestampMs) else m₁) := by
    intro c _
    split
    · exact handledTo_call m₁ rfl
    · exact .refl m₁
  split
  · split
    · exact (hclock _).trans (hfragment _)
    · split
      · exact hclock _
      · exact (hclock _).trans (handledTo_call _ rfl)
  · exact hclock _

section Sent

variable (tinfl : Tinfl) (sha256 : List UInt8 → Bytes 32)

theorem handledTo_handleFragment (x : MeshInput) (packet : BitchatPacket) (m : Mesh) :
    HandledTo m (handleFragment tinfl sha256 x packet m) := by
  unfold handleFragment
  dsimp only
  generalize hm₁ : ({ m with frags := (reassemble m.frags ⟨x.now, packet⟩).1 } : Mesh) = m₁
  have h₁ : HandledTo m m₁ := by
    rw [← hm₁]
    exact .refl m
  split
  · exact h₁
  · next bytes hbytes =>
    split
    · exact h₁
    · have hcheck : HandledTo m (m₁.check (relayFingerprint sha256 bytes)).2 :=
        h₁.trans ⟨[_], rfl, rfl⟩
      split
      · exact hcheck
      · split
        · next inner _ _ _ =>
          have hcall : HandledTo (m₁.check (relayFingerprint sha256 bytes)).2 _ :=
            handledTo_call (c := .dispatch (relayFingerprint sha256 bytes) x.linkHandle inner) _ rfl
          exact (hcheck.trans hcall).trans
            (handledTo_dispatchPacket HandledTo.refl _ _ _ _ _)
        · exact hcheck

theorem log_foldl_relay (links : List UInt16) (frame : List UInt8) (m : Mesh) :
    (links.foldl (fun m link => m.call (.relay link frame)) m).log =
      m.log ++ links.map fun link => .relay link frame := by
  induction links generalizing m with
  | nil => exact (List.append_nil _).symm
  | cons link links ih =>
    rw [List.foldl_cons, ih, List.map_cons]
    exact List.append_assoc _ [_] _

/-- **What one frame adds to the record**: nothing if it does not decode, the answer of the ring
alone if it was seen, and else the answer, its dispatch, what is handled locally, and the frames
that `bitle_mesh_inbound` of `Mesh/Network` sends on. -/
theorem log_meshInbound (m : Mesh) (x : MeshInput) :
    match bitchatPacketDecode tinfl x.buffer with
    | none => meshInbound tinfl sha256 m x = m
    | some packet =>
      if (m.check (relayFingerprint sha256 x.buffer)).1 then
        (meshInbound tinfl sha256 m x).log =
          m.log ++ [.check (relayFingerprint sha256 x.buffer) true]
      else
        ∃ l, framesSent l = [] ∧ (meshInbound tinfl sha256 m x).log =
          m.log ++ .check (relayFingerprint sha256 x.buffer) false ::
            .dispatch (relayFingerprint sha256 x.buffer) x.linkHandle packet :: l ++
          (bitleMeshInbound tinfl sha256 x.ok ⟨x.localId, x.links, m.cache⟩ x.linkHandle
            x.buffer).2.2.map fun sent => .relay sent.1 sent.2 := by
  unfold meshInbound bitleMeshInbound
  cases hdec : bitchatPacketDecode tinfl x.buffer with
  | none => rfl
  | some packet =>
    dsimp only
    cases hseen : (m.check (relayFingerprint sha256 x.buffer)).1 with
    | true =>
      rw [if_pos rfl, if_pos rfl]
      show m.log ++ [.check _ (m.check _).1] = _
      rw [hseen]
    | false =>
      have hcache : (relaySeenBefore m.cache (relayFingerprint sha256 x.buffer)).1 = false := hseen
      rw [if_neg Bool.false_ne_true, if_neg Bool.false_ne_true, hcache,
        if_neg Bool.false_ne_true]
      obtain ⟨l, hl, hsent⟩ := handledTo_dispatchPacket
        (handledTo_handleFragment tinfl sha256 x packet) x.localId x.linkHandle
        (relayFingerprint sha256 x.buffer) packet (m.check (relayFingerprint sha256 x.buffer)).2
      generalize dispatchPacket _ x.localId x.linkHandle _ packet _ = m₁ at hl
      -- the record up to the relay
      obtain ⟨l', hl', hsent'⟩ : ∃ l', (if !packet.isCompressed ∧ !packet.opaqueOnly then
          m₁.call (.ingest packet x.buffer) else m₁).log = m₁.log ++ l' ∧ framesSent l' = [] := by
        split
        · exact handledTo_call m₁ rfl
        · exact HandledTo.refl m₁
      have hhead : m₁.log = m.log ++ .check (relayFingerprint sha256 x.buffer) false ::
          .dispatch (relayFingerprint sha256 x.buffer) x.linkHandle packet :: l := by
        rw [hl]
        show (m.log ++ [.check _ (m.check _).1]) ++ [_] ++ l = _
        rw [hseen, List.append_assoc, List.append_assoc]
        rfl
      have hquiet : framesSent (l ++ l') = [] := by
        unfold framesSent at hsent hsent' ⊢
        rw [List.filterMap_append, hsent, hsent']
        rfl
      refine ⟨l ++ l', hquiet, ?_⟩
      have hbefore : (if !packet.isCompressed ∧ !packet.opaqueOnly then
          m₁.call (.ingest packet x.buffer) else m₁).log =
          m.log ++ .check (relayFingerprint sha256 x.buffer) false ::
            .dispatch (relayFingerprint sha256 x.buffer) x.linkHandle packet :: (l ++ l') := by
        rw [hl', hhead, List.append_assoc]
        rfl
      cases relayPacket x.localId x.buffer packet with
      | none =>
        rw [List.map_nil, List.append_nil]
        exact hbefore
      | some frame =>
        dsimp only
        rw [log_foldl_relay, hbefore, List.map_map]
        rfl

/-- **The frames that are sent on** are those of the network model. -/
theorem relays_meshInbound (m : Mesh) (x : MeshInput) :
    framesSent (meshInbound tinfl sha256 m x).log = framesSent m.log ++
      (bitleMeshInbound tinfl sha256 x.ok ⟨x.localId, x.links, m.cache⟩ x.linkHandle
        x.buffer).2.2 := by
  have hlog := log_meshInbound tinfl sha256 m x
  cases hdec : bitchatPacketDecode tinfl x.buffer with
  | none =>
    rw [hdec] at hlog
    unfold bitleMeshInbound
    rw [hlog, hdec, List.append_nil]
  | some packet =>
    rw [hdec] at hlog
    dsimp only at hlog
    split at hlog
    · next hseen =>
      have hcache : (relaySeenBefore m.cache (relayFingerprint sha256 x.buffer)).1 = true := hseen
      unfold bitleMeshInbound framesSent
      rw [hlog, hdec, List.filterMap_append]
      dsimp only
      rw [hcache, if_pos rfl]
      rfl
    · obtain ⟨l, hsent, heq⟩ := hlog
      have hmap : ∀ sends : List (UInt16 × List UInt8),
          framesSent (sends.map fun sent => .relay sent.1 sent.2) = sends := by
        intro sends
        induction sends with
        | nil => rfl
        | cons sent sends ih =>
          unfold framesSent at ih ⊢
          rw [List.map_cons, List.filterMap_cons, ih]
          rfl
      unfold framesSent at hsent hmap ⊢
      rw [heq, List.filterMap_append, List.filterMap_append, hmap]
      congr 1
      rw [List.filterMap_cons, List.filterMap_cons]
      show _ ++ List.filterMap MeshCall.sent l = _
      rw [hsent, List.append_nil]

end Sent

/-! ## The window -/

theorem ExactLog.of_append {log log' : List MeshCall} (h : ExactLog (log ++ log')) :
    ExactLog log := by
  intro pre fp seen post heq
  apply h pre fp seen (post ++ log')
  rw [heq, List.append_assoc]
  rfl

/-- The fingerprints of the window are distinct: one that is in it is not recorded again. -/
theorem ExactLog.nodup {log : List MeshCall} (h : ExactLog log) : (seenWindow log).Nodup := by
  induction log using List.reverseRec with
  | nil => exact List.nodup_nil
  | append_singleton log c ih =>
    have hlog := ih h.of_append
    cases hnew : c.newFingerprint with
    | none =>
      have hsame : recorded (log ++ [c]) = recorded log := by
        rw [recorded_append, recorded, recorded, List.filterMap_cons, hnew]
        exact List.append_nil _
      unfold seenWindow at hlog ⊢
      rw [hsame]
      exact hlog
    | some fp =>
      have hc : c = .check fp false := by
        unfold MeshCall.newFingerprint at hnew
        split at hnew
        · cases hnew
          rfl
        · cases hnew
      have hconcat : recorded (log ++ [c]) = recorded log ++ [fp] := by
        rw [recorded_append, hc]
        rfl
      have hfresh : fp ∉ seenWindow log := by
        intro hmem
        have hseen := (h log fp false [] (by rw [hc])).mpr hmem
        cases hseen
      unfold seenWindow at hlog hfresh ⊢
      rw [hconcat]
      refine (Ring.lastOf_concat_sublist _ _ _).nodup ?_
      rw [List.nodup_append]
      refine ⟨hlog, List.nodup_singleton fp, fun y hy z hz hyz => hfresh ?_⟩
      rw [← List.mem_singleton.mp hz, ← hyz]
      exact hy

/-- **Between two dispatches** of one fingerprint, 64 others were recorded. -/
theorem recorded_between {a b c : List MeshCall} {fingerprint : UInt64} {link link' : UInt16}
    {packet packet' : BitchatPacket} (hexact : ExactLog
      (a ++ .dispatch fingerprint link packet :: b ++ .dispatch fingerprint link' packet' :: c))
    (hdispatch : DispatchesNew
      (a ++ .dispatch fingerprint link packet :: b ++ .dispatch fingerprint link' packet' :: c)) :
    relayCacheSize ≤ ((recorded b).toFinset.erase fingerprint).card := by
  -- both were recorded just before
  obtain ⟨a', ha⟩ := hdispatch a fingerprint link packet
    (b ++ .dispatch fingerprint link' packet' :: c) (List.append_assoc _ _ _)
  obtain ⟨pre, hpre⟩ := hdispatch _ fingerprint link' packet' c rfl
  obtain ⟨b', hb, hpre'⟩ : ∃ b', b = b' ++ [.check fingerprint false] ∧
      pre = a ++ .dispatch fingerprint link packet :: b' := by
    rcases List.eq_nil_or_concat b with rfl | ⟨b', e, rfl⟩
    · cases (List.append_singleton_inj.mp hpre).2
    · rw [List.concat_eq_append, ← List.cons_append, ← List.append_assoc] at hpre
      obtain ⟨h, he⟩ := List.append_singleton_inj.mp hpre
      exact ⟨b', by rw [he, List.concat_eq_append], h.symm⟩
  -- at the second time the ring no longer has the fingerprint
  have hsplit : a ++ .dispatch fingerprint link packet :: b ++
      .dispatch fingerprint link' packet' :: c = pre ++ .check fingerprint false ::
        .dispatch fingerprint link' packet' :: c := by
    rw [hpre, List.append_assoc]
    rfl
  rw [hsplit] at hexact
  have hgone : fingerprint ∉ seenWindow pre := fun hmem => by
    cases (hexact pre fingerprint false _ rfl).mpr hmem
  have hnodup := hexact.of_append.nodup
  have hrec : recorded pre = (recorded a' ++ [fingerprint]) ++ recorded b' := by
    rw [hpre', recorded_append, ha, recorded_append]
    rfl
  unfold seenWindow at hgone hnodup
  rw [hrec] at hgone hnodup
  have hlong : relayCacheSize ≤ (recorded b').length := by
    by_contra hshort
    apply hgone
    unfold Ring.lastOf
    rw [List.drop_append_of_le_length, List.drop_append_of_le_length]
    · exact List.mem_append_left _ (List.mem_append_right _ (List.mem_singleton_self _))
    · simp only [List.length_append, List.length_singleton]
      omega
    · simp only [List.length_append, List.length_singleton]
      omega
  rw [Ring.lastOf_append _ _ hlong] at hgone hnodup
  have hcard := List.toFinset_card_of_nodup hnodup
  rw [Ring.length_lastOf hlong] at hcard
  rw [← hcard]
  apply Finset.card_le_card
  intro y hy
  rw [List.mem_toFinset] at hy
  rw [Finset.mem_erase, List.mem_toFinset, hb, recorded_append]
  refine ⟨?_, List.mem_append_left _ ((Ring.lastOf_sublist _ _).mem hy)⟩
  rintro rfl
  exact hgone hy

/-- **The ring is exact.** In every run, `relay_seen_before` reports a fingerprint as seen exactly
if it is among the last 64 it recorded as new, which are distinct, for whole frames and for packets
put together from fragments alike. Between two dispatches of one fingerprint at least 64 others
were recorded, and a frame whose fingerprint is not in the window is dispatched. -/
theorem relay_ring_exact (tinfl : Tinfl) (sha256 : List UInt8 → Bytes 32) (xs : List MeshInput) :
    let m := final (meshInbound tinfl sha256) {} xs
    (∀ pre fingerprint seen post, m.log = pre ++ .check fingerprint seen :: post →
      (seen = true ↔ fingerprint ∈ seenWindow pre) ∧ (seenWindow pre).Nodup) ∧
    (∀ a b c fingerprint link packet link' packet',
      m.log = a ++ .dispatch fingerprint link packet :: b ++
        .dispatch fingerprint link' packet' :: c →
      relayCacheSize ≤ ((recorded b).toFinset.erase fingerprint).card) ∧
    ∀ x packet, bitchatPacketDecode tinfl x.buffer = some packet →
      relayFingerprint sha256 x.buffer ∉ seenWindow m.log →
      ∃ post, (meshInbound tinfl sha256 m x).log =
        m.log ++ .check (relayFingerprint sha256 x.buffer) false ::
          .dispatch (relayFingerprint sha256 x.buffer) x.linkHandle packet :: post := by
  intro m
  have hsound : m.Sound := invariant_final Mesh.Sound
    (fun _ x h => Mesh.Sound.inbound tinfl sha256 h x) Mesh.Sound.init xs
  refine ⟨fun pre fp seen post heq => ?_, fun a b c fp link p link' p' heq => ?_,
    fun x packet hdec hnew => ?_⟩
  · refine ⟨hsound.exact pre fp seen post heq, ?_⟩
    have hexact := hsound.exact
    rw [heq] at hexact
    exact hexact.of_append.nodup
  · have hexact := hsound.exact
    have hdispatch := hsound.dispatches
    rw [heq] at hexact hdispatch
    exact recorded_between hexact hdispatch
  · have hlog := log_meshInbound tinfl sha256 m x
    have hseen : (m.check (relayFingerprint sha256 x.buffer)).1 = false := by
      rw [← Bool.not_eq_true]
      exact fun h => hnew ((hsound.check _).2.1.mp h)
    rw [hdec] at hlog
    dsimp only at hlog
    rw [hseen, if_neg Bool.false_ne_true] at hlog
    obtain ⟨l, -, heq⟩ := hlog
    rw [heq, List.append_assoc]
    exact ⟨_, rfl⟩

end Bitle
