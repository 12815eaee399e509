import Bitle.Noise.Binding

/-!
# Bitle — what a verified identity rests on (`main/noise_handshake.c`)

The identities live in an array beside the sessions: `alloc_session` does not touch it,
`free_session` wipes it, and announces and legacy identities write it. `SlotStep` says all that one
event can do to a slot, and the handlers are checked against it one by one.

`heardSince` is the history the claims are about: for each slot, the events that came in on its
connection handle since it was allocated. The event that allocates the slot is the first of them.
-/

namespace Bitle

open Wire Run

variable {H K : Type}

/-! ## Slots -/

/-- What the table holds at one index: whether the session is used, its handle, and the identity
beside it. -/
structure NoiseSlot where
  inUse : Bool
  connHandle : UInt16
  identity : NoiseIdentity

def NoiseWorker.slot (w : NoiseWorker H K) (i : Fin noiseMaxSessions) : NoiseSlot :=
  ⟨(w.session i).inUse, (w.session i).connHandle, w.table.identities i⟩

theorem SameBinding.slot {w w' : NoiseWorker H K} (h : SameBinding w w')
    (i : Fin noiseMaxSessions) : w'.slot i = w.slot i := by
  unfold NoiseWorker.slot
  rw [h.inUse, h.connHandle, h.identities]

/-- The slots do not show the peer id. -/
theorem slot_bind (w : NoiseWorker H K) (i j : Fin noiseMaxSessions) (p : PeerId) :
    (w.bind i p).slot j = w.slot j := by
  have hsession : ((w.bind i p).session j).inUse = (w.session j).inUse ∧
      ((w.bind i p).session j).connHandle = (w.session j).connHandle := by
    unfold NoiseWorker.bind
    rw [session_setSession]
    split
    · next hj => rw [hj]; exact ⟨rfl, rfl⟩
    · exact ⟨rfl, rfl⟩
  unfold NoiseWorker.slot
  rw [hsession.1, hsession.2]
  rfl

theorem slot_free_self (w : NoiseWorker H K) (i : Fin noiseMaxSessions) :
    ((w.free i).slot i).inUse = false ∧ ((w.free i).slot i).identity = {} := by
  simp [NoiseWorker.slot, NoiseWorker.free, NoiseWorker.session, freeSession,
    SessionTable.setIdentity, SessionTable.setSession, SessionTable.setPending]

theorem slot_free_of_ne (w : NoiseWorker H K) {i j : Fin noiseMaxSessions} (h : j ≠ i) :
    (w.free i).slot j = w.slot j := by
  simp [NoiseWorker.slot, NoiseWorker.free, NoiseWorker.session, freeSession,
    SessionTable.setIdentity, SessionTable.setSession, SessionTable.setPending, h]

theorem slot_setIdentity_self (w : NoiseWorker H K) (i : Fin noiseMaxSessions)
    (ident : NoiseIdentity) :
    (w.setIdentity i ident).slot i = { w.slot i with identity := ident } := by
  simp [NoiseWorker.slot, NoiseWorker.setIdentity, NoiseWorker.session, SessionTable.setIdentity]

theorem slot_setIdentity_of_ne (w : NoiseWorker H K) {i j : Fin noiseMaxSessions}
    (ident : NoiseIdentity) (h : j ≠ i) : (w.setIdentity i ident).slot j = w.slot j := by
  simp [NoiseWorker.slot, NoiseWorker.setIdentity, NoiseWorker.session, SessionTable.setIdentity,
    h]

theorem slot_bindUnknown (w : NoiseWorker H K) (i j : Fin noiseMaxSessions) (p : PeerId) :
    (bindUnknown w i p).slot j = w.slot j := by
  unfold bindUnknown
  split
  · exact slot_bind w i j p
  · rfl

/-! ## What one event can do to a slot -/

section Steps

variable (sha256 : List UInt8 → Bytes 32)
variable (ed25519SignOpen : List UInt8 → Bytes 32 → Bytes 64 → Bool)

/-- The event is a direct announce that carries the keys of the identity, its signature is valid
under that signing key, and the identity is named after that Noise key. -/
structure Announced (evt : NoiseEvent) (ident : NoiseIdentity) : Prop where
  type : evt.type = .announce
  direct : evt.ttl = noisePacketTtl
  keys : ∃ record, parseAnnounceTlv evt.payload = some record ∧
    record.noiseKey = ident.noiseKey ∧ record.signKey = ident.signKey
  signed : evt.hasSignature = true ∧
    ∃ canonical, buildCanonicalPacket (announcePacket evt) bitchatBleMaxPacketSize =
      some canonical ∧ ed25519SignOpen canonical ident.signKey evt.signature = true
  peer : peerIdOf sha256 ident.noiseKey = ident.peerId

/-- The handle a used slot has after an event: the one it had, or, if it was allocated, the
event's. -/
def Handle (evt : NoiseEvent) (new : Bool) (s s' : NoiseSlot) : Prop :=
  (new = false ∧ s.inUse = true ∧ s'.connHandle = s.connHandle) ∨
    (new = true ∧ s'.connHandle = evt.connHandle)

/-- **What one event does to a slot.** `new` says that the slot was allocated in it. -/
inductive SlotStep (evt : NoiseEvent) (new : Bool) (s s' : NoiseSlot) : Prop
  | kept (old : new = false) (same : s' = s)
  | freed (free : s'.inUse = false) (blank : s'.identity = {})
  | unverified (used : s'.inUse = true) (handle : Handle evt new s s')
      (not : s'.identity.verified = false)
  | announced (used : s'.inUse = true) (handle : Handle evt new s s')
      (conn : s'.connHandle = evt.connHandle)
      (proof : Announced sha256 ed25519SignOpen evt s'.identity)

/-- The slot `alloc_session` takes for a handle that has none. -/
def freshSlot (t : SessionTable H K) (connHandle : UInt16) : Option (Fin noiseMaxSessions) :=
  match findSession t connHandle with
  | some _ => none
  | none => (allocSession t connHandle).map Prod.fst

/-- The slot an event allocates. A subscription first frees the slot of its handle. -/
def allocatedSlot (w : NoiseWorker H K) (evt : NoiseEvent) : Option (Fin noiseMaxSessions) :=
  match evt.type with
  | .start | .process | .identity => freshSlot w.table evt.connHandle
  | .announce =>
    match parseAnnounceTlv evt.payload with
    | none => none
    | some ident =>
      if (verifyAnnounceEvent sha256 ed25519SignOpen evt ident).isSome &&
          evt.ttl == noisePacketTtl then freshSlot w.table evt.connHandle
      else none
  | .subscribed => freshSlot (processDisconnectEvent w evt).table evt.connHandle
  | .encrypted | .courier | .sync | .disconnect => none

/-- A slot that is free holds no identity. -/
def FreeBlank (w : NoiseWorker H K) : Prop :=
  ∀ i, (w.slot i).inUse = false → (w.slot i).identity = {}

variable {sha256 ed25519SignOpen} {evt : NoiseEvent} {new : Bool} {s s' s'' : NoiseSlot}
  {w w' w₁ : NoiseWorker H K} {i : Fin noiseMaxSessions}

/-- A slot that is used after an event. -/
theorem SlotStep.handle (h : SlotStep sha256 ed25519SignOpen evt new s s')
    (hused : s'.inUse = true) : Handle evt new s s' := by
  cases h with
  | kept old same =>
    subst same
    exact .inl ⟨old, hused, rfl⟩
  | freed free blank =>
    rw [free] at hused
    cases hused
  | unverified used handle not => exact handle
  | announced used handle conn proof => exact handle

theorem Handle.trans (h : SlotStep sha256 ed25519SignOpen evt false s s')
    (h' : Handle evt new s' s'') : Handle evt new s s'' := by
  rcases h' with ⟨hold, hused, hconn⟩ | hnew
  · rcases h.handle hused with ⟨-, hused', hconn'⟩ | ⟨hfalse, -⟩
    · exact .inl ⟨hold, hused', hconn.trans hconn'⟩
    · cases hfalse
  · exact .inr hnew

theorem SlotStep.trans (h : SlotStep sha256 ed25519SignOpen evt false s s')
    (h' : SlotStep sha256 ed25519SignOpen evt new s' s'') :
    SlotStep sha256 ed25519SignOpen evt new s s'' := by
  cases h' with
  | kept old same =>
    rw [old, same]
    exact h
  | freed free blank => exact .freed free blank
  | unverified used handle not => exact .unverified used (handle.trans h) not
  | announced used handle conn proof => exact .announced used (handle.trans h) conn proof

theorem FreeBlank.step (hw : FreeBlank w)
    (h : ∀ i, ∃ new, SlotStep sha256 ed25519SignOpen evt new (w.slot i) (w'.slot i)) :
    FreeBlank w' := by
  intro i hfree
  obtain ⟨new, hi⟩ := h i
  cases hi with
  | kept old same =>
    rw [same] at hfree ⊢
    exact hw i hfree
  | freed free blank => exact blank
  | unverified used handle not =>
    rw [used] at hfree
    cases hfree
  | announced used handle conn proof =>
    rw [used] at hfree
    cases hfree

/-! ### Allocation -/

theorem freshSlot_eq_none {t : SessionTable H K} {connHandle : UInt16}
    {j : Fin noiseMaxSessions} (h : findSession t connHandle = some j) :
    freshSlot t connHandle = none := by
  rw [freshSlot, h]

theorem freshSlot_of_alloc_none {conn : UInt16} (h : w.alloc conn = none) :
    freshSlot w.table conn = none := by
  unfold NoiseWorker.alloc at h
  unfold freshSlot
  rw [Option.map_eq_none_iff] at h
  rw [h]
  cases findSession w.table conn with
  | none => rfl
  | some j => rfl

/-- The slot of an allocation is used, under the handle. -/
theorem slot_alloc_self {conn : UInt16} (h : w.alloc conn = some (i, w₁)) :
    (w₁.slot i).inUse = true ∧ (w₁.slot i).connHandle = conn := by
  rcases alloc_cases h with ⟨hfind, rfl⟩ | ⟨-, -, rfl⟩
  · have hslot := List.find?_some hfind
    rw [Bool.and_eq_true] at hslot
    exact ⟨hslot.1, beq_iff_eq.mp hslot.2⟩
  · have hsession : ((w.setSession i { inUse := true, connHandle := conn }).setPending i
        false).session i = { inUse := true, connHandle := conn } := by
      show (w.setSession i _).session i = _
      rw [session_setSession, if_pos rfl]
    unfold NoiseWorker.slot
    rw [hsession]
    exact ⟨rfl, rfl⟩

/-- The other slots stay as they are. -/
theorem slot_alloc_of_ne {conn : UInt16} {j : Fin noiseMaxSessions}
    (h : w.alloc conn = some (i, w₁)) (hj : j ≠ i) : w₁.slot j = w.slot j := by
  rcases alloc_cases h with ⟨-, rfl⟩ | ⟨-, -, rfl⟩
  · rfl
  · have hsession : ((w.setSession i { inUse := true, connHandle := conn }).setPending i
        false).session j = w.session j := by
      show (w.setSession i _).session j = _
      rw [session_setSession, if_neg hj]
    unfold NoiseWorker.slot
    rw [hsession]
    rfl

/-- **A handler that allocates**: what it does to its slot afterwards decides. -/
theorem slotStep_of_alloc (hw : FreeBlank w) (ha : w.alloc evt.connHandle = some (i, w₁))
    (hother : ∀ j, j ≠ i → w'.slot j = w₁.slot j)
    (hi : SlotStep sha256 ed25519SignOpen evt false (w₁.slot i) (w'.slot i))
    (j : Fin noiseMaxSessions) :
    SlotStep sha256 ed25519SignOpen evt (freshSlot w.table evt.connHandle == some j) (w.slot j)
      (w'.slot j) := by
  have hslot := slot_alloc_self ha
  rcases alloc_cases ha with ⟨hfind, rfl⟩ | ⟨hfind, hfree, hw₁⟩
  · -- the handle has a session: nothing is allocated
    rw [freshSlot_eq_none hfind]
    by_cases hj : j = i
    · rw [hj]
      exact hi
    · exact .kept rfl (hother j hj)
  · have hfresh : freshSlot w.table evt.connHandle = some i := by
      have ha' := ha
      unfold NoiseWorker.alloc at ha'
      obtain ⟨x, hx, hxi⟩ := Option.map_eq_some_iff.mp ha'
      rw [freshSlot, hfind]
      dsimp only
      rw [hx, Option.map_some, (Prod.mk.inj hxi).1]
    rw [hfresh]
    by_cases hj : j = i
    · rw [hj]
      have hhandle : (w'.slot i).inUse = true →
          Handle evt (some i == some i) (w.slot i) (w'.slot i) := by
        intro hused
        rcases hi.handle hused with ⟨-, -, hconn⟩ | ⟨hfalse, -⟩
        · exact .inr ⟨beq_self_eq_true _, hconn.trans hslot.2⟩
        · cases hfalse
      cases hi with
      | kept old same =>
        -- the identity is still the one the free slot had
        have hblank : (w₁.slot i).identity = {} := by
          rw [hw₁]
          exact hw i hfree
        have hused : (w'.slot i).inUse = true := by
          rw [same]
          exact hslot.1
        refine .unverified hused (hhandle hused) ?_
        rw [same, hblank]
      | freed free blank => exact .freed free blank
      | unverified used handle not => exact .unverified used (hhandle used) not
      | announced used handle conn proof => exact .announced used (hhandle used) conn proof
    · have hkept := slot_alloc_of_ne ha hj
      refine .kept ?_ ((hother j hj).trans hkept)
      simpa using Ne.symm hj

/-- A handler that ends on the slot it allocated: it keeps it, or frees it. -/
theorem slotStep_of_outcome (hw : FreeBlank w) (ha : w.alloc evt.connHandle = some (i, w₁))
    {r : Bool × NoiseWorker H K} (hr : ∀ j, r.2.slot j = w₁.slot j) (j : Fin noiseMaxSessions) :
    SlotStep sha256 ed25519SignOpen evt (freshSlot w.table evt.connHandle == some j) (w.slot j)
      ((if r.1 then r.2 else r.2.free i).slot j) := by
  split
  · exact slotStep_of_alloc hw ha (fun j _ => hr j) (.kept rfl (hr i)) j
  · obtain ⟨hfree, hblank⟩ := slot_free_self r.2 i
    refine slotStep_of_alloc hw ha (fun j hj => ?_) (.freed hfree hblank) j
    rw [slot_free_of_ne _ hj, hr]

/-! ### The handlers -/

variable (env : NoiseEnv H K)

theorem slot_startHandshake (w : NoiseWorker H K) (i j : Fin noiseMaxSessions)
    (evt : NoiseEvent) : (startHandshake env w i evt).2.slot j = w.slot j := by
  cases hn : (w.session i).handshake.isSome with
  | true =>
    unfold startHandshake
    rw [if_pos hn]
  | false =>
    rcases startHandshake_cases env w i evt hn with ⟨-, h⟩ | h
    · exact h.slot j
    · exact (h.slot j).trans (slot_bind w i j evt.peerId)

theorem slotStep_start (hw : FreeBlank w) (evt : NoiseEvent) (j : Fin noiseMaxSessions) :
    SlotStep sha256 ed25519SignOpen evt (freshSlot w.table evt.connHandle == some j) (w.slot j)
      ((processStartEvent env w evt).slot j) := by
  unfold processStartEvent
  cases ha : w.alloc evt.connHandle with
  | none =>
    rw [freshSlot_of_alloc_none ha]
    exact .kept rfl rfl
  | some x =>
    obtain ⟨i, w₁⟩ := x
    dsimp only
    split
    · exact slotStep_of_alloc hw ha (fun _ _ => rfl) (.kept rfl rfl) j
    · exact slotStep_of_outcome hw ha (fun j => slot_startHandshake env w₁ i j evt) j

theorem slotStep_handshake (hw : FreeBlank w) (evt : NoiseEvent) (j : Fin noiseMaxSessions) :
    SlotStep sha256 ed25519SignOpen evt (freshSlot w.table evt.connHandle == some j) (w.slot j)
      ((processHandshakeEvent env w evt).slot j) := by
  unfold processHandshakeEvent
  cases ha : w.alloc evt.connHandle with
  | none =>
    rw [freshSlot_of_alloc_none ha]
    exact .kept rfl rfl
  | some x =>
    obtain ⟨i, w₁⟩ := x
    refine slotStep_of_outcome hw ha (fun j => ?_) j
    have hpeer : ((w₁.bind i evt.peerId).session i).peerId = evt.peerId := by
      unfold NoiseWorker.bind
      rw [session_setSession, if_pos rfl]
    exact ((sameBinding_processHandshake env hpeer).slot j).trans (slot_bind w₁ i j evt.peerId)

/-- What a verified announce has shown. -/
theorem announced_of_verify {ident : NoiseIdentity} (htype : evt.type = .announce)
    (hparse : parseAnnounceTlv evt.payload = some ident)
    (hverify : verifyAnnounceEvent sha256 ed25519SignOpen evt ident = some true)
    (hdirect : evt.ttl = noisePacketTtl) (valid : Bool) (timestampMs : UInt64) :
    Announced sha256 ed25519SignOpen evt
      { ident with valid, verified := true, timestampMs, peerId := evt.peerId } := by
  have hpeer := peerIdOf_of_verifyAnnounceEvent hverify
  unfold verifyAnnounceEvent at hverify
  split at hverify
  · cases hverify
  · split at hverify
    · cases hverify
    · next hsig =>
      split at hverify
      · cases hverify
      · next canonical hcanonical =>
        refine ⟨htype, hdirect, ⟨ident, hparse, rfl, rfl⟩, ⟨by simpa using hsig, canonical,
          hcanonical, Option.some.inj hverify⟩, hpeer⟩

/-- What a direct announce records. -/
theorem slotStep_recordAnnounce {ident : NoiseIdentity} {sigOk : Bool}
    (htype : evt.type = .announce) (hparse : parseAnnounceTlv evt.payload = some ident)
    (hverify : verifyAnnounceEvent sha256 ed25519SignOpen evt ident = some sigOk)
    (hdirect : evt.ttl = noisePacketTtl) (hused : (w₁.slot i).inUse = true)
    (hconn : (w₁.slot i).connHandle = evt.connHandle) :
    SlotStep sha256 ed25519SignOpen evt false (w₁.slot i)
      ((recordAnnounce env w₁ i evt ident sigOk).slot i) ∧
    ∀ j, j ≠ i → (recordAnnounce env w₁ i evt ident sigOk).slot j = w₁.slot j := by
  -- behind the identity only the peer id and `direct_peer` are written
  have hrest : ∀ (w₂ : NoiseWorker H K) j, (dropDuplicate env (bindUnknown
      (w₂.setSession i { w₂.session i with directPeer := true }) i evt.peerId) i
        evt.peerId).slot j = w₂.slot j := by
    intro w₂ j
    rw [(sameBinding_dropDuplicate env _ i evt.peerId).slot, slot_bindUnknown,
      (sameBinding_directPeer w₂ i).slot]
  unfold recordAnnounce
  dsimp only
  split
  · refine ⟨?_, fun j hj => ?_⟩
    · rw [hrest, slot_setIdentity_self]
      cases sigOk with
      | false => exact .unverified hused (.inl ⟨rfl, hused, rfl⟩) rfl
      | true =>
        exact .announced hused (.inl ⟨rfl, hused, rfl⟩) hconn
          (announced_of_verify htype hparse hverify hdirect true evt.timestampMs)
    · rw [hrest, slot_setIdentity_of_ne _ _ hj]
  · exact ⟨.kept rfl (hrest w₁ i), fun j _ => hrest w₁ j⟩

theorem table_notifyAnnounce (w : NoiseWorker H K) (evt : NoiseEvent) (ident : NoiseIdentity)
    (isDirect : Bool) : (notifyAnnounce env w evt ident isDirect).table = w.table := by
  unfold notifyAnnounce
  dsimp only
  split
  · rfl
  · rfl

/-- A worker with the same table has the same slots. -/
theorem slot_congr (h : w'.table = w.table) (j : Fin noiseMaxSessions) :
    w'.slot j = w.slot j := by
  unfold NoiseWorker.slot NoiseWorker.session
  rw [h]

theorem slotStep_announce (hw : FreeBlank w) {evt : NoiseEvent} (htype : evt.type = .announce)
    (j : Fin noiseMaxSessions) :
    SlotStep sha256 ed25519SignOpen evt (allocatedSlot sha256 ed25519SignOpen w evt == some j)
      (w.slot j) ((processAnnounceEvent env sha256 ed25519SignOpen w evt).slot j) := by
  unfold processAnnounceEvent allocatedSlot
  rw [htype]
  dsimp only
  cases hparse : parseAnnounceTlv evt.payload with
  | none => exact .kept rfl ((sameBinding_offerIdentity env w evt.connHandle).slot j)
  | some ident =>
    dsimp only
    cases hverify : verifyAnnounceEvent sha256 ed25519SignOpen evt ident with
    | none => exact .kept rfl rfl
    | some sigOk =>
      dsimp only
      rw [(sameBinding_offerIdentity env _ evt.connHandle).slot, Option.isSome_some, Bool.true_and]
      generalize hw₀ : (if sigOk = true then
        notifyAnnounce env w evt ident (evt.ttl == noisePacketTtl) else w) = w₀
      -- the notifications leave the table alone
      have htable : w₀.table = w.table := by
        rw [← hw₀]
        split
        · exact table_notifyAnnounce env w evt ident _
        · rfl
      by_cases hdirect : (evt.ttl == noisePacketTtl) = true
      · rw [if_pos hdirect, if_pos hdirect, ← htable, ← slot_congr htable j]
        have hw₀ : FreeBlank w₀ := by
          intro i
          rw [slot_congr htable i]
          exact hw i
        cases ha : w₀.alloc evt.connHandle with
        | none =>
          rw [freshSlot_of_alloc_none ha]
          exact .kept rfl rfl
        | some x =>
          obtain ⟨i, w₁⟩ := x
          obtain ⟨hused, hconn⟩ := slot_alloc_self ha
          obtain ⟨hi, hother⟩ := slotStep_recordAnnounce env htype hparse hverify
            (beq_iff_eq.mp hdirect) hused hconn
          exact slotStep_of_alloc hw₀ ha hother hi j
      · rw [if_neg hdirect, if_neg hdirect]
        exact .kept rfl (slot_congr htable j)

theorem slotStep_identity (hw : FreeBlank w) (evt : NoiseEvent) (j : Fin noiseMaxSessions) :
    SlotStep sha256 ed25519SignOpen evt (freshSlot w.table evt.connHandle == some j) (w.slot j)
      ((processIdentityEvent env w evt).slot j) := by
  unfold processIdentityEvent
  cases ha : w.alloc evt.connHandle with
  | none =>
    rw [freshSlot_of_alloc_none ha]
    exact .kept rfl rfl
  | some x =>
    obtain ⟨i, w₁⟩ := x
    obtain ⟨hused, -⟩ := slot_alloc_self ha
    dsimp only
    cases hparse : parseIdentityPayload evt.payload with
    | none => exact slotStep_of_alloc hw ha (fun _ _ => rfl) (.kept rfl rfl) j
    | some ident =>
      have hrest : ∀ j, (trySendIdentity env (recordIdentity (w₁.call (.considerPeer
          ident.timestampMs)) i evt ident) i).2.slot j =
            (if !(w₁.table.identities i).verified then
              w₁.setIdentity i { ident with peerId := evt.peerId } else w₁).slot j := by
        intro j
        rw [(sameBinding_trySendIdentity env _ i).slot]
        unfold recordIdentity
        dsimp only
        rw [slot_bindUnknown]
        show (if !(w₁.table.identities i).verified then _ else _ : NoiseWorker H K).slot j = _
        split
        · rfl
        · rfl
      refine slotStep_of_alloc hw ha (fun j hj => ?_) ?_ j
      · rw [hrest]
        split
        · exact slot_setIdentity_of_ne w₁ _ hj
        · rfl
      · rw [hrest]
        split
        · rw [slot_setIdentity_self]
          have hnot := parseIdentityPayload_verified hparse
          exact .unverified hused (.inl ⟨rfl, hused, rfl⟩) hnot
        · exact .kept rfl rfl

theorem slotStep_disconnect (w : NoiseWorker H K) (evt : NoiseEvent) (j : Fin noiseMaxSessions) :
    SlotStep sha256 ed25519SignOpen evt false (w.slot j)
      ((processDisconnectEvent w evt).slot j) := by
  unfold processDisconnectEvent
  split
  · exact .kept rfl rfl
  · next i _ =>
    by_cases hj : j = i
    · rw [hj]
      obtain ⟨hfree, hblank⟩ := slot_free_self w i
      exact .freed hfree hblank
    · exact .kept rfl (slot_free_of_ne w hj)

/-- What a subscription does once the slot of its handle is free. -/
theorem slotStep_resubscribed (hw : FreeBlank (processDisconnectEvent w evt))
    (j : Fin noiseMaxSessions) :
    SlotStep sha256 ed25519SignOpen evt
      (freshSlot (processDisconnectEvent w evt).table evt.connHandle == some j)
      ((processDisconnectEvent w evt).slot j) ((processSubscribedEvent env w evt).slot j) := by
  unfold processSubscribedEvent
  dsimp only
  cases ha : (processDisconnectEvent w evt).alloc evt.connHandle with
  | none =>
    rw [freshSlot_of_alloc_none ha]
    exact .kept rfl rfl
  | some x =>
    obtain ⟨i, w₁⟩ := x
    have hsame : ∀ j, (trySendIdentity env (w₁.setPending i true) i).2.slot j = w₁.slot j :=
      ((sameBinding_setPending w₁ i true).trans (sameBinding_trySendIdentity env _ i)).slot
    exact slotStep_of_alloc hw ha (fun j _ => hsame j) (.kept rfl (hsame i)) j

theorem FreeBlank.disconnect (hw : FreeBlank w) (evt : NoiseEvent) :
    FreeBlank (processDisconnectEvent w evt) := by
  intro i hfree
  unfold processDisconnectEvent at hfree ⊢
  split
  · next hnone =>
    rw [hnone] at hfree
    exact hw i hfree
  · next k hk =>
    rw [hk] at hfree
    by_cases hi : i = k
    · rw [hi]
      exact (slot_free_self w k).2
    · rw [slot_free_of_ne w hi] at hfree ⊢
      exact hw i hfree

theorem slotStep_subscribed (hw : FreeBlank w) (evt : NoiseEvent) (j : Fin noiseMaxSessions) :
    SlotStep sha256 ed25519SignOpen evt
      (freshSlot (processDisconnectEvent w evt).table evt.connHandle == some j) (w.slot j)
      ((processSubscribedEvent env w evt).slot j) :=
  (slotStep_disconnect w evt j).trans (slotStep_resubscribed env (hw.disconnect evt) j)

/-- **One event**, by its handler. -/
theorem slotStep_processEvent (aead : Aead K) (hw : FreeBlank w) (evt : NoiseEvent)
    (j : Fin noiseMaxSessions) :
    SlotStep sha256 ed25519SignOpen evt (allocatedSlot sha256 ed25519SignOpen w evt == some j)
      (w.slot j) ((processEvent env sha256 ed25519SignOpen aead w evt).slot j) := by
  cases htype : evt.type with
  | announce =>
    unfold processEvent
    rw [htype]
    exact slotStep_announce env hw htype j
  | start =>
    unfold processEvent allocatedSlot
    rw [htype]
    exact slotStep_start env hw evt j
  | process =>
    unfold processEvent allocatedSlot
    rw [htype]
    exact slotStep_handshake env hw evt j
  | identity =>
    unfold processEvent allocatedSlot
    rw [htype]
    exact slotStep_identity env hw evt j
  | subscribed =>
    unfold processEvent allocatedSlot
    rw [htype]
    exact slotStep_subscribed env hw evt j
  | disconnect =>
    unfold processEvent allocatedSlot
    rw [htype]
    exact slotStep_disconnect w evt j
  | encrypted =>
    unfold processEvent allocatedSlot
    rw [htype]
    -- these handlers touch no peer and no identity
    exact .kept rfl ((sameBinding_processEncryptedEvent env aead w evt).slot j)
  | courier =>
    unfold processEvent allocatedSlot
    rw [htype]
    exact .kept rfl ((sameBinding_processCourierEvent env w evt).slot j)
  | sync =>
    unfold processEvent allocatedSlot
    rw [htype]
    exact .kept rfl ((sameBinding_call w _).slot j)

end Steps

/-! ## The events of a slot -/

section Runs

variable (sha256 : List UInt8 → Bytes 32)
variable (ed25519SignOpen : List UInt8 → Bytes 32 → Bytes 64 → Bool) (aead : Aead K)

/-- The history after one more round: a slot that was allocated starts again, and the event
belongs to the slots that are used under its handle after the round. -/
def hearEvent (w w' : NoiseWorker H K) (evt : NoiseEvent)
    (heard : Fin noiseMaxSessions → List NoiseEvent) : Fin noiseMaxSessions → List NoiseEvent :=
  fun i =>
    (if allocatedSlot sha256 ed25519SignOpen w evt = some i then [] else heard i) ++
      if (w'.slot i).inUse && (w'.slot i).connHandle == evt.connHandle then [evt] else []

/-- A worker and the history of its slots. -/
abbrev HeardWorker (H K : Type) : Type :=
  NoiseWorker H K × (Fin noiseMaxSessions → List NoiseEvent)

/-- A round, with the history kept. -/
def hearStep (s : HeardWorker H K) (x : NoiseInput H K) : HeardWorker H K :=
  let w' := noiseStep sha256 ed25519SignOpen aead s.1 x
  (w', match x.evt with
    | none => s.2
    | some evt => hearEvent sha256 ed25519SignOpen s.1 w' evt s.2)

/-- The events of a run that came in on the handle of a slot since the slot was allocated. -/
def heardSince (ins : List (NoiseInput H K)) : Fin noiseMaxSessions → List NoiseEvent :=
  (final (hearStep sha256 ed25519SignOpen aead) ({}, fun _ => []) ins).2

/-- The history changes nothing in the run. -/
theorem final_hearStep_fst (s : HeardWorker H K) (ins : List (NoiseInput H K)) :
    (final (hearStep sha256 ed25519SignOpen aead) s ins).1 =
      final (noiseStep sha256 ed25519SignOpen aead) s.1 ins := by
  induction ins generalizing s with
  | nil => rfl
  | cons x ins ih => exact ih (hearStep sha256 ed25519SignOpen aead s x)

/-- **The invariant**: a free slot is blank, and a verified identity rests on an announce in the
history of its slot. -/
structure HeardInv (s : HeardWorker H K) : Prop where
  blank : FreeBlank s.1
  rests : ∀ i, (s.1.slot i).identity.verified = true → (s.1.slot i).inUse = true ∧
    ∃ evt ∈ s.2 i, evt.connHandle = (s.1.slot i).connHandle ∧
      Announced sha256 ed25519SignOpen evt (s.1.slot i).identity

variable {sha256 ed25519SignOpen aead}

/-- One event keeps it. -/
theorem HeardInv.event {s : HeardWorker H K} (h : HeardInv sha256 ed25519SignOpen s)
    {w' : NoiseWorker H K} {evt : NoiseEvent}
    (hstep : ∀ i, SlotStep sha256 ed25519SignOpen evt
      (allocatedSlot sha256 ed25519SignOpen s.1 evt == some i) (s.1.slot i) (w'.slot i)) :
    HeardInv sha256 ed25519SignOpen (w', hearEvent sha256 ed25519SignOpen s.1 w' evt s.2) := by
  refine ⟨h.blank.step fun i => ⟨_, hstep i⟩, fun i hver => ?_⟩
  cases hstep i with
  | kept old same =>
    dsimp only at hver ⊢
    rw [same] at hver ⊢
    obtain ⟨hused, e, hmem, hproof⟩ := h.rests i hver
    refine ⟨hused, e, List.mem_append_left _ ?_, hproof⟩
    rw [if_neg (by simpa using old)]
    exact hmem
  | freed free blank =>
    dsimp only at hver
    rw [blank] at hver
    cases hver
  | unverified used handle not =>
    dsimp only at hver
    rw [not] at hver
    cases hver
  | announced used handle conn proof =>
    refine ⟨used, evt, List.mem_append_right _ ?_, conn.symm, proof⟩
    rw [if_pos (by rw [used, conn, beq_self_eq_true]; rfl)]
    exact List.mem_singleton_self evt

/-- One round keeps it. -/
theorem HeardInv.step {s : HeardWorker H K} (h : HeardInv sha256 ed25519SignOpen s)
    (x : NoiseInput H K) :
    HeardInv sha256 ed25519SignOpen (hearStep sha256 ed25519SignOpen aead s x) := by
  obtain ⟨env, evt⟩ := x
  unfold hearStep noiseStep handshakeTask
  cases evt with
  | none =>
    have hpoll : ∀ i, (pollSessionMaintenance env s.1).slot i = s.1.slot i :=
      (sameBinding_pollSessionMaintenance env s.1).slot
    refine ⟨fun i => ?_, fun i => ?_⟩
    · dsimp only
      rw [hpoll]
      exact h.blank i
    · dsimp only
      rw [hpoll]
      exact h.rests i
  | some evt =>
    apply h.event
    intro i
    rw [(sameBinding_pollSessionMaintenance env _).slot]
    exact slotStep_processEvent env aead h.blank evt i

end Runs

/-- **What a verified identity rests on.** In every state the worker reaches, whatever events come
in on whatever handles: a verified identity is named after its Noise key, and a direct announce
with its two keys, signed under its signing key, came in on the handle of its session since the
slot was allocated. A free slot holds no identity, so a handle that gets a slot starts without. -/
theorem verified_identity_announced (sha256 : List UInt8 → Bytes 32)
    (ed25519SignOpen : List UInt8 → Bytes 32 → Bytes 64 → Bool) (aead : Aead K)
    (ins : List (NoiseInput H K)) :
    let w : NoiseWorker H K := final (noiseStep sha256 ed25519SignOpen aead) {} ins
    (∀ i, (w.table.identities i).verified = true →
      (w.session i).inUse = true ∧
      peerIdOf sha256 (w.table.identities i).noiseKey = (w.table.identities i).peerId ∧
      ∃ evt ∈ heardSince sha256 ed25519SignOpen aead ins i,
        evt.connHandle = (w.session i).connHandle ∧
        Announced sha256 ed25519SignOpen evt (w.table.identities i)) ∧
    (∀ i, (w.session i).inUse = false → w.table.identities i = {}) ∧
    ∀ conn i w', findSession w.table conn = none → w.alloc conn = some (i, w') →
      w'.table.identities i = {} := by
  intro w
  have hinit : HeardInv sha256 ed25519SignOpen (({}, fun _ => []) : HeardWorker H K) :=
    ⟨fun _ _ => rfl, fun _ hver => nomatch hver⟩
  have hinv : HeardInv sha256 ed25519SignOpen
      (final (hearStep sha256 ed25519SignOpen aead) ({}, fun _ => []) ins) :=
    invariant_final (HeardInv sha256 ed25519SignOpen) (fun _ x h => h.step x) hinit ins
  obtain ⟨hblank, hrests⟩ := hinv
  rw [final_hearStep_fst] at hblank hrests
  refine ⟨fun i hver => ?_, hblank, fun conn i w' hfind ha => ?_⟩
  · obtain ⟨hused, evt, hmem, hconn, hproof⟩ := hrests i hver
    exact ⟨hused, hproof.peer, evt, hmem, hconn, hproof⟩
  · rcases alloc_cases ha with ⟨hsome, -⟩ | ⟨-, hfree, rfl⟩
    · rw [hfind] at hsome
      cases hsome
    · exact hblank i hfree

end Bitle
