import Bitle.Noise.Heard

/-!
# Bitle — duplicate links (`process_announce_event` of `main/noise_handshake.c`)

Two nodes can dial each other at once. A direct announce looks for another session that carries the
announcer's ID, and the node with the higher ID hangs up the leg it dialed. The sessions are
those of the BLE links and of the LoRa trunk together, and the search does not tell them apart.

`announcePair` is the pair the rule looks at, on the table before the event, and
`disconnects_processAnnounceEvent` what it hangs up. `TwoNodes` is the system the rule is for.
-/

namespace Bitle

open Wire Run

variable {H K : Type}

/-! ## Hanging up -/

/-- `BITLE_LORA_LINK_HANDLE`. -/
def bitleLoraLinkHandle : UInt16 := 0x4000

/-- The connection a call hangs up. -/
def NoiseCall.victim : NoiseCall → Option UInt16
  | .disconnect connHandle => some connHandle
  | _ => none

/-- The connections the worker has hung up. -/
def NoiseWorker.disconnects (w : NoiseWorker H K) : List UInt16 := w.log.filterMap NoiseCall.victim

/-- Nothing is hung up. -/
def Quiet (w w' : NoiseWorker H K) : Prop := w'.disconnects = w.disconnects

theorem Quiet.refl (w : NoiseWorker H K) : Quiet w w := rfl

theorem Quiet.trans {w w' w'' : NoiseWorker H K} (h : Quiet w w') (h' : Quiet w' w'') :
    Quiet w w'' :=
  Eq.trans h' h

theorem disconnects_call (w : NoiseWorker H K) (c : NoiseCall) :
    (w.call c).disconnects = w.disconnects ++ c.victim.toList := by
  unfold NoiseWorker.disconnects NoiseWorker.call
  rw [List.filterMap_append]
  cases c <;> rfl

theorem quiet_call (w : NoiseWorker H K) {c : NoiseCall} (h : c.victim = none) :
    Quiet w (w.call c) := by
  unfold Quiet
  rw [disconnects_call, h]
  exact List.append_nil _

section Quiet

variable (env : NoiseEnv H K)

theorem quiet_sendAnnounce (w : NoiseWorker H K) (i : Fin noiseMaxSessions) :
    Quiet w (sendAnnounce env w i).2 := by
  unfold sendAnnounce trySend
  dsimp only
  split
  · exact Quiet.refl w
  · split
    · exact quiet_call w rfl
    · split
      · exact (quiet_call w rfl).trans (quiet_call _ rfl)
      · exact (quiet_call w rfl).trans (quiet_call _ rfl)

theorem quiet_sendIdentityAnnounce (w : NoiseWorker H K) (i : Fin noiseMaxSessions) :
    Quiet w (sendIdentityAnnounce env w i).2 := by
  unfold sendIdentityAnnounce trySend
  split
  · exact Quiet.refl w
  · exact quiet_call w rfl

theorem quiet_trySendIdentity (w : NoiseWorker H K) (i : Fin noiseMaxSessions) :
    Quiet w (trySendIdentity env w i).2 := by
  unfold trySendIdentity
  split
  · exact Quiet.refl w
  · split
    · exact Quiet.refl w
    · split
      · exact Quiet.refl w
      · split
        · exact Quiet.refl w
        · dsimp only
          have h := quiet_sendAnnounce env w i
          split
          · exact h
          · exact h.trans (quiet_sendIdentityAnnounce env _ i)

theorem quiet_offerIdentity (w : NoiseWorker H K) (connHandle : UInt16) :
    Quiet w (offerIdentity env w connHandle) := by
  unfold offerIdentity
  split
  · exact Quiet.refl w
  · split
    · exact Quiet.refl w
    · exact quiet_trySendIdentity env _ _

theorem quiet_notifyAnnounce (w : NoiseWorker H K) (evt : NoiseEvent) (ident : NoiseIdentity)
    (isDirect : Bool) : Quiet w (notifyAnnounce env w evt ident isDirect) := by
  unfold notifyAnnounce
  dsimp only
  have h : Quiet w (((w.call .markHealthy).call (.peerVersionSeen evt.connHandle evt.peerId
      ident.fwVersion)).call (.courierPeerAnnounced evt.connHandle evt.peerId ident.noiseKey
        isDirect env.nowMs)) := by
    refine Quiet.trans ?_ (quiet_call _ rfl)
    refine Quiet.trans ?_ (quiet_call _ rfl)
    exact quiet_call w rfl
  split
  · exact h.trans (quiet_call _ rfl)
  · exact h

theorem quiet_noiseBeginHandshake (w : NoiseWorker H K) (connHandle : UInt16) (peer : PeerId) :
    Quiet w (noiseBeginHandshake w connHandle peer) := by
  unfold noiseBeginHandshake
  split
  · exact quiet_call w rfl
  · split
    · exact Quiet.refl w
    · exact quiet_call w rfl

theorem quiet_maintainSession (w : NoiseWorker H K) (i : Fin noiseMaxSessions) :
    Quiet w (maintainSession env w i) := by
  have hidentity : ∀ w : NoiseWorker H K, Quiet w (maintainIdentity env w i) := by
    intro w
    unfold maintainIdentity
    split
    · exact quiet_trySendIdentity env w i
    · exact Quiet.refl w
  have hhandshake : ∀ w : NoiseWorker H K, Quiet w (maintainHandshake env w i) := by
    intro w
    unfold maintainHandshake
    dsimp only
    split
    · exact quiet_noiseBeginHandshake _ _ _
    · exact Quiet.refl w
  have hagain : ∀ w : NoiseWorker H K, Quiet w (reannounce env w i) := by
    intro w
    have h := quiet_sendAnnounce env w i
    unfold reannounce
    dsimp only
    split
    · exact h
    · have h' := h.trans (quiet_sendIdentityAnnounce env _ i)
      split
      · exact h'
      · exact h'
  have hperiodic : ∀ w : NoiseWorker H K, Quiet w (announcePeriodically env w i) := by
    intro w
    unfold announcePeriodically
    split
    · exact quiet_sendAnnounce env w i
    · exact Quiet.refl w
  have htick : ∀ w : NoiseWorker H K, Quiet w (tickSync env w i) := by
    intro w
    unfold tickSync
    split
    · exact quiet_call w rfl
    · exact Quiet.refl w
  -- no part of a pass hangs up, so the pass does not
  unfold maintainSession
  split
  · exact Quiet.refl w
  · split
    · exact Quiet.refl w
    · have h := (hidentity w).trans (hhandshake _)
      dsimp only
      split
      · exact h.trans (hagain _)
      · exact (h.trans (hperiodic _)).trans (htick _)

theorem quiet_pollSessionMaintenance (w : NoiseWorker H K) :
    Quiet w (pollSessionMaintenance env w) := by
  have hfold : ∀ (l : List (Fin noiseMaxSessions)) (w : NoiseWorker H K),
      Quiet w (l.foldl (maintainSession env) w) := by
    intro l
    induction l with
    | nil => exact fun w => Quiet.refl w
    | cons i l ih => exact fun w => (quiet_maintainSession env w i).trans (ih _)
  unfold pollSessionMaintenance
  split
  · exact Quiet.refl w
  · exact hfold _ _

theorem quiet_processDisconnectEvent (w : NoiseWorker H K) (evt : NoiseEvent) :
    Quiet w (processDisconnectEvent w evt) := by
  unfold processDisconnectEvent
  split
  · exact Quiet.refl w
  · exact Quiet.refl w

end Quiet

/-! ## Handles -/

section Handles

variable {sha256 : List UInt8 → Bytes 32}
  {ed25519SignOpen : List UInt8 → Bytes 32 → Bytes 64 → Bool} {w w' : NoiseWorker H K}
  {evt : NoiseEvent}

/-- No two used sessions have the same handle. -/
def HandlesDistinct (w : NoiseWorker H K) : Prop :=
  ∀ i j, (w.slot i).inUse = true → (w.slot j).inUse = true →
    (w.slot i).connHandle = (w.slot j).connHandle → i = j

/-- A slot that is allocated gets a handle no other has. -/
theorem HandlesDistinct.step (h : HandlesDistinct w) {new : Fin noiseMaxSessions → Bool}
    (hstep : ∀ i, SlotStep sha256 ed25519SignOpen evt (new i) (w.slot i) (w'.slot i))
    (hnew : ∀ i, new i = true → ∀ j, (w.slot j).inUse = true →
      (w.slot j).connHandle ≠ evt.connHandle)
    (hone : ∀ i j, new i = true → new j = true → i = j) : HandlesDistinct w' := by
  intro i j hi hj hconn
  rcases (hstep i).handle hi with ⟨-, hused, hsame⟩ | ⟨hnewi, hconni⟩
  · rcases (hstep j).handle hj with ⟨-, hused', hsame'⟩ | ⟨hnewj, hconnj⟩
    · exact h i j hused hused' (hsame.symm.trans (hconn.trans hsame'))
    · exact absurd (hsame.symm.trans (hconn.trans hconnj)) (hnew j hnewj i hused)
  · rcases (hstep j).handle hj with ⟨-, hused', hsame'⟩ | ⟨hnewj, -⟩
    · exact absurd (hsame'.symm.trans (hconn.symm.trans hconni)) (hnew i hnewi j hused')
    · exact hone i j hnewi hnewj

theorem findSession_eq_none {t : SessionTable H K} {connHandle : UInt16} :
    findSession t connHandle = none ↔
      ∀ i, (t.sessions i).inUse = true → (t.sessions i).connHandle ≠ connHandle := by
  unfold findSession
  rw [List.find?_eq_none]
  constructor
  · intro h i hused hconn
    exact h i (List.mem_finRange i) (by rw [hused, hconn, beq_self_eq_true]; rfl)
  · intro h i _ hi
    rw [Bool.and_eq_true] at hi
    exact h i hi.1 (beq_iff_eq.mp hi.2)

theorem HandlesDistinct.fresh (h : HandlesDistinct w)
    (hstep : ∀ i, SlotStep sha256 ed25519SignOpen evt
      (freshSlot w.table evt.connHandle == some i) (w.slot i) (w'.slot i)) :
    HandlesDistinct w' := by
  apply h.step hstep
  · intro i hi
    have hfresh := beq_iff_eq.mp hi
    unfold freshSlot at hfresh
    split at hfresh
    · cases hfresh
    · next hnone => exact findSession_eq_none.mp hnone
  · intro i j hi hj
    exact Option.some.inj ((beq_iff_eq.mp hi).symm.trans (beq_iff_eq.mp hj))

theorem HandlesDistinct.old (h : HandlesDistinct w)
    (hstep : ∀ i, SlotStep sha256 ed25519SignOpen evt false (w.slot i) (w'.slot i)) :
    HandlesDistinct w' :=
  h.step hstep nofun nofun

variable (env : NoiseEnv H K)

/-- **One event** keeps the handles apart. -/
theorem HandlesDistinct.event (aead : Aead K) (h : HandlesDistinct w) (hw : FreeBlank w)
    (evt : NoiseEvent) :
    HandlesDistinct (processEvent env sha256 ed25519SignOpen aead w evt) := by
  have hall : ∀ j, SlotStep sha256 ed25519SignOpen evt
      (allocatedSlot sha256 ed25519SignOpen w evt == some j) (w.slot j)
      ((processEvent env sha256 ed25519SignOpen aead w evt).slot j) :=
    slotStep_processEvent env aead hw evt
  unfold allocatedSlot at hall
  cases htype : evt.type with
  | announce =>
    rw [htype] at hall
    dsimp only at hall
    split at hall
    · exact h.old hall
    · split at hall
      · exact h.fresh hall
      · exact h.old hall
  | subscribed =>
    -- the slot of the handle is freed before another is taken
    have hdrop : ∀ j, SlotStep sha256 ed25519SignOpen evt false (w.slot j)
        ((processDisconnectEvent w evt).slot j) := slotStep_disconnect w evt
    have htake : ∀ j, SlotStep sha256 ed25519SignOpen evt
        (freshSlot (processDisconnectEvent w evt).table evt.connHandle == some j)
        ((processDisconnectEvent w evt).slot j) ((processSubscribedEvent env w evt).slot j) :=
      slotStep_resubscribed env (hw.disconnect evt)
    unfold processEvent
    rw [htype]
    exact (h.old hdrop).fresh htake
  | start | process | identity =>
    rw [htype] at hall
    exact h.fresh hall
  | encrypted | courier | sync | disconnect =>
    rw [htype] at hall
    exact h.old hall

theorem HandlesDistinct.of_sameBinding (h : HandlesDistinct w) (hsame : SameBinding w w') :
    HandlesDistinct w' := by
  intro i j
  rw [hsame.slot i, hsame.slot j]
  exact h i j

/-- **One round** keeps free slots blank and the handles apart. -/
theorem HandlesDistinct.round (sha256 : List UInt8 → Bytes 32)
    (ed25519SignOpen : List UInt8 → Bytes 32 → Bytes 64 → Bool) (aead : Aead K)
    (h : HandlesDistinct w) (hw : FreeBlank w) (x : NoiseInput H K) :
    FreeBlank (noiseStep sha256 ed25519SignOpen aead w x) ∧
      HandlesDistinct (noiseStep sha256 ed25519SignOpen aead w x) := by
  obtain ⟨env, evt⟩ := x
  unfold noiseStep handshakeTask
  have hpoll : ∀ w : NoiseWorker H K, SameBinding w (pollSessionMaintenance env w) :=
    sameBinding_pollSessionMaintenance env
  cases evt with
  | none =>
    refine ⟨fun i => ?_, h.of_sameBinding (hpoll w)⟩
    rw [(hpoll w).slot]
    exact hw i
  | some evt =>
    have hblank : FreeBlank (processEvent env sha256 ed25519SignOpen aead w evt) :=
      hw.step fun i => ⟨_, slotStep_processEvent env aead hw evt i⟩
    refine ⟨fun i => ?_, (h.event env aead hw evt).of_sameBinding (hpoll _)⟩
    rw [(hpoll _).slot]
    exact hblank i

/-- **In every state the worker reaches**, a free slot is blank and the handles are apart. -/
theorem handlesDistinct_run (sha256 : List UInt8 → Bytes 32)
    (ed25519SignOpen : List UInt8 → Bytes 32 → Bytes 64 → Bool) (aead : Aead K)
    (ins : List (NoiseInput H K)) :
    HandlesDistinct (final (noiseStep sha256 ed25519SignOpen aead) {} ins) := by
  have hinit : FreeBlank ({} : NoiseWorker H K) ∧ HandlesDistinct ({} : NoiseWorker H K) :=
    ⟨fun _ _ => rfl, fun _ _ hi => nomatch hi⟩
  exact (invariant_final (fun w => FreeBlank w ∧ HandlesDistinct w)
    (fun _ x h => h.2.round sha256 ed25519SignOpen aead h.1 x) hinit ins).2

end Handles

/-! ## What a session says about its link -/

/-- The handle of a used session and the peer it is bound to. -/
structure NoiseLink where
  inUse : Bool
  connHandle : UInt16
  peerId : PeerId
  deriving DecidableEq

def NoiseWorker.link (w : NoiseWorker H K) (i : Fin noiseMaxSessions) : NoiseLink :=
  ⟨(w.session i).inUse, (w.session i).connHandle, (w.session i).peerId⟩

theorem SameBinding.link {w w' : NoiseWorker H K} (h : SameBinding w w')
    (i : Fin noiseMaxSessions) : w'.link i = w.link i := by
  unfold NoiseWorker.link
  rw [h.inUse, h.connHandle, h.peerId]

/-- A link with its peer bound, if it was unknown. -/
def NoiseLink.bound (l : NoiseLink) (p : PeerId) : NoiseLink :=
  if l.peerId = zeros 8 then { l with peerId := p } else l

theorem link_bindUnknown (w : NoiseWorker H K) (i j : Fin noiseMaxSessions) (p : PeerId) :
    (bindUnknown w i p).link j = if j = i then (w.link i).bound p else w.link j := by
  unfold bindUnknown NoiseLink.bound
  by_cases hj : j = i
  · subst hj
    rw [if_pos rfl]
    show _ = if (w.session j).peerId = zeros 8 then _ else _
    split
    · unfold NoiseWorker.link
      rw [session_setSession, if_pos rfl]
    · rfl
  · rw [if_neg hj]
    split
    · unfold NoiseWorker.link
      rw [session_setSession, if_neg hj]
    · rfl

@[simp] theorem NoiseLink.bound_inUse (l : NoiseLink) (p : PeerId) :
    (l.bound p).inUse = l.inUse := by
  unfold NoiseLink.bound
  split
  · rfl
  · rfl

@[simp] theorem NoiseLink.bound_connHandle (l : NoiseLink) (p : PeerId) :
    (l.bound p).connHandle = l.connHandle := by
  unfold NoiseLink.bound
  split
  · rfl
  · rfl

/-! ## The rule -/

section Rule

variable (sha256 : List UInt8 → Bytes 32)
variable (ed25519SignOpen : List UInt8 → Bytes 32 → Bytes 64 → Bool) (env : NoiseEnv H K)

/-- The slot an announce records its link in: it is direct, its payload parses, and its sender is
derived from the key it carries. -/
def announceSlot (w : NoiseWorker H K) (evt : NoiseEvent) : Option (Fin noiseMaxSessions) :=
  match parseAnnounceTlv evt.payload with
  | none => none
  | some ident =>
    if (verifyAnnounceEvent sha256 ed25519SignOpen evt ident).isSome &&
        evt.ttl == noisePacketTtl then (allocSession w.table evt.connHandle).map Prod.fst
    else none

/-- **The other link of the pair**: the first other session that carries the announcer's ID. -/
def announcePair (w : NoiseWorker H K) (evt : NoiseEvent) : Option (Fin noiseMaxSessions) :=
  (announceSlot sha256 ed25519SignOpen w evt).bind fun i => duplicateOf w.table i evt.peerId

/-- What is hung up of the pair of the announcing link and `other`. -/
def hangsUp (env : NoiseEnv H K) (evt : NoiseEvent) (other : UInt16) : Option UInt16 :=
  if peerGt env.localPeerId evt.peerId then
    let victim := if env.connCentral evt.connHandle then evt.connHandle
      else if env.connCentral other then other else 0xFFFF
    if victim ≠ 0xFFFF then some victim else none
  else none

variable {sha256 ed25519SignOpen}

/-- The leg the node dialed is hung up, the announcing link before the other one. -/
theorem hangsUp_eq_some {evt : NoiseEvent} {other victim : UInt16} :
    hangsUp env evt other = some victim ↔
      peerGt env.localPeerId evt.peerId = true ∧ victim ≠ 0xFFFF ∧
        ((env.connCentral evt.connHandle = true ∧ victim = evt.connHandle) ∨
          (env.connCentral evt.connHandle = false ∧ env.connCentral other = true ∧
            victim = other)) := by
  unfold hangsUp
  cases hgt : peerGt env.localPeerId evt.peerId with
  | false => exact iff_of_false nofun fun h => nomatch h.1
  | true =>
    dsimp only
    rw [if_pos rfl, Option.ite_none_right_eq_some, Option.some.injEq]
    -- the announcing link is hung up if the node dialed it, or else the other one if it dialed that
    cases hcentral : env.connCentral evt.connHandle with
    | true =>
      rw [if_pos rfl]
      constructor
      · rintro ⟨hvalid, rfl⟩
        exact ⟨rfl, hvalid, .inl ⟨rfl, rfl⟩⟩
      · rintro ⟨-, hvalid, ⟨-, rfl⟩ | ⟨hfalse, -⟩⟩
        · exact ⟨hvalid, rfl⟩
        · cases hfalse
    | false =>
      rw [if_neg (by decide)]
      cases hother : env.connCentral other with
      | true =>
        rw [if_pos rfl]
        constructor
        · rintro ⟨hvalid, rfl⟩
          exact ⟨rfl, hvalid, .inr ⟨rfl, rfl, rfl⟩⟩
        · rintro ⟨-, hvalid, ⟨hfalse, -⟩ | ⟨-, -, rfl⟩⟩
          · cases hfalse
          · exact ⟨hvalid, rfl⟩
      | false =>
        rw [if_neg (by decide)]
        refine iff_of_false (fun h => h.1 rfl) ?_
        rintro ⟨-, -, ⟨hfalse, -⟩ | ⟨-, hfalse, -⟩⟩
        · cases hfalse
        · cases hfalse

/-- The search only looks at other slots. -/
theorem duplicateOf_congr {w w' : NoiseWorker H K} {i : Fin noiseMaxSessions} {peer : PeerId}
    (h : ∀ j, j ≠ i → w'.link j = w.link j) :
    duplicateOf w'.table i peer = duplicateOf w.table i peer := by
  unfold duplicateOf
  congr 1
  funext j
  by_cases hj : j = i
  · rw [hj, bne_self_eq_false]
    rfl
  · have hlink := h j hj
    unfold NoiseWorker.link NoiseWorker.session at hlink
    rw [(NoiseLink.mk.inj hlink).1, (NoiseLink.mk.inj hlink).2.2]

theorem disconnects_dropDuplicate (w : NoiseWorker H K) (i : Fin noiseMaxSessions)
    {evt : NoiseEvent} (hconn : (w.session i).connHandle = evt.connHandle) :
    (dropDuplicate env w i evt.peerId).disconnects =
      w.disconnects ++ ((duplicateOf w.table i evt.peerId).bind fun j =>
        hangsUp env evt (w.session j).connHandle).toList := by
  unfold dropDuplicate
  cases duplicateOf w.table i evt.peerId with
  | none => exact (List.append_nil _).symm
  | some j =>
    dsimp only
    rw [Option.bind_some, hangsUp, hconn]
    dsimp only
    generalize (if env.connCentral evt.connHandle = true then evt.connHandle
      else if env.connCentral (w.session j).connHandle = true then (w.session j).connHandle
      else 0xFFFF) = victim
    split
    · split
      · rw [disconnects_call]
        rfl
      · exact (List.append_nil _).symm
    · exact (List.append_nil _).symm

/-- **Recording an announce**: the link is bound while its peer is unknown, and what the pair has
to give up is hung up. -/
theorem recordAnnounce_spec {w : NoiseWorker H K} {i : Fin noiseMaxSessions} {evt : NoiseEvent}
    (ident : NoiseIdentity) (sigOk : Bool)
    (hconn : (w.session i).connHandle = evt.connHandle) :
    (recordAnnounce env w i evt ident sigOk).disconnects =
      w.disconnects ++ ((duplicateOf w.table i evt.peerId).bind fun j =>
        hangsUp env evt (w.session j).connHandle).toList ∧
    ∀ j, (recordAnnounce env w i evt ident sigOk).link j =
      if j = i then (w.link i).bound evt.peerId else w.link j := by
  unfold recordAnnounce
  dsimp only
  generalize hw₂ : (if (!(w.table.identities i).verified || sigOk) = true then
    w.setIdentity i { ident with
      valid := true, verified := sigOk, timestampMs := evt.timestampMs, peerId := evt.peerId }
    else w) = w₂
  -- recording the identity touches neither links nor hang-ups
  have hlink₂ : ∀ j, w₂.link j = w.link j := by
    intro j
    rw [← hw₂]
    split
    · rfl
    · rfl
  have hquiet₂ : w₂.disconnects = w.disconnects := by
    rw [← hw₂]
    split
    · rfl
    · rfl
  have hlink : ∀ j, (bindUnknown (w₂.setSession i { w₂.session i with directPeer := true }) i
      evt.peerId).link j = if j = i then (w.link i).bound evt.peerId else w.link j := by
    intro j
    rw [link_bindUnknown, (sameBinding_directPeer w₂ i).link, (sameBinding_directPeer w₂ i).link,
      hlink₂, hlink₂]
  have hquiet : (bindUnknown (w₂.setSession i { w₂.session i with directPeer := true }) i
      evt.peerId).disconnects = w.disconnects := by
    unfold bindUnknown
    split
    · exact hquiet₂
    · exact hquiet₂
  generalize bindUnknown (w₂.setSession i { w₂.session i with directPeer := true }) i
    evt.peerId = w₄ at hlink hquiet
  -- binding the link keeps its handle, by which the duplicate is sought
  have hhandle : ∀ j, (w₄.session j).connHandle = (w.session j).connHandle := by
    intro j
    have hj := congrArg NoiseLink.connHandle (hlink j)
    by_cases hji : j = i
    · rw [if_pos hji, NoiseLink.bound_connHandle] at hj
      rw [hji]
      rw [hji] at hj
      exact hj
    · rw [if_neg hji] at hj
      exact hj
  refine ⟨?_, fun j => ?_⟩
  · rw [disconnects_dropDuplicate env w₄ i ((hhandle i).trans hconn), hquiet,
      duplicateOf_congr fun j hj => (hlink j).trans (if_neg hj)]
    simp only [hhandle]
  · rw [(sameBinding_dropDuplicate env w₄ i evt.peerId).link, hlink]

theorem link_alloc_of_ne {w w₁ : NoiseWorker H K} {conn : UInt16} {i j : Fin noiseMaxSessions}
    (h : w.alloc conn = some (i, w₁)) (hj : j ≠ i) : w₁.link j = w.link j := by
  rcases alloc_cases h with ⟨-, rfl⟩ | ⟨-, -, rfl⟩
  · rfl
  · have hsession : ((w.setSession i { inUse := true, connHandle := conn }).setPending i
        false).session j = w.session j := by
      show (w.setSession i _).session j = _
      rw [session_setSession, if_neg hj]
    unfold NoiseWorker.link
    rw [hsession]

/-- The first hit of the search is another used session with the announcer's ID. -/
theorem duplicateOf_eq_some {w : NoiseWorker H K} {i j : Fin noiseMaxSessions} {peer : PeerId}
    (h : duplicateOf w.table i peer = some j) :
    j ≠ i ∧ (w.link j).inUse = true ∧ (w.link j).peerId = peer := by
  have hj := List.find?_some h
  simp only [Bool.and_eq_true, bne_iff_ne, beq_iff_eq] at hj
  exact ⟨hj.1.1, hj.1.2, hj.2⟩

theorem duplicateOf_eq_none {w : NoiseWorker H K} {i : Fin noiseMaxSessions} {peer : PeerId} :
    duplicateOf w.table i peer = none ↔
      ∀ j, j ≠ i → (w.link j).inUse = true → (w.link j).peerId ≠ peer := by
  unfold duplicateOf
  rw [List.find?_eq_none]
  constructor
  · intro h j hj hused hpeer
    refine h j (List.mem_finRange j) ?_
    simp only [Bool.and_eq_true, bne_iff_ne, beq_iff_eq]
    exact ⟨⟨hj, hused⟩, hpeer⟩
  · intro h j _ hj
    simp only [Bool.and_eq_true, bne_iff_ne, beq_iff_eq] at hj
    exact h j hj.1.1 hj.1.2 hj.2

/-- **What an announce hangs up**, on the table before it. -/
theorem disconnects_processAnnounceEvent (w : NoiseWorker H K) (evt : NoiseEvent) :
    (processAnnounceEvent env sha256 ed25519SignOpen w evt).disconnects =
      w.disconnects ++ ((announcePair sha256 ed25519SignOpen w evt).bind fun j =>
        hangsUp env evt (w.session j).connHandle).toList := by
  unfold processAnnounceEvent announcePair announceSlot
  dsimp only
  cases hparse : parseAnnounceTlv evt.payload with
  | none =>
    rw [Option.bind_none, Option.bind_none, Option.toList_none, List.append_nil]
    -- not an announce: only our own identity may be offered
    exact quiet_offerIdentity env w evt.connHandle
  | some ident =>
    dsimp only
    cases hverify : verifyAnnounceEvent sha256 ed25519SignOpen evt ident with
    | none => exact (List.append_nil _).symm
    | some sigOk =>
      dsimp only
      refine Eq.trans (quiet_offerIdentity env _ evt.connHandle) ?_
      rw [Option.isSome_some, Bool.true_and]
      -- what is told and logged first leaves the table and the hang-ups alone
      generalize hw₀ : (if sigOk = true then
        notifyAnnounce env w evt ident (evt.ttl == noisePacketTtl) else w) = w₀
      have htable : w₀.table = w.table := by
        rw [← hw₀]
        split
        · exact table_notifyAnnounce env w evt ident _
        · rfl
      have hquiet : w₀.disconnects = w.disconnects := by
        rw [← hw₀]
        split
        · exact quiet_notifyAnnounce env w evt ident _
        · rfl
      have hsession : ∀ j, w₀.session j = w.session j := by
        intro j
        unfold NoiseWorker.session
        rw [htable]
      by_cases hdirect : (evt.ttl == noisePacketTtl) = true
      · rw [if_pos hdirect, if_pos hdirect, ← htable]
        -- heard directly: the slot of the link is looked up or taken, then the duplicates are sought
        cases ha : w₀.alloc evt.connHandle with
        | none =>
          have hnone : allocSession w₀.table evt.connHandle = none := by
            simpa [NoiseWorker.alloc] using ha
          rw [hnone]
          rw [hquiet]
          exact (List.append_nil _).symm
        | some x =>
          obtain ⟨i, w₁⟩ := x
          have hsome : (allocSession w₀.table evt.connHandle).map Prod.fst = some i := by
            unfold NoiseWorker.alloc at ha
            obtain ⟨x, hx, hxi⟩ := Option.map_eq_some_iff.mp ha
            rw [hx, Option.map_some, (Prod.mk.inj hxi).1]
          have hquiet₁ : w₁.disconnects = w₀.disconnects := by
            rcases alloc_cases ha with ⟨-, rfl⟩ | ⟨-, -, rfl⟩
            · rfl
            · rfl
          rw [hsome, Option.bind_some, ← hquiet, ← hquiet₁]
          dsimp only
          rw [(recordAnnounce_spec env ident sigOk (slot_alloc_self ha).2).1,
            duplicateOf_congr fun j hj => link_alloc_of_ne ha hj]
          cases hdup : duplicateOf w₀.table i evt.peerId with
          | none => rfl
          | some j =>
            have hj := link_alloc_of_ne ha (duplicateOf_eq_some hdup).1
            rw [Option.bind_some, Option.bind_some, ← hsession]
            exact congrArg (fun l : NoiseLink => w₁.disconnects ++
              (hangsUp env evt l.connHandle).toList) hj
      · rw [if_neg hdirect, if_neg hdirect, hquiet]
        exact (List.append_nil _).symm

/-! ### One node -/

theorem announceSlot_alloc {w : NoiseWorker H K} {evt : NoiseEvent} {i : Fin noiseMaxSessions}
    (h : announceSlot sha256 ed25519SignOpen w evt = some i) :
    ∃ w₁, w.alloc evt.connHandle = some (i, w₁) := by
  unfold announceSlot at h
  split at h
  · cases h
  · split at h
    · obtain ⟨x, hx, rfl⟩ := Option.map_eq_some_iff.mp h
      refine ⟨{ w with table := x.2 }, ?_⟩
      unfold NoiseWorker.alloc
      rw [hx]
      rfl
    · cases h

/-- The two links of a pair. -/
theorem announcePair_spec {w : NoiseWorker H K} (hw : HandlesDistinct w) {evt : NoiseEvent}
    {j : Fin noiseMaxSessions} (h : announcePair sha256 ed25519SignOpen w evt = some j) :
    (w.session j).connHandle ≠ evt.connHandle ∧ (w.session j).peerId = evt.peerId := by
  obtain ⟨i, hslot, hdup⟩ := Option.bind_eq_some_iff.mp h
  obtain ⟨hne, hused, hpeer⟩ := duplicateOf_eq_some hdup
  obtain ⟨w₁, ha⟩ := announceSlot_alloc hslot
  refine ⟨fun hconn => ?_, hpeer⟩
  rcases alloc_cases ha with ⟨hfind, rfl⟩ | ⟨hfind, -⟩
  · obtain ⟨hused', hconn'⟩ := slot_alloc_self ha
    exact hne (hw j i hused hused' (Eq.trans hconn hconn'.symm))
  · exact findSession_eq_none.mp hfind j hused hconn

/-- Where the handles lead: the peer at the far end of each BLE connection. The trunk is none. -/
structure BleLinks where
  far : UInt16 → Option PeerId
  trunk : far bitleLoraLinkHandle = none

/-- The announcer has a BLE link beside the pair of the announcing link and `other`. -/
def BleLinks.third (ble : BleLinks) (evt : NoiseEvent) (other : UInt16) : Prop :=
  ∃ c, c ≠ evt.connHandle ∧ c ≠ other ∧ ble.far c = some evt.peerId

variable (sha256 ed25519SignOpen) in
/-- **The leg that stays is a BLE link to the announcer.** Where the node has the higher ID and
dialed the link the announce came in on, the session it is paired with names the peer at the far
end of its BLE link: it is not the trunk's, and no relayed identity or foreign handshake gave it
the announcer's name. Where it dialed the other link of the pair, the announce came in over BLE.
A third link to the announcer does as well. -/
def LegStays (ble : BleLinks) (w : NoiseWorker H K) (evt : NoiseEvent) : Prop :=
  ∀ j, announcePair sha256 ed25519SignOpen w evt = some j →
    peerGt env.localPeerId evt.peerId = true →
    (env.connCentral evt.connHandle = true → evt.connHandle ≠ 0xFFFF →
      ble.far (w.session j).connHandle = some (w.session j).peerId ∨
        ble.third evt (w.session j).connHandle) ∧
    (env.connCentral evt.connHandle = false → env.connCentral (w.session j).connHandle = true →
      (w.session j).connHandle ≠ 0xFFFF →
      ble.far evt.connHandle = some evt.peerId ∨ ble.third evt (w.session j).connHandle)

/-- An announce only hangs up a link where another BLE link to the announcer is left, exactly
where the leg that stays is one. -/
theorem legStays_iff {w : NoiseWorker H K} (hw : HandlesDistinct w) (ble : BleLinks)
    (evt : NoiseEvent) :
    (∀ victim, (processAnnounceEvent env sha256 ed25519SignOpen w evt).disconnects =
        w.disconnects ++ [victim] → ∃ c, c ≠ victim ∧ ble.far c = some evt.peerId) ↔
      LegStays sha256 ed25519SignOpen env ble w evt := by
  rw [disconnects_processAnnounceEvent]
  constructor
  · intro h j hpair hgt
    obtain ⟨hconn, hpeer⟩ := announcePair_spec hw hpair
    rw [hpair, Option.bind_some] at h
    -- where the code hangs up, another link to the announcer is left by assumption
    refine ⟨fun hcentral hvalid => ?_, fun hcentral hother hvalid => ?_⟩
    · have hhang : hangsUp env evt (w.session j).connHandle = some evt.connHandle :=
        (hangsUp_eq_some env).mpr ⟨hgt, hvalid, .inl ⟨hcentral, rfl⟩⟩
      obtain ⟨c, hc, hfar⟩ := h evt.connHandle (by rw [hhang]; rfl)
      by_cases hcj : c = (w.session j).connHandle
      · left
        rw [← hcj, hpeer]
        exact hfar
      · exact .inr ⟨c, hc, hcj, hfar⟩
    · have hhang := (hangsUp_eq_some env).mpr ⟨hgt, hvalid, .inr ⟨hcentral, hother, rfl⟩⟩
      obtain ⟨c, hc, hfar⟩ := h (w.session j).connHandle (by rw [hhang]; rfl)
      by_cases hce : c = evt.connHandle
      · left
        rw [← hce]
        exact hfar
      · exact .inr ⟨c, hce, hc, hfar⟩
  · intro h victim hvictim
    -- what is hung up is the victim of the pair, and the other leg is left
    have hsome := List.append_cancel_left hvictim
    rw [Option.toList_eq_singleton_iff, Option.bind_eq_some_iff] at hsome
    obtain ⟨j, hpair, hhang⟩ := hsome
    obtain ⟨hconn, hpeer⟩ := announcePair_spec hw hpair
    obtain ⟨hgt, hvalid, ⟨hcentral, rfl⟩ | ⟨hcentral, hother, rfl⟩⟩ :=
      (hangsUp_eq_some env).mp hhang
    · rcases (h j hpair hgt).1 hcentral hvalid with hfar | ⟨c, hc, -, hfar⟩
      · exact ⟨_, hconn, by rw [hfar, hpeer]⟩
      · exact ⟨c, hc, hfar⟩
    · rcases (h j hpair hgt).2 hcentral hother hvalid with hfar | ⟨c, -, hc, hfar⟩
      · exact ⟨_, Ne.symm hconn, hfar⟩
      · exact ⟨c, hc, hfar⟩

/-- The session of a used handle. -/
theorem findSession_of_link {w : NoiseWorker H K} (hw : HandlesDistinct w)
    {i : Fin noiseMaxSessions} (hused : (w.link i).inUse = true) :
    findSession w.table (w.link i).connHandle = some i := by
  cases hfind : findSession w.table (w.link i).connHandle with
  | none => exact absurd rfl (findSession_eq_none.mp hfind i hused)
  | some j =>
    have hj := List.find?_some hfind
    rw [Bool.and_eq_true] at hj
    rw [hw j i hj.1 hused (beq_iff_eq.mp hj.2)]

/-- **An announce on a link that has a session** binds it while its peer is unknown, and changes no
other link. -/
theorem link_processAnnounceEvent {w : NoiseWorker H K} {evt : NoiseEvent}
    {i : Fin noiseMaxSessions} {ident : NoiseIdentity}
    (hfind : findSession w.table evt.connHandle = some i)
    (hparse : parseAnnounceTlv evt.payload = some ident)
    (hverify : (verifyAnnounceEvent sha256 ed25519SignOpen evt ident).isSome = true)
    (hdirect : evt.ttl = noisePacketTtl) :
    announceSlot sha256 ed25519SignOpen w evt = some i ∧
    ∀ j, (processAnnounceEvent env sha256 ed25519SignOpen w evt).link j =
      if j = i then (w.link i).bound evt.peerId else w.link j := by
  -- the link has a slot, so none is taken
  have halloc : ∀ w₀ : NoiseWorker H K, w₀.table = w.table →
      w₀.alloc evt.connHandle = some (i, w₀) := by
    intro w₀ htable
    unfold NoiseWorker.alloc allocSession
    rw [htable, hfind, Option.map_some, ← htable]
  have hdirect' : (evt.ttl == noisePacketTtl) = true := beq_iff_eq.mpr hdirect
  refine ⟨?_, fun j => ?_⟩
  · unfold announceSlot
    rw [hparse]
    dsimp only
    rw [hverify, hdirect', Bool.true_and, if_pos rfl]
    unfold allocSession
    rw [hfind]
    rfl
  · obtain ⟨sigOk, hsig⟩ := Option.isSome_iff_exists.mp hverify
    unfold processAnnounceEvent
    dsimp only
    rw [hparse]
    dsimp only
    rw [hsig]
    dsimp only
    rw [(sameBinding_offerIdentity env _ evt.connHandle).link, if_pos hdirect']
    generalize hw₀ : (if sigOk = true then
      notifyAnnounce env w evt ident (evt.ttl == noisePacketTtl) else w) = w₀
    have htable : w₀.table = w.table := by
      rw [← hw₀]
      split
      · exact table_notifyAnnounce env w evt ident _
      · rfl
    have hlink : ∀ j, w₀.link j = w.link j := by
      intro j
      unfold NoiseWorker.link NoiseWorker.session
      rw [htable]
    rw [halloc w₀ htable]
    dsimp only
    rw [(recordAnnounce_spec env ident sigOk (slot_alloc_self (halloc w₀ htable)).2).2, hlink,
      hlink]

end Rule

/-! ## Two nodes -/

/-- Two nodes and the two links between them: link `l` was dialed by node `l`, and `handle n l` is
what node `n` calls it. -/
structure LinkNames where
  ids : Bool → PeerId
  handle : Bool → Bool → UInt16
  apart : ∀ n, handle n n ≠ handle n (!n)
  valid : ∀ n l, handle n l ≠ 0xFFFF

/-- Their workers, and the links each node still has. -/
structure TwoNodes (H K : Type) where
  worker : Bool → NoiseWorker H K
  up : Bool → Bool → Bool

/-- What happens: an announce of the other node comes in on a link, a round without an event, or
the end of a link. -/
inductive LinkEvent (H K : Type) where
  | announce (n l : Bool) (env : NoiseEnv H K) (evt : NoiseEvent)
  | idle (n : Bool) (env : NoiseEnv H K)
  | down (n l : Bool) (env : NoiseEnv H K)

section TwoNodes

variable (sha256 : List UInt8 → Bytes 32)
variable (ed25519SignOpen : List UInt8 → Bytes 32 → Bytes 64 → Bool) (aead : Aead K)
variable (names : LinkNames)

/-- A round of one node. -/
def TwoNodes.round (s : TwoNodes H K) (n : Bool) (x : NoiseInput H K) : TwoNodes H K :=
  { s with worker :=
      Function.update s.worker n (noiseStep sha256 ed25519SignOpen aead (s.worker n) x) }

/-- Some node has hung up the link. -/
def TwoNodes.HungUp (s : TwoNodes H K) (l : Bool) : Prop :=
  ∃ n, names.handle n l ∈ (s.worker n).disconnects

/-- A direct announce of the other node that comes in on link `l`. The only link node `n` dialed is
link `n`. -/
structure Genuine (s : TwoNodes H K) (n l : Bool) (env : NoiseEnv H K) (evt : NoiseEvent) :
    Prop where
  type : evt.type = .announce
  direct : evt.ttl = noisePacketTtl
  conn : evt.connHandle = names.handle n l
  peer : evt.peerId = names.ids (!n)
  accepted : ∃ ident, parseAnnounceTlv evt.payload = some ident ∧
    (verifyAnnounceEvent sha256 ed25519SignOpen evt ident).isSome = true
  self : env.localPeerId = names.ids n
  dialed : ∀ c, env.connCentral c = (c == names.handle n n && s.up n n)

/-- One step. A link goes down on either side after one of them has hung it up. -/
inductive TwoNodes.Step (s : TwoNodes H K) : LinkEvent H K → TwoNodes H K → Prop
  | announce {n l : Bool} {env : NoiseEnv H K} {evt : NoiseEvent} (up : s.up n l = true)
      (genuine : Genuine sha256 ed25519SignOpen names s n l env evt) :
      Step s (.announce n l env evt) (s.round sha256 ed25519SignOpen aead n ⟨env, some evt⟩)
  | idle {n : Bool} {env : NoiseEnv H K} :
      Step s (.idle n env) (s.round sha256 ed25519SignOpen aead n ⟨env, none⟩)
  | down {n l : Bool} {env : NoiseEnv H K} (up : s.up n l = true)
      (hung : s.HungUp names l) :
      Step s (.down n l env)
        { s.round sha256 ed25519SignOpen aead n
            ⟨env, some { type := .disconnect, connHandle := names.handle n l }⟩ with
          up := Function.update s.up n (Function.update (s.up n) l false) }

/-- A run of the two nodes. -/
inductive TwoNodes.Run : TwoNodes H K → List (LinkEvent H K) → TwoNodes H K → Prop
  | nil {s : TwoNodes H K} : Run s [] s
  | cons {s s₁ s' : TwoNodes H K} {e : LinkEvent H K} {es : List (LinkEvent H K)}
      (step : s.Step sha256 ed25519SignOpen aead names e s₁) (rest : Run s₁ es s') :
      Run s (e :: es) s'

/-- Both links are up and have their sessions, with no peer yet or the other node, and neither was
hung up. What else is in the tables does not matter. -/
structure TwoNodes.Fresh (s : TwoNodes H K) : Prop where
  up : ∀ n l, s.up n l = true
  distinct : ∀ n, HandlesDistinct (s.worker n)
  linked : ∀ n l, ∃ i, ((s.worker n).link i).inUse = true ∧
    ((s.worker n).link i).connHandle = names.handle n l ∧
    (((s.worker n).link i).peerId = zeros 8 ∨ ((s.worker n).link i).peerId = names.ids (!n))
  quiet : ∀ n l, names.handle n l ∉ (s.worker n).disconnects

variable {sha256 ed25519SignOpen aead names}

/-! ### Rounds -/

section Rounds

variable {w : NoiseWorker H K} {env : NoiseEnv H K} {evt : NoiseEvent}

theorem noiseStep_announce (h : evt.type = .announce) :
    noiseStep sha256 ed25519SignOpen aead w ⟨env, some evt⟩ =
      pollSessionMaintenance env (processAnnounceEvent env sha256 ed25519SignOpen w evt) := by
  unfold noiseStep handshakeTask processEvent
  dsimp only
  rw [h]

theorem disconnects_noiseStep_announce (h : evt.type = .announce) :
    (noiseStep sha256 ed25519SignOpen aead w ⟨env, some evt⟩).disconnects =
      w.disconnects ++ ((announcePair sha256 ed25519SignOpen w evt).bind fun j =>
        hangsUp env evt (w.session j).connHandle).toList := by
  rw [noiseStep_announce h, ← disconnects_processAnnounceEvent]
  exact quiet_pollSessionMaintenance env _

theorem disconnects_noiseStep_idle :
    (noiseStep sha256 ed25519SignOpen aead w ⟨env, none⟩).disconnects = w.disconnects :=
  quiet_pollSessionMaintenance env w

theorem disconnects_noiseStep_down (h : evt.type = .disconnect) :
    (noiseStep sha256 ed25519SignOpen aead w ⟨env, some evt⟩).disconnects = w.disconnects := by
  unfold noiseStep handshakeTask processEvent
  dsimp only
  rw [h]
  exact (quiet_processDisconnectEvent w evt).trans (quiet_pollSessionMaintenance env _)

end Rounds

/-! ### Only the link the higher one dialed -/

section Safety

variable {s s' : TwoNodes H K} {e : LinkEvent H K} {hi : Bool}

theorem peerGt_asymm {a b : PeerId} (h : peerGt a b = true) : peerGt b a = false := by
  unfold peerGt at h ⊢
  rw [decide_eq_true_eq] at h
  rw [decide_eq_false_iff_not]
  omega

theorem round_worker_self (s : TwoNodes H K) (n : Bool) (x : NoiseInput H K) :
    (s.round sha256 ed25519SignOpen aead n x).worker n =
      noiseStep sha256 ed25519SignOpen aead (s.worker n) x :=
  Function.update_self n _ s.worker

theorem round_worker_of_ne (s : TwoNodes H K) {n m : Bool} (x : NoiseInput H K) (h : m ≠ n) :
    (s.round sha256 ed25519SignOpen aead n x).worker m = s.worker m :=
  Function.update_of_ne h _ s.worker

/-- What an announce can hang up. -/
theorem Genuine.hangs {n l : Bool} {env : NoiseEnv H K} {evt : NoiseEvent}
    (h : Genuine sha256 ed25519SignOpen names s n l env evt) {victim : UInt16}
    (hmem : victim ∈ (noiseStep sha256 ed25519SignOpen aead (s.worker n)
      ⟨env, some evt⟩).disconnects) :
    victim ∈ (s.worker n).disconnects ∨
      (peerGt (names.ids n) (names.ids (!n)) = true ∧ victim = names.handle n n) := by
  rw [disconnects_noiseStep_announce h.type, List.mem_append] at hmem
  rcases hmem with hold | hnew
  · exact .inl hold
  · right
    rw [Option.mem_toList, Option.bind_eq_some_iff] at hnew
    obtain ⟨j, -, hhang⟩ := hnew
    obtain ⟨hgt, -, hcases⟩ := (hangsUp_eq_some env).mp hhang
    rw [h.self, h.peer] at hgt
    refine ⟨hgt, ?_⟩
    rcases hcases with ⟨hcentral, rfl⟩ | ⟨-, hcentral, rfl⟩
    · rw [h.dialed, Bool.and_eq_true, beq_iff_eq] at hcentral
      exact hcentral.1
    · rw [h.dialed, Bool.and_eq_true, beq_iff_eq] at hcentral
      exact hcentral.1

/-- Only the higher one hangs up, and only what it dialed. -/
def OnlyOwn (names : LinkNames) (hi : Bool) (s : TwoNodes H K) : Prop :=
  ∀ n l, names.handle n l ∈ (s.worker n).disconnects → n = hi ∧ l = hi

theorem OnlyOwn.step (h : OnlyOwn names hi s)
    (hgt : peerGt (names.ids hi) (names.ids (!hi)) = true)
    (hstep : s.Step sha256 ed25519SignOpen aead names e s') : OnlyOwn names hi s' := by
  intro m l hmem
  cases hstep with
  | @announce n k env evt up genuine =>
    by_cases hm : m = n
    · subst hm
      rw [round_worker_self] at hmem
      rcases genuine.hangs hmem with hold | ⟨hgt', hown⟩
      · exact h m l hold
      · -- only the higher node hangs up, and what it hangs up it dialed
        have hmhi : m = hi := by
          by_contra hne
          have hflip : hi = !m := by
            cases m <;> cases hi <;> simp_all
          rw [hflip, Bool.not_not, peerGt_asymm hgt'] at hgt
          cases hgt
        refine ⟨hmhi, ?_⟩
        by_contra hne
        have hflip : l = !m := by
          rw [← hmhi] at hne
          cases l <;> cases m <;> simp_all
        rw [hflip] at hown
        exact names.apart m hown.symm
    · rw [round_worker_of_ne s _ hm] at hmem
      exact h m l hmem
  | @idle n env =>
    by_cases hm : m = n
    · subst hm
      rw [round_worker_self, disconnects_noiseStep_idle] at hmem
      exact h m l hmem
    · rw [round_worker_of_ne s _ hm] at hmem
      exact h m l hmem
  | @down n k env up hung =>
    by_cases hm : m = n
    · subst hm
      dsimp only at hmem
      rw [round_worker_self, disconnects_noiseStep_down rfl] at hmem
      exact h m l hmem
    · dsimp only at hmem
      rw [round_worker_of_ne s _ hm] at hmem
      exact h m l hmem

end Safety

/-! ### That link goes -/

section Liveness

variable {s s' : TwoNodes H K} {e : LinkEvent H K} {hi : Bool} {heard : Bool → Prop}

/-- A used session with the handle and the peer. -/
def OnLink (w : NoiseWorker H K) (c : UInt16) (p : PeerId) : Prop :=
  ∃ i, w.link i = ⟨true, c, p⟩

/-- The higher node before it has hung up, when announces have come in on the links in `heard`. -/
structure Waiting (names : LinkNames) (hi : Bool) (heard : Bool → Prop) (s : TwoNodes H K) :
    Prop where
  up : ∀ l, s.up hi l = true
  distinct : HandlesDistinct (s.worker hi)
  linked : ∀ l, OnLink (s.worker hi) (names.handle hi l) (zeros 8) ∨
    OnLink (s.worker hi) (names.handle hi l) (names.ids (!hi))
  own : heard hi → OnLink (s.worker hi) (names.handle hi hi) (names.ids (!hi)) ∧
    ∀ k, ((s.worker hi).link k).inUse = true →
      ((s.worker hi).link k).connHandle ≠ names.handle hi hi →
      ((s.worker hi).link k).peerId ≠ names.ids (!hi)
  other : heard (!hi) → OnLink (s.worker hi) (names.handle hi (!hi)) (names.ids (!hi))

/-- It has hung up by the time both links were heard. -/
theorem Waiting.not_both (h : Waiting names hi heard s) (hown : heard hi) : ¬ heard (!hi) := by
  intro hother
  obtain ⟨i, hi'⟩ := h.other hother
  refine (h.own hown).2 i ?_ ?_ ?_
  · rw [hi']
  · rw [hi']
    exact (names.apart hi).symm
  · rw [hi']

/-- A worker with the same links, as far as the pair is concerned. -/
theorem Waiting.of_links (h : Waiting names hi heard s) (hup : s'.up hi = s.up hi)
    (hlink : ∀ i, (s'.worker hi).link i = (s.worker hi).link i) : Waiting names hi heard s' := by
  have honlink : ∀ c p, OnLink (s.worker hi) c p → OnLink (s'.worker hi) c p := by
    rintro c p ⟨i, hi'⟩
    exact ⟨i, (hlink i).trans hi'⟩
  refine ⟨fun l => by rw [hup]; exact h.up l, fun i j => ?_, fun l => ?_, fun hh => ?_,
    fun hh => honlink _ _ (h.other hh)⟩
  · have hslot : ∀ i, ((s'.worker hi).slot i).inUse = ((s.worker hi).slot i).inUse ∧
        ((s'.worker hi).slot i).connHandle = ((s.worker hi).slot i).connHandle :=
      fun i => ⟨congrArg NoiseLink.inUse (hlink i), congrArg NoiseLink.connHandle (hlink i)⟩
    rw [(hslot i).1, (hslot i).2, (hslot j).1, (hslot j).2]
    exact h.distinct i j
  · exact (h.linked l).imp (honlink _ _) (honlink _ _)
  · obtain ⟨hon, hnone⟩ := h.own hh
    refine ⟨honlink _ _ hon, fun k => ?_⟩
    rw [hlink]
    exact hnone k

variable (aead) in
/-- The links after an announce on one of them. -/
theorem Waiting.announce (h : Waiting names hi heard s) {l : Bool} {env : NoiseEnv H K}
    {evt : NoiseEvent} (hg : Genuine sha256 ed25519SignOpen names s hi l env evt) :
    ∃ i, ((s.worker hi).link i).inUse = true ∧
      ((s.worker hi).link i).connHandle = names.handle hi l ∧
      ((s.worker hi).link i).bound (names.ids (!hi)) = ⟨true, names.handle hi l, names.ids (!hi)⟩ ∧
      announceSlot sha256 ed25519SignOpen (s.worker hi) evt = some i ∧
      ∀ j, (noiseStep sha256 ed25519SignOpen aead (s.worker hi) ⟨env, some evt⟩).link j =
        if j = i then ⟨true, names.handle hi l, names.ids (!hi)⟩ else (s.worker hi).link j := by
  obtain ⟨i, hused, hconn, hbound⟩ : ∃ i, ((s.worker hi).link i).inUse = true ∧
      ((s.worker hi).link i).connHandle = names.handle hi l ∧
      ((s.worker hi).link i).bound (names.ids (!hi)) =
        ⟨true, names.handle hi l, names.ids (!hi)⟩ := by
    rcases h.linked l with ⟨i, hi'⟩ | ⟨i, hi'⟩
    · refine ⟨i, by rw [hi'], by rw [hi'], ?_⟩
      rw [hi', NoiseLink.bound, if_pos rfl]
    · refine ⟨i, by rw [hi'], by rw [hi'], ?_⟩
      rw [hi', NoiseLink.bound]
      split
      · rfl
      · rfl
  have hfind : findSession (s.worker hi).table evt.connHandle = some i := by
    rw [hg.conn, ← hconn]
    exact findSession_of_link h.distinct hused
  obtain ⟨ident, hparse, hverify⟩ := hg.accepted
  obtain ⟨hslot, hlinks⟩ := link_processAnnounceEvent env hfind hparse hverify hg.direct
  refine ⟨i, hused, hconn, hbound, hslot, fun j => ?_⟩
  rw [noiseStep_announce hg.type, (sameBinding_pollSessionMaintenance env _).link, hlinks, hg.peer,
    hbound]

/-- What stays true of the links. -/
theorem Waiting.relinked (h : Waiting names hi heard s) {l : Bool} {i : Fin noiseMaxSessions}
    (hused : ((s.worker hi).link i).inUse = true)
    (hconn : ((s.worker hi).link i).connHandle = names.handle hi l)
    (hup : s'.up hi = s.up hi)
    (hlinks : ∀ j, (s'.worker hi).link j =
      if j = i then ⟨true, names.handle hi l, names.ids (!hi)⟩ else (s.worker hi).link j)
    {heard' : Bool → Prop}
    (hown : heard' hi → OnLink (s'.worker hi) (names.handle hi hi) (names.ids (!hi)) ∧
      ∀ k, ((s'.worker hi).link k).inUse = true →
        ((s'.worker hi).link k).connHandle ≠ names.handle hi hi →
        ((s'.worker hi).link k).peerId ≠ names.ids (!hi))
    (hother : heard' (!hi) → OnLink (s'.worker hi) (names.handle hi (!hi)) (names.ids (!hi))) :
    Waiting names hi heard' s' := by
  have hsame : ∀ j, ((s'.worker hi).link j).inUse = ((s.worker hi).link j).inUse ∧
      ((s'.worker hi).link j).connHandle = ((s.worker hi).link j).connHandle := by
    intro j
    rw [hlinks]
    split
    · next hj =>
      rw [hj, hused, hconn]
      exact ⟨rfl, rfl⟩
    · exact ⟨rfl, rfl⟩
  refine ⟨fun k => by rw [hup]; exact h.up k, fun j k hj hk hjk => ?_, fun k => ?_, hown, hother⟩
  · refine h.distinct j k ((hsame j).1.symm.trans hj) ((hsame k).1.symm.trans hk) ?_
    exact (hsame j).2.symm.trans (Eq.trans hjk (hsame k).2)
  · have hkeep : ∀ p, OnLink (s.worker hi) (names.handle hi k) p →
        OnLink (s'.worker hi) (names.handle hi k) p ∨
          OnLink (s'.worker hi) (names.handle hi k) (names.ids (!hi)) := by
      rintro p ⟨j, hj⟩
      by_cases hji : j = i
      · right
        have hk : names.handle hi k = names.handle hi l := by rw [← hconn, ← hji, hj]
        exact ⟨i, by rw [hlinks, if_pos rfl, hk]⟩
      · exact .inl ⟨j, by rw [hlinks, if_neg hji, hj]⟩
    rcases h.linked k with hz | hp
    · exact hkeep _ hz
    · exact .inr ((hkeep _ hp).elim id id)

/-- **An announce at the higher node**: it hangs up the link it dialed, or goes on waiting. -/
theorem Waiting.announce_step (h : Waiting names hi heard s)
    (hgt : peerGt (names.ids hi) (names.ids (!hi)) = true) {l : Bool} {env : NoiseEnv H K}
    {evt : NoiseEvent} (hg : Genuine sha256 ed25519SignOpen names s hi l env evt) :
    names.handle hi hi ∈ ((s.round sha256 ed25519SignOpen aead hi ⟨env, some evt⟩).worker
        hi).disconnects ∨
      Waiting names hi (fun k => heard k ∨ k = l)
        (s.round sha256 ed25519SignOpen aead hi ⟨env, some evt⟩) := by
  obtain ⟨i, hused, hconn, -, hslot, hlinks⟩ := h.announce aead hg
  have hgt' : peerGt env.localPeerId evt.peerId = true := by
    rw [hg.self, hg.peer]
    exact hgt
  have hcentral : env.connCentral (names.handle hi hi) = true := by
    rw [hg.dialed, beq_self_eq_true, h.up hi]
    rfl
  have hlinks' : ∀ j, ((s.round sha256 ed25519SignOpen aead hi ⟨env, some evt⟩).worker hi).link j =
      if j = i then ⟨true, names.handle hi l, names.ids (!hi)⟩ else (s.worker hi).link j := by
    rw [round_worker_self]
    exact hlinks
  have hup : (s.round sha256 ed25519SignOpen aead hi ⟨env, some evt⟩).up hi = s.up hi := rfl
  have hself : OnLink ((s.round sha256 ed25519SignOpen aead hi ⟨env, some evt⟩).worker hi)
      (names.handle hi l) (names.ids (!hi)) := ⟨i, by rw [hlinks', if_pos rfl]⟩
  -- what the code hangs up for a duplicate it finds is in the log of the round
  have hfires : ∀ j, duplicateOf (s.worker hi).table i evt.peerId = some j →
      hangsUp env evt ((s.worker hi).session j).connHandle = some (names.handle hi hi) →
      names.handle hi hi ∈ ((s.round sha256 ed25519SignOpen aead hi ⟨env, some evt⟩).worker
        hi).disconnects := by
    intro j hdup hhang
    rw [round_worker_self, disconnects_noiseStep_announce hg.type, List.mem_append]
    right
    rw [Option.mem_toList, Option.bind_eq_some_iff]
    refine ⟨j, ?_, hhang⟩
    rw [announcePair, hslot]
    exact hdup
  -- heard on the link it dialed
  by_cases hl : l = hi
  · subst hl
    cases hdup : duplicateOf (s.worker l).table i evt.peerId with
    | some j =>
      left
      apply hfires j hdup
      rw [hangsUp_eq_some, hg.conn]
      exact ⟨hgt', names.valid l l, .inl ⟨hcentral, rfl⟩⟩
    | none =>
      right
      have hnone := duplicateOf_eq_none.mp hdup
      rw [hg.peer] at hnone
      refine h.relinked hused hconn hup hlinks' (fun _ => ⟨hself, fun k hk hkc => ?_⟩) fun hh => ?_
      · have hki : k ≠ i := by
          intro hki
          rw [hlinks', if_pos hki] at hkc
          exact hkc rfl
        rw [hlinks', if_neg hki] at hk ⊢
        exact hnone k hki hk
      · -- the other link was heard before, so this one is not the first
        obtain ⟨k, hk⟩ := h.other (hh.resolve_right (by simp))
        have hki : k ≠ i := by
          intro hki
          rw [hki] at hk
          rw [hk] at hconn
          exact names.apart l hconn.symm
        exact absurd (by rw [hk]) (hnone k hki (by rw [hk]))
  · -- heard on the link the other one dialed: its own is hung up if it was heard before
    have hl' : l = !hi := by
      cases l <;> cases hi <;> simp_all
    subst hl'
    by_cases hheard : heard hi
    · left
      obtain ⟨⟨k, hk⟩, hnone⟩ := h.own hheard
      have hki : k ≠ i := by
        intro hki
        rw [hki] at hk
        rw [hk] at hconn
        exact names.apart hi hconn
      cases hdup : duplicateOf (s.worker hi).table i evt.peerId with
      | none =>
        rw [hg.peer] at hdup
        exact absurd (by rw [hk]) (duplicateOf_eq_none.mp hdup k hki (by rw [hk]))
      | some j =>
        obtain ⟨-, hjused, hjpeer⟩ := duplicateOf_eq_some hdup
        have hjconn : ((s.worker hi).session j).connHandle = names.handle hi hi := by
          by_contra hne
          exact hnone j hjused hne (hjpeer.trans hg.peer)
        apply hfires j hdup
        rw [hangsUp_eq_some, hjconn]
        refine ⟨hgt', names.valid hi hi, .inr ⟨?_, hcentral, rfl⟩⟩
        rw [hg.dialed, hg.conn, beq_eq_false_iff_ne.mpr (names.apart hi).symm, Bool.false_and]
    · right
      refine h.relinked hused hconn hup hlinks' (fun hh => ?_) fun _ => hself
      exact absurd (hh.resolve_right (by simp)) hheard

theorem Waiting.imp (h : Waiting names hi heard s) {heard' : Bool → Prop}
    (himp : ∀ l, heard' l → heard l) : Waiting names hi heard' s :=
  ⟨h.up, h.distinct, h.linked, fun hh => h.own (himp hi hh), fun hh => h.other (himp _ hh)⟩

/-- What was hung up stays so. -/
theorem disconnects_mono (hstep : s.Step sha256 ed25519SignOpen aead names e s') (m : Bool) :
    (s.worker m).disconnects ⊆ (s'.worker m).disconnects := by
  cases hstep with
  | @announce n l env evt up genuine =>
    by_cases hm : m = n
    · rw [hm, round_worker_self, disconnects_noiseStep_announce genuine.type]
      exact List.subset_append_left _ _
    · rw [round_worker_of_ne s _ hm]
      exact List.Subset.refl _
  | @idle n env =>
    by_cases hm : m = n
    · rw [hm, round_worker_self, disconnects_noiseStep_idle]
      exact List.Subset.refl _
    · rw [round_worker_of_ne s _ hm]
      exact List.Subset.refl _
  | @down n l env up hung =>
    dsimp only
    by_cases hm : m = n
    · rw [hm, round_worker_self, disconnects_noiseStep_down rfl]
      exact List.Subset.refl _
    · rw [round_worker_of_ne s _ hm]
      exact List.Subset.refl _

/-- The links heard after one more step. -/
def heardAfter (hi : Bool) (heard : Bool → Prop) (e : LinkEvent H K) : Bool → Prop :=
  fun l => heard l ∨ ∃ env evt, e = .announce hi l env evt

/-- **One step.** -/
theorem Waiting.step (h : Waiting names hi heard s) (hown : OnlyOwn names hi s)
    (hgt : peerGt (names.ids hi) (names.ids (!hi)) = true)
    (hstep : s.Step sha256 ed25519SignOpen aead names e s') :
    names.handle hi hi ∈ (s'.worker hi).disconnects ∨
      Waiting names hi (heardAfter hi heard e) s' := by
  have hmono := disconnects_mono hstep hi
  cases hstep with
  | @announce n l env evt up genuine =>
    by_cases hn : n = hi
    · subst hn
      refine (h.announce_step hgt genuine).imp_right fun hw => hw.imp ?_
      rintro k (hk | ⟨env', evt', heq⟩)
      · exact .inl hk
      · cases heq
        exact .inr rfl
    · right
      have hw : Waiting names hi heard
          (s.round sha256 ed25519SignOpen aead n ⟨env, some evt⟩) := by
        refine h.of_links rfl fun i => ?_
        rw [round_worker_of_ne s _ (Ne.symm hn)]
      refine hw.imp ?_
      rintro k (hk | ⟨env', evt', heq⟩)
      · exact hk
      · cases heq
        exact absurd rfl hn
  | @idle n env =>
    right
    have hw : Waiting names hi heard (s.round sha256 ed25519SignOpen aead n ⟨env, none⟩) := by
      refine h.of_links rfl fun i => ?_
      by_cases hn : n = hi
      · rw [hn, round_worker_self]
        exact (sameBinding_pollSessionMaintenance env (s.worker hi)).link i
      · rw [round_worker_of_ne s _ (Ne.symm hn)]
    refine hw.imp ?_
    rintro k (hk | ⟨env', evt', heq⟩)
    · exact hk
    · cases heq
  | @down n l env up hung =>
    -- the link was hung up before, and only the higher one can have done it
    left
    obtain ⟨m, hmem⟩ := hung
    obtain ⟨rfl, rfl⟩ := hown m l hmem
    exact hmono hmem

/-- **A run**, by induction on its steps. -/
theorem hungUp_of_heard {es : List (LinkEvent H K)}
    (hgt : peerGt (names.ids hi) (names.ids (!hi)) = true) (hown : OnlyOwn names hi s)
    (h : names.handle hi hi ∈ (s.worker hi).disconnects ∨ Waiting names hi heard s)
    (hrun : TwoNodes.Run sha256 ed25519SignOpen aead names s es s') :
    OnlyOwn names hi s' ∧
      ((∀ l, heard l ∨ ∃ env evt, LinkEvent.announce hi l env evt ∈ es) →
        names.handle hi hi ∈ (s'.worker hi).disconnects) := by
  induction hrun generalizing heard with
  | nil =>
    refine ⟨hown, fun hall => ?_⟩
    have hheard : ∀ l, heard l := by
      intro l
      rcases hall l with hl | ⟨env, evt, hmem⟩
      · exact hl
      · cases hmem
    exact h.elim id fun hw => absurd (hheard (!hi)) (hw.not_both (hheard hi))
  | @cons s s₁ s' e es step rest ih =>
    have hnext : names.handle hi hi ∈ (s₁.worker hi).disconnects ∨
        Waiting names hi (heardAfter hi heard e) s₁ := by
      rcases h with hfired | hw
      · exact .inl (disconnects_mono step hi hfired)
      · exact hw.step hown hgt step
    obtain ⟨hown', hall'⟩ := ih (hown.step hgt step) hnext
    refine ⟨hown', fun hall => hall' fun l => ?_⟩
    rcases hall l with hl | ⟨env, evt, hmem⟩
    · exact .inl (.inl hl)
    · rcases List.mem_cons.mp hmem with heq | hmem
      · exact .inl (.inr ⟨env, evt, heq.symm⟩)
      · exact .inr ⟨env, evt, hmem⟩

/-- Fresh links. -/
theorem TwoNodes.Fresh.waiting (h : s.Fresh names) (hi : Bool) :
    Waiting names hi (fun _ => False) s := by
  refine ⟨h.up hi, h.distinct hi, fun l => ?_, False.elim, False.elim⟩
  obtain ⟨i, hused, hconn, hpeer⟩ := h.linked hi l
  rcases hpeer with hz | hp
  · refine .inl ⟨i, ?_⟩
    rw [← hconn, ← hz, ← hused]
  · refine .inr ⟨i, ?_⟩
    rw [← hconn, ← hp, ← hused]

end Liveness

end TwoNodes

/-- **The duplicate-link rule.** In every table the worker reaches, for every direct announce: where
the rule hangs up a connection, another BLE connection to the announcer is left, exactly where the
leg that stays is one. And between two nodes that have dialed each other, for every order in which
their announces come in: the only link that is ever hung up is the one the node with the higher ID
dialed, and it is hung up once that node has heard the other on both. -/
theorem duplicate_link_rule (sha256 : List UInt8 → Bytes 32)
    (ed25519SignOpen : List UInt8 → Bytes 32 → Bytes 64 → Bool) (aead : Aead K) :
    (∀ (ins : List (NoiseInput H K)) (env : NoiseEnv H K) (evt : NoiseEvent) (ble : BleLinks),
      evt.type = .announce → evt.ttl = noisePacketTtl →
      let w := final (noiseStep sha256 ed25519SignOpen aead) {} ins
      (∀ victim, (processAnnounceEvent env sha256 ed25519SignOpen w evt).disconnects =
          w.disconnects ++ [victim] → ∃ c, c ≠ victim ∧ ble.far c = some evt.peerId) ↔
        LegStays sha256 ed25519SignOpen env ble w evt) ∧
    ∀ (names : LinkNames) (hi : Bool) (s s' : TwoNodes H K) (es : List (LinkEvent H K)),
      peerGt (names.ids hi) (names.ids (!hi)) = true → s.Fresh names →
      TwoNodes.Run sha256 ed25519SignOpen aead names s es s' →
      (∀ l, s'.HungUp names l → l = hi) ∧
        ((∀ l, ∃ env evt, LinkEvent.announce hi l env evt ∈ es) → s'.HungUp names hi) := by
  refine ⟨fun ins env evt ble _ _ => ?_, fun names hi s s' es hgt hfresh hrun => ?_⟩
  · exact legStays_iff env (handlesDistinct_run sha256 ed25519SignOpen aead ins) ble evt
  · have hown : OnlyOwn names hi s := fun n l hmem => absurd hmem (hfresh.quiet n l)
    obtain ⟨hown', hall⟩ := hungUp_of_heard hgt hown (.inr (hfresh.waiting hi)) hrun
    refine ⟨fun l hl => ?_, fun hheard => ⟨hi, hall fun l => .inr (hheard l)⟩⟩
    obtain ⟨n, hmem⟩ := hl
    exact (hown' n l hmem).2

/-! ### Two nodes with fresh links -/

/-- A node with a higher ID that has dialed the peer on connection 1. -/
def dialingEnv : NoiseEnv Nat Unit :=
  { responderEnv with localPeerId := copyAt 8 [0xFF] 0, connCentral := fun c => c == 1 }

/-- Each node calls the link it dialed itself 1. -/
def twoLinks : LinkNames where
  ids n := if n then copyAt 8 [0xFF] 0 else announceA.peerId
  handle n l := if n == l then 1 else 2
  apart := by decide
  valid := by decide

/-- A node whose two links have sessions. -/
def linkedWorker : NoiseWorker Nat Unit :=
  match ({} : NoiseWorker Nat Unit).alloc 1 with
  | none => {}
  | some (_, w) =>
    match w.alloc 2 with
    | none => {}
    | some (_, w) => w

def linkedNodes : TwoNodes Nat Unit := ⟨fun _ => linkedWorker, fun _ _ => true⟩

theorem fresh_linkedNodes : linkedNodes.Fresh twoLinks where
  up _ _ := rfl
  distinct _ := by
    show ∀ i j, (linkedWorker.slot i).inUse = true → (linkedWorker.slot j).inUse = true →
      (linkedWorker.slot i).connHandle = (linkedWorker.slot j).connHandle → i = j
    decide +kernel
  linked n l := by
    have hone : (linkedWorker.link 0).inUse = true ∧ (linkedWorker.link 0).connHandle = 1 ∧
        (linkedWorker.link 0).peerId = zeros 8 := by decide +kernel
    have htwo : (linkedWorker.link 1).inUse = true ∧ (linkedWorker.link 1).connHandle = 2 ∧
        (linkedWorker.link 1).peerId = zeros 8 := by decide +kernel
    by_cases h : n = l
    · have hname : twoLinks.handle n l = 1 := if_pos (beq_iff_eq.mpr h)
      exact ⟨0, hone.1, hone.2.1.trans hname.symm, .inl hone.2.2⟩
    · have hname : twoLinks.handle n l = 2 := if_neg fun hb => h (beq_iff_eq.mp hb)
      exact ⟨1, htwo.1, htwo.2.1.trans hname.symm, .inl htwo.2.2⟩
  quiet n l := by
    have hquiet : linkedWorker.disconnects = [] := by decide +kernel
    show _ ∉ linkedWorker.disconnects
    rw [hquiet]
    exact List.not_mem_nil

/-- The other node is heard on both links, and the one this node dialed is hung up. -/
theorem duplicate_link_rule_two_links :
    let sha256 := fun l : List UInt8 => copyAt 32 l 0
    let ed25519SignOpen := fun (_ : List UInt8) (key : Bytes 32) (sig : Bytes 64) =>
      byteAt sig.val 0 == byteAt key.val 0
    let aead : Aead Unit := { encrypt := fun _ _ m => m, decrypt := fun _ _ m => some m }
    let es : List (LinkEvent Nat Unit) := [.announce true true dialingEnv announceA,
      .announce true false dialingEnv { announceA with connHandle := 2 }]
    ∃ s', TwoNodes.Run sha256 ed25519SignOpen aead twoLinks linkedNodes es s' ∧
      s'.HungUp twoLinks true ∧ ¬ s'.HungUp twoLinks false := by
  intro sha256 ed25519SignOpen aead es
  have hgenuine : ∀ (s : TwoNodes Nat Unit) (l : Bool), s.up true true = true →
      Genuine sha256 ed25519SignOpen twoLinks s true l dialingEnv
        { announceA with connHandle := twoLinks.handle true l } := by
    intro s l hup
    refine ⟨rfl, rfl, rfl, rfl, ⟨_, rfl, ?_⟩, rfl, fun c => ?_⟩
    · cases l with
      | true => decide +kernel
      | false => decide +kernel
    · rw [hup, Bool.and_true]
      rfl
  have hrun : ∃ s', TwoNodes.Run sha256 ed25519SignOpen aead twoLinks linkedNodes es s' :=
    ⟨_, .cons (.announce rfl (hgenuine linkedNodes true rfl))
      (.cons (.announce rfl (hgenuine _ false rfl)) .nil)⟩
  obtain ⟨s', hrun⟩ := hrun
  obtain ⟨hown, hheard⟩ := (duplicate_link_rule sha256 ed25519SignOpen aead).2 twoLinks true
    linkedNodes s' es (by decide) fresh_linkedNodes hrun
  refine ⟨s', hrun, hheard fun l => ?_, fun hother => absurd (hown false hother) (by decide)⟩
  cases l with
  | true => exact ⟨_, _, List.mem_cons_self⟩
  | false => exact ⟨_, _, List.mem_cons_of_mem _ List.mem_cons_self⟩

/-- The peer of `announceA` is also heard on the trunk, where it has no BLE connection. -/
def beaconA : NoiseEvent := { announceA with connHandle := bitleLoraLinkHandle }

/-- **The trunk taken for the second link.** After its beacon over the trunk, the peer's announce
on its only BLE connection hangs that connection up, and no BLE connection to it is left. -/
theorem trunk_taken_for_duplicate :
    let sha256 := fun l : List UInt8 => copyAt 32 l 0
    let ed25519SignOpen := fun (_ : List UInt8) (key : Bytes 32) (sig : Bytes 64) =>
      byteAt sig.val 0 == byteAt key.val 0
    let ble : BleLinks := ⟨fun c => if c = 1 then some announceA.peerId else none, by decide⟩
    let w := final (noiseStep sha256 ed25519SignOpen
        { encrypt := fun _ _ m => m, decrypt := fun _ _ m => some m }) ({} : NoiseWorker Nat Unit)
      [⟨dialingEnv, some beaconA⟩]
    announceA.type = .announce ∧ announceA.ttl = noisePacketTtl ∧
      (processAnnounceEvent dialingEnv sha256 ed25519SignOpen w announceA).disconnects =
        w.disconnects ++ [1] ∧
      ¬∃ c, c ≠ 1 ∧ ble.far c = some announceA.peerId := by
  dsimp only
  refine ⟨rfl, rfl, ?_, ?_⟩
  · decide +kernel
  · rintro ⟨c, hc, hfar⟩
    rw [if_neg hc] at hfar
    cases hfar

end Bitle
