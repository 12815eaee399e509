import Bitle.Noise.Links

/-!
# Bitle — who starts and who answers a handshake (`main/noise_handshake.c`)

Of the nine kinds of events only two touch handshakes: a queued start, which makes the node the
initiator on a connection, and a handshake message from the peer, which makes it the responder.
`Still` says that a round sent no handshake message and installed no handshake, and everything
but these two events is `Still`.

That the handshake state behaves as Noise XX (`NoiseXX`: three messages of fixed sizes, written and
read in turn) is an assumption of the results below. Then a start sends the 32-byte first message
(`processStartEvent_roles`), and a handshake message makes a responder only if it is one, and is
never answered by one (`processHandshakeEvent_roles`).
-/

namespace Bitle

open Wire Run

variable {H K : Type}

/-- The handshake message a call sends, and the connection it goes to. -/
def NoiseCall.handshake : NoiseCall → Option (UInt16 × List UInt8)
  | .send connHandle type _ payload =>
    if type = bitchatMsgNoiseHandshake then some (connHandle, payload) else none
  | _ => none

/-- A handshake in the slot afterwards was there before, in the same role. -/
def KeepsRole (s s' : NoiseSession H K) : Prop :=
  s'.handshake.isSome → s.handshake.isSome ∧ s'.inUse = s.inUse ∧ s'.connHandle = s.connHandle ∧
    s'.initiator = s.initiator

/-- A session that holds the handshake of a responder. -/
def NoiseSession.responds (s : NoiseSession H K) (connHandle : UInt16) : Prop :=
  s.inUse = true ∧ s.connHandle = connHandle ∧ s.handshake.isSome ∧ s.initiator = false

instance (s : NoiseSession H K) (connHandle : UInt16) : Decidable (s.responds connHandle) :=
  inferInstanceAs (Decidable (_ ∧ _))

/-- The node holds the handshake of a responder on a connection. -/
def NoiseWorker.Responds (w : NoiseWorker H K) (connHandle : UInt16) : Prop :=
  ∃ i, (w.session i).responds connHandle

/-- The handshake messages sent meet `P`, and the slots outside `Q` keep their roles. -/
structure HandshakeStep (P : UInt16 → List UInt8 → Prop) (Q : Fin noiseMaxSessions → Prop)
    (w w' : NoiseWorker H K) : Prop where
  sends : ∃ calls, w'.log = w.log ++ calls ∧
    ∀ x ∈ calls, ∀ c p, x.handshake = some (c, p) → P c p
  keeps : ∀ j, ¬ Q j → KeepsRole (w.session j) (w'.session j)

/-- No handshake message is sent and no handshake installed. -/
abbrev Still (w w' : NoiseWorker H K) : Prop :=
  HandshakeStep (fun _ _ => False) (fun _ => False) w w'

/-! ## Steps compose -/

section Compose

variable {P P' : UInt16 → List UInt8 → Prop} {Q Q' : Fin noiseMaxSessions → Prop}
  {w w' w'' : NoiseWorker H K}

theorem KeepsRole.refl (s : NoiseSession H K) : KeepsRole s s :=
  fun h => ⟨h, rfl, rfl, rfl⟩

theorem KeepsRole.trans {s s' s'' : NoiseSession H K} (h : KeepsRole s s')
    (h' : KeepsRole s' s'') : KeepsRole s s'' := by
  intro hsome
  obtain ⟨hsome', hused', hconn', hinit'⟩ := h' hsome
  obtain ⟨hsome, hused, hconn, hinit⟩ := h hsome'
  exact ⟨hsome, hused'.trans hused, hconn'.trans hconn, hinit'.trans hinit⟩

theorem KeepsRole.of_none {s s' : NoiseSession H K} (h : s'.handshake = none) :
    KeepsRole s s' := by
  intro hsome
  rw [h] at hsome
  cases hsome

theorem HandshakeStep.refl (w : NoiseWorker H K) : HandshakeStep P Q w w :=
  ⟨⟨[], (List.append_nil _).symm, fun _ hx => nomatch hx⟩, fun _ _ => KeepsRole.refl _⟩

theorem HandshakeStep.trans (h : HandshakeStep P Q w w') (h' : HandshakeStep P Q w' w'') :
    HandshakeStep P Q w w'' := by
  obtain ⟨calls, hlog, hcalls⟩ := h.sends
  obtain ⟨calls', hlog', hcalls'⟩ := h'.sends
  refine ⟨⟨calls ++ calls', by rw [hlog', hlog, List.append_assoc], fun x hx => ?_⟩,
    fun j hj => (h.keeps j hj).trans (h'.keeps j hj)⟩
  rcases List.mem_append.mp hx with hx | hx
  · exact hcalls x hx
  · exact hcalls' x hx

theorem HandshakeStep.mono (h : HandshakeStep P Q w w') (hP : ∀ c p, P c p → P' c p)
    (hQ : ∀ j, Q j → Q' j) : HandshakeStep P' Q' w w' := by
  obtain ⟨calls, hlog, hcalls⟩ := h.sends
  exact ⟨⟨calls, hlog, fun x hx c p hc => hP c p (hcalls x hx c p hc)⟩,
    fun j hj => h.keeps j fun hq => hj (hQ j hq)⟩

theorem Still.mono (h : Still w w') : HandshakeStep P Q w w' :=
  HandshakeStep.mono h (fun _ _ hf => hf.elim) (fun _ hf => hf.elim)

/-- A change of the table that keeps the sessions. -/
theorem still_of_sessions (hlog : w'.log = w.log) (h : ∀ j, w'.session j = w.session j) :
    Still w w' := by
  refine ⟨⟨[], by rw [hlog, List.append_nil], fun _ hx => nomatch hx⟩, fun j _ => ?_⟩
  rw [h]
  exact KeepsRole.refl _

theorem still_call (w : NoiseWorker H K) {c : NoiseCall} (h : c.handshake = none) :
    Still w (w.call c) := by
  refine ⟨⟨[c], rfl, fun x hx c' p hc => ?_⟩, fun j _ => KeepsRole.refl _⟩
  rw [List.mem_singleton.mp hx, h] at hc
  cases hc

theorem still_setSession (w : NoiseWorker H K) (i : Fin noiseMaxSessions) {s : NoiseSession H K}
    (h : KeepsRole (w.session i) s) : Still w (w.setSession i s) := by
  refine ⟨⟨[], (List.append_nil _).symm, fun _ hx => nomatch hx⟩, fun j _ => ?_⟩
  rw [session_setSession]
  split
  · next hj =>
    rw [hj]
    exact h
  · exact KeepsRole.refl _

/-- One slot is written. -/
theorem step_setSession (w : NoiseWorker H K) (i : Fin noiseMaxSessions) (s : NoiseSession H K) :
    HandshakeStep P (fun j => j = i) w (w.setSession i s) := by
  refine ⟨⟨[], (List.append_nil _).symm, fun _ hx => nomatch hx⟩, fun j hj => ?_⟩
  rw [session_setSession, if_neg hj]
  exact KeepsRole.refl _

/-- The fields of a session that handshakes do not use. -/
theorem still_setFields (w : NoiseWorker H K) (i : Fin noiseMaxSessions) {s : NoiseSession H K}
    (hhs : s.handshake = (w.session i).handshake) (hused : s.inUse = (w.session i).inUse)
    (hconn : s.connHandle = (w.session i).connHandle)
    (hinit : s.initiator = (w.session i).initiator) : Still w (w.setSession i s) :=
  still_setSession w i fun h => ⟨hhs ▸ h, hused, hconn, hinit⟩

theorem session_setPending (w : NoiseWorker H K) (i j : Fin noiseMaxSessions) (b : Bool) :
    (w.setPending i b).session j = w.session j := rfl

theorem still_setPending (w : NoiseWorker H K) (i : Fin noiseMaxSessions) (b : Bool) :
    Still w (w.setPending i b) :=
  still_of_sessions rfl fun _ => rfl

theorem still_setIdentity (w : NoiseWorker H K) (i : Fin noiseMaxSessions)
    (ident : NoiseIdentity) : Still w (w.setIdentity i ident) :=
  still_of_sessions rfl fun _ => rfl

theorem session_free (w : NoiseWorker H K) (i : Fin noiseMaxSessions) :
    ((w.free i).session i).handshake = none := by
  simp [NoiseWorker.free, NoiseWorker.session, freeSession, SessionTable.setIdentity,
    SessionTable.setSession, clearCrypto]

theorem session_free_of_ne (w : NoiseWorker H K) {i j : Fin noiseMaxSessions} (h : j ≠ i) :
    (w.free i).session j = w.session j := by
  simp [NoiseWorker.free, NoiseWorker.session, freeSession, SessionTable.setIdentity,
    SessionTable.setSession, SessionTable.setPending, h]

theorem still_free (w : NoiseWorker H K) (i : Fin noiseMaxSessions) : Still w (w.free i) := by
  refine ⟨⟨[], (List.append_nil _).symm, fun _ hx => nomatch hx⟩, fun j _ => ?_⟩
  by_cases hj : j = i
  · rw [hj]
    exact KeepsRole.of_none (session_free w i)
  · rw [session_free_of_ne w hj]
    exact KeepsRole.refl _

/-- A fresh slot has no handshake. -/
theorem still_alloc {conn : UInt16} {i : Fin noiseMaxSessions} (h : w.alloc conn = some (i, w')) :
    Still w w' := by
  rcases alloc_cases h with ⟨-, rfl⟩ | ⟨-, -, rfl⟩
  · exact HandshakeStep.refl _
  · exact (still_setSession w i (KeepsRole.of_none rfl)).trans (still_setPending _ i false)

end Compose

/-! ## What leaves handshakes alone -/

section Still

variable (env : NoiseEnv H K)

theorem still_sendAnnounce (w : NoiseWorker H K) (i : Fin noiseMaxSessions) :
    Still w (sendAnnounce env w i).2 := by
  unfold sendAnnounce trySend
  dsimp only
  split
  · exact HandshakeStep.refl w
  · split
    · exact still_call w rfl
    · have h := (still_call w (c := .announce (w.session i).connHandle) rfl).trans
        (still_call _ (c := .nodeCapability (w.session i).connHandle) rfl)
      split
      · exact h
      · exact h.trans (still_setFields _ i rfl rfl rfl rfl)

theorem still_sendIdentityAnnounce (w : NoiseWorker H K) (i : Fin noiseMaxSessions) :
    Still w (sendIdentityAnnounce env w i).2 := by
  unfold sendIdentityAnnounce trySend
  split
  · exact HandshakeStep.refl w
  · exact still_call w rfl

theorem still_trySendIdentity (w : NoiseWorker H K) (i : Fin noiseMaxSessions) :
    Still w (trySendIdentity env w i).2 := by
  unfold trySendIdentity
  split
  · exact HandshakeStep.refl w
  · split
    · exact HandshakeStep.refl w
    · split
      · exact HandshakeStep.refl w
      · split
        · exact HandshakeStep.refl w
        · dsimp only
          have h := still_sendAnnounce env w i
          split
          · exact h
          · have h' := (h.trans (still_sendIdentityAnnounce env _ i)).trans
              (still_setPending _ i false)
            exact h'.trans (still_setFields _ i rfl rfl rfl rfl)

theorem still_establish (w : NoiseWorker H K) (i : Fin noiseMaxSessions) (h : H) :
    Still w (establish env w i h).2 := by
  unfold establish
  split
  · exact HandshakeStep.refl w
  · refine HandshakeStep.trans ?_ (still_trySendIdentity env _ i)
    exact (still_setSession w i (KeepsRole.of_none rfl)).trans (still_setPending _ i true)

theorem still_settleHandshake (w : NoiseWorker H K) (i : Fin noiseMaxSessions) (h : H) :
    Still w (settleHandshake env w i h).2 := by
  unfold settleHandshake
  split
  · exact still_establish env w i h
  all_goals exact HandshakeStep.refl w

theorem still_noiseBeginHandshake (w : NoiseWorker H K) (conn : UInt16) (peer : PeerId) :
    Still w (noiseBeginHandshake w conn peer) := by
  unfold noiseBeginHandshake
  split
  · exact still_call w rfl
  · split
    · exact HandshakeStep.refl w
    · exact still_call w rfl

/-! ### Announces and identities -/

theorem still_offerIdentity (w : NoiseWorker H K) (conn : UInt16) :
    Still w (offerIdentity env w conn) := by
  unfold offerIdentity
  split
  · exact HandshakeStep.refl w
  · next i _ =>
    split
    · exact HandshakeStep.refl w
    · exact (still_setPending w i true).trans (still_trySendIdentity env _ i)

theorem still_bindUnknown (w : NoiseWorker H K) (i : Fin noiseMaxSessions) (peer : PeerId) :
    Still w (bindUnknown w i peer) := by
  unfold bindUnknown
  split
  · exact still_setFields w i rfl rfl rfl rfl
  · exact HandshakeStep.refl w

theorem still_dropDuplicate (w : NoiseWorker H K) (i : Fin noiseMaxSessions) (peer : PeerId) :
    Still w (dropDuplicate env w i peer) := by
  unfold dropDuplicate
  split
  · exact HandshakeStep.refl w
  · next j _ =>
    dsimp only
    generalize (if env.connCentral (w.session i).connHandle = true then (w.session i).connHandle
      else if env.connCentral (w.session j).connHandle = true then (w.session j).connHandle
      else 0xFFFF) = victim
    split
    · split
      · exact still_call w rfl
      · exact HandshakeStep.refl w
    · exact HandshakeStep.refl w

theorem still_notifyAnnounce (w : NoiseWorker H K) (evt : NoiseEvent) (ident : NoiseIdentity)
    (isDirect : Bool) : Still w (notifyAnnounce env w evt ident isDirect) := by
  unfold notifyAnnounce
  dsimp only
  have h : Still w (((w.call .markHealthy).call (.peerVersionSeen evt.connHandle evt.peerId
      ident.fwVersion)).call (.courierPeerAnnounced evt.connHandle evt.peerId ident.noiseKey
        isDirect env.nowMs)) := by
    refine HandshakeStep.trans ?_ (still_call _ rfl)
    exact (still_call w rfl).trans (still_call _ rfl)
  split
  · exact h.trans (still_call _ rfl)
  · exact h

theorem still_recordAnnounce (w : NoiseWorker H K) (i : Fin noiseMaxSessions) (evt : NoiseEvent)
    (ident : NoiseIdentity) (sigOk : Bool) :
    Still w (recordAnnounce env w i evt ident sigOk) := by
  unfold recordAnnounce
  refine HandshakeStep.trans ?_ (still_dropDuplicate env _ i evt.peerId)
  refine HandshakeStep.trans ?_ (still_bindUnknown _ i evt.peerId)
  refine HandshakeStep.trans ?_ (still_setFields _ i rfl rfl rfl rfl)
  split
  · exact still_setIdentity w i _
  · exact HandshakeStep.refl w

theorem still_processAnnounceEvent (sha256 : List UInt8 → Bytes 32)
    (ed25519SignOpen : List UInt8 → Bytes 32 → Bytes 64 → Bool) (w : NoiseWorker H K)
    (evt : NoiseEvent) : Still w (processAnnounceEvent env sha256 ed25519SignOpen w evt) := by
  unfold processAnnounceEvent
  dsimp only
  split
  · exact still_offerIdentity env w evt.connHandle
  · next ident _ =>
    split
    · exact HandshakeStep.refl w
    · next sigOk _ =>
      refine HandshakeStep.trans ?_ (still_offerIdentity env _ evt.connHandle)
      have hnotify : Still w (if sigOk = true then
          notifyAnnounce env w evt ident (evt.ttl == noisePacketTtl) else w) := by
        split
        · exact still_notifyAnnounce env w evt ident _
        · exact HandshakeStep.refl w
      split
      · split
        · exact hnotify
        · next i w₁ ha =>
          exact (hnotify.trans (still_alloc ha)).trans
            (still_recordAnnounce env w₁ i evt ident sigOk)
      · exact hnotify

theorem still_processIdentityEvent (w : NoiseWorker H K) (evt : NoiseEvent) :
    Still w (processIdentityEvent env w evt) := by
  unfold processIdentityEvent
  split
  · exact HandshakeStep.refl w
  · next i w₁ ha =>
    split
    · exact still_alloc ha
    · next ident _ =>
      refine HandshakeStep.trans ?_ (still_trySendIdentity env _ i)
      have hcall : Still w₁ (w₁.call (.considerPeer ident.timestampMs)) := still_call w₁ rfl
      refine ((still_alloc ha).trans hcall).trans ?_
      unfold recordIdentity
      refine HandshakeStep.trans ?_ (still_bindUnknown _ i evt.peerId)
      split
      · exact still_setIdentity _ i _
      · exact HandshakeStep.refl _

/-! ### Transport payloads -/

theorem still_encryptPayload (aead : Aead K) (w : NoiseWorker H K) (i : Fin noiseMaxSessions)
    (input : List UInt8) (n : Nat) :
    Still w (w.setSession i (encryptPayload aead (w.session i) input n).2) := by
  have h : ∀ s : NoiseSession H K, KeepsRole s (encryptPayload aead s input n).2 := by
    intro s
    unfold encryptPayload
    dsimp only
    repeat' split
    all_goals exact fun hsome => ⟨hsome, rfl, rfl, rfl⟩
  exact still_setSession w i (h _)

theorem still_decryptPayload (aead : Aead K) (w : NoiseWorker H K) (i : Fin noiseMaxSessions)
    (input : List UInt8) (n : Nat) :
    Still w (w.setSession i (decryptPayload aead (w.session i) input n).2) := by
  have h : ∀ s : NoiseSession H K, KeepsRole s (decryptPayload aead s input n).2 := by
    intro s
    unfold decryptPayload openPayload
    repeat' split
    all_goals exact fun hsome => ⟨hsome, rfl, rfl, rfl⟩
  exact still_setSession w i (h _)

theorem still_noiseSendEncrypted (aead : Aead K) (w : NoiseWorker H K) (conn : UInt16)
    (type : UInt8) (payload : List UInt8) :
    Still w (noiseSendEncrypted env aead w conn type payload).2 := by
  unfold noiseSendEncrypted trySend
  split
  · exact HandshakeStep.refl w
  · next i _ =>
    split
    · exact HandshakeStep.refl w
    · split
      · exact HandshakeStep.refl w
      · have h := still_encryptPayload aead w i (type :: payload) noiseMaxEncryptedPayload
        split
        · next s heq =>
          rw [heq] at h
          exact h
        · next c s heq =>
          rw [heq] at h
          exact h.trans (still_call _ rfl)

theorem still_handleNoisePayload (aead : Aead K) (w : NoiseWorker H K) (i : Fin noiseMaxSessions)
    (conn : UInt16) (decrypted : List UInt8) :
    Still w (handleNoisePayload env aead w i conn decrypted) := by
  have hack : ∀ id, Still w (acknowledge env aead w conn id) := by
    intro id
    unfold acknowledge
    split
    · exact HandshakeStep.refl w
    · exact still_noiseSendEncrypted env aead w conn _ id
  have hreply : ∀ w : NoiseWorker H K, Still w (sendAutoReply env aead w i) := by
    intro w
    have h := still_noiseSendEncrypted env aead w (w.session i).connHandle
      bitchatNoisePayloadPrivateMessage env.autoReply
    unfold sendAutoReply
    split
    · exact HandshakeStep.refl w
    · dsimp only
      split
      · exact h.trans (still_setFields _ i rfl rfl rfl rfl)
      · exact h
  unfold handleNoisePayload
  split
  · exact HandshakeStep.refl w
  · split
    · exact HandshakeStep.refl w
    · exact (hack _).trans (hreply _)

theorem still_processEncryptedEvent (aead : Aead K) (w : NoiseWorker H K) (evt : NoiseEvent) :
    Still w (processEncryptedEvent env aead w evt) := by
  unfold processEncryptedEvent
  split
  · exact still_noiseBeginHandshake w evt.connHandle evt.peerId
  · next i _ =>
    split
    · split
      · exact still_noiseBeginHandshake w evt.connHandle evt.peerId
      · exact HandshakeStep.refl w
    · have h := still_decryptPayload aead w i evt.payload noiseMaxEncryptedPayload
      split
      · next s heq =>
        rw [heq] at h
        exact h
      · next plaintext s heq =>
        rw [heq] at h
        exact h.trans (still_handleNoisePayload env aead _ i evt.connHandle plaintext)

/-! ### The end of a link, and its start -/

theorem still_processDisconnectEvent (w : NoiseWorker H K) (evt : NoiseEvent) :
    Still w (processDisconnectEvent w evt) := by
  unfold processDisconnectEvent
  split
  · exact HandshakeStep.refl w
  · exact still_free w _

theorem still_processSubscribedEvent (w : NoiseWorker H K) (evt : NoiseEvent) :
    Still w (processSubscribedEvent env w evt) := by
  unfold processSubscribedEvent
  have h := still_processDisconnectEvent w evt
  dsimp only
  split
  · exact h
  · next i w₁ ha =>
    refine (h.trans (still_alloc ha)).trans ?_
    exact (still_setPending w₁ i true).trans (still_trySendIdentity env _ i)

theorem still_processCourierEvent (ed25519SignOpen : List UInt8 → Bytes 32 → Bytes 64 → Bool)
    (w : NoiseWorker H K) (evt : NoiseEvent) :
    Still w (processCourierEvent env ed25519SignOpen w evt) := by
  unfold processCourierEvent
  split
  · exact HandshakeStep.refl w
  · exact still_call w rfl

/-! ### Maintenance -/

theorem still_maintainSession (w : NoiseWorker H K) (i : Fin noiseMaxSessions) :
    Still w (maintainSession env w i) := by
  have hidentity : Still w (maintainIdentity env w i) := by
    unfold maintainIdentity
    split
    · exact still_trySendIdentity env w i
    · exact HandshakeStep.refl w
  have hhandshake : ∀ w : NoiseWorker H K, Still w (maintainHandshake env w i) := by
    intro w
    unfold maintainHandshake
    dsimp only
    split
    · refine HandshakeStep.trans ?_ (still_noiseBeginHandshake _ _ _)
      exact still_setFields w i rfl rfl rfl rfl
    · exact HandshakeStep.refl w
  have hagain : ∀ w : NoiseWorker H K, Still w (reannounce env w i) := by
    intro w
    have h := still_sendAnnounce env w i
    have h' := h.trans (still_sendIdentityAnnounce env _ i)
    unfold reannounce
    dsimp only
    split
    · exact h
    · split
      · exact h'
      · exact h'.trans (still_setFields _ i rfl rfl rfl rfl)
  have hperiodic : ∀ w : NoiseWorker H K, Still w (announcePeriodically env w i) := by
    intro w
    unfold announcePeriodically
    split
    · exact still_sendAnnounce env w i
    · exact HandshakeStep.refl w
  have htick : ∀ w : NoiseWorker H K, Still w (tickSync env w i) := by
    intro w
    unfold tickSync
    split
    · exact still_call w rfl
    · exact HandshakeStep.refl w
  -- each part of a pass is still, so the pass is
  unfold maintainSession
  split
  · exact HandshakeStep.refl w
  · split
    · exact HandshakeStep.refl w
    · have h := hidentity.trans (hhandshake _)
      dsimp only
      split
      · exact h.trans (hagain _)
      · exact (h.trans (hperiodic _)).trans (htick _)

theorem still_pollSessionMaintenance (w : NoiseWorker H K) :
    Still w (pollSessionMaintenance env w) := by
  have hfold : ∀ (l : List (Fin noiseMaxSessions)) (w : NoiseWorker H K),
      Still w (l.foldl (maintainSession env) w) := by
    intro l
    induction l with
    | nil => exact HandshakeStep.refl
    | cons i l ih => exact fun w => (still_maintainSession env w i).trans (ih _)
  unfold pollSessionMaintenance
  split
  · exact HandshakeStep.refl w
  · have hclock : Still w { w with lastMaintenanceMs := env.uptimeMs } :=
      still_of_sessions rfl fun _ => rfl
    exact hclock.trans (hfold _ _)

/-- Every event but a start and a handshake message. -/
theorem still_processEvent (sha256 : List UInt8 → Bytes 32)
    (ed25519SignOpen : List UInt8 → Bytes 32 → Bytes 64 → Bool) (aead : Aead K)
    (w : NoiseWorker H K) {evt : NoiseEvent} (hs : evt.type ≠ .start) (hp : evt.type ≠ .process) :
    Still w (processEvent env sha256 ed25519SignOpen aead w evt) := by
  unfold processEvent
  cases htype : evt.type with
  | start => exact absurd htype hs
  | process => exact absurd htype hp
  | announce => exact still_processAnnounceEvent env sha256 ed25519SignOpen w evt
  | identity => exact still_processIdentityEvent env w evt
  | encrypted => exact still_processEncryptedEvent env aead w evt
  | subscribed => exact still_processSubscribedEvent env w evt
  | courier => exact still_processCourierEvent env ed25519SignOpen w evt
  | sync => exact still_call w rfl
  | disconnect => exact still_processDisconnectEvent w evt

end Still

/-! ## Noise XX -/

/-- The sizes of the three messages. -/
def xxMessageLen : Nat → Nat
  | 0 => 32
  | 1 => 96
  | 2 => 64
  | _ => 0

/-- Who writes a message: the initiator the first and the third, the responder the second. -/
def xxWrites (initiator : Bool) (n : Nat) : Bool :=
  if initiator then n == 0 || n == 2 else n == 1

/-- What the results assume of the library: a handshake state runs Noise XX with empty payloads, and
a message out of its place or of another size is not read. (The vendored code takes a longer message
too, the rest being its payload.) `role` and `count` read a state: which side it is, and how many
messages have passed. -/
structure NoiseXX (lib : NoiseLib H K) (role : H → Bool) (count : H → Nat) : Prop where
  create : ∀ b h, lib.create b = some h → role h = b ∧ count h = 0
  start : ∀ h h', lib.start h = some h' → role h' = role h ∧ count h' = count h
  action : ∀ h, lib.action h = .writeMessage → xxWrites (role h) (count h) = true
  write : ∀ h h' m, lib.writeMessage h = some (h', m) →
    role h' = role h ∧ count h' = count h + 1 ∧ m.length = xxMessageLen (count h)
  read : ∀ h m h' out, lib.readMessage h m = some (h', out) →
    xxWrites (!role h) (count h) = true ∧ m.length = xxMessageLen (count h) ∧
      role h' = role h ∧ count h' = count h + 1 ∧ out = []

/-- Only the first message has 32 bytes. -/
theorem xxMessageLen_succ_ne (n : Nat) : xxMessageLen (n + 1) ≠ 32 := by
  match n with
  | 0 => decide
  | 1 => decide
  | n + 2 =>
    show 0 ≠ 32
    decide

/-! ## What handshakes send -/

section Handshakes

variable {env : NoiseEnv H K} {role : H → Bool} {count : H → Nat} {w : NoiseWorker H K}
  {i : Fin noiseMaxSessions}

/-- A message is sent when it is the node's turn, on the connection of the slot. -/
def InTurn (w : NoiseWorker H K) (i : Fin noiseMaxSessions) (role : Bool) (count : Nat)
    (c : UInt16) (p : List UInt8) : Prop :=
  c = (w.session i).connHandle ∧ xxWrites role count = true ∧ p.length = xxMessageLen count

theorem sendHandshakeMessage_roles (hxx : NoiseXX env.lib role count) {h : H}
    (hact : env.lib.action h = .writeMessage) (hh : (w.session i).handshake = some h) :
    HandshakeStep (InTurn w i (role h) (count h)) (fun _ => False) w
      (sendHandshakeMessage env w i h).2 := by
  unfold sendHandshakeMessage
  split
  · exact HandshakeStep.refl w
  · next h' m hwrite =>
    have hlen := (hxx.write h h' m hwrite).2.2
    have hset : Still w (w.setSession i { w.session i with handshake := some h' }) :=
      still_setSession w i fun _ => ⟨by rw [hh]; rfl, rfl, rfl, rfl⟩
    dsimp only
    split
    · exact hset.mono
    · refine hset.mono.trans ⟨⟨[_], rfl, fun x hx c p hc => ?_⟩, fun j _ => KeepsRole.refl _⟩
      rw [List.mem_singleton.mp hx, NoiseCall.handshake, if_pos rfl, session_setSession,
        if_pos rfl] at hc
      cases hc
      exact ⟨rfl, hxx.action h hact, hlen⟩

/-- One message at most, and only in turn. -/
theorem advanceHandshake_roles (hxx : NoiseXX env.lib role count) {h : H}
    (hh : (w.session i).handshake = some h) :
    HandshakeStep (InTurn w i (role h) (count h)) (fun _ => False) w
      (advanceHandshake env w i).2 := by
  unfold advanceHandshake
  rw [hh]
  dsimp only
  split
  · next hact =>
    have hsend := sendHandshakeMessage_roles hxx hact hh
    split
    · exact hsend
    · split
      · exact hsend
      · split
        · exact hsend
        · exact hsend.trans (still_settleHandshake env _ i _).mono
  · exact (still_settleHandshake env w i h).mono

/-- A message is read in its place, and what answers it is not a first message. -/
theorem readHandshake_roles (hxx : NoiseXX env.lib role count) {h : H}
    (hh : (w.session i).handshake = some h) (evt : NoiseEvent) :
    HandshakeStep (fun c p => c = (w.session i).connHandle ∧ p.length ≠ 32) (fun _ => False) w
        (readHandshake env w i evt).2 ∧
      ((readHandshake env w i evt).1 = true → evt.payload.length = xxMessageLen (count h)) := by
  unfold readHandshake
  split
  · exact ⟨HandshakeStep.refl w, fun hf => nomatch hf⟩
  · rw [hh]
    dsimp only
    split
    · exact ⟨HandshakeStep.refl w, fun hf => nomatch hf⟩
    · next h' out hread =>
      obtain ⟨-, hlen, -, hcount, rfl⟩ := hxx.read h evt.payload h' out hread
      refine ⟨?_, fun _ => hlen⟩
      rw [if_neg (by decide)]
      have hset : Still w (w.setSession i { w.session i with handshake := some h' }) :=
        still_setSession w i fun _ => ⟨by rw [hh]; rfl, rfl, rfl, rfl⟩
      have hnext : ((w.setSession i { w.session i with handshake := some h' }).session i) =
          { w.session i with handshake := some h' } := by
        rw [session_setSession, if_pos rfl]
      refine hset.mono.trans ((advanceHandshake_roles hxx (by rw [hnext])).mono ?_ fun _ hf => hf)
      rintro c p ⟨hc, -, hp⟩
      rw [hnext] at hc
      refine ⟨hc, ?_⟩
      rw [hp, hcount]
      exact xxMessageLen_succ_ne _

/-- What is settled either ends the handshake or leaves it. -/
theorem handshake_settle (env : NoiseEnv H K) (w : NoiseWorker H K) (i : Fin noiseMaxSessions)
    (h : H) : ((settleHandshake env w i h).2.session i).handshake = none ∨
      (settleHandshake env w i h).2 = w := by
  unfold settleHandshake
  split
  · unfold establish
    split
    · exact .inr rfl
    · left
      -- sending the identity installs none again
      dsimp only
      rw [← Option.not_isSome_iff_eq_none]
      intro hsome
      have hkeep := (still_trySendIdentity env _ i).keeps i (fun hf => hf) hsome
      rw [session_setPending, session_setSession, if_pos rfl] at hkeep
      exact nomatch hkeep.1
  all_goals exact .inr rfl

/-- A start makes the node what the event says, and a responder sends nothing yet. -/
theorem startHandshake_roles (hxx : NoiseXX env.lib role count)
    (hn : (w.session i).handshake = none) (evt : NoiseEvent) :
    HandshakeStep (fun c _ => c = (w.session i).connHandle ∧ evt.initiator = true) (fun j => j = i)
        w (startHandshake env w i evt).2 ∧
      ∀ h, ((startHandshake env w i evt).2.session i).handshake = some h →
        (((startHandshake env w i evt).2.session i).inUse = (w.session i).inUse ∧
          ((startHandshake env w i evt).2.session i).connHandle = (w.session i).connHandle ∧
          ((startHandshake env w i evt).2.session i).initiator = evt.initiator) ∧
        (evt.initiator = false → count h = 0) := by
  unfold startHandshake
  rw [hn, if_neg (by simp)]
  split
  · refine ⟨HandshakeStep.refl w, fun h hh => ?_⟩
    rw [hn] at hh
    cases hh
  · next h₀ hcreate =>
    obtain ⟨hrole₀, hcount₀⟩ := hxx.create _ _ hcreate
    dsimp only
    split
    · -- the library refuses to start
      refine ⟨(step_setSession w i _).trans (step_setSession _ i _), fun h hh => ?_⟩
      rw [session_setSession, if_pos rfl] at hh
      cases hh
    · next h₁ hstart =>
      obtain ⟨hrole₁, hcount₁⟩ := hxx.start _ _ hstart
      generalize hw₁ : w.setSession i
        { w.session i with handshake := some h₀, initiator := evt.initiator } = w₁
      generalize hw₂ : w₁.setSession i
        { w₁.session i with
          handshake := some h₁, peerId := evt.peerId, identitySent := false
          established := false } = w₂
      have hsession : w₂.session i = { w.session i with
          handshake := some h₁, initiator := evt.initiator, peerId := evt.peerId
          identitySent := false, established := false } := by
        rw [← hw₂, session_setSession, if_pos rfl, ← hw₁, session_setSession, if_pos rfl]
      have hset : HandshakeStep (fun c _ => c = (w.session i).connHandle ∧ evt.initiator = true)
          (fun j => j = i) w w₂ := by
        rw [← hw₂, ← hw₁]
        exact (step_setSession w i _).trans (step_setSession _ i _)
      have hhs : (w₂.session i).handshake = some h₁ := by rw [hsession]
      have hadv := advanceHandshake_roles hxx hhs
      refine ⟨hset.trans (hadv.mono ?_ fun _ hf => hf.elim), fun h hh => ⟨?_, fun hresp => ?_⟩⟩
      · -- only an initiator writes the first message
        rintro c p ⟨hc, hturn, -⟩
        rw [hrole₁, hrole₀, hcount₁, hcount₀] at hturn
        rw [hsession] at hc
        refine ⟨hc, ?_⟩
        cases hinit : evt.initiator with
        | true => rfl
        | false =>
          rw [hinit] at hturn
          cases hturn
      · obtain ⟨-, hused, hconn, hinit⟩ := hadv.keeps i (fun hf => hf) (by rw [hh]; rfl)
        rw [hsession] at hused hconn hinit
        exact ⟨hused, hconn, hinit⟩
      · have hact : env.lib.action h₁ ≠ .writeMessage := by
          intro hact
          have hturn := hxx.action h₁ hact
          rw [hrole₁, hrole₀, hcount₁, hcount₀, hresp] at hturn
          cases hturn
        have heq : advanceHandshake env w₂ i = settleHandshake env w₂ i h₁ := by
          unfold advanceHandshake
          rw [hhs]
          exact if_neg hact
        rw [heq] at hh
        rcases handshake_settle env w₂ i h₁ with hnone | hsame
        · rw [hnone] at hh
          cases hh
        · rw [hsame, hhs] at hh
          cases hh
          exact hcount₁.trans hcount₀

theorem readHandshake_of_none (hn : (w.session i).handshake = none) (evt : NoiseEvent) :
    readHandshake env w i evt = (false, w) := by
  unfold readHandshake
  split
  · rfl
  · rw [hn]

/-- A handshake message on a slot without a handshake: the node answers a first message. -/
theorem answer_roles (hxx : NoiseXX env.lib role count) (hn : (w.session i).handshake = none)
    {evt : NoiseEvent} (hresp : evt.initiator = false) {ok : Bool} {w' : NoiseWorker H K}
    (h : (if !(startHandshake env w i evt).1 then (false, (startHandshake env w i evt).2)
      else readHandshake env (startHandshake env w i evt).2 i evt) = (ok, w')) :
    HandshakeStep (fun c p => c = (w.session i).connHandle ∧ p.length ≠ 32) (fun j => j = i) w w' ∧
      (ok = true → evt.payload.length = 32) ∧
      ((w'.session i).handshake.isSome →
        (w'.session i).connHandle = (w.session i).connHandle) := by
  obtain ⟨hstep, hafter⟩ := startHandshake_roles hxx hn evt
  have hquiet : HandshakeStep (fun c p => c = (w.session i).connHandle ∧ p.length ≠ 32)
      (fun j => j = i) w (startHandshake env w i evt).2 := by
    refine hstep.mono ?_ fun _ hj => hj
    rintro c p ⟨-, hinit⟩
    exact nomatch hresp.symm.trans hinit
  have hconn : ((startHandshake env w i evt).2.session i).handshake.isSome →
      ((startHandshake env w i evt).2.session i).connHandle = (w.session i).connHandle := by
    intro hsome
    obtain ⟨h₁, hh⟩ := Option.isSome_iff_exists.mp hsome
    exact (hafter h₁ hh).1.2.1
  split at h
  · cases h
    exact ⟨hquiet, (fun hf => nomatch hf), hconn⟩
  · cases hh : ((startHandshake env w i evt).2.session i).handshake with
    | none =>
      rw [readHandshake_of_none hh] at h
      cases h
      exact ⟨hquiet, (fun hf => nomatch hf), hconn⟩
    | some h₁ =>
      obtain ⟨⟨-, hconn₁, -⟩, hcount⟩ := hafter h₁ hh
      obtain ⟨hread, hlen⟩ := readHandshake_roles hxx hh evt
      rw [h] at hread hlen
      rw [hconn₁] at hread
      refine ⟨hquiet.trans (hread.mono (fun _ _ hp => hp) fun _ hf => hf.elim), fun hok => ?_,
        fun hsome => ?_⟩
      · rw [hlen hok, hcount hresp]
        rfl
      · exact (hread.keeps i (fun hf => hf) hsome).2.2.1.trans hconn₁

/-- A handshake message makes a responder only where there was one, or by a first message. -/
theorem processHandshake_roles (hxx : NoiseXX env.lib role count) {evt : NoiseEvent}
    (hresp : evt.initiator = false) :
    HandshakeStep (fun c p => c = (w.session i).connHandle ∧ p.length ≠ 32) (fun j => j = i) w
        (processHandshake env w i evt).2 ∧
      ((processHandshake env w i evt).1 = true → ∀ c,
        ((processHandshake env w i evt).2.session i).responds c →
          (w.session i).responds c ∨
            (c = (w.session i).connHandle ∧ evt.payload.length = 32)) := by
  unfold processHandshake
  split
  · -- a collision: the handshake is dropped, and the peer's first message answered
    generalize hw₁ : w.setSession i { clearCrypto (w.session i) with established := false } = w₁
    have hsession : w₁.session i = { clearCrypto (w.session i) with established := false } := by
      rw [← hw₁, session_setSession, if_pos rfl]
    have hn : (w₁.session i).handshake = none := by
      rw [hsession]
      rfl
    have hconn : (w₁.session i).connHandle = (w.session i).connHandle := by
      rw [hsession]
      rfl
    have hyield : Still w w₁ := by
      rw [← hw₁]
      exact still_setSession w i (KeepsRole.of_none rfl)
    dsimp only
    rw [hn, if_neg (by simp)]
    obtain ⟨hstep, hlen, hhandle⟩ := answer_roles hxx hn hresp rfl
    rw [hconn] at hstep hhandle
    refine ⟨hyield.mono.trans hstep, fun hok c hc => .inr ⟨?_, hlen hok⟩⟩
    exact hc.2.1.symm.trans (hhandle hc.2.2.1)
  · dsimp only
    cases hh : (w.session i).handshake with
    | some h =>
      rw [if_pos Option.isSome_some]
      obtain ⟨hread, -⟩ := readHandshake_roles hxx hh evt
      refine ⟨hread.mono (fun _ _ hp => hp) fun _ hf => hf.elim, fun _ c hc => .inl ?_⟩
      obtain ⟨hsome, hused, hconn, hinit⟩ := hread.keeps i (fun hf => hf) hc.2.2.1
      exact ⟨hused.symm.trans hc.1, hconn.symm.trans hc.2.1, hsome, hinit.symm.trans hc.2.2.2⟩
    | none =>
      rw [if_neg (by simp)]
      obtain ⟨hstep, hlen, hhandle⟩ := answer_roles hxx hh hresp rfl
      refine ⟨hstep, fun hok c hc => .inr ⟨?_, hlen hok⟩⟩
      exact hc.2.1.symm.trans (hhandle hc.2.2.1)

/-! ## One event -/

/-- The handshake messages sent meet `P`, and a responder the node was not before it is on a
connection that meets `R`. -/
structure EventRoles (P : UInt16 → List UInt8 → Prop) (R : UInt16 → Prop)
    (w w' : NoiseWorker H K) : Prop where
  sends : ∃ calls, w'.log = w.log ++ calls ∧
    ∀ x ∈ calls, ∀ c p, x.handshake = some (c, p) → P c p
  roles : ∀ c, w'.Responds c → w.Responds c ∨ R c

variable {P : UInt16 → List UInt8 → Prop} {R : UInt16 → Prop} {w' w'' : NoiseWorker H K}

theorem HandshakeStep.eventRoles {Q : Fin noiseMaxSessions → Prop} (h : HandshakeStep P Q w w')
    (hQ : ∀ j c, Q j → (w'.session j).responds c → w.Responds c ∨ R c) : EventRoles P R w w' := by
  refine ⟨h.sends, ?_⟩
  rintro c ⟨j, hj⟩
  by_cases hq : Q j
  · exact hQ j c hq hj
  · obtain ⟨hsome, hused, hconn, hinit⟩ := h.keeps j hq hj.2.2.1
    exact .inl ⟨j, hused.symm.trans hj.1, hconn.symm.trans hj.2.1, hsome,
      hinit.symm.trans hj.2.2.2⟩

theorem EventRoles.mono {P' : UInt16 → List UInt8 → Prop} {R' : UInt16 → Prop}
    (h : EventRoles P R w w') (hP : ∀ c p, P c p → P' c p) (hR : ∀ c, R c → R' c) :
    EventRoles P' R' w w' := by
  obtain ⟨calls, hlog, hcalls⟩ := h.sends
  exact ⟨⟨calls, hlog, fun x hx c p hc => hP c p (hcalls x hx c p hc)⟩,
    fun c hc => (h.roles c hc).imp_right (hR c)⟩

theorem Still.eventRoles (h : Still w w') : EventRoles P R w w' :=
  HandshakeStep.eventRoles (Q := fun _ => False) h.mono fun _ _ (hf : False) => hf.elim

theorem EventRoles.trans_still (h : EventRoles P R w w') (h' : Still w' w'') :
    EventRoles P R w w'' := by
  obtain ⟨calls, hlog, hcalls⟩ := h.sends
  obtain ⟨calls', hlog', hcalls'⟩ := h'.sends
  constructor
  · refine ⟨calls ++ calls', by rw [hlog', hlog, List.append_assoc], fun x hx c p hc => ?_⟩
    rcases List.mem_append.mp hx with hx | hx
    · exact hcalls x hx c p hc
    · exact (hcalls' x hx c p hc).elim
  · intro c hc
    have hback : EventRoles P (fun _ => False) w' w'' := h'.eventRoles
    exact h.roles c ((hback.roles c hc).resolve_right fun hf => hf)

theorem still_trans_eventRoles (h : Still w w') (h' : EventRoles P R w' w'') :
    EventRoles P R w w'' := by
  obtain ⟨calls, hlog, hcalls⟩ := h.sends
  obtain ⟨calls', hlog', hcalls'⟩ := h'.sends
  constructor
  · refine ⟨calls ++ calls', by rw [hlog', hlog, List.append_assoc], fun x hx c p hc => ?_⟩
    rcases List.mem_append.mp hx with hx | hx
    · exact (hcalls x hx c p hc).elim
    · exact hcalls' x hx c p hc
  · intro c hc
    have hback : EventRoles P (fun _ => False) w w' := h.eventRoles
    exact (h'.roles c hc).imp_left fun hw' => (hback.roles c hw').resolve_right fun hf => hf

/-- A queued start makes no responder. -/
theorem processStartEvent_roles (hxx : NoiseXX env.lib role count) (w : NoiseWorker H K)
    {evt : NoiseEvent} (hinit : evt.initiator = true) :
    EventRoles (fun c _ => c = evt.connHandle) (fun _ => False) w (processStartEvent env w evt) := by
  unfold processStartEvent
  split
  · exact Still.eventRoles (HandshakeStep.refl w)
  · next i w₁ ha =>
    have hconn := (slot_alloc_self ha).2
    split
    · exact (still_alloc ha).eventRoles
    · next hnone =>
      rw [Option.not_isSome_iff_eq_none] at hnone
      obtain ⟨hstep, hafter⟩ := startHandshake_roles hxx hnone evt
      have hstart : EventRoles (fun c _ => c = evt.connHandle) (fun _ => False) w₁
          (startHandshake env w₁ i evt).2 := by
        refine (hstep.mono (fun c p hp => hp.1.trans hconn) fun _ hj => hj).eventRoles ?_
        rintro j c rfl hj
        obtain ⟨h, hh⟩ := Option.isSome_iff_exists.mp hj.2.2.1
        -- it is an initiator
        exact nomatch hj.2.2.2.symm.trans ((hafter h hh).1.2.2.trans hinit)
      refine still_trans_eventRoles (still_alloc ha) ?_
      dsimp only
      split
      · exact hstart
      · exact hstart.trans_still (still_free _ i)

/-- A handshake message makes a responder only on its connection and if it is a first message,
and no first message is sent. -/
theorem processHandshakeEvent_roles (hxx : NoiseXX env.lib role count) (w : NoiseWorker H K)
    {evt : NoiseEvent} (hresp : evt.initiator = false) :
    EventRoles (fun c p => c = evt.connHandle ∧ p.length ≠ 32)
      (fun c => c = evt.connHandle ∧ evt.payload.length = 32) w
      (processHandshakeEvent env w evt) := by
  unfold processHandshakeEvent
  split
  · exact Still.eventRoles (HandshakeStep.refl w)
  · next i w₁ ha =>
    have hset : Still w₁ (w₁.setSession i { w₁.session i with peerId := evt.peerId }) :=
      still_setFields w₁ i rfl rfl rfl rfl
    dsimp only
    generalize hw₂ : w₁.setSession i { w₁.session i with peerId := evt.peerId } = w₂ at hset ⊢
    have hconn : (w₂.session i).connHandle = evt.connHandle := by
      rw [← hw₂, session_setSession, if_pos rfl]
      exact (slot_alloc_self ha).2
    obtain ⟨hstep, hok⟩ := processHandshake_roles (w := w₂) (i := i) hxx hresp
    rw [hconn] at hstep hok
    refine still_trans_eventRoles ((still_alloc ha).trans hset) ?_
    split
    · next heq =>
      refine hstep.eventRoles ?_
      rintro j c rfl hj
      exact (hok heq c hj).imp_left fun hw => ⟨j, hw⟩
    · -- a failed handshake is torn down, with what it had become
      have hfree := still_free (processHandshake env w₂ i evt).2 i
      refine (hstep.trans hfree.mono).eventRoles ?_
      rintro j c rfl hj
      have hsome := hj.2.2.1
      rw [session_free] at hsome
      cases hsome

/-- The connection has a handshake. -/
def handshakeActive (w : NoiseWorker H K) (connHandle : UInt16) : Bool :=
  (findSession w.table connHandle).any fun i => (w.session i).handshake.isSome

/-- A start does nothing then. -/
theorem processStartEvent_of_active {evt : NoiseEvent}
    (h : handshakeActive w evt.connHandle = true) : processStartEvent env w evt = w := by
  unfold handshakeActive at h
  rw [Option.any_eq_true] at h
  obtain ⟨i, hfind, hsome⟩ := h
  have halloc : w.alloc evt.connHandle = some (i, w) := by
    unfold NoiseWorker.alloc allocSession
    rw [hfind]
    rfl
  unfold processStartEvent
  rw [halloc]
  exact if_pos hsome

theorem HandlesDistinct.active_of_responds (hw : HandlesDistinct w) {c : UInt16}
    (h : w.Responds c) : handshakeActive w c = true := by
  obtain ⟨i, hused, hconn, hsome, -⟩ := h
  have hfind : findSession w.table c = some i := by
    rw [← hconn]
    exact findSession_of_link hw hused
  unfold handshakeActive
  rw [hfind]
  exact hsome

end Handshakes

end Bitle
