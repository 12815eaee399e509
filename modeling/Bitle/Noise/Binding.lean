import Bitle.Noise.Worker

/-!
# Bitle — whose deposit is it

`process_courier_event` checks a deposit's signature under the key of the identity recorded for
the connection, and names the packet's sender as the depositor. The two agree as long as the
session's `peer_id` is the verified identity's. `PeersBound` says so; the handlers that can break it
are the ones that write `peer_id` without looking at the identity: a handshake packet, a start, a
verified announce on a connection that has another peer id, and, where the recorded id is zero,
an unverified announce or a legacy identity. `BindStep` is the condition that none of them does.
-/

namespace Bitle

open Wire Run

variable {H K : Type}

/-! ## Rounds that keep the binding -/

/-- The used slots, their handles, peer ids and identities are the same. -/
structure SameBinding (w w' : NoiseWorker H K) : Prop where
  inUse : ∀ i, (w'.session i).inUse = (w.session i).inUse
  connHandle : ∀ i, (w'.session i).connHandle = (w.session i).connHandle
  peerId : ∀ i, (w'.session i).peerId = (w.session i).peerId
  identities : w'.table.identities = w.table.identities

theorem SameBinding.refl (w : NoiseWorker H K) : SameBinding w w :=
  ⟨fun _ => rfl, fun _ => rfl, fun _ => rfl, rfl⟩

theorem SameBinding.trans {w w' w'' : NoiseWorker H K} (h : SameBinding w w')
    (h' : SameBinding w' w'') : SameBinding w w'' :=
  ⟨fun i => (h'.inUse i).trans (h.inUse i), fun i => (h'.connHandle i).trans (h.connHandle i),
    fun i => (h'.peerId i).trans (h.peerId i), h'.identities.trans h.identities⟩

@[simp] theorem session_setSession (w : NoiseWorker H K) (i j : Fin noiseMaxSessions)
    (s : NoiseSession H K) : (w.setSession i s).session j = if j = i then s else w.session j := by
  by_cases h : j = i
  · subst h
    simp [NoiseWorker.setSession, NoiseWorker.session, SessionTable.setSession]
  · simp [NoiseWorker.setSession, NoiseWorker.session, SessionTable.setSession, h]

/-- A slot overwritten with the same handle and peer id. -/
theorem sameBinding_setSession (w : NoiseWorker H K) (i : Fin noiseMaxSessions)
    {s : NoiseSession H K} (h1 : s.inUse = (w.session i).inUse)
    (h2 : s.connHandle = (w.session i).connHandle) (h3 : s.peerId = (w.session i).peerId) :
    SameBinding w (w.setSession i s) := by
  refine ⟨fun j => ?_, fun j => ?_, fun j => ?_, rfl⟩
  all_goals
    rw [session_setSession]
    split
    · next hj => rw [hj]; assumption
    · rfl

theorem sameBinding_call (w : NoiseWorker H K) (c : NoiseCall) : SameBinding w (w.call c) :=
  ⟨fun _ => rfl, fun _ => rfl, fun _ => rfl, rfl⟩

theorem sameBinding_setPending (w : NoiseWorker H K) (i : Fin noiseMaxSessions) (b : Bool) :
    SameBinding w (w.setPending i b) :=
  ⟨fun _ => rfl, fun _ => rfl, fun _ => rfl, rfl⟩

section Send

variable (env : NoiseEnv H K)

theorem sameBinding_sendAnnounce (w : NoiseWorker H K) (i : Fin noiseMaxSessions) :
    SameBinding w (sendAnnounce env w i).2 := by
  unfold sendAnnounce trySend
  dsimp only
  split
  · exact SameBinding.refl w
  · split
    · exact sameBinding_call w _
    · split
      · exact (sameBinding_call w _).trans (sameBinding_call _ _)
      · exact ((sameBinding_call w _).trans (sameBinding_call _ _)).trans
          (sameBinding_setSession _ i rfl rfl rfl)

theorem sameBinding_sendIdentityAnnounce (w : NoiseWorker H K) (i : Fin noiseMaxSessions) :
    SameBinding w (sendIdentityAnnounce env w i).2 := by
  unfold sendIdentityAnnounce trySend
  split
  · exact SameBinding.refl w
  · exact sameBinding_call w _

theorem sameBinding_trySendIdentity (w : NoiseWorker H K) (i : Fin noiseMaxSessions) :
    SameBinding w (trySendIdentity env w i).2 := by
  unfold trySendIdentity
  split
  · exact SameBinding.refl w
  · split
    · exact SameBinding.refl w
    · split
      · exact SameBinding.refl w
      · split
        · exact SameBinding.refl w
        · dsimp only
          have h := sameBinding_sendAnnounce env w i
          split
          · exact h
          · exact ((h.trans (sameBinding_sendIdentityAnnounce env _ i)).trans
              (sameBinding_setPending _ i false)).trans (sameBinding_setSession _ i rfl rfl rfl)

theorem sameBinding_establish (w : NoiseWorker H K) (i : Fin noiseMaxSessions) (h : H) :
    SameBinding w (establish env w i h).2 := by
  unfold establish
  split
  · exact SameBinding.refl w
  · refine SameBinding.trans ?_ (sameBinding_trySendIdentity env _ i)
    refine SameBinding.trans ?_ (sameBinding_setPending _ i true)
    exact sameBinding_setSession w i rfl rfl rfl

theorem sameBinding_settleHandshake (w : NoiseWorker H K) (i : Fin noiseMaxSessions) (h : H) :
    SameBinding w (settleHandshake env w i h).2 := by
  unfold settleHandshake
  split
  · exact sameBinding_establish env w i h
  all_goals exact SameBinding.refl w

theorem sameBinding_sendHandshakeMessage (w : NoiseWorker H K) (i : Fin noiseMaxSessions) (h : H) :
    SameBinding w (sendHandshakeMessage env w i h).2 := by
  unfold sendHandshakeMessage trySend
  split
  · exact SameBinding.refl w
  · dsimp only
    split
    · exact sameBinding_setSession w i rfl rfl rfl
    · refine SameBinding.trans ?_ (sameBinding_call _ _)
      exact sameBinding_setSession w i rfl rfl rfl

theorem sameBinding_advanceHandshake (w : NoiseWorker H K) (i : Fin noiseMaxSessions) :
    SameBinding w (advanceHandshake env w i).2 := by
  unfold advanceHandshake
  split
  · exact SameBinding.refl w
  · next h _ =>
    split
    · dsimp only
      have hsend := sameBinding_sendHandshakeMessage env w i h
      split
      · exact hsend
      · split
        · exact hsend
        · split
          · exact hsend
          · exact hsend.trans (sameBinding_settleHandshake env _ i _)
    · exact sameBinding_settleHandshake env w i h

theorem sameBinding_readHandshake (w : NoiseWorker H K) (i : Fin noiseMaxSessions)
    (evt : NoiseEvent) : SameBinding w (readHandshake env w i evt).2 := by
  unfold readHandshake trySend
  split
  · exact SameBinding.refl w
  · split
    · exact SameBinding.refl w
    · split
      · exact SameBinding.refl w
      · dsimp only
        have hset : ∀ h : H, SameBinding w
            (w.setSession i { w.session i with handshake := some h }) :=
          fun h => sameBinding_setSession w i rfl rfl rfl
        split
        · split
          · exact (hset _).trans (sameBinding_call _ _)
          · exact ((hset _).trans (sameBinding_call _ _)).trans
              (sameBinding_advanceHandshake env _ i)
        · exact (hset _).trans (sameBinding_advanceHandshake env _ i)

theorem sameBinding_noiseBeginHandshake (w : NoiseWorker H K) (conn : UInt16) (peer : PeerId) :
    SameBinding w (noiseBeginHandshake w conn peer) := by
  unfold noiseBeginHandshake
  split
  · exact sameBinding_call w _
  · split
    · exact SameBinding.refl w
    · exact sameBinding_call w _

theorem sameBinding_offerIdentity (w : NoiseWorker H K) (conn : UInt16) :
    SameBinding w (offerIdentity env w conn) := by
  unfold offerIdentity
  split
  · exact SameBinding.refl w
  · split
    · exact SameBinding.refl w
    · exact (sameBinding_setPending w _ true).trans (sameBinding_trySendIdentity env _ _)

theorem sameBinding_dropDuplicate (w : NoiseWorker H K) (i : Fin noiseMaxSessions)
    (peer : PeerId) : SameBinding w (dropDuplicate env w i peer) := by
  have hcall : ∀ (p : Prop) [Decidable p] (c : NoiseCall),
      SameBinding w (if p then w.call c else w) := by
    intro p _ c
    split
    · exact sameBinding_call w c
    · exact SameBinding.refl w
  unfold dropDuplicate
  split
  · exact SameBinding.refl w
  · split
    · exact hcall _ _
    · exact SameBinding.refl w

theorem sameBinding_notifyAnnounce (w : NoiseWorker H K) (evt : NoiseEvent)
    (ident : NoiseIdentity) (direct : Bool) :
    SameBinding w (notifyAnnounce env w evt ident direct) := by
  unfold notifyAnnounce
  have h := ((sameBinding_call w .markHealthy).trans (sameBinding_call _
    (.peerVersionSeen evt.connHandle evt.peerId ident.fwVersion))).trans (sameBinding_call _
    (.courierPeerAnnounced evt.connHandle evt.peerId ident.noiseKey direct env.nowMs))
  dsimp only
  split
  · exact h.trans (sameBinding_call _ _)
  · exact h

/-! ## Transport payloads and maintenance -/

theorem sameBinding_encryptPayload (aead : Aead K) (w : NoiseWorker H K)
    (i : Fin noiseMaxSessions) (input : List UInt8) (n : Nat) :
    SameBinding w (w.setSession i (encryptPayload aead (w.session i) input n).2) := by
  have h : ∀ s : NoiseSession H K, (encryptPayload aead s input n).2.inUse = s.inUse ∧
      (encryptPayload aead s input n).2.connHandle = s.connHandle ∧
      (encryptPayload aead s input n).2.peerId = s.peerId := by
    intro s
    unfold encryptPayload
    dsimp only
    repeat' split
    all_goals exact ⟨rfl, rfl, rfl⟩
  exact sameBinding_setSession w i (h _).1 (h _).2.1 (h _).2.2

theorem sameBinding_decryptPayload (aead : Aead K) (w : NoiseWorker H K)
    (i : Fin noiseMaxSessions) (input : List UInt8) (n : Nat) :
    SameBinding w (w.setSession i (decryptPayload aead (w.session i) input n).2) := by
  have h : ∀ s : NoiseSession H K, (decryptPayload aead s input n).2.inUse = s.inUse ∧
      (decryptPayload aead s input n).2.connHandle = s.connHandle ∧
      (decryptPayload aead s input n).2.peerId = s.peerId := by
    intro s
    unfold decryptPayload openPayload
    repeat' split
    all_goals exact ⟨rfl, rfl, rfl⟩
  exact sameBinding_setSession w i (h _).1 (h _).2.1 (h _).2.2

theorem sameBinding_noiseSendEncrypted (aead : Aead K) (w : NoiseWorker H K) (conn : UInt16)
    (type : UInt8) (payload : List UInt8) :
    SameBinding w (noiseSendEncrypted env aead w conn type payload).2 := by
  unfold noiseSendEncrypted trySend
  split
  · exact SameBinding.refl w
  · next i _ =>
    split
    · exact SameBinding.refl w
    · split
      · exact SameBinding.refl w
      · have h := sameBinding_encryptPayload aead w i (type :: payload) noiseMaxEncryptedPayload
        split
        · next s heq =>
          rw [heq] at h
          exact h
        · next c s heq =>
          rw [heq] at h
          exact h.trans (sameBinding_call _ _)

theorem sameBinding_handleNoisePayload (aead : Aead K) (w : NoiseWorker H K)
    (i : Fin noiseMaxSessions) (conn : UInt16) (decrypted : List UInt8) :
    SameBinding w (handleNoisePayload env aead w i conn decrypted) := by
  have hack : ∀ id, SameBinding w (acknowledge env aead w conn id) := by
    intro id
    unfold acknowledge
    split
    · exact SameBinding.refl w
    · exact sameBinding_noiseSendEncrypted env aead w conn _ id
  have hreply : ∀ w : NoiseWorker H K, SameBinding w (sendAutoReply env aead w i) := by
    intro w
    have h := sameBinding_noiseSendEncrypted env aead w (w.session i).connHandle
      bitchatNoisePayloadPrivateMessage env.autoReply
    unfold sendAutoReply
    split
    · exact SameBinding.refl w
    · dsimp only
      split
      · exact h.trans (sameBinding_setSession _ i rfl rfl rfl)
      · exact h
  unfold handleNoisePayload
  split
  · exact SameBinding.refl w
  · split
    · exact SameBinding.refl w
    · exact (hack _).trans (hreply _)

theorem sameBinding_maintainHandshake (w : NoiseWorker H K) (i : Fin noiseMaxSessions) :
    SameBinding w (maintainHandshake env w i) := by
  unfold maintainHandshake
  dsimp only
  split
  · refine SameBinding.trans ?_ (sameBinding_noiseBeginHandshake _ _ _)
    exact sameBinding_setSession w i rfl rfl rfl
  · exact SameBinding.refl w

theorem sameBinding_reannounce (w : NoiseWorker H K) (i : Fin noiseMaxSessions) :
    SameBinding w (reannounce env w i) := by
  have h₁ := sameBinding_sendAnnounce env w i
  have h₂ := h₁.trans (sameBinding_sendIdentityAnnounce env _ i)
  unfold reannounce
  dsimp only
  split
  · exact h₁
  · split
    · exact h₂
    · exact h₂.trans (sameBinding_setSession _ i rfl rfl rfl)

theorem sameBinding_maintainSession (w : NoiseWorker H K) (i : Fin noiseMaxSessions) :
    SameBinding w (maintainSession env w i) := by
  have hident : SameBinding w (maintainIdentity env w i) := by
    unfold maintainIdentity
    split
    · exact sameBinding_trySendIdentity env w i
    · exact SameBinding.refl w
  have hannounce : ∀ w : NoiseWorker H K, SameBinding w (announcePeriodically env w i) := by
    intro w
    unfold announcePeriodically
    split
    · exact sameBinding_sendAnnounce env w i
    · exact SameBinding.refl w
  have htick : ∀ w : NoiseWorker H K, SameBinding w (tickSync env w i) := by
    intro w
    unfold tickSync
    split
    · exact sameBinding_call w _
    · exact SameBinding.refl w
  unfold maintainSession
  split
  · exact SameBinding.refl w
  · split
    · exact SameBinding.refl w
    · have hhs := hident.trans (sameBinding_maintainHandshake env _ i)
      dsimp only
      split
      · exact hhs.trans (sameBinding_reannounce env _ i)
      · exact (hhs.trans (hannounce _)).trans (htick _)

theorem sameBinding_pollSessionMaintenance (w : NoiseWorker H K) :
    SameBinding w (pollSessionMaintenance env w) := by
  unfold pollSessionMaintenance
  split
  · exact SameBinding.refl w
  · have hfold : ∀ (l : List (Fin noiseMaxSessions)) (w : NoiseWorker H K),
        SameBinding w (l.foldl (maintainSession env) w) := by
      intro l
      induction l with
      | nil => exact SameBinding.refl
      | cons i l ih => exact fun w => (sameBinding_maintainSession env w i).trans (ih _)
    have hclock : SameBinding w { w with lastMaintenanceMs := env.uptimeMs } :=
      ⟨fun _ => rfl, fun _ => rfl, fun _ => rfl, rfl⟩
    exact hclock.trans (hfold _ _)

/-! ## Handshakes -/

/-- The session's peer id replaced. -/
def NoiseWorker.bind (w : NoiseWorker H K) (i : Fin noiseMaxSessions) (p : PeerId) :
    NoiseWorker H K :=
  w.setSession i { w.session i with peerId := p }

/-- A start without an active handshake either fails early, or binds the session to the
event's peer. -/
theorem startHandshake_cases (w : NoiseWorker H K) (i : Fin noiseMaxSessions) (evt : NoiseEvent)
    (hn : (w.session i).handshake.isSome = false) :
    ((startHandshake env w i evt).1 = false ∧ SameBinding w (startHandshake env w i evt).2) ∨
      SameBinding (w.bind i evt.peerId) (startHandshake env w i evt).2 := by
  unfold startHandshake
  rw [if_neg (by rw [hn]; exact Bool.false_ne_true)]
  cases env.lib.create evt.initiator with
  | none => exact Or.inl ⟨rfl, SameBinding.refl w⟩
  | some h =>
    dsimp only
    cases env.lib.start h with
    | none =>
      refine Or.inl ⟨rfl, SameBinding.trans ?_ (sameBinding_setSession _ i rfl rfl rfl)⟩
      exact sameBinding_setSession w i rfl rfl rfl
    | some h' =>
      refine Or.inr (SameBinding.trans ?_ (sameBinding_advanceHandshake env _ i))
      refine ⟨fun j => ?_, fun j => ?_, fun j => ?_, rfl⟩
      all_goals
        simp only [NoiseWorker.bind, session_setSession]
        split <;> simp_all

/-- Where the session is bound to the event's peer already, a start keeps the binding. -/
theorem sameBinding_startHandshake {w : NoiseWorker H K} {i : Fin noiseMaxSessions}
    {evt : NoiseEvent} (hp : (w.session i).peerId = evt.peerId) :
    SameBinding w (startHandshake env w i evt).2 := by
  cases hn : (w.session i).handshake.isSome with
  | true =>
    unfold startHandshake
    rw [if_pos hn]
    exact SameBinding.refl w
  | false =>
    rcases startHandshake_cases env w i evt hn with ⟨-, h⟩ | h
    · exact h
    · refine SameBinding.trans ?_ h
      exact sameBinding_setSession w i rfl rfl hp.symm

theorem sameBinding_processHandshake {w : NoiseWorker H K} {i : Fin noiseMaxSessions}
    {evt : NoiseEvent} (hp : (w.session i).peerId = evt.peerId) :
    SameBinding w (processHandshake env w i evt).2 := by
  -- the yield of a collision keeps the peer id
  have main : ∀ w' : NoiseWorker H K, SameBinding w w' → (w'.session i).peerId = evt.peerId →
      SameBinding w (if (w'.session i).handshake.isSome then readHandshake env w' i evt
        else if !(startHandshake env w' i evt).1 then (false, (startHandshake env w' i evt).2)
        else readHandshake env (startHandshake env w' i evt).2 i evt).2 := by
    intro w' h hp'
    split
    · exact h.trans (sameBinding_readHandshake env w' i evt)
    · have hs := h.trans (sameBinding_startHandshake env hp')
      split
      · exact hs
      · exact hs.trans (sameBinding_readHandshake env _ i evt)
  unfold processHandshake
  split
  · refine main _ (sameBinding_setSession w i rfl rfl rfl) ?_
    rw [session_setSession, if_pos rfl]
    exact hp
  · exact main w (SameBinding.refl w) hp

end Send

/-! ## The invariant -/

section PeersBound

variable (sha256 : List UInt8 → Bytes 32)

/-- A verified identity belongs to a used session, its peer id is that of its Noise key, and the
session has the same peer id. -/
def BoundAt (w : NoiseWorker H K) (i : Fin noiseMaxSessions) : Prop :=
  (w.table.identities i).verified = true →
    (w.session i).inUse = true ∧
      peerIdOf sha256 (w.table.identities i).noiseKey = (w.table.identities i).peerId ∧
      (w.session i).peerId = (w.table.identities i).peerId

/-- **The binding invariant.** -/
def PeersBound (w : NoiseWorker H K) : Prop := ∀ i, BoundAt sha256 w i

variable {sha256}

theorem SameBinding.boundAt {w w' : NoiseWorker H K} (h : SameBinding w w')
    (i : Fin noiseMaxSessions) : BoundAt sha256 w' i ↔ BoundAt sha256 w i := by
  unfold BoundAt
  rw [h.inUse, h.peerId, h.identities]

theorem SameBinding.bound {w w' : NoiseWorker H K} (h : SameBinding w w') :
    PeersBound sha256 w' ↔ PeersBound sha256 w :=
  forall_congr' fun i => h.boundAt i

/-- Only the slot that is written matters. -/
theorem bound_of_ne {w w' : NoiseWorker H K} {i : Fin noiseMaxSessions} (hw : PeersBound sha256 w)
    (hs : ∀ j, j ≠ i → w'.session j = w.session j)
    (hi : ∀ j, j ≠ i → w'.table.identities j = w.table.identities j) :
    PeersBound sha256 w' ↔ BoundAt sha256 w' i := by
  refine ⟨fun h => h i, fun h j => ?_⟩
  by_cases hj : j = i
  · rw [hj]
    exact h
  · unfold BoundAt
    rw [hs j hj, hi j hj]
    exact hw j

/-- Binding a slot to a peer keeps the invariant exactly when a verified identity there is that
peer's. -/
theorem bound_bind {w : NoiseWorker H K} (hw : PeersBound sha256 w) (i : Fin noiseMaxSessions)
    (p : PeerId) :
    PeersBound sha256 (w.bind i p) ↔
      ((w.table.identities i).verified = true → p = (w.session i).peerId) := by
  rw [bound_of_ne (i := i) hw]
  · unfold BoundAt
    have hsession : (w.bind i p).session i = { w.session i with peerId := p } := by
      simp [NoiseWorker.bind]
    rw [hsession]
    constructor
    · intro h hv
      exact (h hv).2.2.trans (hw i hv).2.2.symm
    · intro h hv
      obtain ⟨h1, h2, h3⟩ := hw i hv
      exact ⟨h1, h2, (h hv).trans h3⟩
  · intro j hj
    simp [NoiseWorker.bind, hj]
  · intro j _
    rfl

/-- Freeing a slot keeps the invariant. -/
theorem bound_free {w w' : NoiseWorker H K} (hw : PeersBound sha256 w) {i : Fin noiseMaxSessions}
    (hs : ∀ j, j ≠ i → (w'.session j).inUse = (w.session j).inUse ∧
      (w'.session j).peerId = (w.session j).peerId)
    (hi : w'.table.identities = w.table.identities) : PeersBound sha256 (w'.free i) := by
  intro j
  by_cases hj : j = i
  · subst hj
    intro hv
    simp [NoiseWorker.free, freeSession, SessionTable.setIdentity] at hv
  · intro hv
    have hident : (w'.free i).table.identities j = w.table.identities j := by
      simp [NoiseWorker.free, freeSession, SessionTable.setIdentity, SessionTable.setSession,
        SessionTable.setPending, hj, hi]
    have hsession : (w'.free i).session j = w'.session j := by
      simp [NoiseWorker.free, NoiseWorker.session, freeSession, SessionTable.setIdentity,
        SessionTable.setSession, SessionTable.setPending, hj]
    rw [hident] at hv ⊢
    rw [hsession, (hs j hj).1, (hs j hj).2]
    exact hw j hv

/-- What `alloc_session` returns: the slot of the handle, or a free slot, cleared and taken. -/
theorem alloc_cases {w w' : NoiseWorker H K} {conn : UInt16} {i : Fin noiseMaxSessions}
    (h : w.alloc conn = some (i, w')) :
    (findSession w.table conn = some i ∧ w' = w) ∨
    (findSession w.table conn = none ∧ (w.session i).inUse = false ∧
      w' = (w.setSession i { inUse := true, connHandle := conn }).setPending i false) := by
  unfold NoiseWorker.alloc allocSession at h
  cases hf : findSession w.table conn with
  | some j =>
    rw [hf] at h
    simp only [Option.map_some, Option.some.injEq, Prod.mk.injEq] at h
    exact Or.inl ⟨by rw [h.1], h.2.symm⟩
  | none =>
    rw [hf] at h
    dsimp only at h
    cases hfree : (List.finRange noiseMaxSessions).find? fun i => !(w.table.sessions i).inUse with
    | none =>
      rw [hfree] at h
      simp at h
    | some j =>
      rw [hfree] at h
      simp only [Option.map_some, Option.some.injEq, Prod.mk.injEq] at h
      obtain ⟨rfl, rfl⟩ := h
      refine Or.inr ⟨rfl, ?_, rfl⟩
      simpa [NoiseWorker.session] using List.find?_some hfree

/-- Allocation keeps the invariant; a fresh slot has no verified identity and no peer id. -/
theorem bound_alloc {w w' : NoiseWorker H K} {conn : UInt16} {i : Fin noiseMaxSessions}
    (hw : PeersBound sha256 w) (h : w.alloc conn = some (i, w')) :
    PeersBound sha256 w' ∧ (w'.session i).inUse = true ∧
      ((findSession w.table conn = some i ∧ w' = w) ∨
        (findSession w.table conn = none ∧ (w'.table.identities i).verified = false ∧
          (w'.session i).peerId = zeros 8)) := by
  rcases alloc_cases h with ⟨hf, rfl⟩ | ⟨hf, hfree, rfl⟩
  · refine ⟨hw, ?_, Or.inl ⟨hf, rfl⟩⟩
    have := List.find?_some hf
    simp only [Bool.and_eq_true] at this
    exact this.1
  · have hun : (w.table.identities i).verified = false := by
      by_contra hv
      have := (hw i (by simpa using hv)).1
      rw [hfree] at this
      cases this
    have hslot : ((w.setSession i { inUse := true, connHandle := conn }).setPending i false).session i
        = { inUse := true, connHandle := conn } := by
      change (w.setSession i _).session i = _
      rw [session_setSession, if_pos rfl]
    refine ⟨?_, by rw [hslot], Or.inr ⟨hf, hun, by rw [hslot]⟩⟩
    rw [(sameBinding_setPending _ i false).bound, bound_of_ne (i := i) hw]
    · intro hv
      exact absurd hv (by change (w.table.identities i).verified ≠ true; rw [hun]; decide)
    · intro j hj
      simp [hj]
    · intro j _
      rfl

/-- A condition on the session of a handle is a condition on the slot `alloc_session` returns,
if fresh slots meet it. -/
theorem alloc_forall {P : NoiseWorker H K → Fin noiseMaxSessions → Prop} {w w' : NoiseWorker H K}
    {conn : UInt16} {i : Fin noiseMaxSessions} (hw : PeersBound sha256 w)
    (h : w.alloc conn = some (i, w'))
    (hfresh : (w'.table.identities i).verified = false → (w'.session i).peerId = zeros 8 → P w' i) :
    (∀ j, findSession w.table conn = some j → P w j) ↔ P w' i := by
  rcases (bound_alloc hw h).2.2 with ⟨hf, rfl⟩ | ⟨hf, hun, hz⟩
  · refine ⟨fun hall => hall i hf, fun hp j hj => ?_⟩
    obtain rfl : j = i := Option.some.inj (hj.symm.trans hf)
    exact hp
  · refine iff_of_true (fun j hj => ?_) (hfresh hun hz)
    rw [hf] at hj
    cases hj

/-- Without a slot there is no session for the handle. -/
theorem findSession_of_alloc_none {w : NoiseWorker H K} {conn : UInt16}
    (h : w.alloc conn = none) : findSession w.table conn = none := by
  unfold NoiseWorker.alloc allocSession at h
  cases hf : findSession w.table conn with
  | none => rfl
  | some i =>
    rw [hf] at h
    simp at h

/-- So a condition on it holds. -/
theorem forall_of_alloc_none {P : Fin noiseMaxSessions → Prop} {w : NoiseWorker H K}
    {conn : UInt16} (h : w.alloc conn = none) :
    ∀ j, findSession w.table conn = some j → P j := by
  intro j hj
  rw [findSession_of_alloc_none h] at hj
  cases hj

/-! ## One event -/

variable (env : NoiseEnv H K)

/-- The outcome of a handshake step on a slot: the session if it succeeded, else the slot is
freed. -/
theorem bound_outcome {w w₁ : NoiseWorker H K} {i : Fin noiseMaxSessions} {p : PeerId}
    (hw : PeersBound sha256 w) {r : Bool × NoiseWorker H K}
    (hr : (r.1 = false ∧ SameBinding w r.2) ∨ SameBinding w₁ r.2) (hw₁ : w₁ = w.bind i p) :
    ((w.table.identities i).verified = true → r.1 = true → p = (w.session i).peerId) ↔
      PeersBound sha256 (if r.1 then r.2 else r.2.free i) := by
  subst hw₁
  cases hok : r.1 with
  | false =>
    refine iff_of_true (by simp) ?_
    rw [if_neg (by simp)]
    rcases hr with ⟨-, h⟩ | h
    · exact bound_free hw (fun j _ => ⟨h.inUse j, h.peerId j⟩) h.identities
    · refine bound_free hw (fun j hj => ⟨?_, ?_⟩) h.identities
      · rw [h.inUse]
        simp [NoiseWorker.bind, hj]
      · rw [h.peerId]
        simp [NoiseWorker.bind, hj]
  | true =>
    rw [if_pos rfl]
    rcases hr with ⟨hf, -⟩ | h
    · rw [hok] at hf
      cases hf
    · rw [h.bound, bound_bind hw]
      simp

/-- A start on a connection with a verified identity and no handshake fails, or names the peer
the connection is bound to. -/
def StartBinds (w : NoiseWorker H K) (evt : NoiseEvent) : Prop :=
  ∀ i, findSession w.table evt.connHandle = some i → (w.session i).handshake.isSome = false →
    (w.table.identities i).verified = true → (startHandshake env w i evt).1 = true →
    evt.peerId = (w.session i).peerId

theorem startBinds_iff {w : NoiseWorker H K} (hw : PeersBound sha256 w) (evt : NoiseEvent) :
    StartBinds env w evt ↔ PeersBound sha256 (processStartEvent env w evt) := by
  unfold StartBinds processStartEvent
  cases ha : w.alloc evt.connHandle with
  | none => exact iff_of_true (forall_of_alloc_none ha) hw
  | some p =>
    obtain ⟨i, w'⟩ := p
    have hw' := (bound_alloc hw ha).1
    rw [alloc_forall (P := fun w i => (w.session i).handshake.isSome = false →
      (w.table.identities i).verified = true → (startHandshake env w i evt).1 = true →
      evt.peerId = (w.session i).peerId) hw ha (fun hun _ _ hv => by rw [hun] at hv; cases hv)]
    dsimp only
    cases hh : (w'.session i).handshake.isSome with
    | true => exact iff_of_true (by simp) hw'
    | false =>
      refine (forall_prop_of_true rfl).trans ?_
      exact bound_outcome hw' (startHandshake_cases env w' i evt hh) rfl

/-- A handshake packet on a connection with a verified identity fails, or its sender is the peer
the connection is bound to. -/
def HandshakeBinds (w : NoiseWorker H K) (evt : NoiseEvent) : Prop :=
  ∀ i, findSession w.table evt.connHandle = some i → (w.table.identities i).verified = true →
    (processHandshake env (w.bind i evt.peerId) i evt).1 = true →
    evt.peerId = (w.session i).peerId

theorem handshakeBinds_iff {w : NoiseWorker H K} (hw : PeersBound sha256 w) (evt : NoiseEvent) :
    HandshakeBinds env w evt ↔ PeersBound sha256 (processHandshakeEvent env w evt) := by
  unfold HandshakeBinds processHandshakeEvent
  cases ha : w.alloc evt.connHandle with
  | none => exact iff_of_true (forall_of_alloc_none ha) hw
  | some p =>
    obtain ⟨i, w'⟩ := p
    have hw' := (bound_alloc hw ha).1
    rw [alloc_forall (P := fun w i => (w.table.identities i).verified = true →
      (processHandshake env (w.bind i evt.peerId) i evt).1 = true →
      evt.peerId = (w.session i).peerId) hw ha (fun hun _ hv => by rw [hun] at hv; cases hv)]
    refine bound_outcome hw' (Or.inr (sameBinding_processHandshake env ?_)) rfl
    simp [NoiseWorker.bind]

/-- Binding a slot while its peer is unknown. -/
theorem bound_bindUnknown {w : NoiseWorker H K} (hw : PeersBound sha256 w) (i : Fin noiseMaxSessions)
    (p : PeerId) :
    PeersBound sha256 (bindUnknown w i p) ↔
      ((w.table.identities i).verified = true → (w.session i).peerId = zeros 8 → p = zeros 8) := by
  unfold bindUnknown
  split
  · next hz =>
    refine (bound_bind hw i p).trans (forall_congr' fun _ => ?_)
    rw [hz]
    exact ⟨fun h _ => h, fun h => h rfl⟩
  · next hz => exact iff_of_true hw fun _ h => absurd h hz

/-- An unverified identity in a slot. -/
theorem bound_setIdentity_unverified {w : NoiseWorker H K} (hw : PeersBound sha256 w)
    (i : Fin noiseMaxSessions) (ident : NoiseIdentity) (h : ident.verified = false) :
    PeersBound sha256 (w.setIdentity i ident) := by
  rw [bound_of_ne (i := i) hw]
  · intro hv
    simp [NoiseWorker.setIdentity, SessionTable.setIdentity, h] at hv
  · exact fun j _ => rfl
  · intro j hj
    simp [NoiseWorker.setIdentity, SessionTable.setIdentity, hj]

/-- A legacy identity is never verified. -/
theorem parseIdentityPayload_verified {p : List UInt8} {ident : NoiseIdentity}
    (h : parseIdentityPayload p = some ident) : ident.verified = false := by
  unfold parseIdentityPayload at h
  dsimp only at h
  repeat' split at h
  all_goals simp only [reduceCtorEq, Option.some.injEq] at h
  rw [← h]

theorem bound_recordIdentity {w : NoiseWorker H K} (hw : PeersBound sha256 w) (i : Fin noiseMaxSessions)
    (evt : NoiseEvent) {ident : NoiseIdentity} (hv : ident.verified = false) :
    ((w.table.identities i).verified = true → (w.session i).peerId = zeros 8 →
        evt.peerId = zeros 8) ↔
      PeersBound sha256 (recordIdentity w i evt ident) := by
  unfold recordIdentity
  cases hver : (w.table.identities i).verified with
  | true =>
    refine Iff.trans ?_ (bound_bindUnknown hw i evt.peerId).symm
    rw [hver]
  | false =>
    have hset := bound_setIdentity_unverified hw i
      { ident with peerId := evt.peerId } hv
    refine iff_of_true (by simp) ((bound_bindUnknown hset i evt.peerId).mpr fun h => ?_)
    simp [NoiseWorker.setIdentity, SessionTable.setIdentity, hv] at h

/-- A legacy identity on a connection with a verified one, whose peer id is zero, names zero. -/
def IdentityBinds (w : NoiseWorker H K) (evt : NoiseEvent) : Prop :=
  ∀ ident, parseIdentityPayload evt.payload = some ident →
    ∀ i, findSession w.table evt.connHandle = some i → (w.table.identities i).verified = true →
      (w.session i).peerId = zeros 8 → evt.peerId = zeros 8

theorem identityBinds_iff {w : NoiseWorker H K} (hw : PeersBound sha256 w) (evt : NoiseEvent) :
    IdentityBinds w evt ↔ PeersBound sha256 (processIdentityEvent env w evt) := by
  unfold IdentityBinds processIdentityEvent
  cases ha : w.alloc evt.connHandle with
  | none => exact iff_of_true (fun _ _ => forall_of_alloc_none ha) hw
  | some p =>
    obtain ⟨i, w'⟩ := p
    have hw' := (bound_alloc hw ha).1
    dsimp only
    cases hparse : parseIdentityPayload evt.payload with
    | none => exact iff_of_true (fun _ h => by cases h) hw'
    | some ident =>
      dsimp only
      rw [(sameBinding_trySendIdentity env _ i).bound,
        ← bound_recordIdentity ((sameBinding_call w' _).bound.mpr hw') i evt
          (parseIdentityPayload_verified hparse)]
      have hall := alloc_forall (P := fun w i => (w.table.identities i).verified = true →
        (w.session i).peerId = zeros 8 → evt.peerId = zeros 8) hw ha
        (fun hun _ hv => by rw [hun] at hv; cases hv)
      constructor
      · exact fun h => hall.mp (h ident rfl)
      · rintro h _ ⟨rfl⟩
        exact hall.mpr h

theorem sameBinding_directPeer (w : NoiseWorker H K) (i : Fin noiseMaxSessions) :
    SameBinding w (w.setSession i { w.session i with directPeer := true }) :=
  sameBinding_setSession w i rfl rfl rfl

/-- An unverified announce binds the session only where its peer is unknown. -/
theorem bound_recordAnnounce_unverified {w : NoiseWorker H K} (hw : PeersBound sha256 w)
    (i : Fin noiseMaxSessions) (evt : NoiseEvent) (ident : NoiseIdentity) :
    PeersBound sha256 (recordAnnounce env w i evt ident false) ↔
      ((w.table.identities i).verified = true → (w.session i).peerId = zeros 8 →
        evt.peerId = zeros 8) := by
  unfold recordAnnounce
  dsimp only
  rw [(sameBinding_dropDuplicate env _ i evt.peerId).bound, Bool.or_false]
  cases hver : (w.table.identities i).verified with
  | true =>
    rw [if_neg (by simp)]
    have hd := sameBinding_directPeer w i
    refine (bound_bindUnknown (hd.bound.mpr hw) i evt.peerId).trans ?_
    rw [hd.identities, hd.peerId, hver]
  | false =>
    rw [if_pos (by simp)]
    refine iff_of_true ?_ (by simp)
    have hset := bound_setIdentity_unverified hw i
      { ident with
        valid := true, verified := false, timestampMs := evt.timestampMs, peerId := evt.peerId }
      rfl
    have hd := sameBinding_directPeer (w.setIdentity i { ident with
      valid := true, verified := false, timestampMs := evt.timestampMs, peerId := evt.peerId }) i
    refine (bound_bindUnknown (hd.bound.mpr hset) i evt.peerId).mpr fun h => ?_
    rw [hd.identities] at h
    simp [NoiseWorker.setIdentity, SessionTable.setIdentity] at h

/-- A verified identity recorded, and the session bound to its peer where it has none. -/
theorem boundAt_of_bindUnknown {w : NoiseWorker H K} (hw : PeersBound sha256 w)
    {i : Fin noiseMaxSessions} (ident : NoiseIdentity) (hv : ident.verified = true)
    (hu : (w.session i).inUse = true) (hkey : peerIdOf sha256 ident.noiseKey = ident.peerId) :
    PeersBound sha256 (bindUnknown ((w.setIdentity i ident).setSession i
        { (w.setIdentity i ident).session i with directPeer := true }) i ident.peerId) ↔
      ((w.session i).peerId ≠ zeros 8 → (w.session i).peerId = ident.peerId) := by
  -- the slot as it ends up
  have hslot : (bindUnknown ((w.setIdentity i ident).setSession i
      { (w.setIdentity i ident).session i with directPeer := true }) i ident.peerId).session i =
      { w.session i with
        directPeer := true
        peerId := if (w.session i).peerId = zeros 8 then ident.peerId else (w.session i).peerId } := by
    have hsame : (w.setIdentity i ident).session i = w.session i := rfl
    unfold bindUnknown
    rw [session_setSession, if_pos rfl, hsame]
    by_cases hz : (w.session i).peerId = zeros 8 <;> simp [hz]
  have htable : (bindUnknown ((w.setIdentity i ident).setSession i
      { (w.setIdentity i ident).session i with directPeer := true }) i
      ident.peerId).table.identities = Function.update w.table.identities i ident := by
    unfold bindUnknown
    split <;> rfl
  rw [bound_of_ne (i := i) hw]
  · unfold BoundAt
    rw [hslot, htable, Function.update_self]
    by_cases hz : (w.session i).peerId = zeros 8
    · simp [hz, hu, hkey]
    · simp [hz, hu, hkey, hv]
  · intro j hj
    have hsame : (w.setIdentity i ident).session j = w.session j := rfl
    unfold bindUnknown
    split <;> simp [hj, hsame]
  · intro j hj
    rw [htable, Function.update_of_ne hj]

/-- A verified announce needs a session that is unbound or bound to its sender. -/
theorem bound_recordAnnounce_verified {w : NoiseWorker H K} (hw : PeersBound sha256 w)
    {i : Fin noiseMaxSessions} (hu : (w.session i).inUse = true) {evt : NoiseEvent}
    {ident : NoiseIdentity} (hkey : peerIdOf sha256 ident.noiseKey = evt.peerId) :
    PeersBound sha256 (recordAnnounce env w i evt ident true) ↔
      ((w.session i).peerId ≠ zeros 8 → (w.session i).peerId = evt.peerId) := by
  unfold recordAnnounce
  dsimp only
  rw [(sameBinding_dropDuplicate env _ i evt.peerId).bound, if_pos (by simp)]
  rw [boundAt_of_bindUnknown hw { ident with
    valid := true, verified := true, timestampMs := evt.timestampMs, peerId := evt.peerId }
    rfl hu hkey]

/-- A direct announce: a verified one comes on a connection that is unbound or bound to its
sender; an unverified one on a connection with a verified identity whose peer id is zero names
zero. -/
def AnnounceBinds (sha256 : List UInt8 → Bytes 32)
    (ed25519SignOpen : List UInt8 → Bytes 32 → Bytes 64 → Bool) (w : NoiseWorker H K)
    (evt : NoiseEvent) : Prop :=
  ∀ ident sigOk, parseAnnounceTlv evt.payload = some ident →
    verifyAnnounceEvent sha256 ed25519SignOpen evt ident = some sigOk →
    evt.ttl = noisePacketTtl → ∀ i, findSession w.table evt.connHandle = some i →
      if sigOk then (w.session i).peerId ≠ zeros 8 → (w.session i).peerId = evt.peerId
      else (w.table.identities i).verified = true → (w.session i).peerId = zeros 8 →
        evt.peerId = zeros 8

variable {ed25519SignOpen : List UInt8 → Bytes 32 → Bytes 64 → Bool}

/-- An announce that is not dropped comes from the peer its key stands for. -/
theorem peerIdOf_of_verifyAnnounceEvent {evt : NoiseEvent} {ident : NoiseIdentity} {sigOk : Bool}
    (h : verifyAnnounceEvent sha256 ed25519SignOpen evt ident = some sigOk) :
    peerIdOf sha256 ident.noiseKey = evt.peerId := by
  unfold verifyAnnounceEvent at h
  split at h
  · cases h
  · next hne => exact not_not.mp hne

theorem announceBinds_iff {w : NoiseWorker H K} (hw : PeersBound sha256 w) (evt : NoiseEvent) :
    AnnounceBinds sha256 ed25519SignOpen w evt ↔
      PeersBound sha256 (processAnnounceEvent env sha256 ed25519SignOpen w evt) := by
  unfold AnnounceBinds processAnnounceEvent
  dsimp only
  cases hparse : parseAnnounceTlv evt.payload with
  | none =>
    refine iff_of_true (fun _ _ h => by cases h) ?_
    exact (sameBinding_offerIdentity env w _).bound.mpr hw
  | some ident =>
    dsimp only
    cases hver : verifyAnnounceEvent sha256 ed25519SignOpen evt ident with
    | none => exact iff_of_true (fun _ _ h₁ h₂ => by cases h₁; rw [hver] at h₂; cases h₂) hw
    | some sigOk =>
      dsimp only
      rw [(sameBinding_offerIdentity env _ _).bound]
      have hkey := peerIdOf_of_verifyAnnounceEvent hver
      -- the notifications leave the table alone
      have hnotify : SameBinding w
          (if sigOk then notifyAnnounce env w evt ident (evt.ttl == noisePacketTtl) else w) ∧
          (if sigOk then notifyAnnounce env w evt ident (evt.ttl == noisePacketTtl) else w).table =
            w.table := by
        cases sigOk with
        | false => exact ⟨SameBinding.refl w, rfl⟩
        | true =>
          refine ⟨sameBinding_notifyAnnounce env w evt ident _, ?_⟩
          change (notifyAnnounce env w evt ident _).table = w.table
          unfold notifyAnnounce
          dsimp only
          split <;> rfl
      revert hnotify
      generalize (if sigOk then notifyAnnounce env w evt ident (evt.ttl == noisePacketTtl) else w) = w₀
      rintro ⟨hsame, htable⟩
      have hw₀ := hsame.bound.mpr hw
      have hfind : findSession w.table evt.connHandle = findSession w₀.table evt.connHandle := by
        rw [htable]
      -- a relayed announce touches no slot
      cases hdirect : (evt.ttl == noisePacketTtl) with
      | false =>
        refine iff_of_true (fun _ _ _ _ hd => ?_) hw₀
        rw [hd] at hdirect
        simp at hdirect
      | true =>
        rw [if_pos rfl]
        cases ha : w₀.alloc evt.connHandle with
        | none =>
          refine iff_of_true (fun _ _ _ _ _ => ?_) hw₀
          rw [hfind]
          exact forall_of_alloc_none ha
        | some p =>
          obtain ⟨i, w'⟩ := p
          obtain ⟨hw', hu, -⟩ := bound_alloc hw₀ ha
          dsimp only
          -- the condition on the table before is the one on the slot that is found or taken
          have hall := alloc_forall (P := fun w i =>
            if sigOk then (w.session i).peerId ≠ zeros 8 → (w.session i).peerId = evt.peerId
            else (w.table.identities i).verified = true → (w.session i).peerId = zeros 8 →
              evt.peerId = zeros 8) hw₀ ha (by
              intro hun hz
              cases sigOk with
              | false => exact fun h => by rw [hun] at h; cases h
              | true => exact fun h => absurd hz h)
          have hrecord : PeersBound sha256 (recordAnnounce env w' i evt ident sigOk) ↔
              if sigOk then (w'.session i).peerId ≠ zeros 8 → (w'.session i).peerId = evt.peerId
              else (w'.table.identities i).verified = true → (w'.session i).peerId = zeros 8 →
                evt.peerId = zeros 8 := by
            cases sigOk with
            | false => exact bound_recordAnnounce_unverified env hw' i evt ident
            | true => exact bound_recordAnnounce_verified env hw' hu hkey
          rw [hrecord, ← hall]
          have hsession : ∀ j, w₀.session j = w.session j := by
            intro j
            unfold NoiseWorker.session
            rw [htable]
          simp only [hsession, htable]
          constructor
          · exact fun h => h ident sigOk rfl hver (beq_iff_eq.mp hdirect)
          · rintro h _ _ ⟨rfl⟩ hv -
            rw [hver, Option.some.injEq] at hv
            subst hv
            exact h

theorem bound_processDisconnectEvent {w : NoiseWorker H K} (hw : PeersBound sha256 w)
    (evt : NoiseEvent) : PeersBound sha256 (processDisconnectEvent w evt) := by
  unfold processDisconnectEvent
  split
  · exact hw
  · exact bound_free hw (fun _ _ => ⟨rfl, rfl⟩) rfl

theorem bound_processSubscribedEvent {w : NoiseWorker H K} (hw : PeersBound sha256 w)
    (evt : NoiseEvent) : PeersBound sha256 (processSubscribedEvent env w evt) := by
  have hd := bound_processDisconnectEvent hw evt
  unfold processSubscribedEvent
  dsimp only
  split
  · exact hd
  · next i w' ha =>
    refine (SameBinding.bound ?_).mpr (bound_alloc hd ha).1
    exact (sameBinding_setPending w' i true).trans (sameBinding_trySendIdentity env _ i)

theorem sameBinding_processEncryptedEvent (aead : Aead K) (w : NoiseWorker H K)
    (evt : NoiseEvent) : SameBinding w (processEncryptedEvent env aead w evt) := by
  unfold processEncryptedEvent
  split
  · exact sameBinding_noiseBeginHandshake w _ _
  · next i _ =>
    split
    · split
      · exact sameBinding_noiseBeginHandshake w _ _
      · exact SameBinding.refl w
    · have h := sameBinding_decryptPayload aead w i evt.payload noiseMaxEncryptedPayload
      split
      · next s heq =>
        rw [heq] at h
        exact h
      · next p s heq =>
        rw [heq] at h
        exact h.trans (sameBinding_handleNoisePayload env aead _ i _ p)

theorem sameBinding_processCourierEvent (w : NoiseWorker H K) (evt : NoiseEvent) :
    SameBinding w (processCourierEvent env ed25519SignOpen w evt) := by
  unfold processCourierEvent
  split
  · exact SameBinding.refl w
  · exact sameBinding_call w _

end PeersBound

/-! ## Runs -/

/-- One round's input: what it reads from outside, and the event, if there is one. -/
structure NoiseInput (H K : Type) where
  env : NoiseEnv H K
  evt : Option NoiseEvent

section Runs

variable (sha256 : List UInt8 → Bytes 32)
variable (ed25519SignOpen : List UInt8 → Bytes 32 → Bytes 64 → Bool) (aead : Aead K)

/-- One round as a step of the worker. -/
def noiseStep (w : NoiseWorker H K) (x : NoiseInput H K) : NoiseWorker H K :=
  handshakeTask x.env sha256 ed25519SignOpen aead w x.evt

/-- The round's event rebinds no connection that has, or gets, a verified identity. -/
def BindStep (w : NoiseWorker H K) (x : NoiseInput H K) : Prop :=
  ∀ evt, x.evt = some evt →
    match evt.type with
    | .start => StartBinds x.env w evt
    | .process => HandshakeBinds x.env w evt
    | .announce => AnnounceBinds sha256 ed25519SignOpen w evt
    | .identity => IdentityBinds w evt
    | _ => True

variable {sha256 ed25519SignOpen aead}

/-- **One round.** Where the invariant holds, a round keeps it exactly when it meets
`BindStep`. -/
theorem bindStep_iff {w : NoiseWorker H K} (hw : PeersBound sha256 w) (x : NoiseInput H K) :
    BindStep sha256 ed25519SignOpen w x ↔
      PeersBound sha256 (noiseStep sha256 ed25519SignOpen aead w x) := by
  obtain ⟨env, evt⟩ := x
  unfold noiseStep handshakeTask BindStep
  rw [(sameBinding_pollSessionMaintenance env _).bound]
  cases evt with
  | none => exact iff_of_true (fun _ h => by cases h) hw
  | some evt =>
    have honly : ∀ P : NoiseEvent → Prop, (∀ e, some evt = some e → P e) ↔ P evt :=
      fun P => ⟨fun h => h evt rfl, fun h e he => Option.some.inj he ▸ h⟩
    rw [honly fun evt => match evt.type with
      | .start => StartBinds env w evt
      | .process => HandshakeBinds env w evt
      | .announce => AnnounceBinds sha256 ed25519SignOpen w evt
      | .identity => IdentityBinds w evt
      | _ => True]
    dsimp only
    unfold processEvent
    cases evt.type with
    | start => exact startBinds_iff env hw evt
    | process => exact handshakeBinds_iff env hw evt
    | announce => exact announceBinds_iff env hw evt
    | identity => exact identityBinds_iff env hw evt
    | encrypted =>
      exact iff_of_true trivial ((sameBinding_processEncryptedEvent env aead w evt).bound.mpr hw)
    | subscribed => exact iff_of_true trivial (bound_processSubscribedEvent env hw evt)
    | courier =>
      exact iff_of_true trivial ((sameBinding_processCourierEvent env w evt).bound.mpr hw)
    | sync => exact iff_of_true trivial ((sameBinding_call w _).bound.mpr hw)
    | disconnect => exact iff_of_true trivial (bound_processDisconnectEvent hw evt)

theorem bound_init : PeersBound sha256 ({} : NoiseWorker H K) := by
  rintro i ⟨⟩

/-- What `process_courier_event` has checked when it hands a deposit over. -/
theorem processCourierEvent_accepts {env : NoiseEnv H K} {w : NoiseWorker H K} {evt : NoiseEvent}
    {conn : UInt16} {dep : PeerId} {payload : List UInt8} {now : UInt64}
    (h : (processCourierEvent env ed25519SignOpen w evt).log =
      w.log ++ [.courierAccept conn dep payload now]) :
    ∃ i, findSession w.table evt.connHandle = some i ∧ dep = (w.session i).peerId ∧
      (w.table.identities i).verified = true ∧
      noiseVerifyPacketSignature ed25519SignOpen (eventToPacket evt bitchatMsgCourierEnvelope)
        (w.table.identities i).signKey = true := by
  unfold processCourierEvent at h
  split at h
  · simp at h
  · next i hdep =>
    simp only [NoiseWorker.call, List.append_cancel_left_eq, List.cons.injEq,
      NoiseCall.courierAccept.injEq, and_true] at h
    unfold courierDeposit at hdep
    split at hdep
    · cases hdep
    · next j hj =>
      split at hdep
      · cases hdep
      · next hpeer =>
        split at hdep
        · cases hdep
        · next hver =>
          split at hdep
          · next hsig =>
            simp only [Bool.or_eq_true, Bool.not_eq_true', not_or, Bool.not_eq_false] at hver
            exact ⟨j, hj, h.2.1.symm.trans (not_not.mp hpeer).symm, hver.2, hsig⟩
          · cases hdep

/-- **Whose deposit it is.** Along a run from boot, the binding invariant holds in every state
exactly when every round meets `BindStep`; and then the depositor of every deposit
`process_courier_event` hands to the courier is the peer id of the verified identity whose
signing key verified it, the first eight bytes of the digest of its Noise key. -/
theorem courier_depositor_bound (sha256 : List UInt8 → Bytes 32)
    (ed25519SignOpen : List UInt8 → Bytes 32 → Bytes 64 → Bool) (aead : Aead K)
    (ins : List (NoiseInput H K)) :
    (Along (noiseStep sha256 ed25519SignOpen aead) (BindStep sha256 ed25519SignOpen) {} ins ↔
      ∀ pre, pre <+: ins → PeersBound sha256
        (final (noiseStep sha256 ed25519SignOpen aead) ({} : NoiseWorker H K) pre)) ∧
    (Along (noiseStep sha256 ed25519SignOpen aead) (BindStep sha256 ed25519SignOpen) {} ins →
      ∀ w, w = final (noiseStep sha256 ed25519SignOpen aead) {} ins →
      ∀ env evt conn dep payload now,
        (processCourierEvent env ed25519SignOpen w evt).log =
          w.log ++ [.courierAccept conn dep payload now] →
      ∃ i, findSession w.table evt.connHandle = some i ∧
        (w.table.identities i).verified = true ∧
        noiseVerifyPacketSignature ed25519SignOpen (eventToPacket evt bitchatMsgCourierEnvelope)
          (w.table.identities i).signKey = true ∧
        dep = (w.table.identities i).peerId ∧
        dep = peerIdOf sha256 (w.table.identities i).noiseKey) := by
  have hiff : Along (noiseStep sha256 ed25519SignOpen aead) (BindStep sha256 ed25519SignOpen) {}
        ins ↔ ∀ pre, pre <+: ins → PeersBound sha256
        (final (noiseStep sha256 ed25519SignOpen aead) ({} : NoiseWorker H K) pre) :=
    along_iff_invariant (PeersBound sha256) (fun _ x hw => bindStep_iff hw x) bound_init
  refine ⟨hiff, ?_⟩
  rintro hrun w rfl env evt conn dep payload now hacc
  obtain ⟨i, hf, hdep, hver, hsig⟩ := processCourierEvent_accepts hacc
  obtain ⟨-, hkey, hpeer⟩ := hiff.mp hrun ins (List.prefix_refl ins) i hver
  exact ⟨i, hf, hver, hsig, hdep.trans hpeer, (hdep.trans hpeer).trans hkey.symm⟩

end Runs

/-! ## A handshake packet under another name -/

/-- A responder's handshake: read a 32-byte initiation, answer with 96 bytes, wait. -/
def responderLib : NoiseLib Nat Unit where
  create _ := some 0
  start h := some h
  action h := if h = 1 then .writeMessage else .readMessage
  writeMessage _ := some (2, List.replicate 96 0)
  readMessage _ msg := if msg.length = 32 then some (1, []) else none
  split _ := none

/-- A key that starts with the byte `b`; its digest is the key itself. -/
def keyOf (b : UInt8) : Bytes 32 := copyAt 32 [b] 0

def responderEnv : NoiseEnv Nat Unit := { lib := responderLib, localPeerId := zeros 8 }

/-- A direct announce of the peer with key `keyOf 0xA1`, signed with that key. -/
def announceA : NoiseEvent where
  type := .announce
  connHandle := 1
  ttl := 7
  hasSignature := true
  signature := copyAt 64 [0xA1] 0
  peerId := copyAt 8 [0xA1] 0
  payload := [0x01, 1, 0x41] ++ [0x02, 32] ++ (keyOf 0xA1).val ++ [0x03, 32] ++ (keyOf 0xA1).val
  payload_le := by decide

/-- A handshake initiation on the same connection that names another sender. -/
def initiationB : NoiseEvent where
  type := .process
  connHandle := 1
  peerId := copyAt 8 [0xB2] 0
  payload := List.replicate 32 0
  payload_le := by decide

/-- A deposit in that sender's name, signed with the key the connection announced. -/
def depositB : NoiseEvent where
  type := .courier
  connHandle := 1
  ttl := 7
  hasSignature := true
  signature := copyAt 64 [0xA1] 0
  peerId := copyAt 8 [0xB2] 0
  payload := [0x01]
  payload_le := by decide

/-- A deposit of the peer itself, signed with the key it announced. -/
def depositA : NoiseEvent := { depositB with peerId := announceA.peerId }

/-- It is handed over under the peer's own name. -/
theorem courier_depositor_bound_announced :
    let sha256 := fun l : List UInt8 => copyAt 32 l 0
    let ed25519SignOpen := fun (_ : List UInt8) (key : Bytes 32) (sig : Bytes 64) =>
      byteAt sig.val 0 == byteAt key.val 0
    let aead : Aead Unit := { encrypt := fun _ _ m => m, decrypt := fun _ _ m => some m }
    let w := final (noiseStep sha256 ed25519SignOpen aead) ({} : NoiseWorker Nat Unit)
      [⟨responderEnv, some announceA⟩]
    (processCourierEvent responderEnv ed25519SignOpen w depositA).log =
        w.log ++ [.courierAccept 1 announceA.peerId [0x01] 0] ∧
      ∃ i, findSession w.table 1 = some i ∧ (w.table.identities i).verified = true ∧
        announceA.peerId = peerIdOf sha256 (w.table.identities i).noiseKey := by
  intro sha256 ed25519SignOpen aead w
  have hbinds : Along (noiseStep sha256 ed25519SignOpen aead) (BindStep sha256 ed25519SignOpen) {}
      [(⟨responderEnv, some announceA⟩ : NoiseInput Nat Unit)] := by
    have hbound : PeersBound sha256 (noiseStep sha256 ed25519SignOpen aead {}
        (⟨responderEnv, some announceA⟩ : NoiseInput Nat Unit)) := by
      unfold PeersBound BoundAt
      decide +kernel
    exact ⟨(bindStep_iff bound_init _).mpr hbound, trivial⟩
  have hlog : (processCourierEvent responderEnv ed25519SignOpen w depositA).log =
      w.log ++ [.courierAccept 1 announceA.peerId [0x01] 0] := by decide +kernel
  obtain ⟨i, hfind, hverified, -, -, hdepositor⟩ :=
    (courier_depositor_bound sha256 ed25519SignOpen aead _).2 hbinds w rfl responderEnv depositA
      1 announceA.peerId [0x01] 0 hlog
  exact ⟨hlog, i, hfind, hverified, hdepositor⟩

/-- The deposit is handed over under the name `0xB2…`, while the verified identity whose key
signed it is `0xA1…`. A signature verifies here when it starts like its key. -/
theorem deposit_under_foreign_name :
    let ed25519SignOpen := fun (_ : List UInt8) (key : Bytes 32) (sig : Bytes 64) =>
      byteAt sig.val 0 == byteAt key.val 0
    let w := final (noiseStep (fun l => copyAt 32 l 0) ed25519SignOpen
        { encrypt := fun _ _ m => m, decrypt := fun _ _ m => some m }) ({} : NoiseWorker Nat Unit)
      [⟨responderEnv, some announceA⟩, ⟨responderEnv, some initiationB⟩]
    (processCourierEvent responderEnv ed25519SignOpen w depositB).log =
        w.log ++ [.courierAccept 1 (copyAt 8 [0xB2] 0) [0x01] 0] ∧
      findSession w.table 1 = some 0 ∧ (w.table.identities 0).verified = true ∧
      (w.table.identities 0).signKey = keyOf 0xA1 ∧
      (w.table.identities 0).peerId ≠ copyAt 8 [0xB2] 0 := by
  decide +kernel

end Bitle
