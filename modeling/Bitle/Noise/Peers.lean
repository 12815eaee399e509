import Bitle.Noise.Agreement
import Bitle.Noise.Collision

/-!
# Bitle — two nodes that shake hands (`main/noise_handshake.c` over `components/noise_ref`)

The worker's `NoiseLib` taken to be the vendored library (`noiseRef`), and two workers joined by a
link that delivers every message, in order (`HandshakePair`). One node starts a handshake; three
rounds later both have a session with the ciphers of one split, each with what the other has
(`handshake_establishes`), and what either encrypts from then on the other decrypts, whatever is
lost on the way (`session_delivers`).
-/

namespace Bitle

open Wire Run

/-! ## The vendored library -/

/-- `NOISE_MESSAGE_MAX`. -/
def noiseMessageMax : Nat := 256

/-- What a call of the library returns, as the worker sees it. -/
def okOf {α : Type} : Except HandshakeError α × HandshakeState → Option (HandshakeState × α)
  | (.ok x, st) => some (st, x)
  | (.error _, _) => none

/-- The library as the worker calls it: `create_handshake` of a node with the static key pair of
`staticPrivate`, and `rand` the bytes that a message written in this round draws. -/
def noiseRef (c : NoiseCrypto) (staticPrivate rand : NoiseKey) :
    NoiseLib HandshakeState NoiseKey where
  create initiator :=
    let st := noiseHandshakestateNew c noiseProtocolName noisePatternXX initiator
    match st.dhLocalStatic, noiseDhstateSetKeypair c staticPrivate (c.basepoint staticPrivate) with
    | some _, .ok dh => some { st with dhLocalStatic := some dh }
    | _, _ => none
  start st := (noiseHandshakestateStart c st).toOption
  action st := st.action
  writeMessage st := okOf (noiseHandshakestateWriteMessage c rand noiseMessageMax st [])
  readMessage st msg := okOf (noiseHandshakestateReadMessage c noiseMessageMax st msg)
  split st := (noiseHandshakestateSplit c st).1.toOption

/-- A message of `w`, written in one node's round and read in one of the other's. -/
structure RefMessage (c : NoiseCrypto) (priv : Bool → NoiseKey) (w : Bool) (rand : NoiseKey)
    (st st' : Bool → HandshakeState) (msg : List UInt8) : Prop where
  writes : (st w).action = .writeMessage
  reads : (st !w).action = .readMessage
  write : (noiseRef c (priv w) rand).writeMessage (st w) = some (st' w, msg)
  read : ∀ rand', (noiseRef c (priv !w) rand').readMessage (st !w) msg = some (st' !w, [])

/-- A new handshake state is what `newParty` says. -/
theorem noiseRef_create (c : NoiseCrypto) (priv : Bool → NoiseKey) (rand : NoiseKey) (side : Bool) :
    (noiseRef c (priv side) rand).create side =
      some (newParty c noiseProtocolName noisePatternXX [] priv side) := by
  dsimp only [noiseRef, noiseDhstateSetKeypair]
  rw [if_pos rfl]
  cases side <;> rfl

/-- A message that leaves its nonce small. -/
theorem TurnReady.refMessage {c : NoiseCrypto} (hc : c.Correct) {pat : NoisePattern}
    {priv : Bool → NoiseKey} {w : Bool} {k : Passed} {ts : List NoiseToken}
    {st : Bool → HandshakeState} (h : TurnReady c pat priv w k ts st) (rand : NoiseKey)
    (hn : (st w).symmetric.cipher.n.toNat + ts.length < 2 ^ 64 - 2)
    (hroom : messageLen (st w).symmetric.macLength ts ≤ noiseMessageMax) :
    ∃ k' st' msg, RefMessage c priv w rand st st' msg ∧
      InSync c pat priv k' st' ∧ NextUp pat (!w) k' st' (afterMessage ts) ∧
      msg.length = messageLen (st w).symmetric.macLength ts ∧
      (st' w).symmetric.macLength = macAfter (st w).symmetric.macLength ts ∧
      (st' w).symmetric.cipher.n.toNat + ((afterMessage ts).getD []).length ≤
        (st w).symmetric.cipher.n.toNat + ts.length + 1 := by
  have hempty : ([] : List UInt8).length + messageLen (st w).symmetric.macLength ts ≤
      noiseMessageMax := by
    rw [List.length_nil, Nat.zero_add]
    exact hroom
  obtain ⟨k', st', msg, hwrite, hread, hsync, hnext, hlen, hmac, hnonce⟩ :=
    h.message hc rand hn hempty (Nat.zero_le noiseMessageMax) (by decide)
  refine ⟨k', st', msg, ⟨h.next.1, h.next.2.1, ?_, ?_⟩, hsync, hnext, ?_, hmac, hnonce⟩
  · dsimp only [noiseRef]
    rw [hwrite]
    rfl
  · intro rand'
    dsimp only [noiseRef]
    rw [hread]
    rfl
  · rw [hlen, List.length_nil, Nat.zero_add]

/-- **The three messages of XX**, and the split on both sides. -/
theorem noiseRef_run {c : NoiseCrypto} (hc : c.Correct) (priv : Bool → NoiseKey)
    (r1 r2 r3 : NoiseKey) :
    ∃ (st0 st1 st2 st3 : Bool → HandshakeState) (m1 m2 m3 : List UInt8) (k : Bool → NoiseKey),
      (∀ side rand, (noiseRef c (priv side) rand).start
        (newParty c noiseProtocolName noisePatternXX [] priv side) = some (st0 side)) ∧
      RefMessage c priv true r1 st0 st1 m1 ∧ RefMessage c priv false r2 st1 st2 m2 ∧
      RefMessage c priv true r3 st2 st3 m3 ∧ m1.length = 32 ∧ m2.length = 96 ∧ m3.length = 64 ∧
      (∀ side, (st3 side).action = .split) ∧
      ∀ side rand, (noiseRef c (priv side) rand).split (st3 side) =
        some (⟨some (k side), 0⟩, ⟨some (k !side), 0⟩) := by
  have hwell : noisePatternXX.WellFormed := by decide
  have hready := newParty_ready (c := c) hwell noiseProtocolName [] priv
  have hnokey : (startSymmetric c noiseProtocolName noisePatternXX [] priv).cipher = ⟨none, 0⟩ := rfl
  generalize hst0 : (fun side =>
    { newParty c noiseProtocolName noisePatternXX [] priv side with
      symmetric := startSymmetric c noiseProtocolName noisePatternXX [] priv
      action := if side then NoiseAction.writeMessage else NoiseAction.readMessage }) = st0 at hready
  have hsym0 : ∀ side, (st0 side).symmetric =
      startSymmetric c noiseProtocolName noisePatternXX [] priv := by
    intro side
    rw [← hst0]
  have hn0 : (st0 true).symmetric.cipher.n.toNat = 0 := by
    rw [hsym0, hnokey]
    rfl
  have hmac0 : (st0 true).symmetric.macLength = 0 := by
    rw [hsym0]
    rfl
  -- `e`: no key yet, so 32 bytes and no nonce used
  obtain ⟨k1, st1, m1, hmsg1, hsync1, hnext1, hlen1, hmac1, hnonce1⟩ :=
    hready.refMessage hc r1 (by rw [hn0]; decide) (by rw [hmac0]; decide)
  rw [hmac0] at hlen1 hmac1
  rw [hn0] at hnonce1
  have hready1 : TurnReady c noisePatternXX priv false k1 [.e, .ee, .s, .es, .flipDir, .s, .se] st1 :=
    ⟨hsync1, hnext1⟩
  have hside1 := hsync1.symmetric_eq false true
  have hn1 : (st1 false).symmetric.cipher.n.toNat ≤ 16 := by
    rw [hside1]
    exact le_trans (Nat.le_add_right _ _) (le_trans hnonce1 (by decide))
  -- `e, ee, s, es`: the responder answers from the state the first message left on its side
  obtain ⟨k2, st2, m2, hmsg2, hsync2, hnext2, hlen2, hmac2, hnonce2⟩ :=
    hready1.refMessage hc r2 (lt_of_le_of_lt (Nat.add_le_add_right hn1 _) (by decide))
      (by rw [hside1, hmac1]; decide)
  rw [hside1, hmac1] at hlen2 hmac2
  have hready2 : TurnReady c noisePatternXX priv true k2 [.s, .se] st2 := ⟨hsync2, hnext2⟩
  have hside2 := hsync2.symmetric_eq true false
  have hn2 : (st2 true).symmetric.cipher.n.toNat ≤ 32 := by
    rw [hside2]
    have hle := Nat.add_le_add_right (Nat.add_le_add_right hn1 7) 1
    exact le_trans (Nat.le_add_right _ _) (le_trans hnonce2 (le_trans hle (by decide)))
  -- `s, se`: after the third message both sides split
  obtain ⟨k3, st3, m3, hmsg3, hsync3, hnext3, hlen3, -, -⟩ :=
    hready2.refMessage hc r3 (lt_of_le_of_lt (Nat.add_le_add_right hn2 _) (by decide))
      (by rw [hside2, hmac2]; decide)
  rw [hside2, hmac2] at hlen3
  have hsplit : ∀ side, (st3 side).action = .split := hnext3.1
  let keys := noiseHashstateHkdf c.sha256 (st3 true).symmetric.ck.val []
  refine ⟨st0, st1, st2, st3, m1, m2, m3, fun side => if side then keys.1 else keys.2, ?_, hmsg1,
    hmsg2, hmsg3, hlen1, hlen2, hlen3, hsplit, ?_⟩
  · intro side rand
    dsimp only [noiseRef]
    rw [newParty_start c hwell noiseProtocolName [] priv side, ← hst0]
    rfl
  · intro side rand
    dsimp only [noiseRef]
    rw [noiseHandshakestateSplit, if_neg (not_not_intro (hsplit side)), hsync3.role side,
      hsync3.symmetric side]
    cases side <;> rfl

/-! ## The handshake of a session -/

section Worker

variable {H K : Type}

/-- What a session has of a handshake and of its keys. -/
structure SessionCrypto (H K : Type) where
  inUse : Bool
  connHandle : UInt16
  initiator : Bool
  established : Bool
  peerId : PeerId
  handshake : Option H
  txCipher : Option (CipherState K)
  rxCipher : Option (CipherState K)
  txNonce : UInt32

def NoiseSession.crypto (s : NoiseSession H K) : SessionCrypto H K :=
  ⟨s.inUse, s.connHandle, s.initiator, s.established, s.peerId, s.handshake, s.txCipher, s.rxCipher,
    s.txNonce⟩

/-- Handshakes and keys are as they were. -/
def KeepsCrypto (w w' : NoiseWorker H K) : Prop :=
  ∀ j, (w'.session j).crypto = (w.session j).crypto

variable {w w' w'' : NoiseWorker H K}

theorem KeepsCrypto.refl (w : NoiseWorker H K) : KeepsCrypto w w := fun _ => rfl

theorem KeepsCrypto.trans (h : KeepsCrypto w w') (h' : KeepsCrypto w' w'') : KeepsCrypto w w'' :=
  fun j => (h' j).trans (h j)

theorem keepsCrypto_call (w : NoiseWorker H K) (c : NoiseCall) : KeepsCrypto w (w.call c) :=
  fun _ => rfl

theorem keepsCrypto_setPending (w : NoiseWorker H K) (i : Fin noiseMaxSessions) (b : Bool) :
    KeepsCrypto w (w.setPending i b) :=
  fun _ => rfl

theorem keepsCrypto_setSession (w : NoiseWorker H K) (i : Fin noiseMaxSessions)
    {s : NoiseSession H K} (h : s.crypto = (w.session i).crypto) :
    KeepsCrypto w (w.setSession i s) := by
  intro j
  rw [session_setSession]
  split
  · next hj =>
    rw [hj]
    exact h
  · rfl

variable (env : NoiseEnv H K)

theorem keepsCrypto_sendAnnounce (w : NoiseWorker H K) (i : Fin noiseMaxSessions) :
    KeepsCrypto w (sendAnnounce env w i).2 := by
  unfold sendAnnounce trySend
  dsimp only
  split
  · exact KeepsCrypto.refl w
  · split
    · exact keepsCrypto_call w _
    · split
      · exact (keepsCrypto_call w _).trans (keepsCrypto_call _ _)
      · exact ((keepsCrypto_call w _).trans (keepsCrypto_call _ _)).trans
          (keepsCrypto_setSession _ i rfl)

theorem keepsCrypto_sendIdentityAnnounce (w : NoiseWorker H K) (i : Fin noiseMaxSessions) :
    KeepsCrypto w (sendIdentityAnnounce env w i).2 := by
  unfold sendIdentityAnnounce trySend
  split
  · exact KeepsCrypto.refl w
  · exact keepsCrypto_call w _

theorem keepsCrypto_trySendIdentity (w : NoiseWorker H K) (i : Fin noiseMaxSessions) :
    KeepsCrypto w (trySendIdentity env w i).2 := by
  unfold trySendIdentity
  split
  · exact KeepsCrypto.refl w
  · split
    · exact KeepsCrypto.refl w
    · split
      · exact KeepsCrypto.refl w
      · split
        · exact KeepsCrypto.refl w
        · dsimp only
          have h := keepsCrypto_sendAnnounce env w i
          split
          · exact h
          · exact ((h.trans (keepsCrypto_sendIdentityAnnounce env _ i)).trans
              (keepsCrypto_setPending _ i false)).trans (keepsCrypto_setSession _ i rfl)

theorem keepsCrypto_maintainHandshake (w : NoiseWorker H K) (i : Fin noiseMaxSessions) :
    KeepsCrypto w (maintainHandshake env w i) := by
  have hbegin : ∀ (w : NoiseWorker H K) conn peer, KeepsCrypto w (noiseBeginHandshake w conn peer) := by
    intro w conn peer
    unfold noiseBeginHandshake
    split
    · exact keepsCrypto_call w _
    · split
      · exact KeepsCrypto.refl w
      · exact keepsCrypto_call w _
  unfold maintainHandshake
  dsimp only
  split
  · refine KeepsCrypto.trans ?_ (hbegin _ _ _)
    exact keepsCrypto_setSession w i rfl
  · exact KeepsCrypto.refl w

theorem keepsCrypto_reannounce (w : NoiseWorker H K) (i : Fin noiseMaxSessions) :
    KeepsCrypto w (reannounce env w i) := by
  have hannounce := keepsCrypto_sendAnnounce env w i
  have hidentity := hannounce.trans (keepsCrypto_sendIdentityAnnounce env _ i)
  unfold reannounce
  dsimp only
  split
  · exact hannounce
  · split
    · exact hidentity
    · exact hidentity.trans (keepsCrypto_setSession _ i rfl)

theorem keepsCrypto_maintainSession (w : NoiseWorker H K) (i : Fin noiseMaxSessions) :
    KeepsCrypto w (maintainSession env w i) := by
  have hident : KeepsCrypto w (maintainIdentity env w i) := by
    unfold maintainIdentity
    split
    · exact keepsCrypto_trySendIdentity env w i
    · exact KeepsCrypto.refl w
  have hannounce : ∀ w : NoiseWorker H K, KeepsCrypto w (announcePeriodically env w i) := by
    intro w
    unfold announcePeriodically
    split
    · exact keepsCrypto_sendAnnounce env w i
    · exact KeepsCrypto.refl w
  have htick : ∀ w : NoiseWorker H K, KeepsCrypto w (tickSync env w i) := by
    intro w
    unfold tickSync
    split
    · exact keepsCrypto_call w _
    · exact KeepsCrypto.refl w
  unfold maintainSession
  split
  · exact KeepsCrypto.refl w
  · split
    · exact KeepsCrypto.refl w
    · have hhs := hident.trans (keepsCrypto_maintainHandshake env _ i)
      dsimp only
      split
      · exact hhs.trans (keepsCrypto_reannounce env _ i)
      · exact (hhs.trans (hannounce _)).trans (htick _)

theorem keepsCrypto_pollSessionMaintenance (w : NoiseWorker H K) :
    KeepsCrypto w (pollSessionMaintenance env w) := by
  have hfold : ∀ (l : List (Fin noiseMaxSessions)) (w : NoiseWorker H K),
      KeepsCrypto w (l.foldl (maintainSession env) w) := by
    intro l
    induction l with
    | nil => exact KeepsCrypto.refl
    | cons i l ih => exact fun w => (keepsCrypto_maintainSession env w i).trans (ih _)
  unfold pollSessionMaintenance
  split
  · exact KeepsCrypto.refl w
  · have hclock : KeepsCrypto w { w with lastMaintenanceMs := env.uptimeMs } := fun _ => rfl
    exact hclock.trans (hfold _ _)

variable {env} {i : Fin noiseMaxSessions}

/-- **What a step does to one session**: what it has of the handshake afterwards, and the handshake
messages the step sends. The other sessions keep what they have. -/
structure Moved (w w' : NoiseWorker H K) (i : Fin noiseMaxSessions) (k : SessionCrypto H K)
    (msgs : List (UInt16 × List UInt8)) : Prop where
  sends : ∃ calls, w'.log = w.log ++ calls ∧ calls.filterMap NoiseCall.handshake = msgs
  crypto : (w'.session i).crypto = k
  others : ∀ j, j ≠ i → (w'.session j).crypto = (w.session j).crypto

theorem filterMap_handshake_eq_nil {calls : List NoiseCall}
    (h : ∀ x ∈ calls, ∀ c p, x.handshake = some (c, p) → False) :
    calls.filterMap NoiseCall.handshake = [] := by
  refine List.filterMap_eq_nil_iff.mpr ?_
  intro x hx
  cases hhs : x.handshake with
  | none => rfl
  | some cp => exact (h x hx cp.1 cp.2 hhs).elim

/-- A step that neither sends nor changes anything of a handshake. -/
theorem Moved.quiet {k : SessionCrypto H K} {msgs : List (UInt16 × List UInt8)}
    (h : Moved w w' i k msgs) (hstill : Still w' w'') (hkeeps : KeepsCrypto w' w'') :
    Moved w w'' i k msgs where
  sends := by
    obtain ⟨calls, hlog, hmsgs⟩ := h.sends
    obtain ⟨calls', hlog', hnone⟩ := hstill.sends
    refine ⟨calls ++ calls', by rw [hlog', hlog, List.append_assoc], ?_⟩
    rw [List.filterMap_append, hmsgs, filterMap_handshake_eq_nil hnone, List.append_nil]
  crypto := (hkeeps i).trans h.crypto
  others j hj := (hkeeps j).trans (h.others j hj)

theorem Moved.trans {k k' : SessionCrypto H K} {msgs msgs' : List (UInt16 × List UInt8)}
    (h : Moved w w' i k msgs) (h' : Moved w' w'' i k' msgs') :
    Moved w w'' i k' (msgs ++ msgs') where
  sends := by
    obtain ⟨calls, hlog, hmsgs⟩ := h.sends
    obtain ⟨calls', hlog', hmsgs'⟩ := h'.sends
    exact ⟨calls ++ calls', by rw [hlog', hlog, List.append_assoc],
      by rw [List.filterMap_append, hmsgs, hmsgs']⟩
  crypto := h'.crypto
  others j hj := (h'.others j hj).trans (h.others j hj)

/-- One session is written. -/
theorem moved_setSession (w : NoiseWorker H K) (i : Fin noiseMaxSessions) (s : NoiseSession H K) :
    Moved w (w.setSession i s) i s.crypto [] where
  sends := ⟨[], (List.append_nil _).symm, rfl⟩
  crypto := by rw [session_setSession, if_pos rfl]
  others j hj := by rw [session_setSession, if_neg hj]

/-- A message that goes out. -/
theorem moved_sendHandshakeMessage {h h' : H} {m : List UInt8}
    (hwrite : env.lib.writeMessage h = some (h', m)) (hm : m.length ≠ 0)
    (hsend : ∀ n, env.sendOk n = true) :
    ∃ w', sendHandshakeMessage env w i h = (true, w') ∧
      w'.session i = { w.session i with handshake := some h' } ∧
      Moved w w' i { (w.session i).crypto with handshake := some h' }
        [((w.session i).connHandle, m)] := by
  have hslot : (w.setSession i { w.session i with handshake := some h' }).session i =
      { w.session i with handshake := some h' } := by rw [session_setSession, if_pos rfl]
  unfold sendHandshakeMessage trySend
  rw [hwrite]
  dsimp only
  rw [if_neg hm, hsend]
  refine ⟨_, rfl, hslot, ⟨⟨_, rfl, ?_⟩, ?_, ?_⟩⟩
  · rw [hslot]
    rfl
  · exact congrArg NoiseSession.crypto hslot
  · exact (moved_setSession w i _).others

/-- The split at the end of a handshake. -/
theorem moved_settleHandshake {h : H} {tx rx : CipherState K} (hact : env.lib.action h = .split)
    (hsplit : env.lib.split h = some (tx, rx)) :
    ∃ w', settleHandshake env w i h = (true, w') ∧
      Moved w w' i { (w.session i).crypto with
        established := true, handshake := none, txCipher := some tx, rxCipher := some rx
        txNonce := 0 } [] := by
  unfold settleHandshake
  rw [hact]
  dsimp only
  unfold establish
  rw [hsplit]
  refine ⟨_, rfl, ?_⟩
  exact ((moved_setSession w i _).quiet (still_setPending _ i true)
    (keepsCrypto_setPending _ i true)).quiet (still_trySendIdentity env _ i)
    (keepsCrypto_trySendIdentity env _ i)

/-- The node's turn to write, and then to read. -/
theorem moved_advance_write {h h' : H} {m : List UInt8} (hh : (w.session i).handshake = some h)
    (hact : env.lib.action h = .writeMessage) (hwrite : env.lib.writeMessage h = some (h', m))
    (hm : m.length ≠ 0) (hsend : ∀ n, env.sendOk n = true)
    (hnext : env.lib.action h' = .readMessage) :
    ∃ w', advanceHandshake env w i = (true, w') ∧
      Moved w w' i { (w.session i).crypto with handshake := some h' }
        [((w.session i).connHandle, m)] := by
  obtain ⟨w', hrun, hslot, hmoved⟩ := moved_sendHandshakeMessage (w := w) (i := i) hwrite hm hsend
  refine ⟨w', ?_, hmoved⟩
  unfold advanceHandshake
  rw [hh]
  dsimp only
  rw [if_pos hact, hrun]
  dsimp only
  rw [Bool.not_true, if_neg Bool.false_ne_true, hslot]
  dsimp only
  rw [hnext, if_neg (by decide)]
  unfold settleHandshake
  rw [hnext]

/-- The node's turn to write the last message. -/
theorem moved_advance_finish {h h' : H} {m : List UInt8} {tx rx : CipherState K}
    (hh : (w.session i).handshake = some h)
    (hact : env.lib.action h = .writeMessage) (hwrite : env.lib.writeMessage h = some (h', m))
    (hm : m.length ≠ 0) (hsend : ∀ n, env.sendOk n = true)
    (hnext : env.lib.action h' = .split) (hsplit : env.lib.split h' = some (tx, rx)) :
    ∃ w', advanceHandshake env w i = (true, w') ∧
      Moved w w' i { (w.session i).crypto with
        established := true, handshake := none, txCipher := some tx, rxCipher := some rx
        txNonce := 0 } [((w.session i).connHandle, m)] := by
  obtain ⟨w1, hrun, hslot, hmoved⟩ := moved_sendHandshakeMessage (w := w) (i := i) hwrite hm hsend
  obtain ⟨w', hsettle, hdone⟩ := moved_settleHandshake (w := w1) (i := i) hnext hsplit
  refine ⟨w', ?_, ?_⟩
  · unfold advanceHandshake
    rw [hh]
    dsimp only
    rw [if_pos hact, hrun]
    dsimp only
    rw [Bool.not_true, if_neg Bool.false_ne_true, hslot]
    dsimp only
    rw [hnext, if_neg (by decide), hsettle]
  · have hboth := hmoved.trans hdone
    rw [hslot] at hboth
    exact hboth

/-- Nothing left to write. -/
theorem moved_advance_split {h : H} {tx rx : CipherState K} (hh : (w.session i).handshake = some h)
    (hact : env.lib.action h = .split) (hsplit : env.lib.split h = some (tx, rx)) :
    ∃ w', advanceHandshake env w i = (true, w') ∧
      Moved w w' i { (w.session i).crypto with
        established := true, handshake := none, txCipher := some tx, rxCipher := some rx
        txNonce := 0 } [] := by
  obtain ⟨w', hrun, hmoved⟩ := moved_settleHandshake (w := w) (i := i) hact hsplit
  refine ⟨w', ?_, hmoved⟩
  unfold advanceHandshake
  rw [hh]
  dsimp only
  rw [hact, if_neg (by decide), hrun]

/-- A message that is read, with an empty payload: the node goes on from the state it leaves. -/
theorem readHandshake_eq {evt : NoiseEvent} {h h' : H} (hh : (w.session i).handshake = some h)
    (hinit : (w.session i).initiator = true ∨ evt.payload.length ≠ 0)
    (hread : env.lib.readMessage h evt.payload = some (h', [])) :
    readHandshake env w i evt = advanceHandshake env
      (w.setSession i { w.session i with handshake := some h' }) i := by
  have hguard : (!(w.session i).initiator && evt.payload.length == 0) = false := by
    rcases hinit with h | h
    · rw [h]
      rfl
    · rw [beq_eq_false_iff_ne.mpr h, Bool.and_false]
  unfold readHandshake
  rw [hguard, hh]
  dsimp only
  rw [hread]
  rfl

theorem setSession_setSession (w : NoiseWorker H K) (i : Fin noiseMaxSessions)
    (s s' : NoiseSession H K) : (w.setSession i s).setSession i s' = w.setSession i s' := by
  unfold NoiseWorker.setSession SessionTable.setSession
  dsimp only
  rw [Function.update_idem]

/-- A handshake that starts: the node goes on from the state the library starts in. -/
theorem startHandshake_eq {evt : NoiseEvent} {h₀ h : H} (hn : (w.session i).handshake = none)
    (hcreate : env.lib.create evt.initiator = some h₀) (hstart : env.lib.start h₀ = some h) :
    startHandshake env w i evt = advanceHandshake env
      (w.setSession i { w.session i with
        handshake := some h, initiator := evt.initiator, peerId := evt.peerId
        identitySent := false, established := false }) i := by
  unfold startHandshake
  rw [hn, Option.isSome_none, if_neg Bool.false_ne_true, hcreate]
  dsimp only
  rw [hstart]
  dsimp only
  rw [setSession_setSession, session_setSession, if_pos rfl]

/-- The slot a connection gets is as it was, or new. -/
theorem moved_alloc {conn : UInt16} (h : w.alloc conn = some (i, w')) :
    Moved w w' i (w'.session i).crypto [] ∧ (w'.session i).inUse = true ∧
      (w'.session i).connHandle = conn := by
  rcases alloc_cases h with ⟨hfound, rfl⟩ | ⟨-, -, rfl⟩
  · have hslot := List.find?_some hfound
    rw [Bool.and_eq_true, beq_iff_eq] at hslot
    exact ⟨⟨⟨[], (List.append_nil _).symm, rfl⟩, rfl, fun _ _ => rfl⟩, hslot⟩
  · have hslot : ((w.setSession i { inUse := true, connHandle := conn }).setPending i false).session
        i = { inUse := true, connHandle := conn } := by
      change (w.setSession i _).session i = _
      rw [session_setSession, if_pos rfl]
    have hmoved := (moved_setSession w i { inUse := true, connHandle := conn }).quiet
      (still_setPending _ i false) (keepsCrypto_setPending _ i false)
    refine ⟨⟨hmoved.sends, rfl, hmoved.others⟩, by rw [hslot], by rw [hslot]⟩

/-- **A start**: the first message goes out, and the node waits for the second. -/
theorem moved_start {evt : NoiseEvent} {h₀ h h' : H} {m : List UInt8} {w1 : NoiseWorker H K}
    (halloc : w.alloc evt.connHandle = some (i, w1)) (hn : (w1.session i).handshake = none)
    (hcreate : env.lib.create evt.initiator = some h₀) (hstart : env.lib.start h₀ = some h)
    (hact : env.lib.action h = .writeMessage) (hwrite : env.lib.writeMessage h = some (h', m))
    (hm : m.length ≠ 0) (hsend : ∀ n, env.sendOk n = true)
    (hnext : env.lib.action h' = .readMessage) :
    Moved w (processStartEvent env w evt) i
      { (w1.session i).crypto with
        initiator := evt.initiator, established := false, peerId := evt.peerId
        handshake := some h' } [(evt.connHandle, m)] := by
  obtain ⟨hslot, -, hconn⟩ := moved_alloc halloc
  let s : NoiseSession H K := { w1.session i with
    handshake := some h, initiator := evt.initiator, peerId := evt.peerId
    identitySent := false, established := false }
  have hs : (w1.setSession i s).session i = s := by rw [session_setSession, if_pos rfl]
  obtain ⟨w', hrun, hmoved⟩ := moved_advance_write (w := w1.setSession i s) (i := i)
    (congrArg NoiseSession.handshake hs) hact hwrite hm hsend hnext
  have heq : processStartEvent env w evt = w' := by
    unfold processStartEvent
    rw [halloc]
    dsimp only
    rw [hn, Option.isSome_none, if_neg Bool.false_ne_true, startHandshake_eq hn hcreate hstart,
      hrun, if_pos rfl]
  have hall := (hslot.trans (moved_setSession w1 i s)).trans hmoved
  rw [hs, show s.connHandle = evt.connHandle from hconn] at hall
  rw [heq]
  exact hall

/-- **An initiation**: the node becomes a responder, and its answer goes out. -/
theorem moved_answer {evt : NoiseEvent} {h₀ h h' h'' : H} {m : List UInt8} {w1 : NoiseWorker H K}
    (halloc : w.alloc evt.connHandle = some (i, w1)) (hn : (w1.session i).handshake = none)
    (hinit : evt.initiator = false) (hcreate : env.lib.create evt.initiator = some h₀)
    (hstart : env.lib.start h₀ = some h) (hwait : env.lib.action h = .readMessage)
    (hlen : evt.payload.length ≠ 0) (hread : env.lib.readMessage h evt.payload = some (h', []))
    (hact : env.lib.action h' = .writeMessage) (hwrite : env.lib.writeMessage h' = some (h'', m))
    (hm : m.length ≠ 0) (hsend : ∀ n, env.sendOk n = true)
    (hnext : env.lib.action h'' = .readMessage) :
    Moved w (processHandshakeEvent env w evt) i
      { (w1.session i).crypto with
        initiator := false, established := false, peerId := evt.peerId
        handshake := some h'' } [(evt.connHandle, m)] := by
  obtain ⟨hslot, -, hconn⟩ := moved_alloc halloc
  let w2 := w1.setSession i { w1.session i with peerId := evt.peerId }
  have hw2 : w2.session i = { w1.session i with peerId := evt.peerId } := by
    rw [session_setSession, if_pos rfl]
  have hn2 : (w2.session i).handshake = none := by
    rw [hw2]
    exact hn
  let s : NoiseSession H K := { w1.session i with
    handshake := some h, initiator := evt.initiator, peerId := evt.peerId
    identitySent := false, established := false }
  have hs : (w1.setSession i s).session i = s := by rw [session_setSession, if_pos rfl]
  -- the event starts a responder, which waits for the first message
  have hstarted : startHandshake env w2 i evt = (true, w1.setSession i s) := by
    rw [startHandshake_eq hn2 hcreate hstart, setSession_setSession, hw2]
    unfold advanceHandshake
    rw [show ((w1.setSession i s).session i).handshake = some h from
      congrArg NoiseSession.handshake hs]
    dsimp only
    rw [hwait, if_neg (by decide)]
    unfold settleHandshake
    rw [hwait]
  let s' : NoiseSession H K := { s with handshake := some h' }
  have hs' : (w1.setSession i s').session i = s' := by rw [session_setSession, if_pos rfl]
  -- it reads the payload of the event, and then it is its turn to write
  have hreads : readHandshake env (w1.setSession i s) i evt =
      advanceHandshake env (w1.setSession i s') i := by
    rw [readHandshake_eq (congrArg NoiseSession.handshake hs) (.inr hlen) hread,
      setSession_setSession, hs]
  obtain ⟨w', hrun, hmoved⟩ := moved_advance_write (w := w1.setSession i s') (i := i)
    (congrArg NoiseSession.handshake hs') hact hwrite hm hsend hnext
  have heq : processHandshakeEvent env w evt = w' := by
    unfold processHandshakeEvent
    rw [halloc]
    dsimp only
    change (if (processHandshake env w2 i evt).1 then (processHandshake env w2 i evt).2
      else (processHandshake env w2 i evt).2.free i) = w'
    have hproc : processHandshake env w2 i evt = (true, w') := by
      unfold processHandshake
      rw [hn2, Option.isSome_none, Bool.false_and, Bool.false_and, if_neg Bool.false_ne_true]
      dsimp only
      rw [hn2, Option.isSome_none, if_neg Bool.false_ne_true, hstarted]
      dsimp only
      rw [Bool.not_true, if_neg Bool.false_ne_true, hreads, hrun]
    rw [hproc, if_pos rfl]
  have hall := (hslot.trans (moved_setSession w1 i s')).trans hmoved
  rw [hs', show s'.connHandle = evt.connHandle from hconn] at hall
  rw [heq]
  refine ⟨hall.sends, hall.crypto.trans ?_, hall.others⟩
  dsimp only [s', s, NoiseSession.crypto]
  rw [hinit]

theorem alloc_of_findSession {conn : UInt16} (h : findSession w.table conn = some i) :
    w.alloc conn = some (i, w) := by
  unfold NoiseWorker.alloc allocSession
  rw [h]
  rfl

/-- A message of a handshake that is running: the node goes on from the state it leaves. -/
theorem processHandshakeEvent_eq {evt : NoiseEvent} {h h' : H} {w' : NoiseWorker H K}
    (hfound : findSession w.table evt.connHandle = some i)
    (hh : (w.session i).handshake = some h) (hlen : evt.payload.length ≠ 0)
    (hyield : (w.session i).initiator = true → evt.payload.length ≠ 32)
    (hread : env.lib.readMessage h evt.payload = some (h', []))
    (hrun : advanceHandshake env (w.setSession i { w.session i with
      peerId := evt.peerId, handshake := some h' }) i = (true, w')) :
    processHandshakeEvent env w evt = w' := by
  have halloc := alloc_of_findSession hfound
  let w2 := w.setSession i { w.session i with peerId := evt.peerId }
  have hw2 : w2.session i = { w.session i with peerId := evt.peerId } := by
    rw [session_setSession, if_pos rfl]
  have hstays : ((w2.session i).handshake.isSome && (w2.session i).initiator &&
      evt.payload.length == 32) = false := by
    rw [hw2]
    dsimp only
    rw [hh, Option.isSome_some, Bool.true_and]
    cases hinit : (w.session i).initiator with
    | true => exact beq_eq_false_iff_ne.mpr (hyield hinit)
    | false => rfl
  have hreads : readHandshake env w2 i evt = (true, w') := by
    rw [readHandshake_eq (by rw [hw2]; exact hh) (.inr hlen) hread, setSession_setSession, hw2]
    exact hrun
  unfold processHandshakeEvent
  rw [halloc]
  dsimp only
  change (if (processHandshake env w2 i evt).1 then (processHandshake env w2 i evt).2
    else (processHandshake env w2 i evt).2.free i) = w'
  have hproc : processHandshake env w2 i evt = (true, w') := by
    unfold processHandshake
    rw [hstays, if_neg Bool.false_ne_true]
    dsimp only
    rw [show (w2.session i).handshake = some h by rw [hw2]; exact hh, Option.isSome_some, if_pos rfl,
      hreads]
  rw [hproc, if_pos rfl]

/-- A slot is found by its connection as long as no other slot changes. -/
theorem findSession_of_moved {conn : UInt16} {k : SessionCrypto H K} {w1 : NoiseWorker H K}
    {msgs : List (UInt16 × List UInt8)} (halloc : w.alloc conn = some (i, w1))
    (hmoved : Moved w w' i k msgs) (hused : k.inUse = true) (hconn : k.connHandle = conn) :
    findSession w'.table conn = some i := by
  let p := fun j => (w.session j).inUse && (w.session j).connHandle == conn
  let p' := fun j => (w'.session j).inUse && (w'.session j).connHandle == conn
  have hother : ∀ j, j ≠ i → p' j = p j := by
    intro j hj
    have hcrypto := hmoved.others j hj
    have hused' : (w'.session j).inUse = (w.session j).inUse :=
      congrArg SessionCrypto.inUse hcrypto
    have hconn' : (w'.session j).connHandle = (w.session j).connHandle :=
      congrArg SessionCrypto.connHandle hcrypto
    dsimp only [p, p']
    rw [hused', hconn']
  have hslot : p' i = true := by
    have hused' : (w'.session i).inUse = k.inUse := congrArg SessionCrypto.inUse hmoved.crypto
    have hconn' : (w'.session i).connHandle = k.connHandle :=
      congrArg SessionCrypto.connHandle hmoved.crypto
    dsimp only [p']
    rw [hused', hconn', hused, hconn, Bool.true_and, beq_self_eq_true]
  change (List.finRange noiseMaxSessions).find? p' = some i
  -- before the slot none matches: by the search that found it, or because no slot matched
  have hbefore : ∃ l l', List.finRange noiseMaxSessions = l ++ i :: l' ∧ ∀ j ∈ l, p' j = false := by
    rcases alloc_cases halloc with ⟨hfound, -⟩ | ⟨hnone, -, -⟩
    · obtain ⟨hpi, l, l', hl, hbefore⟩ := List.find?_eq_some_iff_append.mp hfound
      refine ⟨l, l', hl, ?_⟩
      intro j hj
      have hpj : p j = false := by
        have h := hbefore j hj
        rwa [Bool.not_eq_true'] at h
      have hne : j ≠ i := by
        intro heq
        have hpi' : p i = true := hpi
        rw [heq, hpi'] at hpj
        cases hpj
      rw [hother j hne, hpj]
    · obtain ⟨l, l', hl⟩ := List.append_of_mem (List.mem_finRange i)
      have hnodup := List.nodup_finRange noiseMaxSessions
      rw [hl] at hnodup
      refine ⟨l, l', hl, ?_⟩
      intro j hj
      have hne : j ≠ i := by
        intro heq
        have hdisj := (List.nodup_append.mp hnodup).2.2
        exact hdisj j hj i List.mem_cons_self heq
      rw [hother j hne]
      have hno := List.find?_eq_none.mp hnone j (List.mem_finRange j)
      exact Bool.eq_false_of_not_eq_true hno
  obtain ⟨l, l', hl, hfalse⟩ := hbefore
  rw [hl, List.find?_append, List.find?_eq_none.mpr fun j hj => by rw [hfalse j hj]; decide,
    Option.none_or, List.find?_cons_of_pos hslot]

/-- **The last message**, read: the node has its ciphers. -/
theorem moved_last {evt : NoiseEvent} {h h' : H} {tx rx : CipherState K}
    (hfound : findSession w.table evt.connHandle = some i)
    (hh : (w.session i).handshake = some h) (hlen : evt.payload.length ≠ 0)
    (hyield : (w.session i).initiator = true → evt.payload.length ≠ 32)
    (hread : env.lib.readMessage h evt.payload = some (h', []))
    (hact : env.lib.action h' = .split) (hsplit : env.lib.split h' = some (tx, rx)) :
    Moved w (processHandshakeEvent env w evt) i
      { (w.session i).crypto with
        established := true, peerId := evt.peerId, handshake := none
        txCipher := some tx, rxCipher := some rx, txNonce := 0 } [] := by
  let s : NoiseSession H K := { w.session i with peerId := evt.peerId, handshake := some h' }
  have hs : (w.setSession i s).session i = s := by rw [session_setSession, if_pos rfl]
  obtain ⟨w', hrun, hmoved⟩ := moved_advance_split (w := w.setSession i s) (i := i)
    (congrArg NoiseSession.handshake hs) hact hsplit
  rw [processHandshakeEvent_eq hfound hh hlen hyield hread hrun]
  have hall := (moved_setSession w i s).trans hmoved
  rw [hs] at hall
  exact hall

/-- **The second message**, read by the initiator: the third goes out, and the node has its
ciphers. -/
theorem moved_finish {evt : NoiseEvent} {h h' h'' : H} {m : List UInt8} {tx rx : CipherState K}
    (hfound : findSession w.table evt.connHandle = some i)
    (hh : (w.session i).handshake = some h) (hlen : evt.payload.length ≠ 0)
    (hyield : (w.session i).initiator = true → evt.payload.length ≠ 32)
    (hread : env.lib.readMessage h evt.payload = some (h', []))
    (hact : env.lib.action h' = .writeMessage) (hwrite : env.lib.writeMessage h' = some (h'', m))
    (hm : m.length ≠ 0) (hsend : ∀ n, env.sendOk n = true)
    (hnext : env.lib.action h'' = .split) (hsplit : env.lib.split h'' = some (tx, rx)) :
    Moved w (processHandshakeEvent env w evt) i
      { (w.session i).crypto with
        established := true, peerId := evt.peerId, handshake := none
        txCipher := some tx, rxCipher := some rx, txNonce := 0 } [(evt.connHandle, m)] := by
  have hconn : (w.session i).connHandle = evt.connHandle := by
    have hslot := List.find?_some hfound
    rw [Bool.and_eq_true, beq_iff_eq] at hslot
    exact hslot.2
  let s : NoiseSession H K := { w.session i with peerId := evt.peerId, handshake := some h' }
  have hs : (w.setSession i s).session i = s := by rw [session_setSession, if_pos rfl]
  obtain ⟨w', hrun, hmoved⟩ := moved_advance_finish (w := w.setSession i s) (i := i)
    (congrArg NoiseSession.handshake hs) hact hwrite hm hsend hnext hsplit
  rw [processHandshakeEvent_eq hfound hh hlen hyield hread hrun]
  have hall := (moved_setSession w i s).trans hmoved
  rw [hs, show s.connHandle = evt.connHandle from hconn] at hall
  exact hall

end Worker

/-! ## What a session carries -/

section Session

variable {H K : Type} {aead : Aead K} {a b : NoiseSession H K} {k : K}

/-- The payloads that a session makes of texts in turn, for the buffer of `noise_send_encrypted`. -/
def payloads (aead : Aead K) : NoiseSession H K → List (List UInt8) → List (Option (List UInt8))
  | _, [] => []
  | s, m :: ms =>
    (encryptPayload aead s m noiseMaxEncryptedPayload).1 ::
      payloads aead (encryptPayload aead s m noiseMaxEncryptedPayload).2 ms

/-- One session sends what the other receives: one key, and a nonce that neither cipher has
reached. -/
structure Joined (a b : NoiseSession H K) (k : K) : Prop where
  sends : ∃ n, a.txCipher = some ⟨some k, n⟩ ∧ n ≤ a.txNonce.toUInt64
  receives : ∃ n, Established b ⟨some k, n⟩ ∧ n ≤ a.txNonce.toUInt64

/-- The two sessions of a handshake, seen from one side. -/
theorem joined_of_crypto {conn conn' : UInt16} {init init' : Bool} {peer peer' : PeerId} {k' : K}
    (ha : a.crypto = ⟨true, conn, init, true, peer, none, some ⟨some k, 0⟩, some ⟨some k', 0⟩, 0⟩)
    (hb : b.crypto =
      ⟨true, conn', init', true, peer', none, some ⟨some k', 0⟩, some ⟨some k, 0⟩, 0⟩) :
    Joined a b k where
  sends := by
    have htx : a.txCipher = some ⟨some k, 0⟩ := congrArg SessionCrypto.txCipher ha
    exact ⟨0, htx, UInt64.le_iff_toNat_le.mpr (Nat.zero_le _)⟩
  receives := by
    have hrx : b.rxCipher = some ⟨some k, 0⟩ := congrArg SessionCrypto.rxCipher hb
    have hest : b.established = true := congrArg SessionCrypto.established hb
    exact ⟨0, ⟨hest, hrx, k, rfl⟩, UInt64.le_iff_toNat_le.mpr (Nat.zero_le _)⟩

/-- The nonce of a payload is far from the last one. -/
theorem toUInt64_ne_max (n : UInt32) : n.toUInt64 ≠ 0xFFFFFFFFFFFFFFFF := by
  intro h
  have hlt := n.toNat_lt
  have hnat := congrArg UInt64.toNat h
  rw [UInt32.toNat_toUInt64, show (0xFFFFFFFFFFFFFFFF : UInt64).toNat = 2 ^ 64 - 1 from rfl] at hnat
  omega

theorem toUInt64_le_succ {n : UInt32} {m : UInt64} (hm : m ≤ n.toUInt64 + 1)
    (hn : n.toNat + 1 < 2 ^ 32) : m ≤ (n + 1).toUInt64 := by
  have hsucc : (n + 1).toUInt64 = n.toUInt64 + 1 := by
    apply UInt64.toNat_inj.mp
    rw [UInt32.toNat_toUInt64, UInt32.toNat_add, UInt64.toNat_add, UInt32.toNat_toUInt64]
    rw [show (1 : UInt32).toNat = 1 from rfl, show (1 : UInt64).toNat = 1 from rfl]
    omega
  rw [hsucc]
  exact hm

/-- **One text**: it is sealed under the nonce of the session, and opens at the other one. -/
theorem Joined.one (haead : aead.Correct) (h : Joined a b k) {m : List UInt8}
    (hlen : m.length + noiseTransportNonceLen + macLen ≤ noiseMaxEncryptedPayload)
    (hn : a.txNonce.toNat + 1 < 2 ^ 32) :
    ∃ p a' b', encryptPayload aead a m noiseMaxEncryptedPayload = (some p, a') ∧
      decryptPayload aead b p noiseMaxEncryptedPayload = (some m, b') ∧
      a'.txNonce = a.txNonce + 1 ∧ Joined a' b k ∧ Joined a' b' k := by
  obtain ⟨n, htx, hle⟩ := h.sends
  obtain ⟨r, hest, hrle⟩ := h.receives
  have hmax := toUInt64_ne_max a.txNonce
  have hsealed := haead.length_encrypt k a.txNonce.toUInt64 m
  unfold noiseTransportNonceLen macLen noiseMaxEncryptedPayload at hlen
  rw [macLen] at hsealed
  let p := beBytes noiseTransportNonceLen a.txNonce.toNat ++ aead.encrypt k a.txNonce.toUInt64 m
  have hp : p.length = m.length + 20 := by
    rw [List.length_append, length_beBytes, hsealed, noiseTransportNonceLen]
    omega
  let a' : NoiseSession H K := { a with
    txCipher := some ⟨some k, a.txNonce.toUInt64 + 1⟩, txNonce := a.txNonce + 1 }
  let b' : NoiseSession H K := { b with rxCipher := some ⟨some k, a.txNonce.toUInt64 + 1⟩ }
  -- afterwards the writer's key and nonce are ready for the next text
  have hsends : ∃ n, a'.txCipher = some ⟨some k, n⟩ ∧ n ≤ a'.txNonce.toUInt64 :=
    ⟨_, rfl, toUInt64_le_succ (UInt64.le_refl _) hn⟩
  refine ⟨p, a', b', ?_, ?_, rfl, ⟨hsends, r, hest, ?_⟩,
    ⟨hsends, a.txNonce.toUInt64 + 1, ?_, ?_⟩⟩
  · unfold encryptPayload
    rw [htx]
    dsimp only
    rw [if_neg (by rw [noiseTransportNonceLen, noiseMaxEncryptedPayload]; omega), setNonce_eq rfl,
      if_pos hle]
    dsimp only
    rw [noiseCipherstateEncrypt,
      if_neg (by rw [noiseTransportNonceLen, noiseMaxEncryptedPayload]; omega)]
    dsimp only
    rw [if_neg (by rw [noiseMaxPayloadLen, macLen]; omega),
      if_neg (by rw [noiseTransportNonceLen, noiseMaxEncryptedPayload, macLen]; omega), if_neg hmax]
  · -- the prefix is the nonce it was sealed under
    rw [decryptPayload_nonce hest (by rw [hp, noiseTransportNonceLen]; omega)
      (by rw [hp, noiseTransportNonceLen, noiseMaxEncryptedPayload]; omega),
      transportNonce_beBytes, if_pos hrle]
    unfold openPayload
    rw [List.drop_left' (length_beBytes _ _),
      decrypt_authentic aead haead ⟨some k, a.txNonce.toUInt64⟩ rfl hmax m
        (by rw [macLen, noiseMaxEncryptedPayload]; omega)
        (by rw [macLen, noiseMaxPayloadLen]; omega)]
  · refine toUInt64_le_succ (UInt64.le_trans hrle ?_) hn
    rw [UInt64.le_iff_toNat_le, UInt64.toNat_add, UInt32.toNat_toUInt64,
      show (1 : UInt64).toNat = 1 from rfl]
    omega
  · exact ⟨hest.established, rfl, k, rfl⟩
  · exact toUInt64_le_succ (UInt64.le_refl _) hn

/-- **Loss does no harm.** Of the payloads a session makes, any that arrive, in order, are opened as
what they were made of, whatever is lost between them. -/
theorem session_delivers (haead : aead.Correct) (h : Joined a b k) {texts : List (List UInt8)}
    (hlen : ∀ m ∈ texts, m.length + noiseTransportNonceLen + macLen ≤ noiseMaxEncryptedPayload)
    (hn : a.txNonce.toNat + texts.length < 2 ^ 32) :
    ∃ ps : List (List UInt8), payloads aead a texts = ps.map some ∧ ps.length = texts.length ∧
      ∀ arrived, List.Sublist arrived (ps.zip texts) →
        delivered aead b (arrived.map Prod.fst) = arrived.map fun x => some x.2 := by
  induction texts generalizing a b with
  | nil =>
    refine ⟨[], rfl, rfl, ?_⟩
    intro arrived hsub
    rw [List.sublist_nil.mp hsub]
    rfl
  | cons m ms ih =>
    rw [List.length_cons] at hn
    obtain ⟨p, a', b', hseal, hopen, hnonce, hlost, hkept⟩ :=
      h.one haead (hlen m List.mem_cons_self) (by omega)
    have hn' : a'.txNonce.toNat + ms.length < 2 ^ 32 := by
      rw [hnonce, UInt32.toNat_add, show (1 : UInt32).toNat = 1 from rfl]
      omega
    have hlen' : ∀ x ∈ ms, x.length + noiseTransportNonceLen + macLen ≤ noiseMaxEncryptedPayload :=
      fun x hx => hlen x (List.mem_cons_of_mem _ hx)
    obtain ⟨ps, hps, hcount, hall⟩ := ih hlost hlen' hn'
    obtain ⟨ps', hps', -, hall'⟩ := ih hkept hlen' hn'
    have hsame : ps' = ps := by
      have hmap := hps'.symm.trans hps
      exact List.map_injective_iff.mpr (Option.some_injective _) hmap
    subst hsame
    refine ⟨p :: ps', ?_, by rw [List.length_cons, List.length_cons, hcount], ?_⟩
    · rw [payloads, hseal]
      dsimp only
      rw [hps', List.map_cons]
    · intro arrived hsub
      rw [List.zip_cons_cons] at hsub
      cases hsub with
      | cons _ hrest => exact hall arrived hrest
      | cons_cons _ hrest =>
        rw [List.map_cons, List.map_cons, delivered, recvPayload, hopen]
        dsimp only
        rw [hall' _ hrest]

/-- Three texts, the second of which is lost. -/
theorem session_delivers_loss :
    ∃ p q r, payloads toyAead ({ txCipher := some ⟨some 7, 0⟩ } : NoiseSession Unit UInt8)
        [[1], [2], [3]] = [some p, some q, some r] ∧
      delivered toyAead freshSession [p, r] = [some [1], some [3]] := by
  have hjoined : Joined ({ txCipher := some ⟨some 7, 0⟩ } : NoiseSession Unit UInt8) freshSession 7 :=
    ⟨⟨0, rfl, by decide⟩, 0, ⟨rfl, rfl, 7, rfl⟩, by decide⟩
  obtain ⟨ps, hps, hlen, hall⟩ := session_delivers toyAead_correct hjoined
    (show ∀ m ∈ [[1], [2], [3]], List.length m + 4 + 16 ≤ 320 by decide) (by decide)
  obtain ⟨p, q, r, rfl⟩ := List.length_eq_three.mp hlen
  exact ⟨p, q, r, hps, hall [(p, [1]), (r, [3])]
    (List.Sublist.cons_cons _ (List.Sublist.cons _ (List.Sublist.refl _)))⟩

end Session

/-! ## The handshake of two nodes -/

section Pair

variable (conn : Bool → UInt16) (peer : Bool → PeerId)

/-- The initiator takes its start from the queue. -/
def startRound (env : NoiseEnv HandshakeState NoiseKey) : PairInput HandshakeState NoiseKey where
  node := true
  env := env
  evt := some
    { type := .start, connHandle := conn true, initiator := true, peerId := peer false
      payload_le := Nat.zero_le _ }

/-- The event of a handshake message that a node receives. -/
def messageEvent (n : Bool) (p : List UInt8) (h : p.length ≤ noiseEventPayloadMax) : NoiseEvent :=
  { type := .process, connHandle := conn n, peerId := peer !n, payload := p, payload_le := h }

/-- A node takes the next message that has reached it; one too long for the queue is dropped. -/
def deliverRound (s : HandshakePair HandshakeState NoiseKey) (n : Bool)
    (env : NoiseEnv HandshakeState NoiseKey) : PairInput HandshakeState NoiseKey where
  node := n
  env := env
  evt := (s.inbox n).head?.bind fun p =>
    if h : p.length ≤ noiseEventPayloadMax then some (messageEvent conn peer n p h) else none

/-- There is a slot for a connection, and no handshake runs on it. -/
def NoiseWorker.Idle {H K : Type} (w : NoiseWorker H K) (conn : UInt16) : Prop :=
  ∃ i w', w.alloc conn = some (i, w') ∧ (w'.session i).handshake = none

variable {conn peer}

/-- What the calls of a round send to the other node. -/
theorem sentOn_eq {sendOk : Nat → Bool} (hsend : ∀ n, sendOk n = true) (conn : UInt16) (k : Nat)
    (calls : List NoiseCall) :
    sentOn sendOk conn k calls = (calls.filterMap NoiseCall.handshake).filterMap fun m =>
      if m.1 = conn then some m.2 else none := by
  induction calls generalizing k with
  | nil => rfl
  | cons x xs ih =>
    unfold sentOn
    rw [List.filterMap_cons]
    cases hx : x.handshake with
    | none => exact ih (k + 1)
    | some m =>
      obtain ⟨c, p⟩ := m
      dsimp only
      rw [List.filterMap_cons]
      dsimp only
      by_cases hc : c = conn
      · rw [if_pos ⟨hc, hsend k⟩, if_pos hc, ih]
      · rw [if_neg fun h => hc h.1, if_neg hc, ih]

variable (sha256 : List UInt8 → Bytes 32)
variable (ed25519SignOpen : List UInt8 → Bytes 32 → Bytes 64 → Bool) (aead : Aead NoiseKey)

/-- One round: the worker that moves, and the message that goes to the other. -/
theorem pair_step {s : HandshakePair HandshakeState NoiseKey}
    {x : PairInput HandshakeState NoiseKey} {evt : NoiseEvent} {i : Fin noiseMaxSessions}
    {k : SessionCrypto HandshakeState NoiseKey} {msgs : List (List UInt8)}
    (hevt : x.evt = some evt) (hsend : ∀ n, x.env.sendOk n = true)
    (hmoved : Moved (s.worker x.node)
      (processEvent x.env sha256 ed25519SignOpen aead (s.worker x.node) evt) i k
      (msgs.map fun m => (conn x.node, m))) :
    Moved (s.worker x.node)
        ((s.step sha256 ed25519SignOpen aead conn x).worker x.node) i k
        (msgs.map fun m => (conn x.node, m)) ∧
      (s.step sha256 ed25519SignOpen aead conn x).worker (!x.node) = s.worker (!x.node) ∧
      (s.step sha256 ed25519SignOpen aead conn x).inbox (!x.node) = s.inbox (!x.node) ++ msgs ∧
      (s.step sha256 ed25519SignOpen aead conn x).inbox x.node =
        if isOn x.evt .process (conn x.node) then (s.inbox x.node).tail else s.inbox x.node := by
  have hround : noiseStep sha256 ed25519SignOpen aead (s.worker x.node) ⟨x.env, x.evt⟩ =
      pollSessionMaintenance x.env
        (processEvent x.env sha256 ed25519SignOpen aead (s.worker x.node) evt) := by
    rw [hevt]
    rfl
  have hpoll := hmoved.quiet (still_pollSessionMaintenance x.env _)
    (keepsCrypto_pollSessionMaintenance x.env _)
  rw [← hround] at hpoll
  obtain ⟨calls, hlog, hmsgs⟩ := hpoll.sends
  refine ⟨?_, Function.update_of_ne (Bool.not_ne_self _) _ _, ?_, if_pos rfl⟩
  · unfold HandshakePair.step
    dsimp only
    rw [Function.update_self]
    exact hpoll
  · unfold HandshakePair.step
    dsimp only
    rw [if_neg (Bool.not_ne_self _), hlog, List.drop_left, sentOn_eq hsend, hmsgs,
      List.filterMap_map]
    congr 1
    refine (List.filterMap_congr ?_).trans List.filterMap_some
    intro m _
    exact if_pos rfl

/-- A start and the three messages of a handshake, each in a round of its own. -/
def handshakeRounds (conn : Bool → UInt16) (peer : Bool → PeerId)
    (s : HandshakePair HandshakeState NoiseKey)
    (env : Fin 4 → NoiseEnv HandshakeState NoiseKey) : HandshakePair HandshakeState NoiseKey :=
  let s := s.step sha256 ed25519SignOpen aead conn (startRound conn peer (env 0))
  let s := s.step sha256 ed25519SignOpen aead conn (deliverRound conn peer s false (env 1))
  let s := s.step sha256 ed25519SignOpen aead conn (deliverRound conn peer s true (env 2))
  s.step sha256 ed25519SignOpen aead conn (deliverRound conn peer s false (env 3))

/-- The node that moves in a round: the initiator first. -/
def roundOf (n : Fin 4) : Bool := n.val % 2 == 0

/-- A round in which a node takes a message. -/
theorem deliver_step {s : HandshakePair HandshakeState NoiseKey} {n : Bool} {p : List UInt8}
    {env : NoiseEnv HandshakeState NoiseKey} {i : Fin noiseMaxSessions}
    {k : SessionCrypto HandshakeState NoiseKey} {msgs : List (List UInt8)}
    (hinbox : s.inbox n = [p]) (hlen : p.length ≤ noiseEventPayloadMax)
    (hsend : ∀ n, env.sendOk n = true)
    (hmoved : Moved (s.worker n)
      (processHandshakeEvent env (s.worker n) (messageEvent conn peer n p hlen)) i k
      (msgs.map fun m => (conn n, m))) :
    Moved (s.worker n) ((s.step sha256 ed25519SignOpen aead conn
        (deliverRound conn peer s n env)).worker n) i k (msgs.map fun m => (conn n, m)) ∧
      (s.step sha256 ed25519SignOpen aead conn
        (deliverRound conn peer s n env)).worker (!n) = s.worker (!n) ∧
      (s.step sha256 ed25519SignOpen aead conn
        (deliverRound conn peer s n env)).inbox (!n) = s.inbox (!n) ++ msgs ∧
      (s.step sha256 ed25519SignOpen aead conn (deliverRound conn peer s n env)).inbox n = [] := by
  have hevt : (deliverRound conn peer s n env).evt = some (messageEvent conn peer n p hlen) := by
    unfold deliverRound
    dsimp only
    rw [hinbox, List.head?_cons, Option.bind_some, dif_pos hlen]
  obtain ⟨hworker, hother, hsent, hown⟩ := pair_step sha256 ed25519SignOpen aead (s := s)
    (x := deliverRound conn peer s n env) hevt hsend hmoved
  refine ⟨hworker, hother, hsent, hown.trans ?_⟩
  have hon : isOn (deliverRound conn peer s n env).evt .process (conn n) = true := by
    rw [hevt]
    exact beq_self_eq_true (conn n)
  rw [show (deliverRound conn peer s n env).node = n from rfl, hon, if_pos rfl, hinbox]
  rfl

/-- A node has a handshake on its link, in the state `h`. -/
structure Waits (conn : Bool → UInt16) (s : HandshakePair HandshakeState NoiseKey) (n : Bool)
    (i : Fin noiseMaxSessions) (h : HandshakeState) : Prop where
  found : findSession (s.worker n).table (conn n) = some i
  handshake : ((s.worker n).session i).handshake = some h
  initiator : ((s.worker n).session i).initiator = n

/-- The rounds of the other node change nothing about it. -/
theorem Waits.other {s s' : HandshakePair HandshakeState NoiseKey} {n : Bool}
    {i : Fin noiseMaxSessions} {h : HandshakeState} (hw : Waits conn s n i h)
    (hsame : s'.worker n = s.worker n) : Waits conn s' n i h := by
  constructor
  · rw [hsame]
    exact hw.found
  · rw [hsame]
    exact hw.handshake
  · rw [hsame]
    exact hw.initiator

/-- What the slot of a node holds after the handshake. -/
def doneCrypto (conn : Bool → UInt16) (peer : Bool → PeerId) (n : Bool) (k : Bool → NoiseKey) :
    SessionCrypto HandshakeState NoiseKey :=
  { inUse := true, connHandle := conn n, initiator := n, established := true
    peerId := peer !n, handshake := none, txCipher := some ⟨some (k n), 0⟩
    rxCipher := some ⟨some (k !n), 0⟩, txNonce := 0 }

theorem Waits.done {s : HandshakePair HandshakeState NoiseKey} {n : Bool}
    {i : Fin noiseMaxSessions} {h : HandshakeState} (hw : Waits conn s n i h)
    (k : Bool → NoiseKey) :
    { ((s.worker n).session i).crypto with
      established := true, peerId := peer !n, handshake := none
      txCipher := some ⟨some (k n), 0⟩, rxCipher := some ⟨some (k !n), 0⟩, txNonce := 0 } =
        doneCrypto conn peer n k := by
  have hslot := List.find?_some hw.found
  rw [Bool.and_eq_true, beq_iff_eq] at hslot
  have hused : ((s.worker n).session i).inUse = true := hslot.1
  have hconn : ((s.worker n).session i).connHandle = conn n := hslot.2
  dsimp only [NoiseSession.crypto]
  rw [hused, hconn, hw.initiator]
  rfl

section Rounds

variable {c : NoiseCrypto} {priv : Bool → NoiseKey} {rand : NoiseKey}
  {s : HandshakePair HandshakeState NoiseKey} {env : NoiseEnv HandshakeState NoiseKey}
  {st st' st'' : Bool → HandshakeState} {m m' : List UInt8} {r : NoiseKey}
  {i : Fin noiseMaxSessions} {k : Bool → NoiseKey}

variable (peer) in
/-- The first round: the initiator writes its first message. -/
theorem start_round (hidle : (s.worker true).Idle (conn true))
    (hlib : env.lib = noiseRef c (priv true) rand) (hsend : ∀ n, env.sendOk n = true)
    (hstart : (noiseRef c (priv true) rand).start
      (newParty c noiseProtocolName noisePatternXX [] priv true) = some (st true))
    (hmsg : RefMessage c priv true rand st st' m) (hm : m.length ≠ 0)
    (hnext : (st' true).action = .readMessage) :
    let s' := s.step sha256 ed25519SignOpen aead conn (startRound conn peer env)
    (∃ i, Waits conn s' true i (st' true)) ∧ s'.worker false = s.worker false ∧
      s'.inbox false = s.inbox false ++ [m] ∧ s'.inbox true = s.inbox true := by
  intro s'
  obtain ⟨i, a, halloc, hnone⟩ := hidle
  have hmoved : Moved (s.worker true) (processStartEvent env (s.worker true)
      { type := .start, connHandle := conn true, initiator := true, peerId := peer false }) i
      { (a.session i).crypto with
        initiator := true, established := false, peerId := peer false
        handshake := some (st' true) } ([m].map fun m => (conn true, m)) := by
    refine moved_start halloc hnone
      (show env.lib.create true = some _ by rw [hlib]; exact noiseRef_create c priv _ true)
      (show env.lib.start _ = some (st true) by rw [hlib]; exact hstart) ?_ ?_ hm hsend ?_
    · rw [hlib]
      exact hmsg.writes
    · rw [hlib]
      exact hmsg.write
    · rw [hlib]
      exact hnext
  obtain ⟨hworker, hother, hsent, hown⟩ :=
    pair_step sha256 ed25519SignOpen aead (s := s) (x := startRound conn peer env) rfl hsend hmoved
  obtain ⟨-, hused, hconn⟩ := moved_alloc halloc
  exact ⟨⟨i, findSession_of_moved halloc hworker hused hconn,
    congrArg SessionCrypto.handshake hworker.crypto,
    congrArg SessionCrypto.initiator hworker.crypto⟩, hother, hsent, hown⟩

variable (peer) in
/-- The second round: the responder reads it and answers. -/
theorem answer_round (hidle : (s.worker false).Idle (conn false))
    (hlib : env.lib = noiseRef c (priv false) rand) (hsend : ∀ n, env.sendOk n = true)
    (hstart : (noiseRef c (priv false) rand).start
      (newParty c noiseProtocolName noisePatternXX [] priv false) = some (st false))
    (hread : RefMessage c priv true r st st' m) (hmsg : RefMessage c priv false rand st' st'' m')
    (hinbox : s.inbox false = [m]) (hm : m.length ≠ 0) (hle : m.length ≤ noiseEventPayloadMax)
    (hm' : m'.length ≠ 0) (hnext : (st'' false).action = .readMessage) :
    let s' := s.step sha256 ed25519SignOpen aead conn (deliverRound conn peer s false env)
    (∃ i, Waits conn s' false i (st'' false)) ∧ s'.worker true = s.worker true ∧
      s'.inbox true = s.inbox true ++ [m'] ∧ s'.inbox false = [] := by
  intro s'
  obtain ⟨i, a, halloc, hnone⟩ := hidle
  have hmoved : Moved (s.worker false) (processHandshakeEvent env (s.worker false)
      (messageEvent conn peer false m hle)) i
      { (a.session i).crypto with
        initiator := false, established := false, peerId := peer true
        handshake := some (st'' false) } ([m'].map fun m => (conn false, m)) := by
    refine moved_answer halloc hnone rfl
      (show env.lib.create false = some _ by rw [hlib]; exact noiseRef_create c priv _ false)
      (show env.lib.start _ = some (st false) by rw [hlib]; exact hstart) ?_ hm
      (show env.lib.readMessage _ m = some (st' false, []) by rw [hlib]; exact hread.read _)
      ?_ ?_ hm' hsend ?_
    · rw [hlib]
      exact hread.reads
    · rw [hlib]
      exact hmsg.writes
    · rw [hlib]
      exact hmsg.write
    · rw [hlib]
      exact hnext
  obtain ⟨hworker, hother, hsent, hempty⟩ :=
    deliver_step sha256 ed25519SignOpen aead hinbox hle hsend hmoved
  obtain ⟨-, hused, hconn⟩ := moved_alloc halloc
  exact ⟨⟨i, findSession_of_moved halloc hworker hused hconn,
    congrArg SessionCrypto.handshake hworker.crypto,
    congrArg SessionCrypto.initiator hworker.crypto⟩, hother, hsent, hempty⟩

variable (peer) in
/-- The third round: the initiator reads the answer, writes the last message, and is done. -/
theorem finish_round (hw : Waits conn s true i (st true))
    (hlib : env.lib = noiseRef c (priv true) rand) (hsend : ∀ n, env.sendOk n = true)
    (hread : RefMessage c priv false r st st' m) (hmsg : RefMessage c priv true rand st' st'' m')
    (hinbox : s.inbox true = [m]) (hlen : m.length = 96) (hm' : m'.length ≠ 0)
    (hact : (st'' true).action = .split)
    (hsplit : (noiseRef c (priv true) rand).split (st'' true) =
      some (⟨some (k true), 0⟩, ⟨some (k false), 0⟩)) :
    let s' := s.step sha256 ed25519SignOpen aead conn (deliverRound conn peer s true env)
    ((s'.worker true).session i).crypto = doneCrypto conn peer true k ∧
      s'.worker false = s.worker false ∧ s'.inbox false = s.inbox false ++ [m'] ∧
      s'.inbox true = [] := by
  intro s'
  have hle : m.length ≤ noiseEventPayloadMax := by
    rw [hlen]
    decide
  have hmoved : Moved (s.worker true) (processHandshakeEvent env (s.worker true)
      (messageEvent conn peer true m hle)) i
      { ((s.worker true).session i).crypto with
        established := true, peerId := peer false, handshake := none
        txCipher := some ⟨some (k true), 0⟩, rxCipher := some ⟨some (k false), 0⟩, txNonce := 0 }
      ([m'].map fun m => (conn true, m)) := by
    refine moved_finish hw.found hw.handshake (show m.length ≠ 0 by omega)
      (fun _ => show m.length ≠ 32 by omega)
      (show env.lib.readMessage _ m = some (st' true, []) by rw [hlib]; exact hread.read _) ?_
      (show env.lib.writeMessage _ = some (st'' true, m') by rw [hlib]; exact hmsg.write)
      hm' hsend ?_ ?_
    · rw [hlib]
      exact hmsg.writes
    · rw [hlib]
      exact hact
    · rw [hlib]
      exact hsplit
  obtain ⟨hworker, hother, hsent, hempty⟩ :=
    deliver_step sha256 ed25519SignOpen aead hinbox hle hsend hmoved
  exact ⟨hworker.crypto.trans (hw.done k), hother, hsent, hempty⟩

variable (peer) in
/-- The last round: the responder reads the last message, and is done. -/
theorem last_round (hw : Waits conn s false i (st false))
    (hlib : env.lib = noiseRef c (priv false) rand) (hsend : ∀ n, env.sendOk n = true)
    (hread : RefMessage c priv true r st st' m) (hinbox : s.inbox false = [m])
    (hlen : m.length = 64) (hact : (st' false).action = .split)
    (hsplit : (noiseRef c (priv false) rand).split (st' false) =
      some (⟨some (k false), 0⟩, ⟨some (k true), 0⟩)) :
    let s' := s.step sha256 ed25519SignOpen aead conn (deliverRound conn peer s false env)
    ((s'.worker false).session i).crypto = doneCrypto conn peer false k ∧
      s'.worker true = s.worker true ∧ s'.inbox true = s.inbox true ∧ s'.inbox false = [] := by
  intro s'
  have hle : m.length ≤ noiseEventPayloadMax := by
    rw [hlen]
    decide
  have hmoved : Moved (s.worker false) (processHandshakeEvent env (s.worker false)
      (messageEvent conn peer false m hle)) i
      { ((s.worker false).session i).crypto with
        established := true, peerId := peer true, handshake := none
        txCipher := some ⟨some (k false), 0⟩, rxCipher := some ⟨some (k true), 0⟩, txNonce := 0 }
      (([] : List (List UInt8)).map fun m => (conn false, m)) := by
    refine moved_last hw.found hw.handshake (show m.length ≠ 0 by omega)
      (fun _ => show m.length ≠ 32 by omega)
      (show env.lib.readMessage _ m = some (st' false, []) by rw [hlib]; exact hread.read _) ?_ ?_
    · rw [hlib]
      exact hact
    · rw [hlib]
      exact hsplit
  obtain ⟨hworker, hother, hsent, hempty⟩ :=
    deliver_step sha256 ed25519SignOpen aead hinbox hle hsend hmoved
  exact ⟨hworker.crypto.trans (hw.done k), hother, hsent.trans (List.append_nil _), hempty⟩

end Rounds

/-- The rounds of a handshake leave both workers with its ciphers, and nothing on the way. -/
theorem handshakeRounds_crypto {c : NoiseCrypto} (hc : c.Correct) (conn : Bool → UInt16)
    (peer : Bool → PeerId) (priv : Bool → NoiseKey) (rand : Fin 4 → NoiseKey)
    {s : HandshakePair HandshakeState NoiseKey} {env : Fin 4 → NoiseEnv HandshakeState NoiseKey}
    (hidle : ∀ n, (s.worker n).Idle (conn n)) (hinbox : ∀ n, s.inbox n = [])
    (hlib : ∀ n, (env n).lib = noiseRef c (priv (roundOf n)) (rand n))
    (hsend : ∀ n k, (env n).sendOk k = true) :
    ∃ (slot : Bool → Fin noiseMaxSessions) (k : Bool → NoiseKey), ∀ n,
      (((handshakeRounds sha256 ed25519SignOpen aead conn peer s env).worker n).session
        (slot n)).crypto = doneCrypto conn peer n k ∧
      (handshakeRounds sha256 ed25519SignOpen aead conn peer s env).inbox n = [] := by
  obtain ⟨st0, st1, st2, st3, m1, m2, m3, k, hstart, hmsg1, hmsg2, hmsg3, hlen1, hlen2, hlen3,
    hact, hsplit⟩ := noiseRef_run hc priv (rand 0) (rand 1) (rand 2)
  have hfits : (32 : Nat) ≤ noiseEventPayloadMax := by decide
  -- the initiator starts
  obtain ⟨⟨i, hwaits⟩, hother1, hsent1, hown1⟩ := start_round peer sha256 ed25519SignOpen
    aead (hidle true) (hlib 0) (hsend 0) (hstart true _) hmsg1 (by omega) hmsg2.reads
  rw [hinbox, List.nil_append] at hsent1
  rw [hinbox] at hown1
  -- the responder answers the first message
  have hidle1 := hidle false
  rw [← hother1] at hidle1
  obtain ⟨⟨j, hwaits'⟩, hother2, hsent2, hown2⟩ := answer_round peer sha256
    ed25519SignOpen aead hidle1 (hlib 1) (hsend 1) (hstart false _) hmsg1 hmsg2 hsent1 (by omega)
    (by omega) (by omega) hmsg3.reads
  rw [hown1, List.nil_append] at hsent2
  -- the initiator is done with the second, the responder with the third
  obtain ⟨hdone, hother3, hsent3, hown3⟩ := finish_round peer sha256 ed25519SignOpen aead
    (hwaits.other hother2) (hlib 2) (hsend 2) hmsg2 hmsg3 hsent2 hlen2 (by omega) (hact true)
    (hsplit true _)
  rw [hown2, List.nil_append] at hsent3
  obtain ⟨hdone', hother4, hsent4, hown4⟩ := last_round peer sha256 ed25519SignOpen aead
    (hwaits'.other hother3) (hlib 3) (hsend 3) hmsg3 hsent3 hlen3 (hact false) (hsplit false _)
  refine ⟨fun n => if n then i else j, k, ?_⟩
  intro n
  cases n with
  | true =>
    have hlast := congrArg (fun w => (NoiseWorker.session w i).crypto) hother4
    exact ⟨hlast.trans hdone, hsent4.trans hown3⟩
  | false => exact ⟨hdone', hown4⟩

/-- **Two nodes shake hands.** Whatever tables they have and whatever their maintenance does in
between, a start on a link on which no handshake runs ends three messages later in a session on both
sides: established, with the id of the other, and joined to it in both directions; and no message is
left on its way. -/
theorem handshake_establishes {c : NoiseCrypto} (hc : c.Correct) (conn : Bool → UInt16)
    (peer : Bool → PeerId) (priv : Bool → NoiseKey) (rand : Fin 4 → NoiseKey)
    {s : HandshakePair HandshakeState NoiseKey} {env : Fin 4 → NoiseEnv HandshakeState NoiseKey}
    (hidle : ∀ n, (s.worker n).Idle (conn n)) (hinbox : ∀ n, s.inbox n = [])
    (hlib : ∀ n, (env n).lib = noiseRef c (priv (roundOf n)) (rand n))
    (hsend : ∀ n k, (env n).sendOk k = true) :
    ∃ (session : Bool → NoiseSession HandshakeState NoiseKey) (k : Bool → NoiseKey), ∀ n,
      (∃ i, session n =
        ((handshakeRounds sha256 ed25519SignOpen aead conn peer s env).worker n).session i) ∧
      (session n).inUse = true ∧ (session n).connHandle = conn n ∧
      (session n).established = true ∧ (session n).handshake = none ∧
      (session n).initiator = n ∧ (session n).peerId = peer (!n) ∧
      Joined (session n) (session !n) (k n) ∧
      (handshakeRounds sha256 ed25519SignOpen aead conn peer s env).inbox n = [] := by
  obtain ⟨slot, k, hall⟩ := handshakeRounds_crypto sha256 ed25519SignOpen aead hc conn peer priv rand
    hidle hinbox hlib hsend
  refine ⟨fun n => ((handshakeRounds sha256 ed25519SignOpen aead conn peer s env).worker n).session
    (slot n), k, ?_⟩
  intro n
  obtain ⟨hcrypto, hinbox⟩ := hall n
  obtain ⟨hcrypto', -⟩ := hall !n
  have hjoined := joined_of_crypto hcrypto (by rw [hcrypto', doneCrypto, Bool.not_not])
  refine ⟨⟨slot n, rfl⟩, ?_, ?_, ?_, ?_, ?_, ?_, hjoined, hinbox⟩
  · exact congrArg SessionCrypto.inUse hcrypto
  · exact congrArg SessionCrypto.connHandle hcrypto
  · exact congrArg SessionCrypto.established hcrypto
  · exact congrArg SessionCrypto.handshake hcrypto
  · exact congrArg SessionCrypto.initiator hcrypto
  · exact congrArg SessionCrypto.peerId hcrypto

/-- The outside of the rounds of two nodes that have just booted. -/
def bootedEnv (n : Fin 4) : NoiseEnv HandshakeState NoiseKey where
  lib := noiseRef toyCrypto (keyOf (pairByte (roundOf n))) (keyOf 5)
  localPeerId := copyAt 8 [pairByte (roundOf n)] 0

theorem handshake_establishes_booted :
    ∃ (session : Bool → NoiseSession HandshakeState NoiseKey) (k : Bool → NoiseKey), ∀ n,
      (session n).established = true ∧ (session n).peerId = copyAt 8 [pairByte !n] 0 ∧
      Joined (session n) (session !n) (k n) := by
  have hidle : ∀ n, (({} : HandshakePair HandshakeState NoiseKey).worker n).Idle 1 := by
    intro _
    exact ⟨0, _, rfl, rfl⟩
  obtain ⟨session, k, hall⟩ := @handshake_establishes toyCrypto.sha256
    (fun _ _ _ => true) (toyCrypto.aead []) toyCrypto toyCrypto_correct (fun _ => 1)
    (fun n => copyAt 8 [pairByte n] 0) (fun n => keyOf (pairByte n)) (fun _ => keyOf 5) {} bootedEnv hidle
    (fun _ => rfl) (fun _ => rfl) fun _ _ => rfl
  refine ⟨session, k, ?_⟩
  intro n
  obtain ⟨-, -, -, hest, -, -, hpeer, hjoined, -⟩ := hall n
  exact ⟨hest, hpeer, hjoined⟩

end Pair

end Bitle
