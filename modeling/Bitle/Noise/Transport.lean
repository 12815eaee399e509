import Bitle.Lib.Run
import Bitle.Noise.Session

/-!
# Bitle — transport payloads of an established session (`main/noise_handshake.c`)

`encrypt_payload` and `decrypt_payload`: a transport payload is a 4-byte big-endian nonce,
the ciphertext and a 16-byte MAC. The receiver hands the nonce of the payload to
`noise_cipherstate_set_nonce` *before* the MAC is checked, so a payload that is rejected can
still move the receive counter. The results here say exactly when it does not: when it is
refused for its length or its nonce is not ahead of the counter.
-/

namespace Bitle

open Wire Run

variable {H K : Type}

/-- `NOISE_TRANSPORT_NONCE_LEN`. -/
def noiseTransportNonceLen : Nat := 4

/-- `NOISE_MAX_ENCRYPTED_PAYLOAD`: the plaintext buffer of `process_encrypted_event`. -/
def noiseMaxEncryptedPayload : Nat := 320

/-- The explicit nonce in front of a transport payload. -/
def transportNonce (input : List UInt8) : UInt64 :=
  UInt64.ofNat (beNat (input.take noiseTransportNonceLen))

/-- `encrypt_payload`: the payload on success, and the session. -/
def encryptPayload (aead : Aead K) (session : NoiseSession H K) (input : List UInt8)
    (outputLen : Nat) : Option (List UInt8) × NoiseSession H K :=
  match session.txCipher with
  | none => (none, session)
  | some tx =>
    if input.length + noiseTransportNonceLen > outputLen then (none, session)
    else
      let nonce := session.txNonce
      match noiseCipherstateSetNonce tx nonce.toUInt64 with
      | (.none, tx) =>
        match noiseCipherstateEncrypt aead tx input (outputLen - noiseTransportNonceLen) with
        | (.none, tx, ciphertext) =>
          (some (beBytes noiseTransportNonceLen nonce.toNat ++ ciphertext),
            { session with txCipher := some tx, txNonce := nonce + 1 })
        | (_, tx, _) => (none, { session with txCipher := some tx })
      | (_, tx) => (none, { session with txCipher := some tx })

/-- The second half of `decrypt_payload`: `noise_cipherstate_decrypt` over the bytes behind
the nonce, with the cipher `set_nonce` left. -/
def openPayload (aead : Aead K) (session : NoiseSession H K) (rx : CipherState K)
    (input : List UInt8) (outputLen : Nat) : Option (List UInt8) × NoiseSession H K :=
  match noiseCipherstateDecrypt aead rx (input.drop noiseTransportNonceLen) outputLen with
  | (.none, rx, plaintext) => (some plaintext, { session with rxCipher := some rx })
  | (_, rx, _) => (none, { session with rxCipher := some rx })

/-- `decrypt_payload`: the plaintext on success, and the session. The nonce is stored before
anything of the payload is authenticated. -/
def decryptPayload (aead : Aead K) (session : NoiseSession H K) (input : List UInt8)
    (outputLen : Nat) : Option (List UInt8) × NoiseSession H K :=
  match session.rxCipher with
  | none => (none, session)
  | some rx =>
    if input.length ≤ noiseTransportNonceLen ∨
        input.length - noiseTransportNonceLen > outputLen then
      (none, session)
    else
      match noiseCipherstateSetNonce rx (transportNonce input) with
      | (.none, rx) => openPayload aead session rx input outputLen
      | (_, rx) => (none, { session with rxCipher := some rx })

/-! ## The receive state of an established session -/

/-- `session` is established: the split has set a keyed receive cipher. -/
structure Established (session : NoiseSession H K) (rx : CipherState K) : Prop where
  established : session.established = true
  rxCipher : session.rxCipher = some rx
  key : ∃ k, rx.key = some k

/-- The session after one inbound payload, with the caller's buffer size. -/
def recvPayload (aead : Aead K) (session : NoiseSession H K) (input : List UInt8) :
    NoiseSession H K :=
  (decryptPayload aead session input noiseMaxEncryptedPayload).2

/-- The payload decrypts. -/
def accepts (aead : Aead K) (session : NoiseSession H K) (input : List UInt8) : Bool :=
  (decryptPayload aead session input noiseMaxEncryptedPayload).1.isSome

/-- What an inbound sequence delivers, payload by payload. -/
def delivered (aead : Aead K) : NoiseSession H K → List (List UInt8) →
    List (Option (List UInt8))
  | _, [] => []
  | s, p :: ps =>
    (decryptPayload aead s p noiseMaxEncryptedPayload).1 :: delivered aead (recvPayload aead s p) ps

/-- The payloads of a sequence that are accepted where they arrive. -/
def acceptedOf (aead : Aead K) : NoiseSession H K → List (List UInt8) → List (List UInt8)
  | _, [] => []
  | s, p :: ps =>
    if accepts aead s p then p :: acceptedOf aead (recvPayload aead s p) ps
    else acceptedOf aead (recvPayload aead s p) ps

/-- The payload is refused for its length, or its nonce is not ahead of the counter. -/
def NonceNotAhead (rx : CipherState K) (input : List UInt8) : Prop :=
  input.length ≤ noiseTransportNonceLen ∨
    noiseMaxEncryptedPayload < input.length - noiseTransportNonceLen ∨
    transportNonce input ≤ rx.n

instance (rx : CipherState K) (input : List UInt8) : Decidable (NonceNotAhead rx input) := by
  unfold NonceNotAhead; infer_instance

/-! ## One payload -/

/-- Refused for its length, a payload changes nothing. -/
theorem decryptPayload_length {aead : Aead K} {s : NoiseSession H K} {rx : CipherState K}
    (hs : Established s rx) {p : List UInt8}
    (hlen : p.length ≤ noiseTransportNonceLen ∨
      noiseMaxEncryptedPayload < p.length - noiseTransportNonceLen) :
    decryptPayload aead s p noiseMaxEncryptedPayload = (none, s) := by
  unfold decryptPayload
  rw [hs.rxCipher]
  simp only
  rw [if_pos hlen]

/-- Past the length check the nonce decides: behind the counter the payload is refused and
changes nothing, otherwise it is stored and the MAC check runs with it. -/
theorem decryptPayload_nonce {aead : Aead K} {s : NoiseSession H K} {rx : CipherState K}
    (hs : Established s rx) {p : List UInt8} (hshort : noiseTransportNonceLen < p.length)
    (hlong : p.length - noiseTransportNonceLen ≤ noiseMaxEncryptedPayload) :
    decryptPayload aead s p noiseMaxEncryptedPayload =
      if rx.n ≤ transportNonce p then
        openPayload aead s { rx with n := transportNonce p } p noiseMaxEncryptedPayload
      else (none, s) := by
  obtain ⟨k, hk⟩ := hs.key
  unfold decryptPayload
  rw [hs.rxCipher]
  simp only
  rw [if_neg (by omega), setNonce_eq hk]
  by_cases hle : rx.n ≤ transportNonce p
  · rw [if_pos hle, if_pos hle]
  · rw [if_neg hle, if_neg hle]
    simp only
    rw [← hs.rxCipher]

/-- Whatever the MAC check says, the session is left with the cipher of the check. -/
theorem openPayload_session (aead : Aead K) (s : NoiseSession H K) (rx : CipherState K)
    (p : List UInt8) (cap : Nat) :
    (openPayload aead s rx p cap).2 =
      { s with
        rxCipher := some
          (noiseCipherstateDecrypt aead rx (p.drop noiseTransportNonceLen) cap).2.1 } := by
  unfold openPayload
  split <;> simp_all

/-- A payload that fails the MAC check leaves the cipher it was checked with. -/
theorem openPayload_rejected {aead : Aead K} {s : NoiseSession H K} {rx : CipherState K}
    {p : List UInt8} (hrej : (openPayload aead s rx p noiseMaxEncryptedPayload).1 = none) :
    (openPayload aead s rx p noiseMaxEncryptedPayload).2 = { s with rxCipher := some rx } := by
  rw [openPayload_session, decrypt_error_state]
  intro hok
  unfold openPayload at hrej
  split at hrej <;> simp_all

/-- **What a rejected payload leaves behind**: the session as it was, or its nonce in the
receive counter. -/
theorem recvPayload_rejected {aead : Aead K} {s : NoiseSession H K} {rx : CipherState K}
    (hs : Established s rx) {p : List UInt8} (hrej : accepts aead s p = false) :
    recvPayload aead s p =
      if NonceNotAhead rx p then s
      else { s with rxCipher := some { rx with n := transportNonce p } } := by
  unfold recvPayload
  rw [accepts, Option.isSome_eq_false_iff, Option.isNone_iff_eq_none] at hrej
  by_cases hlen : p.length ≤ noiseTransportNonceLen ∨
      noiseMaxEncryptedPayload < p.length - noiseTransportNonceLen
  · have hn : NonceNotAhead rx p := by unfold NonceNotAhead; tauto
    rw [decryptPayload_length hs hlen, if_pos hn]
  · rw [not_or] at hlen
    rw [decryptPayload_nonce hs (by omega) (by omega)] at hrej ⊢
    by_cases hle : rx.n ≤ transportNonce p
    · -- the MAC check failed, so the cipher is the one `set_nonce` left
      rw [if_pos hle] at hrej ⊢
      rw [openPayload_rejected hrej]
      by_cases heq : transportNonce p = rx.n
      · have hn : NonceNotAhead rx p := Or.inr (Or.inr (by rw [heq]; exact UInt64.le_refl _))
        rw [if_pos hn, heq, ← hs.rxCipher]
      · have hn : ¬ NonceNotAhead rx p := by
          rintro (h | h | h)
          · omega
          · omega
          · exact heq (UInt64.le_antisymm h hle)
        rw [if_neg hn]
    · have hn : NonceNotAhead rx p :=
        Or.inr (Or.inr (UInt64.le_of_lt (UInt64.not_le.mp hle)))
      rw [if_neg hle, if_pos hn]

/-- A payload leaves an established session established. -/
theorem Established.recv (aead : Aead K) {s : NoiseSession H K} {rx : CipherState K}
    (hs : Established s rx) (p : List UInt8) : ∃ rx', Established (recvPayload aead s p) rx' := by
  obtain ⟨k, hk⟩ := hs.key
  unfold recvPayload
  by_cases hlen : p.length ≤ noiseTransportNonceLen ∨
      noiseMaxEncryptedPayload < p.length - noiseTransportNonceLen
  · rw [decryptPayload_length hs hlen]
    exact ⟨rx, hs⟩
  · rw [not_or] at hlen
    rw [decryptPayload_nonce hs (by omega) (by omega)]
    split
    · rw [openPayload_session]
      exact ⟨_, hs.established, rfl, k, by rw [decrypt_key]; exact hk⟩
    · exact ⟨rx, hs⟩

/-! ## Authentic payloads -/

/-- The peer's `encrypt_payload` output for an empty message under nonce `n`. -/
theorem encryptPayload_empty {aead : Aead K} {peer : NoiseSession H K} {k : K} {n : UInt32}
    (htx : peer.txCipher = some { key := some k, n := n.toUInt64 }) (hn : peer.txNonce = n) :
    (encryptPayload aead peer [] noiseMaxEncryptedPayload).1 =
      some (beBytes noiseTransportNonceLen n.toNat ++ aead.encrypt k n.toUInt64 []) := by
  have hmax : n.toUInt64 ≠ 0xFFFFFFFFFFFFFFFF := by
    intro h
    have := congrArg UInt64.toNat h
    have := n.toNat_lt
    simp at *
    omega
  have hset : noiseCipherstateSetNonce (K := K) ⟨some k, n.toUInt64⟩ n.toUInt64 =
      (.none, ⟨some k, n.toUInt64⟩) := by
    rw [setNonce_eq rfl, if_pos (UInt64.le_refl _)]
  unfold encryptPayload
  rw [htx, hn]
  simp only [hset]
  simp [noiseCipherstateEncrypt, noiseTransportNonceLen, noiseMaxEncryptedPayload,
    noiseMaxPayloadLen, macLen, hmax]

/-- The nonce in front of an authentic payload is the one it was made with. -/
theorem transportNonce_beBytes (n : UInt32) (ct : List UInt8) :
    transportNonce (beBytes noiseTransportNonceLen n.toNat ++ ct) = n.toUInt64 := by
  have hn : n.toNat < 256 ^ noiseTransportNonceLen := by
    have := n.toNat_lt
    simpa [noiseTransportNonceLen] using this
  unfold transportNonce
  rw [List.take_left' (by simp), beNat_beBytes hn]
  apply UInt64.toNat_inj.mp
  simp

/-- The explicit nonce is a 32-bit number. -/
theorem transportNonce_lt (p : List UInt8) : (transportNonce p).toNat < 2 ^ 32 := by
  have hb := beNat_lt (p.take noiseTransportNonceLen)
  have hp : 256 ^ (p.take noiseTransportNonceLen).length ≤ 256 ^ 4 :=
    Nat.pow_le_pow_right (by omega) (by simp [noiseTransportNonceLen])
  unfold transportNonce
  rw [UInt64.toNat_ofNat']
  omega

/-- The authentic payload whose nonce is the receive counter is accepted. -/
theorem accepts_authentic {aead : Aead K} (haead : aead.Correct) {s : NoiseSession H K}
    {rx : CipherState K} (hs : Established s rx) {k : K} (hk : rx.key = some k) {n : UInt32}
    (hn : rx.n = n.toUInt64) :
    accepts aead s (beBytes noiseTransportNonceLen n.toNat ++ aead.encrypt k n.toUInt64 []) =
      true := by
  have hl := haead.length_encrypt k n.toUInt64 []
  have hmax : rx.n ≠ 0xFFFFFFFFFFFFFFFF := by
    rw [hn]
    intro h
    have := congrArg UInt64.toNat h
    have := n.toNat_lt
    simp at *
    omega
  have hlen : (beBytes noiseTransportNonceLen n.toNat ++ aead.encrypt k n.toUInt64 []).length =
      noiseTransportNonceLen + macLen := by simp [hl]
  rw [accepts, decryptPayload_nonce hs (by rw [hlen]; decide) (by rw [hlen]; decide),
    transportNonce_beBytes, if_pos (by rw [hn]; exact UInt64.le_refl _)]
  unfold openPayload
  rw [List.drop_left' (by simp), ← hn,
    decrypt_authentic aead haead { rx with n := rx.n } hk hmax [] (by decide) (by decide)]
  rfl

/-- A counter ahead of a payload's nonce refuses it. -/
theorem accepts_behind {aead : Aead K} {s : NoiseSession H K} {rx : CipherState K}
    (hs : Established s rx) {p : List UInt8} (hlt : transportNonce p < rx.n) :
    accepts aead s p = false := by
  by_cases hlen : p.length ≤ noiseTransportNonceLen ∨
      noiseMaxEncryptedPayload < p.length - noiseTransportNonceLen
  · rw [accepts, decryptPayload_length hs hlen]
    rfl
  · rw [not_or] at hlen
    rw [accepts, decryptPayload_nonce hs (by omega) (by omega), if_neg (UInt64.not_le.mpr hlt)]
    rfl

/-! ## Sequences of payloads -/

/-- The condition along a run: every payload that is rejected where it arrives is refused
for its length or has a nonce that is not ahead of the counter. -/
def RejectedNotAhead (aead : Aead K) (s : NoiseSession H K) (p : List UInt8) : Prop :=
  accepts aead s p = false → ∀ rx, s.rxCipher = some rx → NonceNotAhead rx p

/-- **Rejected payloads leave no trace.** Along a run in which no rejected payload is ahead
of the counter, the accepted payloads alone deliver the same plaintexts and end in the same
session. -/
theorem delivered_acceptedOf (aead : Aead K) {s : NoiseSession H K} {rx : CipherState K}
    (hs : Established s rx) (ps : List (List UInt8))
    (hrun : Along (recvPayload aead) (RejectedNotAhead aead) s ps) :
    delivered aead s (acceptedOf aead s ps) = (delivered aead s ps).filter Option.isSome ∧
      final (recvPayload aead) s (acceptedOf aead s ps) = final (recvPayload aead) s ps := by
  induction ps generalizing s rx with
  | nil => exact ⟨rfl, rfl⟩
  | cons p ps ih =>
    obtain ⟨rx', hs'⟩ := hs.recv aead p
    obtain ⟨hd, hf⟩ := ih hs' hrun.2
    by_cases hacc : accepts aead s p = true
    · have hsome : (decryptPayload aead s p noiseMaxEncryptedPayload).1.isSome = true := hacc
      simp only [acceptedOf, hacc, if_true, delivered, List.filter_cons, hsome, final_cons]
      exact ⟨by rw [hd], hf⟩
    · -- rejected and not ahead: the session is the one before the payload
      have hrej : accepts aead s p = false := by simpa using hacc
      have hstay : recvPayload aead s p = s := by
        rw [recvPayload_rejected hs hrej, if_pos (hrun.1 hrej rx hs.rxCipher)]
      have hnone : (decryptPayload aead s p noiseMaxEncryptedPayload).1.isSome = false := hrej
      rw [hstay] at hd hf
      simp only [acceptedOf, hrej, delivered, List.filter_cons, hnone, final_cons, hstay]
      exact ⟨hd, hf⟩

/-- **A rejected payload is harmless exactly when its nonce is not ahead of the counter.**

For an established session: a rejected payload leaves the receive state, and with it the
fate of every later sequence of payloads, unchanged iff it is refused for its length or its
nonce is not ahead; otherwise an authentic payload of the peer that would have been accepted
is lost. And any interleaving in which no rejected payload is ahead delivers exactly what
its accepted payloads deliver alone. -/
theorem decryptPayload_rejected_harmless_iff (aead : Aead K) (haead : aead.Correct)
    (s : NoiseSession H K) (rx : CipherState K) (hs : Established s rx) :
    (∀ p, accepts aead s p = false →
      ((recvPayload aead s p = s ∧
          ∀ later, delivered aead (recvPayload aead s p) later = delivered aead s later) ↔
        NonceNotAhead rx p) ∧
      (¬ NonceNotAhead rx p → ∃ (peer : NoiseSession H K) (q : List UInt8),
        (∃ tx, peer.txCipher = some tx ∧ tx.key = rx.key) ∧
        (encryptPayload aead peer [] noiseMaxEncryptedPayload).1 = some q ∧
        accepts aead s q = true ∧ accepts aead (recvPayload aead s p) q = false)) ∧
    ∀ ps, Along (recvPayload aead) (RejectedNotAhead aead) s ps →
      delivered aead s (acceptedOf aead s ps) = (delivered aead s ps).filter Option.isSome ∧
      final (recvPayload aead) s (acceptedOf aead s ps) = final (recvPayload aead) s ps := by
  obtain ⟨k, hk⟩ := hs.key
  refine ⟨fun p hrej => ?_, fun ps hrun => delivered_acceptedOf aead hs ps hrun⟩
  have hrecv := recvPayload_rejected hs hrej
  -- an ahead payload leaves the counter strictly beyond where it was
  have hahead : ¬ NonceNotAhead rx p → rx.n < transportNonce p := by
    intro h
    simp only [NonceNotAhead, not_or, UInt64.not_le] at h
    exact h.2.2
  refine ⟨⟨fun ⟨hstay, _⟩ => ?_, fun h => ?_⟩, fun h => ?_⟩
  · by_contra h
    rw [if_neg h] at hrecv
    have hn : some { rx with n := transportNonce p } = s.rxCipher :=
      congrArg NoiseSession.rxCipher (hrecv.symm.trans hstay)
    rw [hs.rxCipher] at hn
    have hn := congrArg CipherState.n (Option.some.inj hn)
    simp only at hn
    have hlt := hahead h
    rw [hn] at hlt
    exact UInt64.lt_irrefl _ hlt
  · rw [if_pos h] at hrecv
    exact ⟨hrecv, fun later => by rw [hrecv]⟩
  · -- the peer's payload under the nonce the counter stood at
    have hlt := hahead h
    have hsmall : rx.n.toNat < 2 ^ 32 :=
      Nat.lt_trans (UInt64.lt_iff_toNat_lt.mp hlt) (transportNonce_lt p)
    obtain ⟨n, hn⟩ : ∃ n : UInt32, rx.n = n.toUInt64 := by
      refine ⟨UInt32.ofNat rx.n.toNat, UInt64.toNat_inj.mp ?_⟩
      simp
      omega
    let peer : NoiseSession H K :=
      { txCipher := some { key := some k, n := n.toUInt64 }, txNonce := n }
    refine ⟨peer, beBytes noiseTransportNonceLen n.toNat ++ aead.encrypt k n.toUInt64 [],
      ⟨_, rfl, hk.symm⟩, encryptPayload_empty rfl rfl, accepts_authentic haead hs hk hn, ?_⟩
    rw [hrecv, if_neg h]
    have hahead : Established { s with rxCipher := some { rx with n := transportNonce p } }
        { rx with n := transportNonce p } := ⟨hs.established, rfl, k, hk⟩
    refine accepts_behind hahead ?_
    rw [transportNonce_beBytes, ← hn]
    exact hlt

/-- A stand-in AEAD: the MAC is sixteen copies of the key byte. It accepts what it made and
refuses everything else, as ChaChaPoly does on the payloads below. -/
def toyAead : Aead UInt8 where
  encrypt k _ m := m ++ List.replicate macLen k
  decrypt k _ c :=
    if c.drop (c.length - macLen) = List.replicate macLen k then
      some (c.take (c.length - macLen))
    else none

theorem toyAead_correct : toyAead.Correct where
  length_encrypt k n m := by simp [toyAead]
  decrypt_encrypt k n m := by simp [toyAead, List.drop_left', List.take_left']

/-- A session right after the split, receiving under key `7`. -/
def freshSession : NoiseSession Unit UInt8 :=
  { inUse := true, established := true, rxCipher := some ⟨some 7, 0⟩ }

/-- A forged payload: nonce 5 and a wrong MAC. -/
def forged : List UInt8 := [0, 0, 0, 5] ++ List.replicate 16 0

/-- The peer's first payload. -/
def firstPayload : List UInt8 := [0, 0, 0, 0, 1] ++ List.replicate 16 7

theorem decryptPayload_rejected_harmless_fresh :
    Established freshSession ⟨some 7, 0⟩ ∧ accepts toyAead freshSession forged = false ∧
      ¬ NonceNotAhead (⟨some 7, 0⟩ : CipherState UInt8) forged ∧
      ¬ (recvPayload toyAead freshSession forged = freshSession) := by
  have hest : Established freshSession ⟨some 7, 0⟩ := ⟨rfl, rfl, 7, rfl⟩
  have hrej : accepts toyAead freshSession forged = false := by decide
  have hahead : ¬ NonceNotAhead (⟨some 7, 0⟩ : CipherState UInt8) forged := by decide
  have h := (decryptPayload_rejected_harmless_iff toyAead toyAead_correct freshSession
    ⟨some 7, 0⟩ hest).1 forged hrej
  exact ⟨hest, hrej, hahead, fun heq => hahead (h.1.mp ⟨heq, fun _ => by rw [heq]⟩)⟩

/-- The forgery is rejected and the peer's first payload, accepted before it, is refused
after it. -/
theorem forged_nonce_blocks_authentic :
    (encryptPayload toyAead ({ txCipher := some ⟨some 7, 0⟩ } : NoiseSession Unit UInt8) [1]
        noiseMaxEncryptedPayload).1 = some firstPayload ∧
      accepts toyAead freshSession forged = false ∧
      accepts toyAead freshSession firstPayload = true ∧
      accepts toyAead (recvPayload toyAead freshSession forged) firstPayload = false := by
  decide

end Bitle
