import Mathlib.Data.List.Basic

/-!
# Bitle — the vendored CipherState (`components/noise_ref/src/protocol/cipherstate.c`)

The transport ciphers of a Noise session: a key, a 64-bit nonce counter `n`, and the
operations the transport layer calls on them. The AEAD itself (`backend/ref/cipher-chachapoly.c`)
is the parameter `Aead`: it reads `n` and never writes it, which is all the transport layer
relies on.

Only ChaChaPoly ciphers are built (`NOISE_PROTOCOL_NAME`), so `mac_len` is the constant 16.
-/

namespace Bitle

/-- `NOISE_ERROR_*`, as far as the CipherState functions return them. -/
inductive NoiseError where
  | none
  | invalidState
  | invalidNonce
  | invalidLength
  | macFailure
  deriving DecidableEq, Repr

/-- `NOISE_MAX_PAYLOAD_LEN`. -/
def noiseMaxPayloadLen : Nat := 65535

/-- `state->mac_len` of a ChaChaPoly cipher. -/
def macLen : Nat := 16

/-- The AEAD behind `state->encrypt` and `state->decrypt`, with empty associated data.
`encrypt` appends the 16-byte MAC, `decrypt` checks and drops it. -/
structure Aead (K : Type) where
  encrypt : K → UInt64 → List UInt8 → List UInt8
  decrypt : K → UInt64 → List UInt8 → Option (List UInt8)

/-- What Noise asks of an AEAD: the MAC is 16 bytes long, and a ciphertext decrypts under
the key and nonce it was made with. -/
structure Aead.Correct {K : Type} (aead : Aead K) : Prop where
  length_encrypt : ∀ k n m, (aead.encrypt k n m).length = m.length + macLen
  decrypt_encrypt : ∀ k n m, aead.decrypt k n (aead.encrypt k n m) = some m

/-- `NoiseCipherState`: `has_key` is `key.isSome`. -/
structure CipherState (K : Type) where
  key : Option K
  n : UInt64
  deriving DecidableEq

variable {K : Type}

/-- `noise_cipherstate_set_nonce`: the nonce never goes backwards. -/
def noiseCipherstateSetNonce (state : CipherState K) (nonce : UInt64) :
    NoiseError × CipherState K :=
  if state.key.isNone then (.invalidState, state)
  else if state.n > nonce then (.invalidNonce, state)
  else (.none, { state with n := nonce })

/-- `noise_cipherstate_decrypt`: `buffer` holds ciphertext and MAC on entry, the plaintext
on a successful exit. The counter moves only after the MAC check. -/
def noiseCipherstateDecrypt (aead : Aead K) (state : CipherState K) (buffer : List UInt8)
    (maxSize : Nat) : NoiseError × CipherState K × List UInt8 :=
  if buffer.length > maxSize ∨ buffer.length > noiseMaxPayloadLen then
    (.invalidLength, state, buffer)
  else
    match state.key with
    | .none => (.none, state, buffer)
    | some k =>
      if buffer.length < macLen then (.invalidLength, state, buffer)
      else if state.n = 0xFFFFFFFFFFFFFFFF then (.invalidNonce, state, buffer)
      else
        match aead.decrypt k state.n buffer with
        | .none => (.macFailure, state, buffer)
        | some plaintext => (.none, { state with n := state.n + 1 }, plaintext)

/-- `noise_cipherstate_encrypt`: here the counter moves whatever the backend returns. -/
def noiseCipherstateEncrypt (aead : Aead K) (state : CipherState K) (buffer : List UInt8)
    (maxSize : Nat) : NoiseError × CipherState K × List UInt8 :=
  if buffer.length > maxSize then (.invalidLength, state, buffer)
  else
    match state.key with
    | .none =>
      if buffer.length > noiseMaxPayloadLen then (.invalidLength, state, buffer)
      else (.none, state, buffer)
    | some k =>
      if buffer.length > noiseMaxPayloadLen - macLen then (.invalidLength, state, buffer)
      else if maxSize - buffer.length < macLen then (.invalidLength, state, buffer)
      else if state.n = 0xFFFFFFFFFFFFFFFF then (.invalidNonce, state, buffer)
      else (.none, { state with n := state.n + 1 }, aead.encrypt k state.n buffer)

/-- The nonce is stored exactly when a key is set and the nonce is not behind the counter. -/
theorem setNonce_eq {state : CipherState K} {k : K} (hk : state.key = some k) (nonce : UInt64) :
    noiseCipherstateSetNonce state nonce =
      if state.n ≤ nonce then (.none, { state with n := nonce }) else (.invalidNonce, state) := by
  unfold noiseCipherstateSetNonce
  by_cases h : state.n ≤ nonce
  · simp [hk, h, UInt64.not_lt.mpr h]
  · simp [hk, h, UInt64.not_le.mp h]

/-- A decryption that fails leaves the cipher as it was: the MAC check comes before the
counter moves. -/
theorem decrypt_error_state (aead : Aead K) (state : CipherState K) (buffer : List UInt8)
    (maxSize : Nat) (h : (noiseCipherstateDecrypt aead state buffer maxSize).1 ≠ .none) :
    (noiseCipherstateDecrypt aead state buffer maxSize).2.1 = state := by
  unfold noiseCipherstateDecrypt at h ⊢
  split
  · rfl
  · split
    · rfl
    · split
      · rfl
      · split
        · rfl
        · split
          · rfl
          · simp_all

/-- Decryption never changes the key. -/
theorem decrypt_key (aead : Aead K) (state : CipherState K) (buffer : List UInt8) (maxSize : Nat) :
    (noiseCipherstateDecrypt aead state buffer maxSize).2.1.key = state.key := by
  unfold noiseCipherstateDecrypt
  repeat' split
  all_goals rfl

/-- An authentic ciphertext of at most `NOISE_MAX_PAYLOAD_LEN` bytes decrypts under the
nonce it was made with. -/
theorem decrypt_authentic (aead : Aead K) (haead : aead.Correct) (state : CipherState K) {k : K}
    (hk : state.key = some k) (hn : state.n ≠ 0xFFFFFFFFFFFFFFFF) (m : List UInt8) {maxSize : Nat}
    (hmax : m.length + macLen ≤ maxSize) (hlen : m.length + macLen ≤ noiseMaxPayloadLen) :
    noiseCipherstateDecrypt aead state (aead.encrypt k state.n m) maxSize =
      (.none, { state with n := state.n + 1 }, m) := by
  have hl := haead.length_encrypt k state.n m
  unfold noiseCipherstateDecrypt
  rw [if_neg (by omega), hk]
  simp only
  rw [if_neg (by omega), if_neg hn, haead.decrypt_encrypt]

end Bitle
