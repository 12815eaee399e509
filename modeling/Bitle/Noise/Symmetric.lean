import Bitle.Lib.HashChain
import Bitle.Noise.Session

/-!
# Bitle — the vendored SymmetricState (`components/noise_ref/src/protocol/symmetricstate.c`)

The chaining key `ck`, the handshake hash `h` and the cipher of a running handshake, and the
operations on them, with the HMAC and HKDF of `hashstate.c` below. The primitives behind
`backend/ref` are the parameter `NoiseCrypto`: SHA-256, the two Curve25519 multiplications and
ChaChaPoly with associated data.

Only `Noise_XX_25519_ChaChaPoly_SHA256` is built, so hashes and keys are 32 bytes and an output of
HKDF is a whole hash. A split hands the cipher out and leaves a NULL behind; here the action of
the handshake state says so (`NOISE_ACTION_COMPLETE`), and every caller looks at the action before
it comes here.
-/

namespace Bitle

open Wire

/-- A 32-byte key. -/
abbrev NoiseKey : Type := Bytes 32

/-- The primitives: `sha256_*`, `curved25519_scalarmult_basepoint`, `curve25519_donna`, and the
sealing and opening of `cipher-chachapoly.c`, which appends and checks a 16-byte MAC. -/
structure NoiseCrypto where
  sha256 : List UInt8 → Bytes 32
  basepoint : NoiseKey → NoiseKey
  donna : NoiseKey → NoiseKey → NoiseKey
  encrypt : NoiseKey → UInt64 → List UInt8 → List UInt8 → List UInt8
  decrypt : NoiseKey → UInt64 → List UInt8 → List UInt8 → Option (List UInt8)

/-- The cipher with its associated data fixed. -/
def NoiseCrypto.aead (c : NoiseCrypto) (ad : List UInt8) : Aead NoiseKey :=
  ⟨fun k n m => c.encrypt k n ad m, fun k n m => c.decrypt k n ad m⟩

/-- What Curve25519 and ChaChaPoly are for: both sides of an exchange compute one secret, no public
key is null, and a ciphertext opens under the key, nonce and data it was made with. -/
structure NoiseCrypto.Correct (c : NoiseCrypto) : Prop where
  agree : ∀ a b, c.donna a (c.basepoint b) = c.donna b (c.basepoint a)
  basepoint_ne : ∀ a, c.basepoint a ≠ zeros 32
  aead : ∀ ad, (c.aead ad).Correct

/-- The MAC of the stand-in below: the key with the nonce and the data written over it. -/
def toyMac (k : NoiseKey) (n : UInt64) (ad m : List UInt8) : List UInt8 :=
  (copyAt macLen (beBytes 8 n.toNat ++ [byteAt ad 0, byteAt m 0, byteAt k.val 31]) 0).val

/-- The opening of the stand-in below. -/
def toyDecrypt (k : NoiseKey) (n : UInt64) (ad c : List UInt8) : Option (List UInt8) :=
  let m := c.take (c.length - macLen)
  if c.drop (c.length - macLen) = toyMac k n ad m then some m else none

/-- A stand-in: secrets are the XOR of both sides' keys, a public key is the private one with a mark
that keeps it from being null, and the cipher only appends a MAC. -/
def toyCrypto : NoiseCrypto where
  sha256 m := copyAt 32 m.reverse 0
  basepoint a := ⟨a.val.set 0 9, List.length_set.trans a.property⟩
  donna a p := ⟨List.zipWith (· ^^^ ·) (a.val.set 0 9) p.val, by
    rw [List.length_zipWith, List.length_set, a.property, p.property, Nat.min_self]⟩
  encrypt k n ad m := m ++ toyMac k n ad m
  decrypt := toyDecrypt

theorem toyDecrypt_append (k : NoiseKey) (n : UInt64) (ad m : List UInt8) :
    toyDecrypt k n ad (m ++ toyMac k n ad m) = some m := by
  have hmac : (toyMac k n ad m).length = macLen := (copyAt macLen _ 0).property
  have hlen : (m ++ toyMac k n ad m).length - macLen = m.length := by
    rw [List.length_append, hmac, Nat.add_sub_cancel]
  unfold toyDecrypt
  dsimp only
  rw [hlen, List.take_left, List.drop_left, if_pos rfl]

theorem toyCrypto_correct : toyCrypto.Correct where
  agree a b := by
    apply Subtype.ext
    exact List.zipWith_comm_of_comm fun x y => UInt8.xor_comm x y
  basepoint_ne a h := by
    have hbyte := congrArg (fun k : NoiseKey => byteAt k.val 0) h
    dsimp only [toyCrypto] at hbyte
    rw [byteAt_set _ _ (by rw [a.property]; decide), if_pos rfl] at hbyte
    exact absurd hbyte (by decide)
  aead ad :=
    { length_encrypt := fun k n m => by
        change (m ++ toyMac k n ad m).length = _
        rw [List.length_append, toyMac, (copyAt macLen _ 0).property]
      decrypt_encrypt := fun k n m => toyDecrypt_append k n ad m }

/-! ## HashState -/

/-- `HMAC_IPAD` and `HMAC_OPAD`. -/
def hmacIpad : UInt8 := 0x36
def hmacOpad : UInt8 := 0x5C

/-- The block of a key: itself, or its hash when it is longer than a block, filled with zeros. -/
def hmacKeyBlock (sha256 : List UInt8 → Bytes 32) (key : List UInt8) : List UInt8 :=
  let key := if key.length ≤ 64 then key else (sha256 key).val
  key ++ List.replicate (64 - key.length) 0

/-- `noise_hashstate_hmac`. The block is turned from the inner to the outer one in place. -/
def noiseHashstateHmac (sha256 : List UInt8 → Bytes 32) (key data : List UInt8) : Bytes 32 :=
  let inner := (hmacKeyBlock sha256 key).map (· ^^^ hmacIpad)
  let outer := inner.map (· ^^^ (hmacIpad ^^^ hmacOpad))
  sha256 (outer ++ (sha256 (inner ++ data)).val)

/-- `noise_hashstate_hkdf` with two outputs of the length of a hash. -/
def noiseHashstateHkdf (sha256 : List UInt8 → Bytes 32) (key data : List UInt8) :
    Bytes 32 × Bytes 32 :=
  let tempKey := (noiseHashstateHmac sha256 key data).val
  let output1 := noiseHashstateHmac sha256 tempKey [0x01]
  (output1, noiseHashstateHmac sha256 tempKey (output1.val ++ [0x02]))

/-! ## SymmetricState -/

/-- `NoiseSymmetricState`. -/
structure SymmetricState where
  cipher : CipherState NoiseKey
  ck : Bytes 32
  h : Bytes 32
  deriving DecidableEq

/-- `NOISE_PROTOCOL_NAME`, which has the length of a hash. -/
def noiseProtocolName : List UInt8 := "Noise_XX_25519_ChaChaPoly_SHA256".toList.map fun ch =>
  UInt8.ofNat ch.toNat

/-- `noise_symmetricstate_new`: a name no longer than a hash is filled with zeros, a longer one is
hashed. -/
def noiseSymmetricstateNew (c : NoiseCrypto) (name : List UInt8) : SymmetricState :=
  let h := if name.length ≤ 32 then copyAt 32 name 0 else c.sha256 name
  { cipher := ⟨none, 0⟩, ck := h, h := h }

/-- `noise_symmetricstate_mix_key`: the new key starts at nonce 0. -/
def SymmetricState.mixKey (c : NoiseCrypto) (s : SymmetricState) (input : List UInt8) :
    SymmetricState :=
  let (ck, k) := noiseHashstateHkdf c.sha256 s.ck.val input
  { s with ck := ck, cipher := ⟨some k, 0⟩ }

/-- `noise_symmetricstate_mix_hash`. -/
def SymmetricState.mixHash (c : NoiseCrypto) (s : SymmetricState) (input : List UInt8) :
    SymmetricState :=
  { s with h := HashChain.absorb c.sha256 Subtype.val s.h input }

/-- `noise_symmetricstate_get_mac_length`. -/
def SymmetricState.macLength (s : SymmetricState) : Nat :=
  if s.cipher.key.isNone then 0 else macLen

/-- `noise_symmetricstate_encrypt_and_hash`: the ciphertext is hashed, once there is one. -/
def SymmetricState.encryptAndHash (c : NoiseCrypto) (s : SymmetricState) (buffer : List UInt8)
    (maxSize : Nat) : Except NoiseError (SymmetricState × List UInt8) :=
  match noiseCipherstateEncrypt (c.aead s.h.val) s.cipher buffer maxSize with
  | (.none, cipher, out) => .ok ({ s with cipher := cipher }.mixHash c out, out)
  | (err, _, _) => .error err

/-- `noise_symmetricstate_decrypt_and_hash`: the hash takes the ciphertext, and is kept only if it
opens. -/
def SymmetricState.decryptAndHash (c : NoiseCrypto) (s : SymmetricState) (buffer : List UInt8) :
    Except NoiseError (SymmetricState × List UInt8) :=
  if buffer.length > noiseMaxPayloadLen then .error .invalidLength
  else if buffer.length < s.macLength then .error .invalidLength
  else
    match noiseCipherstateDecrypt (c.aead s.h.val) s.cipher buffer buffer.length with
    | (.none, cipher, out) => .ok ({ s with cipher := cipher }.mixHash c buffer, out)
    | (err, _, _) => .error err

/-- `noise_symmetricstate_split`: the cipher from the initiator to the responder, and the one back. -/
def SymmetricState.split (c : NoiseCrypto) (s : SymmetricState) :
    CipherState NoiseKey × CipherState NoiseKey :=
  let (k1, k2) := noiseHashstateHkdf c.sha256 s.ck.val []
  (⟨some k1, 0⟩, ⟨some k2, 0⟩)

/-! ## What the operations keep -/

section Spec

variable {c : NoiseCrypto} {s s' : SymmetricState} {buffer out : List UInt8} {maxSize : Nat}

@[simp] theorem cipher_mixHash (input : List UInt8) : (s.mixHash c input).cipher = s.cipher := rfl

@[simp] theorem h_mixHash (input : List UInt8) :
    (s.mixHash c input).h = HashChain.absorb c.sha256 Subtype.val s.h input := rfl

@[simp] theorem macLength_mixHash (input : List UInt8) :
    (s.mixHash c input).macLength = s.macLength := rfl

@[simp] theorem h_mixKey (input : List UInt8) : (s.mixKey c input).h = s.h := rfl

@[simp] theorem macLength_mixKey (input : List UInt8) : (s.mixKey c input).macLength = macLen := rfl

/-- A nonce below its last value goes up by one at most. -/
theorem toNat_succ_le (n : UInt64) : (n + 1).toNat ≤ n.toNat + 1 := by
  rw [UInt64.toNat_add]
  exact Nat.mod_le _ _

/-- A sealing hashes the ciphertext and keeps the key. -/
theorem encryptAndHash_cases (h : s.encryptAndHash c buffer maxSize = .ok (s', out)) :
    s'.h = HashChain.absorb c.sha256 Subtype.val s.h out ∧ s'.macLength = s.macLength := by
  unfold SymmetricState.encryptAndHash at h
  split at h
  · next cipher out' heq =>
    cases h
    refine ⟨rfl, ?_⟩
    have hkey : cipher.key = s.cipher.key := by
      unfold noiseCipherstateEncrypt at heq
      repeat' split at heq
      all_goals first | cases heq; rfl | cases heq
    unfold SymmetricState.macLength
    rw [cipher_mixHash, hkey]
  · cases h

/-- A sealed key is longer by the MAC. -/
theorem length_encryptAndHash (hc : c.Correct) (key : NoiseKey)
    (h : s.encryptAndHash c key.val maxSize = .ok (s', out)) : out.length = 32 + s.macLength := by
  unfold SymmetricState.encryptAndHash noiseCipherstateEncrypt at h
  unfold SymmetricState.macLength
  cases hk : s.cipher.key with
  | none =>
    rw [hk] at h
    dsimp only at h
    split_ifs at h
    · cases h
      exact key.property
  | some k =>
    rw [hk] at h
    dsimp only at h
    split_ifs at h
    · cases h
      rw [(hc.aead s.h.val).length_encrypt, key.property]
      rfl

/-- An opening hashes the ciphertext and keeps the key. -/
theorem decryptAndHash_cases (h : s.decryptAndHash c buffer = .ok (s', out)) :
    s'.h = HashChain.absorb c.sha256 Subtype.val s.h buffer ∧ s'.macLength = s.macLength ∧
      s.macLength ≤ buffer.length := by
  unfold SymmetricState.decryptAndHash at h
  split at h
  · cases h
  · split at h
    · cases h
    · next hmac =>
      split at h
      · next cipher out' heq =>
        cases h
        refine ⟨rfl, ?_, Nat.le_of_not_lt hmac⟩
        have hkey := decrypt_key (c.aead s.h.val) s.cipher buffer buffer.length
        rw [heq] at hkey
        unfold SymmetricState.macLength
        rw [cipher_mixHash, hkey]
      · cases h

/-- **What one side seals the other opens**, and both end in the same state. -/
theorem encryptAndHash_ok (hc : c.Correct) (hroom : buffer.length + s.macLength ≤ maxSize)
    (hlen : buffer.length + macLen ≤ noiseMaxPayloadLen) (hn : s.cipher.n ≠ 0xFFFFFFFFFFFFFFFF) :
    ∃ s' out, s.encryptAndHash c buffer maxSize = .ok (s', out) ∧
      s.decryptAndHash c out = .ok (s', buffer) ∧ out.length = buffer.length + s.macLength ∧
      s'.cipher.n.toNat ≤ s.cipher.n.toNat + 1 := by
  obtain ⟨⟨key, n⟩, ck, h⟩ := s
  unfold SymmetricState.encryptAndHash SymmetricState.decryptAndHash SymmetricState.macLength at *
  dsimp only at *
  cases key with
  | none =>
    -- no key yet: the text goes out as it is
    refine ⟨SymmetricState.mixHash c ⟨⟨none, n⟩, ck, h⟩ buffer, buffer, ?_, ?_, rfl,
      Nat.le_succ n.toNat⟩
    · rw [noiseCipherstateEncrypt, if_neg (by simpa using hroom)]
      dsimp only
      rw [if_neg (by omega)]
    · rw [if_neg (by omega), if_neg (by simp), noiseCipherstateDecrypt, if_neg (by omega)]
  | some k =>
    have hsealed := (hc.aead h.val).length_encrypt k n buffer
    refine ⟨SymmetricState.mixHash c ⟨⟨some k, n + 1⟩, ck, h⟩ ((c.aead h.val).encrypt k n buffer),
      (c.aead h.val).encrypt k n buffer, ?_, ?_, hsealed, toNat_succ_le n⟩
    · simp only [Option.isNone_some, Bool.false_eq_true, if_false] at hroom
      rw [noiseCipherstateEncrypt, if_neg (by omega)]
      dsimp only
      rw [if_neg (by omega), if_neg (by omega), if_neg hn]
    · simp only [Option.isNone_some, Bool.false_eq_true, if_false]
      rw [if_neg (by omega), if_neg (by omega),
        decrypt_authentic (c.aead h.val) (hc.aead h.val) ⟨some k, n⟩ rfl hn buffer
          (Nat.le_of_eq hsealed.symm) hlen]

end Spec

end Bitle
