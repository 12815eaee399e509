import Bitle.Noise.Transport

/-!
# Bitle — transport nonces (`main/noise_handshake.c`)

`encrypt_payload` takes its nonce from the 32-bit `tx_nonce` of the session, the vendored
cipher keeps a 64-bit counter of its own, and the two can come apart: after a failure between
`set_nonce` and the end of the call, and for good when `tx_nonce` wraps at `2^32`.

`set_nonce` is what keeps nonces apart in all of these cases. It refuses a nonce below the
counter, and a successful operation leaves the counter one above the nonce it used. So the
counter bounds every nonce used so far (`NonceInv`), and once it stands at `2^32` no 32-bit
nonce passes.
-/

namespace Bitle

open Wire Run

variable {H K : Type} (aead : Aead K)

/-- A call under one pair of transport keys, with the caller's buffer size. -/
inductive TransportOp where
  | encrypt (input : List UInt8) (outputLen : Nat)
  | decrypt (input : List UInt8) (outputLen : Nat)

/-- A session, the payloads it has encrypted (plaintext and wire bytes) and those it has
decrypted (wire bytes and plaintext). -/
structure TransportRun (H K : Type) where
  session : NoiseSession H K
  sealed : List (List UInt8 × List UInt8) := []
  opened : List (List UInt8 × List UInt8) := []

/-- One call; failures leave no record. -/
def transportStep (r : TransportRun H K) : TransportOp → TransportRun H K
  | .encrypt input outputLen =>
    match encryptPayload aead r.session input outputLen with
    | (some wire, session) => { r with session := session, sealed := r.sealed ++ [(input, wire)] }
    | (none, session) => { r with session := session }
  | .decrypt input outputLen =>
    match decryptPayload aead r.session input outputLen with
    | (some plain, session) => { r with session := session, opened := r.opened ++ [(input, plain)] }
    | (none, session) => { r with session := session }

/-- The session as `derive_transport_keys` leaves it: the ciphers of the split with their
counters at zero, and `tx_nonce` at zero. -/
def deriveTransportKeys (session : NoiseSession H K) (txKey rxKey : K) : NoiseSession H K :=
  { session with
    txCipher := some { key := some txKey, n := 0 }
    rxCipher := some { key := some rxKey, n := 0 }
    txNonce := 0
    established := true }

/-! ## The ciphers -/

section Ciphers

variable {k : K}

/-- What the encryption of a keyed cipher does: nothing, or it uses the counter as the nonce and
moves it. -/
theorem noiseCipherstateEncrypt_cases (state : CipherState K) (hk : state.key = some k)
    (buffer : List UInt8) (maxSize : Nat) :
    ((noiseCipherstateEncrypt aead state buffer maxSize).1 ≠ .none ∧
      (noiseCipherstateEncrypt aead state buffer maxSize).2.1 = state) ∨
    (state.n ≠ 0xFFFFFFFFFFFFFFFF ∧ noiseCipherstateEncrypt aead state buffer maxSize =
      (.none, { state with n := state.n + 1 }, aead.encrypt k state.n buffer)) := by
  rw [noiseCipherstateEncrypt, hk]
  dsimp only
  split
  · exact .inl ⟨by simp, rfl⟩
  · split
    · exact .inl ⟨by simp, rfl⟩
    · split
      · exact .inl ⟨by simp, rfl⟩
      · split
        · exact .inl ⟨by simp, rfl⟩
        · next hn => exact .inr ⟨hn, rfl⟩

/-- What the decryption of a keyed cipher does. -/
theorem noiseCipherstateDecrypt_cases (state : CipherState K) (hk : state.key = some k)
    (buffer : List UInt8) (maxSize : Nat) :
    ((noiseCipherstateDecrypt aead state buffer maxSize).1 ≠ .none ∧
      (noiseCipherstateDecrypt aead state buffer maxSize).2.1 = state) ∨
    (∃ plain, aead.decrypt k state.n buffer = some plain ∧ state.n ≠ 0xFFFFFFFFFFFFFFFF ∧
      noiseCipherstateDecrypt aead state buffer maxSize =
        (.none, { state with n := state.n + 1 }, plain)) := by
  rw [noiseCipherstateDecrypt, hk]
  dsimp only
  split
  · exact .inl ⟨nofun, rfl⟩
  · split
    · exact .inl ⟨nofun, rfl⟩
    · split
      · exact .inl ⟨nofun, rfl⟩
      · next hn =>
          cases hd : aead.decrypt k state.n buffer with
          | none => exact .inl ⟨nofun, rfl⟩
          | some plain => exact .inr ⟨plain, rfl, hn, rfl⟩

end Ciphers

/-! ## One call -/

section Call

variable {s : NoiseSession H K} {k : K} {n : UInt64}

/-- **`encrypt_payload`.** Either nothing is encrypted and the counter has not gone back, or the
payload carries the nonce it was encrypted with, which was not below the counter and is below it
now. -/
theorem encryptPayload_cases (htx : s.txCipher = some ⟨some k, n⟩) (input : List UInt8)
    (outputLen : Nat) :
    ((encryptPayload aead s input outputLen).1 = none ∧
      (encryptPayload aead s input outputLen).2.rxCipher = s.rxCipher ∧
      ∃ m, (encryptPayload aead s input outputLen).2.txCipher = some ⟨some k, m⟩ ∧
        n.toNat ≤ m.toNat) ∨
    ∃ nonce : UInt32, n.toNat ≤ nonce.toNat ∧
      (encryptPayload aead s input outputLen).1 =
        some (beBytes noiseTransportNonceLen nonce.toNat ++
          aead.encrypt k nonce.toUInt64 input) ∧
      (encryptPayload aead s input outputLen).2.rxCipher = s.rxCipher ∧
      (encryptPayload aead s input outputLen).2.txCipher =
        some ⟨some k, nonce.toUInt64 + 1⟩ := by
  have hstay : ∃ m, s.txCipher = some ⟨some k, m⟩ ∧ n.toNat ≤ m.toNat :=
    ⟨n, htx, Nat.le_refl _⟩
  rw [encryptPayload, htx]
  dsimp only
  split
  · exact .inl ⟨rfl, rfl, hstay⟩
  · rw [setNonce_eq rfl]
    by_cases hle : n ≤ s.txNonce.toUInt64
    · rw [if_pos hle]
      dsimp only
      rw [UInt64.le_iff_toNat_le, UInt32.toNat_toUInt64] at hle
      rcases noiseCipherstateEncrypt_cases aead ⟨some k, s.txNonce.toUInt64⟩ rfl input
        (outputLen - noiseTransportNonceLen) with ⟨herr, hsame⟩ | ⟨-, hok⟩
      · -- the cipher refused: its counter stays at the nonce that was set
        left
        generalize noiseCipherstateEncrypt aead ⟨some k, s.txNonce.toUInt64⟩ input
          (outputLen - noiseTransportNonceLen) = result at herr hsame
        obtain ⟨err, tx, out⟩ := result
        cases err with
        | none => exact absurd rfl herr
        | _ =>
          refine ⟨rfl, rfl, s.txNonce.toUInt64, congrArg some hsame, ?_⟩
          rw [UInt32.toNat_toUInt64]
          exact hle
      · rw [hok]
        exact .inr ⟨s.txNonce, hle, rfl, rfl, rfl⟩
    · rw [if_neg hle]
      exact .inl ⟨rfl, rfl, n, rfl, Nat.le_refl _⟩

/-- **`decrypt_payload`.** Either nothing is decrypted and the counter has not gone back, or the
payload was decrypted under the nonce it carries, which was not below the counter and is below
it now. -/
theorem decryptPayload_cases (hrx : s.rxCipher = some ⟨some k, n⟩) (input : List UInt8)
    (outputLen : Nat) :
    ((decryptPayload aead s input outputLen).1 = none ∧
      (decryptPayload aead s input outputLen).2.txCipher = s.txCipher ∧
      ∃ m, (decryptPayload aead s input outputLen).2.rxCipher = some ⟨some k, m⟩ ∧
        n.toNat ≤ m.toNat) ∨
    ∃ plain, n.toNat ≤ (transportNonce input).toNat ∧
      aead.decrypt k (transportNonce input) (input.drop noiseTransportNonceLen) = some plain ∧
      (decryptPayload aead s input outputLen).1 = some plain ∧
      (decryptPayload aead s input outputLen).2.txCipher = s.txCipher ∧
      (decryptPayload aead s input outputLen).2.rxCipher =
        some ⟨some k, transportNonce input + 1⟩ := by
  rw [decryptPayload, hrx]
  dsimp only
  split
  · exact .inl ⟨rfl, rfl, n, hrx, Nat.le_refl _⟩
  · rw [setNonce_eq rfl]
    by_cases hle : n ≤ transportNonce input
    · rw [if_pos hle]
      dsimp only
      rw [UInt64.le_iff_toNat_le] at hle
      rw [openPayload]
      rcases noiseCipherstateDecrypt_cases aead ⟨some k, transportNonce input⟩ rfl
        (input.drop noiseTransportNonceLen) outputLen with ⟨herr, hsame⟩ | ⟨plain, hdec, -, hok⟩
      · left
        generalize noiseCipherstateDecrypt aead ⟨some k, transportNonce input⟩
          (input.drop noiseTransportNonceLen) outputLen = result at herr hsame
        obtain ⟨err, rx, out⟩ := result
        cases err with
        | none => exact absurd rfl herr
        | _ => exact ⟨rfl, rfl, transportNonce input, congrArg some hsame, hle⟩
      · rw [hok]
        exact .inr ⟨plain, hle, hdec, rfl, rfl, rfl⟩
    · rw [if_neg hle]
      exact .inl ⟨rfl, rfl, n, rfl, Nat.le_refl _⟩

end Call

/-! ## Runs -/

/-- The counters are above every nonce used, and the payloads are what the cipher made of the
nonce they carry. -/
structure NonceInv (txKey rxKey : K) (r : TransportRun H K) : Prop where
  tx : ∃ n, r.session.txCipher = some ⟨some txKey, n⟩ ∧
    ∀ x ∈ r.sealed, (transportNonce x.2).toNat < n.toNat
  rx : ∃ n, r.session.rxCipher = some ⟨some rxKey, n⟩ ∧
    ∀ x ∈ r.opened, (transportNonce x.1).toNat < n.toNat
  sealed_lt : (r.sealed.map fun x => (transportNonce x.2).toNat).Pairwise (· < ·)
  opened_lt : (r.opened.map fun x => (transportNonce x.1).toNat).Pairwise (· < ·)
  sealed_eq : ∀ x ∈ r.sealed, x.2 = beBytes noiseTransportNonceLen (transportNonce x.2).toNat ++
    aead.encrypt txKey (transportNonce x.2) x.1
  opened_eq : ∀ x ∈ r.opened,
    aead.decrypt rxKey (transportNonce x.1) (x.1.drop noiseTransportNonceLen) = some x.2

variable {aead} {txKey rxKey : K} {r : TransportRun H K}

/-- One more nonce, above all those before it. -/
theorem pairwise_concat {nonce : List UInt8 × List UInt8 → Nat} {l : List (List UInt8 × List UInt8)}
    {x : List UInt8 × List UInt8} (h : (l.map nonce).Pairwise (· < ·))
    (hx : ∀ y ∈ l, nonce y < nonce x) : ((l ++ [x]).map nonce).Pairwise (· < ·) := by
  rw [List.map_append]
  apply List.pairwise_append.mpr
  refine ⟨h, List.pairwise_singleton _ _, ?_⟩
  intro a ha b hb
  obtain ⟨y, hy, rfl⟩ := List.mem_map.mp ha
  rw [List.mem_singleton.mp hb]
  exact hx y hy

/-- The counter after a nonce below `2^32` does not wrap. -/
theorem toNat_succ_of_lt {n : UInt64} (h : n.toNat < 2 ^ 32) : (n + 1).toNat = n.toNat + 1 := by
  rw [UInt64.toNat_add]
  show (n.toNat + 1) % 2 ^ 64 = _
  omega

/-- **Step.** -/
theorem NonceInv.step (hinv : NonceInv aead txKey rxKey r) (op : TransportOp) :
    NonceInv aead txKey rxKey (transportStep aead r op) := by
  obtain ⟨n, htx, hsealed⟩ := hinv.tx
  obtain ⟨n', hrx, hopened⟩ := hinv.rx
  cases op with
  | encrypt input outputLen =>
    rw [transportStep]
    rcases encryptPayload_cases aead htx input outputLen with
      ⟨hnone, hrx', m, htx', hle⟩ | ⟨nonce, hle, hsome, hrx', htx'⟩
    · generalize encryptPayload aead r.session input outputLen = result at hnone hrx' htx'
      obtain ⟨out, session⟩ := result
      obtain rfl : out = none := hnone
      exact ⟨⟨m, htx', fun x hx => Nat.lt_of_lt_of_le (hsealed x hx) hle⟩,
        ⟨n', hrx'.trans hrx, hopened⟩, hinv.sealed_lt, hinv.opened_lt, hinv.sealed_eq,
        hinv.opened_eq⟩
    · -- the nonce is at least the counter, so above every nonce so far
      generalize encryptPayload aead r.session input outputLen = result at hsome hrx' htx'
      obtain ⟨out, session⟩ := result
      obtain rfl : out = some _ := hsome
      have hwire := transportNonce_beBytes nonce (aead.encrypt txKey nonce.toUInt64 input)
      generalize hw : beBytes noiseTransportNonceLen nonce.toNat ++
        aead.encrypt txKey nonce.toUInt64 input = wire at hwire
      have hsucc : (nonce.toUInt64 + 1).toNat = nonce.toNat + 1 := by
        rw [toNat_succ_of_lt (by rw [UInt32.toNat_toUInt64]; exact nonce.toNat_lt),
          UInt32.toNat_toUInt64]
      have hnat : (transportNonce wire).toNat = nonce.toNat := by
        rw [hwire, UInt32.toNat_toUInt64]
      refine ⟨⟨_, htx', ?_⟩, ⟨n', hrx'.trans hrx, hopened⟩, ?_, hinv.opened_lt, ?_, hinv.opened_eq⟩
      · -- the new packet carries the nonce it was sealed under, which is above those before
        intro x hx
        rw [hsucc]
        rcases List.mem_append.mp hx with hx | hx
        · have := hsealed x hx
          omega
        · rw [List.mem_singleton.mp hx]
          show (transportNonce wire).toNat < _
          omega
      · apply pairwise_concat hinv.sealed_lt
        intro y hy
        have := hsealed y hy
        show _ < (transportNonce wire).toNat
        omega
      · intro x hx
        rcases List.mem_append.mp hx with hx | hx
        · exact hinv.sealed_eq x hx
        · rw [List.mem_singleton.mp hx]
          show wire = beBytes noiseTransportNonceLen (transportNonce wire).toNat ++
            aead.encrypt txKey (transportNonce wire) input
          rw [hnat, hwire]
          exact hw.symm
  | decrypt input outputLen =>
    rw [transportStep]
    rcases decryptPayload_cases aead hrx input outputLen with
      ⟨hnone, htx', m, hrx', hle⟩ | ⟨plain, hle, hdec, hsome, htx', hrx'⟩
    · generalize decryptPayload aead r.session input outputLen = result at hnone hrx' htx'
      obtain ⟨out, session⟩ := result
      obtain rfl : out = none := hnone
      exact ⟨⟨n, htx'.trans htx, hsealed⟩,
        ⟨m, hrx', fun x hx => Nat.lt_of_lt_of_le (hopened x hx) hle⟩, hinv.sealed_lt,
        hinv.opened_lt, hinv.sealed_eq, hinv.opened_eq⟩
    · generalize decryptPayload aead r.session input outputLen = result at hsome hrx' htx'
      obtain ⟨out, session⟩ := result
      obtain rfl : out = some plain := hsome
      -- an accepted packet moves the counter past its nonce
      have hsucc := toNat_succ_of_lt (transportNonce_lt input)
      refine ⟨⟨n, htx'.trans htx, hsealed⟩, ⟨_, hrx', ?_⟩, hinv.sealed_lt, ?_, hinv.sealed_eq, ?_⟩
      · intro x hx
        rw [hsucc]
        rcases List.mem_append.mp hx with hx | hx
        · have := hopened x hx
          omega
        · rw [List.mem_singleton.mp hx]
          exact Nat.lt_succ_self _
      · apply pairwise_concat hinv.opened_lt
        intro y hy
        exact Nat.lt_of_lt_of_le (hopened y hy) hle
      · intro x hx
        rcases List.mem_append.mp hx with hx | hx
        · exact hinv.opened_eq x hx
        · rw [List.mem_singleton.mp hx]
          exact hdec

variable (aead)

/-- **Nonces are never used twice.** Under one pair of transport keys, whatever the calls and
however many: the nonces of the encrypted payloads are strictly increasing and are those on the
wire, the nonces of the decrypted payloads are strictly increasing, and so no nonce encrypts
twice and no payload is accepted twice. -/
theorem transport_nonces_increase (session : NoiseSession H K) (txKey rxKey : K)
    (ops : List TransportOp) :
    let r := final (transportStep aead) ⟨deriveTransportKeys session txKey rxKey, [], []⟩ ops
    (r.sealed.map fun x => (transportNonce x.2).toNat).Pairwise (· < ·) ∧
      (∀ x ∈ r.sealed, x.2 = beBytes noiseTransportNonceLen (transportNonce x.2).toNat ++
        aead.encrypt txKey (transportNonce x.2) x.1) ∧
      (r.opened.map fun x => (transportNonce x.1).toNat).Pairwise (· < ·) ∧
      (∀ x ∈ r.opened, aead.decrypt rxKey (transportNonce x.1)
        (x.1.drop noiseTransportNonceLen) = some x.2) ∧
      (r.sealed.map fun x => transportNonce x.2).Nodup ∧ (r.opened.map Prod.fst).Nodup := by
  intro r
  have hinit : NonceInv aead txKey rxKey
      ⟨deriveTransportKeys session txKey rxKey, [], []⟩ :=
    ⟨⟨0, rfl, nofun⟩, ⟨0, rfl, nofun⟩, List.Pairwise.nil, List.Pairwise.nil, nofun, nofun⟩
  have hinv : NonceInv aead txKey rxKey r :=
    invariant_final (NonceInv aead txKey rxKey) (fun _ op h => h.step op) hinit ops
  refine ⟨hinv.sealed_lt, hinv.sealed_eq, hinv.opened_lt, hinv.opened_eq, ?_, ?_⟩
  · apply List.pairwise_map.mpr
    apply (List.pairwise_map.mp hinv.sealed_lt).imp
    intro x y hlt heq
    rw [heq] at hlt
    exact Nat.lt_irrefl _ hlt
  · apply List.pairwise_map.mpr
    apply (List.pairwise_map.mp hinv.opened_lt).imp
    intro x y hlt heq
    rw [heq] at hlt
    exact Nat.lt_irrefl _ hlt

end Bitle
