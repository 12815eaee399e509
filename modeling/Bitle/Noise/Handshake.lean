import Bitle.Noise.Symmetric
import Bitle.Noise.Worker

/-!
# Bitle — the vendored HandshakeState (`components/noise_ref/src/protocol/handshakestate.c`)

A handshake state runs a token pattern (`patterns.c`): every message is a run of tokens up to the
next change of direction, and a payload. Each token writes or reads a public key or mixes a
Diffie-Hellman secret into the symmetric state. `NOISE_ACTION_*` says what may be called next.

The ephemeral key a message may need is an argument of the write, since it is drawn at random there.
Left out is what the one protocol name of Bitle never turns on: pre-shared keys, hybrid keys
(`f`, `ff`) and fallback patterns. A write or read that fails leaves its fields half done in the
source; no function looks at them once the action is `NOISE_ACTION_FAILED`, and here they stay.
-/

namespace Bitle

open Wire

/-- `NOISE_ERROR_*`, as far as the handshake returns them; `cipher` is an error of the CipherState. -/
inductive HandshakeError where
  | cipher (err : NoiseError)
  | invalidParam
  | invalidState
  | invalidLength
  | invalidPrivateKey
  | invalidPublicKey
  | localKeyRequired
  | remoteKeyRequired
  deriving DecidableEq, Repr

/-! ## DHState -/

/-- `NOISE_KEY_TYPE_*`. -/
inductive NoiseKeyType where
  | noKey
  | keypair
  | publicKey
  deriving DecidableEq, Repr

/-- `NoiseDHState` of Curve25519. -/
structure DHState where
  keyType : NoiseKeyType := .noKey
  privateKey : NoiseKey := zeros 32
  publicKey : NoiseKey := zeros 32
  deriving DecidableEq

/-- The clamping of a random private key. -/
def clampPrivateKey (rand : NoiseKey) : NoiseKey :=
  ⟨(rand.val.modify 0 (· &&& 0xF8)).modify 31 (fun b => (b &&& 0x7F) ||| 0x40), by
    rw [List.length_modify, List.length_modify, rand.property]⟩

/-- `noise_dhstate_generate_dependent_keypair`; `rand` is what `noise_rand_bytes` drew. -/
def noiseDhstateGenerateKeypair (c : NoiseCrypto) (rand : NoiseKey) : DHState :=
  let privateKey := clampPrivateKey rand
  { keyType := .keypair, privateKey := privateKey, publicKey := c.basepoint privateKey }

/-- `noise_dhstate_set_keypair`: the public key must belong to the private key. -/
def noiseDhstateSetKeypair (c : NoiseCrypto) (privateKey publicKey : NoiseKey) :
    Except HandshakeError DHState :=
  if c.basepoint privateKey = publicKey then
    .ok { keyType := .keypair, privateKey := privateKey, publicKey := publicKey }
  else .error .invalidPublicKey

/-- `noise_dhstate_set_public_key`: Curve25519 takes every key. -/
def noiseDhstateSetPublicKey (publicKey : List UInt8) : Except HandshakeError DHState :=
  if publicKey.length = 32 then .ok { keyType := .publicKey, publicKey := copyAt 32 publicKey 0 }
  else .error .invalidLength

/-- `noise_dhstate_calculate`: a null public key makes a null secret. -/
def noiseDhstateCalculate (c : NoiseCrypto) (privateKey publicKey : DHState) :
    Except HandshakeError NoiseKey :=
  if privateKey.keyType ≠ .keypair then .error .invalidPrivateKey
  else if publicKey.publicKey = zeros 32 then .ok (zeros 32)
  else .ok (c.donna privateKey.privateKey publicKey.publicKey)

/-! ## Patterns -/

/-- `NOISE_TOKEN_*`; the end of the list is `NOISE_TOKEN_END`. -/
inductive NoiseToken where
  | s
  | e
  | ee
  | es
  | se
  | ss
  | flipDir
  deriving DecidableEq, Repr

/-- `NOISE_PAT_FLAG_LOCAL_*` of one party, or `NOISE_PAT_FLAG_REMOTE_*` of the other. -/
structure PatternFlags where
  static : Bool := false
  ephemeral : Bool := false
  required : Bool := false
  deriving DecidableEq, Repr

/-- A pattern, its flags as the initiator reads them. -/
structure NoisePattern where
  localFlags : PatternFlags
  remoteFlags : PatternFlags
  tokens : List NoiseToken
  deriving DecidableEq, Repr

/-- The flags of a party, by its role (`noise_pattern_reverse_flags`). -/
def NoisePattern.flags (p : NoisePattern) (initiator : Bool) : PatternFlags :=
  if initiator then p.localFlags else p.remoteFlags

def noisePatternN : NoisePattern :=
  ⟨{ ephemeral := true }, { static := true, required := true }, [.e, .es]⟩
def noisePatternK : NoisePattern :=
  ⟨⟨true, true, true⟩, { static := true, required := true }, [.e, .es, .ss]⟩
def noisePatternX : NoisePattern :=
  ⟨⟨true, true, false⟩, { static := true, required := true }, [.e, .es, .s, .ss]⟩
def noisePatternNN : NoisePattern :=
  ⟨{ ephemeral := true }, { ephemeral := true }, [.e, .flipDir, .e, .ee]⟩
def noisePatternNK : NoisePattern :=
  ⟨{ ephemeral := true }, ⟨true, true, true⟩, [.e, .es, .flipDir, .e, .ee]⟩
def noisePatternNX : NoisePattern :=
  ⟨{ ephemeral := true }, ⟨true, true, false⟩, [.e, .flipDir, .e, .ee, .s, .es]⟩
def noisePatternXN : NoisePattern :=
  ⟨⟨true, true, false⟩, { ephemeral := true }, [.e, .flipDir, .e, .ee, .flipDir, .s, .se]⟩
def noisePatternXK : NoisePattern :=
  ⟨⟨true, true, false⟩, ⟨true, true, true⟩, [.e, .es, .flipDir, .e, .ee, .flipDir, .s, .se]⟩
def noisePatternXX : NoisePattern :=
  ⟨⟨true, true, false⟩, ⟨true, true, false⟩,
    [.e, .flipDir, .e, .ee, .s, .es, .flipDir, .s, .se]⟩
def noisePatternKN : NoisePattern :=
  ⟨⟨true, true, true⟩, { ephemeral := true }, [.e, .flipDir, .e, .ee, .se]⟩
def noisePatternKK : NoisePattern :=
  ⟨⟨true, true, true⟩, ⟨true, true, true⟩, [.e, .es, .ss, .flipDir, .e, .ee, .se]⟩
def noisePatternKX : NoisePattern :=
  ⟨⟨true, true, true⟩, ⟨true, true, false⟩, [.e, .flipDir, .e, .ee, .se, .s, .es]⟩
def noisePatternIN : NoisePattern :=
  ⟨⟨true, true, false⟩, { ephemeral := true }, [.e, .s, .flipDir, .e, .ee, .se]⟩
def noisePatternIK : NoisePattern :=
  ⟨⟨true, true, false⟩, ⟨true, true, true⟩, [.e, .es, .s, .ss, .flipDir, .e, .ee, .se]⟩
def noisePatternIX : NoisePattern :=
  ⟨⟨true, true, false⟩, ⟨true, true, false⟩, [.e, .s, .flipDir, .e, .ee, .se, .s, .es]⟩
def noisePatternXnoidh : NoisePattern :=
  ⟨⟨true, true, false⟩, { static := true, required := true }, [.e, .s, .es, .ss]⟩
def noisePatternNXnoidh : NoisePattern :=
  ⟨{ ephemeral := true }, ⟨true, true, false⟩, [.e, .flipDir, .e, .s, .ee, .es]⟩
def noisePatternXXnoidh : NoisePattern :=
  ⟨⟨true, true, false⟩, ⟨true, true, false⟩,
    [.e, .flipDir, .e, .s, .ee, .es, .flipDir, .s, .se]⟩
def noisePatternKXnoidh : NoisePattern :=
  ⟨⟨true, true, true⟩, ⟨true, true, false⟩, [.e, .flipDir, .e, .s, .ee, .se, .es]⟩
def noisePatternIKnoidh : NoisePattern :=
  ⟨⟨true, true, false⟩, ⟨true, true, true⟩, [.e, .s, .es, .ss, .flipDir, .e, .ee, .se]⟩
def noisePatternIXnoidh : NoisePattern :=
  ⟨⟨true, true, false⟩, ⟨true, true, false⟩, [.e, .s, .flipDir, .e, .s, .ee, .se, .es]⟩

/-- The patterns of `noise_pattern_lookup` without hybrid keys and without fallback. -/
def noisePatterns : List NoisePattern :=
  [noisePatternN, noisePatternK, noisePatternX, noisePatternNN, noisePatternNK, noisePatternNX,
    noisePatternXN, noisePatternXK, noisePatternXX, noisePatternKN, noisePatternKK, noisePatternKX,
    noisePatternIN, noisePatternIK, noisePatternIX, noisePatternXnoidh, noisePatternNXnoidh,
    noisePatternXXnoidh, noisePatternKXnoidh, noisePatternIKnoidh, noisePatternIXnoidh]

/-! ## HandshakeState -/

/-- `NOISE_REQ_*`. -/
structure HandshakeRequirements where
  localRequired : Bool
  remoteRequired : Bool
  localPremsg : Bool
  remotePremsg : Bool
  deriving DecidableEq, Repr

/-- `noise_handshakestate_requirements`. -/
def noiseHandshakestateRequirements (own peer : PatternFlags) : HandshakeRequirements :=
  { localRequired := own.static || own.required, remoteRequired := peer.required
    localPremsg := own.required, remotePremsg := peer.required }

/-- `NoiseHandshakeState`. -/
structure HandshakeState where
  initiator : Bool
  requirements : HandshakeRequirements
  action : NoiseAction
  tokens : List NoiseToken
  symmetric : SymmetricState
  dhLocalStatic : Option DHState
  dhLocalEphemeral : Option DHState
  dhRemoteStatic : Option DHState
  dhRemoteEphemeral : Option DHState
  prologue : List UInt8 := []
  deriving DecidableEq

/-- `noise_handshakestate_new`: a DHState for each key the pattern uses. -/
def noiseHandshakestateNew (c : NoiseCrypto) (name : List UInt8) (pattern : NoisePattern)
    (initiator : Bool) : HandshakeState :=
  let own := pattern.flags initiator
  let peer := pattern.flags !initiator
  let slot := fun used : Bool => if used then some ({} : DHState) else none
  { initiator := initiator, requirements := noiseHandshakestateRequirements own peer
    action := .none, tokens := pattern.tokens, symmetric := noiseSymmetricstateNew c name
    dhLocalStatic := slot own.static, dhLocalEphemeral := slot own.ephemeral
    dhRemoteStatic := slot peer.static, dhRemoteEphemeral := slot peer.ephemeral }

/-- `noise_dhstate_has_keypair`. -/
def hasKeypair (dh : Option DHState) : Bool := dh.any fun dh => dh.keyType == .keypair

/-- `noise_dhstate_has_public_key`. -/
def hasPublicKey (dh : Option DHState) : Bool := dh.any fun dh => dh.keyType != .noKey

/-- `noise_handshakestate_mix_public_key`. -/
def mixPublicKey (c : NoiseCrypto) (dh : Option DHState) (s : SymmetricState) : SymmetricState :=
  match dh with
  | none => s
  | some key => if hasPublicKey dh then s.mixHash c key.publicKey.val else s

/-- `noise_handshakestate_start`: the prologue, then the keys known beforehand, the initiator's
first. -/
def noiseHandshakestateStart (c : NoiseCrypto) (st : HandshakeState) :
    Except HandshakeError HandshakeState :=
  if st.action ≠ .none then .error .invalidState
  else if st.requirements.localRequired && !hasKeypair st.dhLocalStatic then
    .error .localKeyRequired
  else if st.requirements.remoteRequired && !hasPublicKey st.dhRemoteStatic then
    .error .remoteKeyRequired
  else
    let s := st.symmetric.mixHash c st.prologue
    let mixLocal := fun s =>
      if st.requirements.localPremsg then mixPublicKey c st.dhLocalStatic s else s
    let mixRemote := fun s =>
      if st.requirements.remotePremsg then mixPublicKey c st.dhRemoteStatic s else s
    let s := if st.initiator then mixRemote (mixLocal s) else mixLocal (mixRemote s)
    .ok { st with
      symmetric := s, action := if st.initiator then .writeMessage else .readMessage }

/-- Which of its keys a party brings to a secret. -/
inductive KeyKind where
  | static
  | ephemeral
  deriving DecidableEq, Repr

/-- The keys behind a secret, the initiator's and the responder's. -/
def NoiseToken.dh : NoiseToken → Option (KeyKind × KeyKind)
  | .ee => some (.ephemeral, .ephemeral)
  | .es => some (.ephemeral, .static)
  | .se => some (.static, .ephemeral)
  | .ss => some (.static, .static)
  | .s | .e | .flipDir => none

/-- A key of this side. -/
def HandshakeState.own (st : HandshakeState) : KeyKind → Option DHState
  | .static => st.dhLocalStatic
  | .ephemeral => st.dhLocalEphemeral

/-- A key of the other side. -/
def HandshakeState.peer (st : HandshakeState) : KeyKind → Option DHState
  | .static => st.dhRemoteStatic
  | .ephemeral => st.dhRemoteEphemeral

/-- `noise_handshake_mix_dh`. -/
def noiseHandshakeMixDh (c : NoiseCrypto) (s : SymmetricState) :
    Option DHState → Option DHState → Except HandshakeError SymmetricState
  | some privateKey, some publicKey =>
    (noiseDhstateCalculate c privateKey publicKey).map fun shared => s.mixKey c shared.val
  | _, _ => .error .invalidParam

/-- The cases `NOISE_TOKEN_EE` to `NOISE_TOKEN_SS`, the same for both directions. -/
def mixToken (c : NoiseCrypto) (st : HandshakeState) (keys : KeyKind × KeyKind) :
    Except HandshakeError HandshakeState :=
  let (own, peer) := if st.initiator then keys else keys.swap
  (noiseHandshakeMixDh c st.symmetric (st.own own) (st.peer peer)).map fun s =>
    { st with symmetric := s }

/-- One token of `noise_handshakestate_write`, with the room left in the message. -/
def writeToken (c : NoiseCrypto) (rand : NoiseKey) (room : Nat) (st : HandshakeState)
    (token : NoiseToken) : Except HandshakeError (HandshakeState × List UInt8) :=
  match token.dh with
  | some keys => (mixToken c st keys).map fun st => (st, [])
  | none =>
    match token with
    | .e =>
      if st.dhLocalEphemeral.isNone then .error .invalidState
      else if room < 32 then .error .invalidLength
      else
        let dh := noiseDhstateGenerateKeypair c rand
        .ok ({ st with
          dhLocalEphemeral := some dh, symmetric := st.symmetric.mixHash c dh.publicKey.val },
          dh.publicKey.val)
    | .s =>
      match st.dhLocalStatic with
      | none => .error .invalidState
      | some dh =>
        if room < 32 + st.symmetric.macLength then .error .invalidLength
        else
          match st.symmetric.encryptAndHash c dh.publicKey.val room with
          | .error err => .error (.cipher err)
          | .ok (s, out) => .ok ({ st with symmetric := s }, out)
    | _ => .error .invalidState

/-- The loop of `noise_handshakestate_write`: to the end, or to the next change of direction. -/
def writeTokens (c : NoiseCrypto) (rand : NoiseKey) (maxSize : Nat) :
    List NoiseToken → HandshakeState → List UInt8 →
      Except HandshakeError (HandshakeState × List UInt8)
  | [], st, msg => .ok ({ st with tokens := [], action := .split }, msg)
  | .flipDir :: ts, st, msg => .ok ({ st with tokens := ts, action := .readMessage }, msg)
  | t :: ts, st, msg =>
    match writeToken c rand (maxSize - msg.length) st t with
    | .error err => .error err
    | .ok (st, out) => writeTokens c rand maxSize ts st (msg ++ out)

section Tokens

variable {c : NoiseCrypto} {rand : NoiseKey} {maxSize : Nat} {t : NoiseToken}
  {st st1 : HandshakeState} {msg out : List UInt8} {err : HandshakeError}

theorem writeTokens_error (ht : t ≠ .flipDir) (ts : List NoiseToken)
    (h : writeToken c rand (maxSize - msg.length) st t = .error err) :
    writeTokens c rand maxSize (t :: ts) st msg = .error err := by
  rw [writeTokens, h]
  exact ht

theorem writeTokens_cons (ht : t ≠ .flipDir) (ts : List NoiseToken)
    (h : writeToken c rand (maxSize - msg.length) st t = .ok (st1, out)) :
    writeTokens c rand maxSize (t :: ts) st msg =
      writeTokens c rand maxSize ts st1 (msg ++ out) := by
  rw [writeTokens, h]
  exact ht

end Tokens

/-- `noise_handshakestate_write`: the tokens, then the payload. -/
def noiseHandshakestateWrite (c : NoiseCrypto) (rand : NoiseKey) (maxSize : Nat)
    (st : HandshakeState) (payload : List UInt8) :
    Except HandshakeError (HandshakeState × List UInt8) :=
  match writeTokens c rand maxSize st.tokens st [] with
  | .error err => .error err
  | .ok (st, msg) =>
    if maxSize - msg.length < st.symmetric.macLength then .error .invalidLength
    else if maxSize - msg.length - st.symmetric.macLength < payload.length then
      .error .invalidLength
    else
      match st.symmetric.encryptAndHash c payload (maxSize - msg.length) with
      | .error err => .error (.cipher err)
      | .ok (s, out) => .ok ({ st with symmetric := s }, msg ++ out)

/-- `noise_handshakestate_write_message`: an error is final. -/
def noiseHandshakestateWriteMessage (c : NoiseCrypto) (rand : NoiseKey) (maxSize : Nat)
    (st : HandshakeState) (payload : List UInt8) :
    Except HandshakeError (List UInt8) × HandshakeState :=
  if st.action ≠ .writeMessage then (.error .invalidState, st)
  else
    match noiseHandshakestateWrite c rand maxSize st payload with
    | .error err => (.error err, { st with action := .failed })
    | .ok (st, msg) => (.ok msg, st)

/-- One token of `noise_handshakestate_read`: what is left of the message. A null ephemeral key is
refused, a null static key is not. -/
def readToken (c : NoiseCrypto) (st : HandshakeState) (msg : List UInt8) (token : NoiseToken) :
    Except HandshakeError (HandshakeState × List UInt8) :=
  match token.dh with
  | some keys => (mixToken c st keys).map fun st => (st, msg)
  | none =>
    match token with
    | .e =>
      if st.dhRemoteEphemeral.isNone then .error .invalidState
      else if msg.length < 32 then .error .invalidLength
      else
        match noiseDhstateSetPublicKey (msg.take 32) with
        | .error err => .error err
        | .ok dh =>
          if dh.publicKey = zeros 32 then .error .invalidPublicKey
          else
            .ok ({ st with
              dhRemoteEphemeral := some dh, symmetric := st.symmetric.mixHash c (msg.take 32) },
              msg.drop 32)
    | .s =>
      if st.dhRemoteStatic.isNone then .error .invalidState
      else
        let len := 32 + st.symmetric.macLength
        if msg.length < len then .error .invalidLength
        else
          match st.symmetric.decryptAndHash c (msg.take len) with
          | .error err => .error (.cipher err)
          | .ok (s, key) =>
            match noiseDhstateSetPublicKey key with
            | .error err => .error err
            | .ok dh => .ok ({ st with dhRemoteStatic := some dh, symmetric := s }, msg.drop len)
    | _ => .error .invalidState

/-- The loop of `noise_handshakestate_read`. -/
def readTokens (c : NoiseCrypto) :
    List NoiseToken → HandshakeState → List UInt8 →
      Except HandshakeError (HandshakeState × List UInt8)
  | [], st, msg => .ok ({ st with tokens := [], action := .split }, msg)
  | .flipDir :: ts, st, msg => .ok ({ st with tokens := ts, action := .writeMessage }, msg)
  | t :: ts, st, msg =>
    match readToken c st msg t with
    | .error err => .error err
    | .ok (st, rest) => readTokens c ts st rest

section Tokens

variable {c : NoiseCrypto} {t : NoiseToken} {st st1 : HandshakeState} {msg rest : List UInt8}
  {err : HandshakeError}

theorem readTokens_error (ht : t ≠ .flipDir) (ts : List NoiseToken)
    (h : readToken c st msg t = .error err) : readTokens c (t :: ts) st msg = .error err := by
  rw [readTokens, h]
  exact ht

theorem readTokens_cons (ht : t ≠ .flipDir) (ts : List NoiseToken)
    (h : readToken c st msg t = .ok (st1, rest)) :
    readTokens c (t :: ts) st msg = readTokens c ts st1 rest := by
  rw [readTokens, h]
  exact ht

end Tokens

/-- `noise_handshakestate_read`: the tokens, then the payload, which must fit its buffer. -/
def noiseHandshakestateRead (c : NoiseCrypto) (payloadMax : Nat) (st : HandshakeState)
    (msg : List UInt8) : Except HandshakeError (HandshakeState × List UInt8) :=
  match readTokens c st.tokens st msg with
  | .error err => .error err
  | .ok (st, rest) =>
    match st.symmetric.decryptAndHash c rest with
    | .error err => .error (.cipher err)
    | .ok (s, payload) =>
      if payload.length > payloadMax then .error .invalidLength
      else .ok ({ st with symmetric := s }, payload)

/-- `noise_handshakestate_read_message`: an error is final. -/
def noiseHandshakestateReadMessage (c : NoiseCrypto) (payloadMax : Nat) (st : HandshakeState)
    (msg : List UInt8) : Except HandshakeError (List UInt8) × HandshakeState :=
  if st.action ≠ .readMessage then (.error .invalidState, st)
  else
    match noiseHandshakestateRead c payloadMax st msg with
    | .error err => (.error err, { st with action := .failed })
    | .ok (st, payload) => (.ok payload, st)

/-- `noise_handshakestate_split`: the cipher to send with, and the one to receive with. -/
def noiseHandshakestateSplit (c : NoiseCrypto) (st : HandshakeState) :
    Except HandshakeError (CipherState NoiseKey × CipherState NoiseKey) × HandshakeState :=
  if st.action ≠ .split then (.error .invalidState, st)
  else
    let (c1, c2) := st.symmetric.split c
    (.ok (if st.initiator then (c1, c2) else (c2, c1)), { st with action := .complete })

/-- `noise_handshakestate_get_handshake_hash`. -/
def noiseHandshakestateGetHandshakeHash (st : HandshakeState) : Option (Bytes 32) :=
  if st.action = .split ∨ st.action = .complete then some st.symmetric.h else none

end Bitle
