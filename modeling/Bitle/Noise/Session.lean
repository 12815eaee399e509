import Bitle.Lib.Bytes
import Bitle.Noise.CipherState
import Mathlib.Logic.Function.Basic
import Mathlib.Data.List.FinRange

/-!
# Bitle — the Noise session table (`main/noise_handshake.c`)

The worker task owns two arrays of `NOISE_MAX_SESSIONS` slots, `s_sessions` and
`s_identities`, indexed alike, and the flags `s_identity_pending`. This module has the
records and the four functions that manage slots: `find_session`, `alloc_session`,
`clear_crypto` and `free_session`.

The vendored handshake state is opaque here: `H` stands for `NoiseHandshakeState` and `K`
for a transport key. `handshake_hash` is written and never read, so it is left out.
-/

namespace Bitle

open Wire

/-- An 8-byte peer identifier. -/
abbrev PeerId : Type := Bytes 8

/-- `NOISE_MAX_SESSIONS` = `CONFIG_BT_NIMBLE_MAX_CONNECTIONS` of `sdkconfig.defaults`. -/
abbrev noiseMaxSessions : Nat := 6

/-- `noise_session_t`. -/
structure NoiseSession (H K : Type) where
  inUse : Bool := false
  connHandle : UInt16 := 0
  initiator : Bool := false
  established : Bool := false
  peerId : PeerId := zeros 8
  handshake : Option H := none
  txCipher : Option (CipherState K) := none
  rxCipher : Option (CipherState K) := none
  lastAnnounceMs : UInt64 := 0
  identitySent : Bool := false
  sentSyncGen : UInt32 := 0
  txNonce : UInt32 := 0
  autoReplied : Bool := false
  directPeer : Bool := false
  hsAttempts : UInt8 := 0
  nextHsMs : UInt64 := 0

/-- `noise_identity_t`. The nickname is only logged, so its text is left out. -/
structure NoiseIdentity where
  valid : Bool := false
  verified : Bool := false
  isInfra : Bool := false
  isAuthoritative : Bool := false
  timestampMs : UInt64 := 0
  fwVersion : UInt32 := 0
  peerId : PeerId := zeros 8
  noiseKey : Bytes 32 := zeros 32
  signKey : Bytes 32 := zeros 32
  deriving DecidableEq

/-- The worker's tables. -/
structure SessionTable (H K : Type) where
  sessions : Fin noiseMaxSessions → NoiseSession H K := fun _ => {}
  identities : Fin noiseMaxSessions → NoiseIdentity := fun _ => {}
  identityPending : Fin noiseMaxSessions → Bool := fun _ => false

variable {H K : Type}

namespace SessionTable

/-- Write one session slot. -/
def setSession (t : SessionTable H K) (i : Fin noiseMaxSessions) (s : NoiseSession H K) :
    SessionTable H K :=
  { t with sessions := Function.update t.sessions i s }

/-- Write one identity slot. -/
def setIdentity (t : SessionTable H K) (i : Fin noiseMaxSessions) (ident : NoiseIdentity) :
    SessionTable H K :=
  { t with identities := Function.update t.identities i ident }

/-- Write one `s_identity_pending` flag. -/
def setPending (t : SessionTable H K) (i : Fin noiseMaxSessions) (b : Bool) : SessionTable H K :=
  { t with identityPending := Function.update t.identityPending i b }

end SessionTable

/-- `find_session`: the first used slot with the handle. -/
def findSession (t : SessionTable H K) (connHandle : UInt16) : Option (Fin noiseMaxSessions) :=
  (List.finRange noiseMaxSessions).find? fun i =>
    (t.sessions i).inUse && (t.sessions i).connHandle == connHandle

/-- `alloc_session`: the slot of the handle, or the first free one, cleared and taken. The
identity slot is not touched. -/
def allocSession (t : SessionTable H K) (connHandle : UInt16) :
    Option (Fin noiseMaxSessions × SessionTable H K) :=
  match findSession t connHandle with
  | some i => some (i, t)
  | none =>
    match (List.finRange noiseMaxSessions).find? fun i => !(t.sessions i).inUse with
    | some i =>
      some (i, (t.setSession i { inUse := true, connHandle := connHandle }).setPending i false)
    | none => none

/-- `clear_crypto`. -/
def clearCrypto (s : NoiseSession H K) : NoiseSession H K :=
  { s with handshake := none, txCipher := none, rxCipher := none }

/-- `free_session`: the slot keeps its handle and timers, its identity is wiped. -/
def freeSession (t : SessionTable H K) (i : Fin noiseMaxSessions) : SessionTable H K :=
  ((t.setPending i false).setSession i
    { clearCrypto (t.sessions i) with
      peerId := zeros 8, initiator := false, established := false, identitySent := false,
      sentSyncGen := 0, inUse := false }).setIdentity i {}

end Bitle
