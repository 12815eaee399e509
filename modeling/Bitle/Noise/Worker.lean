import Bitle.Noise.Identity
import Bitle.Noise.Transport

/-!
# Bitle — the Noise worker (`handshake_task` of `main/noise_handshake.c`)

One task owns the session table. A step of the model is one round of its loop: an event from
the queue, or none, and then `poll_session_maintenance`. `log` is the list of the calls the
worker has made to other components, oldest first.

`NoiseEnv` gives what the round reads from outside: clocks, link state, and whether each send
succeeds (by the number of calls made before it). The vendored handshake state machine is the
parameter `NoiseLib`; it may differ from round to round, since it draws fresh keys.

The texts of announces, identities and the auto-reply are built from constants of the node and
are left out: a log entry says that one was sent, and where to.
-/

namespace Bitle

open Wire

variable {H K : Type}

def bitchatNoisePayloadPrivateMessage : UInt8 := 0x01
def bitchatNoisePayloadDelivered : UInt8 := 0x03
def announceIntervalMs : UInt64 := 10 * 1000

/-! ## Outside the worker -/

/-- `NOISE_ACTION_*`. -/
inductive NoiseAction where
  | none
  | writeMessage
  | readMessage
  | failed
  | split
  | complete
  | other
  deriving DecidableEq, Repr

/-- The vendored handshake state. Every operation that can fail returns an `Option`. -/
structure NoiseLib (H K : Type) where
  create : Bool → Option H
  start : H → Option H
  action : H → NoiseAction
  writeMessage : H → Option (H × List UInt8)
  readMessage : H → List UInt8 → Option (H × List UInt8)
  split : H → Option (CipherState K × CipherState K)

/-- What one round reads from outside. -/
structure NoiseEnv (H K : Type) where
  lib : NoiseLib H K
  localPeerId : PeerId
  uptimeMs : UInt64 := 0
  nowMs : UInt64 := 0
  timeValid : Bool := true
  syncGen : UInt32 := 0
  linkReady : UInt16 → Bool := fun _ => true
  linkBroadcast : UInt16 → Bool := fun _ => false
  connCentral : UInt16 → Bool := fun _ => false
  sendOk : Nat → Bool := fun _ => true
  autoReply : List UInt8 := []

/-- The calls of the worker to other components. -/
inductive NoiseCall where
  | send (connHandle : UInt16) (type : UInt8) (recipient : Option PeerId) (payload : List UInt8)
  | announce (connHandle : UInt16)
  | nodeCapability (connHandle : UInt16)
  | identityAnnounce (connHandle : UInt16)
  | queueStart (connHandle : UInt16) (peer : PeerId)
  | disconnect (connHandle : UInt16)
  | markHealthy
  | peerVersionSeen (connHandle : UInt16) (peer : PeerId) (version : UInt32)
  | considerPeer (timestampMs : UInt64)
  | considerPeerAnnounce (timestampMs : UInt64) (isInfra isAuthoritative : Bool)
  | courierPeerAnnounced (connHandle : UInt16) (peer : PeerId) (noiseKey : Bytes 32) (direct : Bool)
      (nowMs : UInt64)
  | courierAccept (connHandle : UInt16) (depositor : PeerId) (payload : List UInt8) (nowMs : UInt64)
  | syncHandleRequest (connHandle : UInt16) (packet : BitchatPacket)
  | syncTick (connHandle : UInt16) (peer : PeerId) (uptimeMs : UInt64)
  deriving DecidableEq

/-- The worker: its table, `s_last_maintenance_ms`, and its calls so far. -/
structure NoiseWorker (H K : Type) where
  table : SessionTable H K := {}
  lastMaintenanceMs : UInt64 := 0
  log : List NoiseCall := []

namespace NoiseWorker

/-- Record a call. -/
def call (w : NoiseWorker H K) (c : NoiseCall) : NoiseWorker H K := { w with log := w.log ++ [c] }

/-- A session of the table. -/
def session (w : NoiseWorker H K) (i : Fin noiseMaxSessions) : NoiseSession H K :=
  w.table.sessions i

/-- Write one session slot. -/
def setSession (w : NoiseWorker H K) (i : Fin noiseMaxSessions) (s : NoiseSession H K) :
    NoiseWorker H K :=
  { w with table := w.table.setSession i s }

/-- Write one identity slot. -/
def setIdentity (w : NoiseWorker H K) (i : Fin noiseMaxSessions) (ident : NoiseIdentity) :
    NoiseWorker H K :=
  { w with table := w.table.setIdentity i ident }

/-- Write one pending flag. -/
def setPending (w : NoiseWorker H K) (i : Fin noiseMaxSessions) (b : Bool) : NoiseWorker H K :=
  { w with table := w.table.setPending i b }

/-- `free_session`. -/
def free (w : NoiseWorker H K) (i : Fin noiseMaxSessions) : NoiseWorker H K :=
  { w with table := freeSession w.table i }

/-- `alloc_session`. -/
def alloc (w : NoiseWorker H K) (connHandle : UInt16) :
    Option (Fin noiseMaxSessions × NoiseWorker H K) :=
  (allocSession w.table connHandle).map fun (i, t) => (i, { w with table := t })

end NoiseWorker

variable (env : NoiseEnv H K)

/-! ## Sending -/

/-- A call whose outcome the environment decides: it is logged, with the outcome returned. -/
def trySend (w : NoiseWorker H K) (c : NoiseCall) : Bool × NoiseWorker H K :=
  (env.sendOk w.log.length, w.call c)

/-- `send_announce`: the ANNOUNCE and the node capability; both must go out. -/
def sendAnnounce (w : NoiseWorker H K) (i : Fin noiseMaxSessions) : Bool × NoiseWorker H K :=
  if !env.timeValid then (false, w)
  else
    let conn := (w.session i).connHandle
    let (ok, w) := trySend env w (.announce conn)
    if !ok then (false, w)
    else
      let (ok, w) := trySend env w (.nodeCapability conn)
      if !ok then (false, w)
      else (true, w.setSession i { w.session i with lastAnnounceMs := env.uptimeMs })

/-- `send_identity_announce`. -/
def sendIdentityAnnounce (w : NoiseWorker H K) (i : Fin noiseMaxSessions) :
    Bool × NoiseWorker H K :=
  if !env.timeValid then (false, w) else trySend env w (.identityAnnounce (w.session i).connHandle)

/-- `try_send_identity`. -/
def trySendIdentity (w : NoiseWorker H K) (i : Fin noiseMaxSessions) : Bool × NoiseWorker H K :=
  if !w.table.identityPending i then (false, w)
  else if (w.session i).identitySent then (true, w)
  else if !env.linkReady (w.session i).connHandle then (false, w)
  else if !env.timeValid then (false, w)
  else
    let (ok, w) := sendAnnounce env w i
    if !ok then (false, w)
    else
      let w := (sendIdentityAnnounce env w i).2
      let w := w.setPending i false
      (true, w.setSession i { w.session i with identitySent := true, sentSyncGen := env.syncGen })

/-- The recipient of a handshake packet: the peer, if it is known. -/
def knownPeer (s : NoiseSession H K) : Option PeerId :=
  if s.peerId = zeros 8 then none else some s.peerId

/-! ## Handshakes -/

/-- `send_handshake_message`. -/
def sendHandshakeMessage (w : NoiseWorker H K) (i : Fin noiseMaxSessions) (h : H) :
    Bool × NoiseWorker H K :=
  match env.lib.writeMessage h with
  | none => (false, w)
  | some (h, msg) =>
    let w := w.setSession i { w.session i with handshake := some h }
    if msg.length = 0 then (true, w)
    else
      trySend env w (.send (w.session i).connHandle bitchatMsgNoiseHandshake
        (knownPeer (w.session i)) msg)

/-- `derive_transport_keys` and `mark_established`. -/
def establish (w : NoiseWorker H K) (i : Fin noiseMaxSessions) (h : H) : Bool × NoiseWorker H K :=
  match env.lib.split h with
  | none => (false, w)
  | some (tx, rx) =>
    let w := w.setSession i
      { w.session i with
        txCipher := some tx, rxCipher := some rx, txNonce := 0, handshake := none
        established := true, identitySent := false }
    (true, (trySendIdentity env (w.setPending i true) i).2)

/-- The actions of `advance_handshake` other than writing a message. -/
def settleHandshake (w : NoiseWorker H K) (i : Fin noiseMaxSessions) (h : H) :
    Bool × NoiseWorker H K :=
  match env.lib.action h with
  | .split => establish env w i h
  | .complete | .none | .readMessage => (true, w)
  | .writeMessage | .failed | .other => (false, w)

/-- `advance_handshake`. The loop goes round at most twice: a message is written at most once,
and an action other than writing returns. -/
def advanceHandshake (w : NoiseWorker H K) (i : Fin noiseMaxSessions) : Bool × NoiseWorker H K :=
  match (w.session i).handshake with
  | none => (false, w)
  | some h =>
    if env.lib.action h = .writeMessage then
      let (ok, w) := sendHandshakeMessage env w i h
      if !ok then (false, w)
      else
        match (w.session i).handshake with
        | none => (false, w)
        | some h => if env.lib.action h = .writeMessage then (true, w) else settleHandshake env w i h
    else settleHandshake env w i h

/-- `start_handshake`. -/
def startHandshake (w : NoiseWorker H K) (i : Fin noiseMaxSessions) (evt : NoiseEvent) :
    Bool × NoiseWorker H K :=
  if (w.session i).handshake.isSome then (true, w)
  else
    match env.lib.create evt.initiator with
    | none => (false, w)
    | some h =>
      let w := w.setSession i { w.session i with handshake := some h, initiator := evt.initiator }
      match env.lib.start h with
      | none => (false, w.setSession i (clearCrypto (w.session i)))
      | some h =>
        advanceHandshake env
          (w.setSession i
            { w.session i with
              handshake := some h, peerId := evt.peerId, identitySent := false
              established := false })
          i

/-- The part of `process_handshake` behind the start: read the message, answer, advance. -/
def readHandshake (w : NoiseWorker H K) (i : Fin noiseMaxSessions) (evt : NoiseEvent) :
    Bool × NoiseWorker H K :=
  if !(w.session i).initiator && evt.payload.length == 0 then (false, w)
  else
    match (w.session i).handshake with
    | none => (false, w)
    | some h =>
      match env.lib.readMessage h evt.payload with
      | none => (false, w)
      | some (h, response) =>
        let w := w.setSession i { w.session i with handshake := some h }
        if response.length > 0 then
          let (ok, w) := trySend env w (.send (w.session i).connHandle bitchatMsgNoiseHandshake
            (knownPeer (w.session i)) response)
          if !ok then (false, w) else advanceHandshake env w i
        else advanceHandshake env w i

/-- `process_handshake`: a 32-byte message to an initiator is a collision, and we yield. -/
def processHandshake (w : NoiseWorker H K) (i : Fin noiseMaxSessions) (evt : NoiseEvent) :
    Bool × NoiseWorker H K :=
  let w :=
    if (w.session i).handshake.isSome && (w.session i).initiator && evt.payload.length == 32 then
      w.setSession i { clearCrypto (w.session i) with established := false }
    else w
  if (w.session i).handshake.isSome then readHandshake env w i evt
  else
    let (ok, w) := startHandshake env w i evt
    if !ok then (false, w) else readHandshake env w i evt

/-- The `NOISE_EVT_START` case. -/
def processStartEvent (w : NoiseWorker H K) (evt : NoiseEvent) : NoiseWorker H K :=
  match w.alloc evt.connHandle with
  | none => w
  | some (i, w) =>
    if (w.session i).handshake.isSome then w
    else
      let (ok, w) := startHandshake env w i evt
      if ok then w else w.free i

/-- The `NOISE_EVT_PROCESS` case: the peer id of the session is the packet's sender, before
anything of the packet is read. -/
def processHandshakeEvent (w : NoiseWorker H K) (evt : NoiseEvent) : NoiseWorker H K :=
  match w.alloc evt.connHandle with
  | none => w
  | some (i, w) =>
    let w := w.setSession i { w.session i with peerId := evt.peerId }
    let (ok, w) := processHandshake env w i evt
    if ok then w else w.free i

/-! ## Announces and identities -/

/-- The first other used session with the peer's id. -/
def duplicateOf (t : SessionTable H K) (i : Fin noiseMaxSessions) (peer : PeerId) :
    Option (Fin noiseMaxSessions) :=
  (List.finRange noiseMaxSessions).find? fun j =>
    j != i && (t.sessions j).inUse && (t.sessions j).peerId == peer

/-- `memcmp(a, b) > 0`. -/
def peerGt (a b : PeerId) : Bool := beNat a.val > beNat b.val

/-- Hang up a duplicate link: the higher peer id drops its own central connection. -/
def dropDuplicate (w : NoiseWorker H K) (i : Fin noiseMaxSessions) (peer : PeerId) :
    NoiseWorker H K :=
  match duplicateOf w.table i peer with
  | none => w
  | some j =>
    if peerGt env.localPeerId peer then
      let conn := (w.session i).connHandle
      let other := (w.session j).connHandle
      let victim := if env.connCentral conn then conn else if env.connCentral other then other else 0xFFFF
      if victim ≠ 0xFFFF then w.call (.disconnect victim) else w
    else w

/-- Bind the session to a peer while its own is unknown. -/
def bindUnknown (w : NoiseWorker H K) (i : Fin noiseMaxSessions) (peer : PeerId) :
    NoiseWorker H K :=
  if (w.session i).peerId = zeros 8 then w.setSession i { w.session i with peerId := peer } else w

/-- What a direct announce records: the identity (a verified one is only replaced by a verified
one), and the peer id while it is unknown. -/
def recordAnnounce (w : NoiseWorker H K) (i : Fin noiseMaxSessions) (evt : NoiseEvent)
    (ident : NoiseIdentity) (sigOk : Bool) : NoiseWorker H K :=
  let ident := { ident with
    valid := true, verified := sigOk, timestampMs := evt.timestampMs, peerId := evt.peerId }
  let w := if !(w.table.identities i).verified || sigOk then w.setIdentity i ident else w
  let w := w.setSession i { w.session i with directPeer := true }
  dropDuplicate env (bindUnknown w i evt.peerId) i evt.peerId

section Signed

variable (sha256 : List UInt8 → Bytes 32)
variable (ed25519SignOpen : List UInt8 → Bytes 32 → Bytes 64 → Bool)

/-- The calls a verified announce makes to the other components. -/
def notifyAnnounce (w : NoiseWorker H K) (evt : NoiseEvent) (ident : NoiseIdentity)
    (isDirect : Bool) : NoiseWorker H K :=
  let w := (w.call .markHealthy).call (.peerVersionSeen evt.connHandle evt.peerId ident.fwVersion)
  let w := w.call (.courierPeerAnnounced evt.connHandle evt.peerId ident.noiseKey isDirect env.nowMs)
  if isDirect then
    w.call (.considerPeerAnnounce evt.timestampMs ident.isInfra ident.isAuthoritative)
  else w

/-- The tail of `process_announce_event`: send our identity if it has not gone out. -/
def offerIdentity (w : NoiseWorker H K) (connHandle : UInt16) : NoiseWorker H K :=
  match findSession w.table connHandle with
  | none => w
  | some i =>
    if (w.session i).identitySent then w else (trySendIdentity env (w.setPending i true) i).2

/-- `process_announce_event`. -/
def processAnnounceEvent (w : NoiseWorker H K) (evt : NoiseEvent) : NoiseWorker H K :=
  let isDirect := evt.ttl == noisePacketTtl
  match parseAnnounceTlv evt.payload with
  | none => offerIdentity env w evt.connHandle
  | some ident =>
    match verifyAnnounceEvent sha256 ed25519SignOpen evt ident with
    | none => w
    | some sigOk =>
      let w := if sigOk then notifyAnnounce env w evt ident isDirect else w
      let w :=
        if isDirect then
          match w.alloc evt.connHandle with
          | none => w
          | some (i, w) => recordAnnounce env w i evt ident sigOk
        else w
      offerIdentity env w evt.connHandle

/-- What a legacy identity records: an identity where none is verified, and the peer id while it
is unknown. -/
def recordIdentity (w : NoiseWorker H K) (i : Fin noiseMaxSessions) (evt : NoiseEvent)
    (ident : NoiseIdentity) : NoiseWorker H K :=
  let w :=
    if !(w.table.identities i).verified then w.setIdentity i { ident with peerId := evt.peerId }
    else w
  bindUnknown w i evt.peerId

/-- `process_identity_event`. -/
def processIdentityEvent (w : NoiseWorker H K) (evt : NoiseEvent) : NoiseWorker H K :=
  match w.alloc evt.connHandle with
  | none => w
  | some (i, w) =>
    match parseIdentityPayload evt.payload with
    | none => w
    | some ident =>
      let w := w.call (.considerPeer ident.timestampMs)
      (trySendIdentity env (recordIdentity w i evt ident) i).2

/-! ## Transport payloads -/

/-- `noise_send_encrypted`. -/
def noiseSendEncrypted (aead : Aead K) (w : NoiseWorker H K) (connHandle : UInt16)
    (payloadType : UInt8) (payload : List UInt8) : Bool × NoiseWorker H K :=
  match findSession w.table connHandle with
  | none => (false, w)
  | some i =>
    if !(w.session i).established then (false, w)
    else if payload.length + 1 > noiseMaxEncryptedPayload then (false, w)
    else
      match encryptPayload aead (w.session i) (payloadType :: payload) noiseMaxEncryptedPayload with
      | (none, s) => (false, w.setSession i s)
      | (some ciphertext, s) =>
        trySend env (w.setSession i s)
          (.send connHandle bitchatMsgNoiseEncrypted (some s.peerId) ciphertext)

/-- The message id of a private message: the last TLV `0x00` of less than 64 bytes, up to its
first zero byte. -/
def messageId (p : List UInt8) : Nat → Nat → List UInt8 → List UInt8
  | 0, _, id => id
  | fuel + 1, offset, id =>
    if offset + 2 ≤ p.length then
      let tlvLen := (byteAt p (offset + 1)).toNat
      if offset + 2 + tlvLen > p.length then id
      else
        messageId p fuel (offset + 2 + tlvLen)
          (if byteAt p offset = 0x00 ∧ tlvLen < 64 then
            ((p.drop (offset + 2)).take tlvLen).takeWhile (· ≠ 0)
          else id)
    else id

/-- The delivery ack of `handle_noise_payload`. -/
def acknowledge (aead : Aead K) (w : NoiseWorker H K) (connHandle : UInt16) (id : List UInt8) :
    NoiseWorker H K :=
  if id.length = 0 then w
  else (noiseSendEncrypted env aead w connHandle bitchatNoisePayloadDelivered id).2

/-- `send_auto_reply`, once per session. -/
def sendAutoReply (aead : Aead K) (w : NoiseWorker H K) (i : Fin noiseMaxSessions) :
    NoiseWorker H K :=
  if (w.session i).autoReplied then w
  else
    let (ok, w) := noiseSendEncrypted env aead w (w.session i).connHandle
      bitchatNoisePayloadPrivateMessage env.autoReply
    if ok then w.setSession i { w.session i with autoReplied := true } else w

/-- `handle_noise_payload`: acknowledge a private message, and reply once per session. -/
def handleNoisePayload (aead : Aead K) (w : NoiseWorker H K) (i : Fin noiseMaxSessions)
    (connHandle : UInt16) (decrypted : List UInt8) : NoiseWorker H K :=
  match decrypted with
  | [] => w
  | payloadType :: p =>
    if payloadType ≠ bitchatNoisePayloadPrivateMessage then w
    else
      sendAutoReply env aead (acknowledge env aead w connHandle (messageId p p.length 0 [])) i

/-- `noise_begin_handshake`: queue a start, unless a handshake is active. -/
def noiseBeginHandshake (w : NoiseWorker H K) (connHandle : UInt16) (peer : PeerId) :
    NoiseWorker H K :=
  match findSession w.table connHandle with
  | none => w.call (.queueStart connHandle peer)
  | some i =>
    if (w.session i).handshake.isSome then w else w.call (.queueStart connHandle peer)

/-- `process_encrypted_event`. -/
def processEncryptedEvent (aead : Aead K) (w : NoiseWorker H K) (evt : NoiseEvent) :
    NoiseWorker H K :=
  match findSession w.table evt.connHandle with
  | none => noiseBeginHandshake w evt.connHandle evt.peerId
  | some i =>
    if !(w.session i).established then
      if (w.session i).handshake.isNone then noiseBeginHandshake w evt.connHandle evt.peerId else w
    else
      match decryptPayload aead (w.session i) evt.payload noiseMaxEncryptedPayload with
      | (none, s) => w.setSession i s
      | (some plaintext, s) =>
        handleNoisePayload env aead (w.setSession i s) i evt.connHandle plaintext

/-! ## Courier, sync, subscriptions -/

/-- The deposit `process_courier_event` hands to the courier, with the slot it was checked
against. -/
def courierDeposit (w : NoiseWorker H K) (evt : NoiseEvent) : Option (Fin noiseMaxSessions) :=
  match findSession w.table evt.connHandle with
  | none => none
  | some i =>
    if (w.session i).peerId ≠ evt.peerId then none
    else if !(w.table.identities i).valid || !(w.table.identities i).verified then none
    else if noiseVerifyPacketSignature ed25519SignOpen
        (eventToPacket evt bitchatMsgCourierEnvelope) (w.table.identities i).signKey then some i
    else none

/-- `process_courier_event`: the depositor is the sender the packet names. -/
def processCourierEvent (w : NoiseWorker H K) (evt : NoiseEvent) : NoiseWorker H K :=
  match courierDeposit ed25519SignOpen w evt with
  | none => w
  | some _ => w.call (.courierAccept evt.connHandle evt.peerId evt.payload env.nowMs)

/-- `process_sync_event`. -/
def processSyncEvent (w : NoiseWorker H K) (evt : NoiseEvent) : NoiseWorker H K :=
  w.call (.syncHandleRequest evt.connHandle (eventToPacket evt bitchatMsgRequestSync))

/-- The `NOISE_EVT_DISCONNECT` case. -/
def processDisconnectEvent (w : NoiseWorker H K) (evt : NoiseEvent) : NoiseWorker H K :=
  match findSession w.table evt.connHandle with
  | none => w
  | some i => w.free i

/-- `process_subscribed_event`: a fresh link drops what an earlier one left. -/
def processSubscribedEvent (w : NoiseWorker H K) (evt : NoiseEvent) : NoiseWorker H K :=
  let w := processDisconnectEvent w evt
  match w.alloc evt.connHandle with
  | none => w
  | some (i, w) => (trySendIdentity env (w.setPending i true) i).2

/-! ## The loop -/

/-- The `switch` of `handshake_task`. -/
def processEvent (aead : Aead K) (w : NoiseWorker H K) (evt : NoiseEvent) : NoiseWorker H K :=
  match evt.type with
  | .start => processStartEvent env w evt
  | .process => processHandshakeEvent env w evt
  | .announce => processAnnounceEvent env sha256 ed25519SignOpen w evt
  | .identity => processIdentityEvent env w evt
  | .encrypted => processEncryptedEvent env aead w evt
  | .subscribed => processSubscribedEvent env w evt
  | .courier => processCourierEvent env ed25519SignOpen w evt
  | .sync => processSyncEvent w evt
  | .disconnect => processDisconnectEvent w evt

/-- Maintenance, first part: an identity that has not gone out yet. -/
def maintainIdentity (w : NoiseWorker H K) (i : Fin noiseMaxSessions) : NoiseWorker H K :=
  if w.table.identityPending i then (trySendIdentity env w i).2 else w

/-- Second part: the proactive handshake with a direct peer, at most three attempts. -/
def maintainHandshake (w : NoiseWorker H K) (i : Fin noiseMaxSessions) : NoiseWorker H K :=
  let s := w.session i
  if s.directPeer && s.identitySent && !s.established && s.handshake.isNone &&
      !env.linkBroadcast s.connHandle && s.hsAttempts < 3 && env.uptimeMs ≥ s.nextHsMs then
    noiseBeginHandshake
      (w.setSession i { s with hsAttempts := s.hsAttempts + 1, nextHsMs := env.uptimeMs + 15000 })
      s.connHandle s.peerId
  else w

/-- Third part, after the clock was corrected: announce again. -/
def reannounce (w : NoiseWorker H K) (i : Fin noiseMaxSessions) : NoiseWorker H K :=
  let (ok, w) := sendAnnounce env w i
  if !ok then w
  else
    let (ok, w) := sendIdentityAnnounce env w i
    if !ok then w else w.setSession i { w.session i with sentSyncGen := env.syncGen }

/-- Third part, otherwise: the periodic announce. -/
def announcePeriodically (w : NoiseWorker H K) (i : Fin noiseMaxSessions) : NoiseWorker H K :=
  if (w.session i).lastAnnounceMs = 0 ∨
      env.uptimeMs - (w.session i).lastAnnounceMs ≥ announceIntervalMs then
    (sendAnnounce env w i).2
  else w

/-- The sync request to a direct peer. -/
def tickSync (w : NoiseWorker H K) (i : Fin noiseMaxSessions) : NoiseWorker H K :=
  if (w.session i).identitySent && (w.session i).directPeer then
    w.call (.syncTick (w.session i).connHandle (w.session i).peerId env.uptimeMs)
  else w

/-- One session of `poll_session_maintenance`. -/
def maintainSession (w : NoiseWorker H K) (i : Fin noiseMaxSessions) : NoiseWorker H K :=
  if !(w.session i).inUse then w
  else if !env.linkReady (w.session i).connHandle then w
  else
    let w := maintainHandshake env (maintainIdentity env w i) i
    if (w.session i).identitySent && (w.session i).sentSyncGen != env.syncGen then
      reannounce env w i
    else tickSync env (announcePeriodically env w i) i

/-- `poll_session_maintenance`. -/
def pollSessionMaintenance (w : NoiseWorker H K) : NoiseWorker H K :=
  if env.uptimeMs - w.lastMaintenanceMs < 500 then w
  else
    (List.finRange noiseMaxSessions).foldl (maintainSession env)
      { w with lastMaintenanceMs := env.uptimeMs }

/-- One round of `handshake_task`. -/
def handshakeTask (aead : Aead K) (w : NoiseWorker H K) (evt : Option NoiseEvent) :
    NoiseWorker H K :=
  pollSessionMaintenance env
    (match evt with
    | none => w
    | some evt => processEvent env sha256 ed25519SignOpen aead w evt)

end Signed

end Bitle
