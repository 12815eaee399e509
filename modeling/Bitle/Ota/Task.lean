import Bitle.Codec.Packet
import Bitle.Lib.Flash
import Bitle.Lib.Run

/-!
# Bitle — the firmware update task (`main/bitle_ota.c`)

One device: two application slots, the boot choice, the manifest kept in NVS and the one in the
`fw_manifest` partition, and the RAM of the OTA task. One step of the model is one round of
`ota_task` (an event from the queue, or none, and then the housekeeping), or a boot, which
resets the RAM and runs `bitle_ota_init`.

Everything the task asks of the platform may fail: `OtaEnv` gives the outcome of each call and
the clock it reads. `log` is the list of the calls made so far, oldest first.

What is not in the repository is a parameter: SHA-256, the Ed25519 check (`ed25519_sign_open`),
and what `esp_ota_begin` and `esp_ota_write` do to the slot they are given (`OtaApi`).
-/

namespace Bitle

open Wire Flash

def otaManifestLen : Nat := 110
def otaFieldsOff : Nat := 4
def otaFieldsLen : Nat := 42
def otaSigOff : Nat := 46
def otaChunkMax : UInt16 := 480
def otaRxTimeoutMs : UInt64 := 4000
def otaRxMaxRetries : UInt32 := 40
def otaOfferIntervalMs : UInt64 := 60000
def otaHealthFallbackMs : UInt64 := 30 * 60 * 1000
def bitleMsgOtaManifest : UInt8 := 0xA0
def bitleMsgOtaReq : UInt8 := 0xA1
def bitleMsgOtaChunk : UInt8 := 0xA2
def bitleMsgOtaStatus : UInt8 := 0xA3

/-- `OTA_MAGIC`: "BOTA". -/
def otaMagic : List UInt8 := [0x42, 0x4F, 0x54, 0x41]

/-- `OTA_SIGN_CONTEXT`: "bitle-fw-v1". -/
def otaSignContext : List UInt8 :=
  [0x62, 0x69, 0x74, 0x6C, 0x65, 0x2D, 0x66, 0x77, 0x2D, 0x76, 0x31]

/-- `BITLE_OTA_OWNER_PUBKEY`. -/
def bitleOtaOwnerPubkey : Bytes 32 :=
  ⟨[0xee, 0xac, 0xde, 0x04, 0xad, 0xd1, 0xbf, 0xf1, 0x29, 0x34, 0x23, 0x0d, 0x82, 0xde, 0x01, 0x3c,
    0x3f, 0xdb, 0x6b, 0x74, 0x23, 0xea, 0x29, 0xef, 0x0f, 0xa4, 0x82, 0xda, 0x73, 0x8f, 0xd5, 0x56],
    rfl⟩

/-! ## The device -/

/-- The two application slots of `partitions.csv`. -/
inductive AppSlot where
  | ota0
  | ota1
  deriving DecidableEq, Repr

/-- `esp_ota_get_next_update_partition(NULL)`, given the running slot. -/
def AppSlot.other : AppSlot → AppSlot
  | .ota0 => .ota1
  | .ota1 => .ota0

/-- The size of either slot. -/
def otaPartSize : Nat := 0x1C0000

/-- What the update calls do to the contents of a slot: `begin` when a transfer starts, `write`
for the next run of bytes at an offset, `writeFail` when that fails. -/
structure OtaApi where
  begin : Mem → Mem
  write : Mem → Nat → List UInt8 → Mem
  writeFail : Mem → Nat → List UInt8 → Mem

/-- A successful write puts its bytes in place and keeps those before them. -/
structure OtaApi.Lawful (api : OtaApi) : Prop where
  write_data : ∀ m off data, read (api.write m off data) off data.length = data
  write_before : ∀ m off data i, i < off → api.write m off data i = m i

/-- `ota_manifest_t`. -/
structure OtaManifest where
  version : UInt32
  size : UInt32
  sha256 : Bytes 32
  chunkSize : UInt16
  raw : Bytes 110
  deriving DecidableEq

/-- `s_rx` while `active`; `wrote` is the write offset inside the update handle, `sha` the bytes
the hash context has taken in. -/
structure Transfer where
  manifest : OtaManifest
  nextChunk : UInt32
  totalChunks : UInt32
  part : AppSlot
  wrote : Nat
  connHandle : UInt16
  peer : Bytes 8
  lastActivityMs : UInt64
  retries : UInt32
  sha : List UInt8
  deriving DecidableEq

/-- The calls of the task that are visible outside it. -/
inductive OtaCall where
  | otaBegin (part : AppSlot)
  | otaWrite (part : AppSlot) (data : List UInt8)
  | otaAbort
  | setBoot (part : AppSlot)
  | send (connHandle : UInt16) (type : UInt8) (peer : Bytes 8) (payload : List UInt8)
  | markValid
  | restart
  deriving DecidableEq

/-- The device and the task's variables. `halted` holds from a restart to the next boot. -/
structure OtaState where
  slots : AppSlot → Mem
  running : AppSlot
  boot : AppSlot
  fwVersion : UInt32
  nvsManifest : Option (List UInt8)
  fwManifest : Bytes 110
  rx : Option Transfer
  serveManifest : OtaManifest
  canServe : Bool
  pendingVerify : Bool
  healthSignal : Bool
  rebootAtMs : UInt64
  lastOfferMs : Fin 8 → UInt64
  halted : Bool
  log : List OtaCall

/-- The outcomes of the platform calls in one round. `readOk off` is the outcome of a partition
read at `off`; `nowMs` is what the event handler reads from the clock, `loopMs` what the
housekeeping after it reads. -/
structure OtaEnv where
  nowMs : UInt64 := 0
  loopMs : UInt64 := 0
  beginOk : Bool := true
  writeOk : Bool := true
  endOk : Bool := true
  setBootOk : Bool := true
  nvsOpenOk : Bool := true
  nvsSetOk : Bool := true
  nvsGetOk : Bool := true
  nvsEraseOk : Bool := true
  readOk : Nat → Bool := fun _ => true

/-- `ota_event_t`, with the payload as long as `len` says. -/
structure OtaEvent where
  type : UInt8
  connHandle : UInt16
  peer : Bytes 8
  payload : List UInt8
  payload_le : payload.length ≤ otaChunkMax.toNat + 16

/-- What a boot brings: the slot the bootloader chose, the version compiled into it, whether it
awaits verification, and new contents where the device was reflashed by wire. -/
structure OtaBoot where
  running : AppSlot
  fwVersion : UInt32
  pendingVerify : Bool
  reflash : Option ((AppSlot → Mem) × Bytes 110)

/-- One input of the machine. -/
inductive OtaInput where
  | round (evt : Option OtaEvent) (env : OtaEnv)
  | health
  | boot (b : OtaBoot) (env : OtaEnv)

/-- Record a call. -/
def OtaState.call (st : OtaState) (c : OtaCall) : OtaState := { st with log := st.log ++ [c] }

/-! ## Manifests -/

/-- A big-endian 32-bit field. -/
def u32At (data : List UInt8) (off : Nat) : UInt32 := (beNat (copyAt 4 data off).val).toUInt32

section Task

variable (sha256 : List UInt8 → Bytes 32)
variable (ed25519SignOpen : List UInt8 → Bytes 32 → Bytes 64 → Bool)
variable (api : OtaApi)

/-- The signature check of `parse_manifest`: the context and the fields, under the owner key. -/
def manifestSigned (data : List UInt8) : Bool :=
  ed25519SignOpen (otaSignContext ++ (data.drop otaFieldsOff).take otaFieldsLen)
    bitleOtaOwnerPubkey (copyAt 64 data otaSigOff)

/-- `parse_manifest`. -/
def parseManifest (data : List UInt8) : Option OtaManifest :=
  if data.length ≠ otaManifestLen ∨ data.take 4 ≠ otaMagic then none
  else if !manifestSigned ed25519SignOpen data then none
  else
    let out : OtaManifest :=
      { version := u32At data otaFieldsOff
        size := u32At data (otaFieldsOff + 4)
        sha256 := copyAt 32 data (otaFieldsOff + 8)
        chunkSize := (beNat (copyAt 2 data (otaFieldsOff + 40)).val).toUInt16
        raw := copyAt 110 data 0 }
    if out.size = 0 ∨ out.chunkSize < 64 ∨ out.chunkSize > otaChunkMax then none else some out

/-- `esp_partition_read` on a slot. -/
def partitionRead (env : OtaEnv) (m : Mem) (off n : Nat) : Option (List UInt8) :=
  if env.readOk off then some (read m off n) else none

/-- The loop of `hash_matches_running_image`: the bytes hashed, 1024 at a time. `fuel` bounds
the rounds. -/
def hashLoop (env : OtaEnv) (m : Mem) (size : Nat) : Nat → Nat → List UInt8 → Option (List UInt8)
  | 0, _, ctx => some ctx
  | fuel + 1, off, ctx =>
    if off < size then
      let n := if size - off < 1024 then size - off else 1024
      match partitionRead env m off n with
      | none => none
      | some buf => hashLoop env m size fuel (off + 1024) (ctx ++ buf)
    else some ctx

/-- `hash_matches_running_image`. -/
def hashMatchesRunningImage (env : OtaEnv) (st : OtaState) (manifest : OtaManifest) : Bool :=
  if manifest.size.toNat > otaPartSize then false
  else
    match hashLoop env (st.slots st.running) manifest.size.toNat manifest.size.toNat 0 [] with
    | none => false
    | some image => sha256 image == manifest.sha256

/-- `store_serve_manifest`. -/
def storeServeManifest (env : OtaEnv) (st : OtaState) (manifest : OtaManifest) : OtaState :=
  if !env.nvsOpenOk then st
  else
    { st with
      nvsManifest := if env.nvsSetOk then some manifest.raw.val else st.nvsManifest
      serveManifest := manifest
      canServe := true }

/-! ## Handlers -/

/-- `send_req`. -/
def sendReq (st : OtaState) (t : Transfer) (chunkIndex : UInt32) : OtaState :=
  st.call (.send t.connHandle bitleMsgOtaReq t.peer
    (beBytes 4 t.manifest.version.toNat ++ beBytes 4 chunkIndex.toNat))

/-- `send_status`. -/
def sendStatus (st : OtaState) (connHandle : UInt16) (peer : Bytes 8) (code : UInt8) : OtaState :=
  st.call (.send connHandle bitleMsgOtaStatus peer [code])

/-- `abort_receive`. -/
def abortReceive (st : OtaState) : OtaState :=
  match st.rx with
  | none => st
  | some _ => { st.call .otaAbort with rx := none }

/-- The part of `handle_manifest` that starts a transfer. -/
def beginReceive (env : OtaEnv) (st : OtaState) (evt : OtaEvent) (manifest : OtaManifest) :
    OtaState :=
  let part := st.running.other
  if manifest.size.toNat > otaPartSize then st
  else if !env.beginOk then st
  else
    let t : Transfer :=
      { manifest := manifest, nextChunk := 0,
        totalChunks := (manifest.size + manifest.chunkSize.toUInt32 - 1) / manifest.chunkSize.toUInt32,
        part := part, wrote := 0, connHandle := evt.connHandle, peer := evt.peer,
        lastActivityMs := env.nowMs, retries := 0, sha := [] }
    sendReq
      { st.call (.otaBegin part) with
        slots := Function.update st.slots part (api.begin (st.slots part))
        rx := some t }
      t 0

/-- `handle_manifest`. -/
def handleManifest (env : OtaEnv) (st : OtaState) (evt : OtaEvent) : OtaState :=
  match parseManifest ed25519SignOpen evt.payload with
  | none => st
  | some manifest =>
    if manifest.version = st.fwVersion then
      if !st.canServe && hashMatchesRunningImage sha256 env st manifest then
        sendStatus (storeServeManifest env st manifest) evt.connHandle evt.peer 0x01
      else st
    else if manifest.version < st.fwVersion then st
    else
      match st.rx with
      | none => beginReceive api env st evt manifest
      | some t =>
        if manifest.version ≤ t.manifest.version then st
        else beginReceive api env (abortReceive st) evt manifest

/-- `finish_receive`. -/
def finishReceive (env : OtaEnv) (st : OtaState) (t : Transfer) : OtaState :=
  if sha256 t.sha ≠ t.manifest.sha256 then
    { sendStatus (st.call .otaAbort) t.connHandle t.peer 0xE1 with rx := none }
  else if !env.endOk then { sendStatus st t.connHandle t.peer 0xE2 with rx := none }
  else
    let st := st.call (.setBoot t.part)
    if !env.setBootOk then { sendStatus st t.connHandle t.peer 0xE2 with rx := none }
    else
      let st := storeServeManifest env { st with boot := t.part } t.manifest
      { sendStatus st t.connHandle t.peer 0x00 with
        rx := none
        rebootAtMs := env.nowMs + 3000 }

/-- The number of payload bytes `handle_chunk` expects in chunk `index`. -/
def expectedLen (manifest : OtaManifest) (index : UInt32) : UInt32 :=
  let expected := manifest.size - index * manifest.chunkSize.toUInt32
  if expected > manifest.chunkSize.toUInt32 then manifest.chunkSize.toUInt32 else expected

/-- The part of `handle_chunk` after its checks: write, hash, advance. -/
def acceptChunk (env : OtaEnv) (st : OtaState) (t : Transfer) (data : List UInt8) : OtaState :=
  let st := st.call (.otaWrite t.part data)
  if !env.writeOk then
    abortReceive
      { st with
        slots := Function.update st.slots t.part (api.writeFail (st.slots t.part) t.wrote data) }
  else
    let t' : Transfer :=
      { t with
        nextChunk := t.nextChunk + 1, wrote := t.wrote + data.length, retries := 0
        sha := t.sha ++ data }
    let st :=
      { st with
        slots := Function.update st.slots t.part (api.write (st.slots t.part) t.wrote data)
        rx := some t' }
    if t'.nextChunk ≥ t'.totalChunks then finishReceive sha256 env st t'
    else sendReq st t' t'.nextChunk

/-- `handle_chunk`. -/
def handleChunk (env : OtaEnv) (st : OtaState) (evt : OtaEvent) : OtaState :=
  match st.rx with
  | none => st
  | some t =>
    if evt.payload.length < 9 then st
    else
      let version := u32At evt.payload 0
      let index := u32At evt.payload 4
      let data := evt.payload.drop 8
      if version ≠ t.manifest.version then st
      else
        let t := { t with lastActivityMs := env.nowMs }
        let st := { st with rx := some t }
        if index ≠ t.nextChunk then sendReq st t t.nextChunk
        else if data.length ≠ (expectedLen t.manifest index).toNat then st
        else acceptChunk sha256 api env st t data

/-- `handle_req`. -/
def handleReq (env : OtaEnv) (st : OtaState) (evt : OtaEvent) : OtaState :=
  if !st.canServe || evt.payload.length < 8 then st
  else
    let version := u32At evt.payload 0
    let index := u32At evt.payload 4
    if version ≠ st.serveManifest.version then st
    else
      let offset := index * st.serveManifest.chunkSize.toUInt32
      if offset ≥ st.serveManifest.size then st
      else
        let len := expectedLen st.serveManifest index
        match partitionRead env (st.slots st.running) offset.toNat len.toNat with
        | none => st
        | some data =>
          st.call (.send evt.connHandle bitleMsgOtaChunk evt.peer (evt.payload.take 8 ++ data))

/-- `handle_offer`. -/
def handleOffer (env : OtaEnv) (st : OtaState) (evt : OtaEvent) : OtaState :=
  if !st.canServe || st.rx.isSome then st
  else
    let slot : Fin 8 := Fin.ofNat 8 evt.connHandle.toNat
    if st.lastOfferMs slot ≠ 0 ∧ env.nowMs - st.lastOfferMs slot < otaOfferIntervalMs then st
    else
      { st with lastOfferMs := Function.update st.lastOfferMs slot env.nowMs }.call
        (.send evt.connHandle bitleMsgOtaManifest evt.peer st.serveManifest.raw.val)

/-! ## The task loop -/

/-- The `switch` of `ota_task`. -/
def handleEvent (env : OtaEnv) (st : OtaState) (evt : OtaEvent) : OtaState :=
  if evt.type = bitleMsgOtaManifest then handleManifest sha256 ed25519SignOpen api env st evt
  else if evt.type = bitleMsgOtaChunk then handleChunk sha256 api env st evt
  else if evt.type = bitleMsgOtaReq then handleReq env st evt
  else if evt.type = 0xFF then handleOffer env st evt
  else st

/-- The receive timeout. -/
def pollReceive (env : OtaEnv) (st : OtaState) : OtaState :=
  match st.rx with
  | none => st
  | some t =>
    if env.loopMs - t.lastActivityMs > otaRxTimeoutMs then
      let t := { t with retries := t.retries + 1 }
      let st := { st with rx := some t }
      if t.retries > otaRxMaxRetries then abortReceive st
      else
        let t := { t with lastActivityMs := env.loopMs }
        sendReq { st with rx := some t } t t.nextChunk
    else st

/-- The health signal and its fallback. -/
def pollHealth (env : OtaEnv) (st : OtaState) : OtaState :=
  let st :=
    if st.healthSignal && st.pendingVerify then { st.call .markValid with pendingVerify := false }
    else st
  if st.pendingVerify && env.loopMs > otaHealthFallbackMs then
    { st.call .markValid with pendingVerify := false }
  else st

/-- The scheduled restart. -/
def pollReboot (env : OtaEnv) (st : OtaState) : OtaState :=
  if st.rebootAtMs ≠ 0 ∧ env.loopMs ≥ st.rebootAtMs then { st.call .restart with halted := true }
  else st

/-- One round of `ota_task`. -/
def otaTask (env : OtaEnv) (st : OtaState) (evt : Option OtaEvent) : OtaState :=
  let st :=
    match evt with
    | none => st
    | some evt => handleEvent sha256 ed25519SignOpen api env st evt
  pollReboot env (pollHealth env (pollReceive env st))

/-! ## Boot -/

/-- `adopt_manifest_from_partition`. -/
def adoptManifestFromPartition (env : OtaEnv) (st : OtaState) : OtaState :=
  if !env.readOk 0 || st.fwManifest.val.take 4 != otaMagic then st
  else
    match parseManifest ed25519SignOpen st.fwManifest.val with
    | none => st
    | some manifest =>
      if manifest.version ≠ st.fwVersion then st
      else if hashMatchesRunningImage sha256 env st manifest then
        storeServeManifest env st manifest
      else st

/-- The stored manifest at boot: kept if it is signed, of this version and describes the running
image, else erased. -/
def loadServeManifest (env : OtaEnv) (st : OtaState) : OtaState :=
  match if env.nvsOpenOk && env.nvsGetOk then st.nvsManifest else none with
  | none => st
  | some raw =>
    if raw.length ≠ otaManifestLen then st
    else
      let erased :=
        { st with nvsManifest := if env.nvsEraseOk then none else st.nvsManifest }
      match parseManifest ed25519SignOpen raw with
      | none => erased
      | some manifest =>
        if manifest.version = st.fwVersion ∧ hashMatchesRunningImage sha256 env st manifest = true
        then { st with serveManifest := manifest, canServe := true }
        else erased

/-- `bitle_ota_init`. -/
def bitleOtaInit (env : OtaEnv) (st : OtaState) : OtaState :=
  let st := loadServeManifest sha256 ed25519SignOpen env st
  if !st.canServe then adoptManifestFromPartition sha256 ed25519SignOpen env st else st

/-- The zeroed `s_serve_manifest`. -/
def OtaManifest.zero : OtaManifest :=
  { version := 0, size := 0, sha256 := zeros 32, chunkSize := 0, raw := zeros 110 }

/-- The device as it comes up: flash and NVS as they were (or reflashed), the RAM zero. -/
def OtaState.reset (st : OtaState) (b : OtaBoot) : OtaState :=
  { slots := (b.reflash.map Prod.fst).getD st.slots
    running := b.running
    boot := b.running
    fwVersion := b.fwVersion
    nvsManifest := st.nvsManifest
    fwManifest := (b.reflash.map Prod.snd).getD st.fwManifest
    rx := none
    serveManifest := OtaManifest.zero
    canServe := false
    pendingVerify := b.pendingVerify
    healthSignal := false
    rebootAtMs := 0
    lastOfferMs := fun _ => 0
    halted := false
    log := st.log }

/-- One input. After a restart nothing runs until the next boot. -/
def otaStep (st : OtaState) : OtaInput → OtaState
  | .round evt env =>
    if st.halted then st else otaTask sha256 ed25519SignOpen api env st evt
  | .health => { st with healthSignal := true }
  | .boot b env => bitleOtaInit sha256 ed25519SignOpen env (st.reset b)

end Task

/-- A device that has not booted yet, with arbitrary flash and NVS. -/
def OtaState.off (slots : AppSlot → Mem) (nvsManifest : Option (List UInt8))
    (fwManifest : Bytes 110) : OtaState :=
  { slots := slots, running := .ota0, boot := .ota0, fwVersion := 0, nvsManifest := nvsManifest
    fwManifest := fwManifest, rx := none, serveManifest := OtaManifest.zero, canServe := false
    pendingVerify := false, healthSignal := false, rebootAtMs := 0, lastOfferMs := fun _ => 0
    halted := true, log := [] }

end Bitle
