import Bitle.Lib.Pull
import Bitle.Ota.Apply

/-!
# Bitle — an update from one node to another (`main/bitle_ota.c`)

A node offers its firmware to a peer with an older one, which pulls the image chunk by chunk. The
two have no other links, so what either of them sends goes to the other; it can be lost, as when a
queue is full, and can be overtaken, but none of it arrives twice: the ring of the mesh layer sees
to that. Both tasks run as they are, with any readings of the clock, and the platform does what it
is asked.

The receiver is a receiver of `Pull`: its requests and the chunks are the tokens, and the timeout of
`ota_task` asks again. `Stage` says what a phase of `Pull` means for a node, and each handler is
followed from one stage to the next.
-/

namespace Bitle

open Wire Flash Relation

/-- The two nodes. -/
inductive UpdateNode where
  | server
  | receiver
  deriving DecidableEq

/-- What a node gave to `noise_send_raw`, on its way to the other. -/
structure OtaMessage where
  dst : UpdateNode
  type : UInt8
  payload : List UInt8
  deriving DecidableEq

/-- The two nodes and what is on its way, with the requests that were repeated, the messages that
were lost and those that arrived. -/
structure UpdateNet where
  server : OtaState
  receiver : OtaState
  air : List OtaMessage := []
  retried : Nat := 0
  lost : Nat := 0
  delivered : Nat := 0

def OtaCall.message (dst : UpdateNode) : OtaCall → Option OtaMessage
  | .send _ type _ payload => some ⟨dst, type, payload⟩
  | _ => none

/-- What the calls of a node send to the other. -/
def sentTo (dst : UpdateNode) (calls : List OtaCall) : List OtaMessage :=
  calls.filterMap (OtaCall.message dst)

/-- `bitle_ota_handle_packet`, given what it reads of the packet. -/
def bitleOtaHandlePacket (connHandle : UInt16) (senderId : Bytes 8) (type : UInt8)
    (payload : List UInt8) : Option OtaEvent :=
  if payload = [] then none
  else if h : payload.length ≤ otaChunkMax.toNat + 16 then
    some
      { type := type, connHandle := connHandle, peer := senderId, payload := payload
        payload_le := h }
  else none

/-- `bitle_ota_peer_version_seen`. -/
def bitleOtaPeerVersionSeen (st : OtaState) (connHandle : UInt16) (peerId : Bytes 8)
    (version : UInt32) : Option OtaEvent :=
  if !st.canServe || version = 0 || version ≥ st.serveManifest.version then none
  else
    some
      { type := 0xFF, connHandle := connHandle, peer := peerId, payload := []
        payload_le := Nat.zero_le _ }

/-- The platform does what the task asks of it. -/
structure OtaEnv.Works (env : OtaEnv) : Prop where
  beginOk : env.beginOk = true
  writeOk : env.writeOk = true
  endOk : env.endOk = true
  setBootOk : env.setBootOk = true
  nvsOpenOk : env.nvsOpenOk = true
  nvsSetOk : env.nvsSetOk = true
  readOk : ∀ off, env.readOk off = true

section Net

variable (sha256 : List UInt8 → Bytes 32)
  (ed25519SignOpen : List UInt8 → Bytes 32 → Bytes 64 → Bool) (api : OtaApi)

/-- The state after the `switch` of a round. -/
def handled (env : OtaEnv) (st : OtaState) : Option OtaEvent → OtaState
  | none => st
  | some evt => handleEvent sha256 ed25519SignOpen api env st evt

/-- The requests that the timeout of a round repeats. -/
def retriesOf (env : OtaEnv) (st : OtaState) (evt : Option OtaEvent) : Nat :=
  if st.halted then 0
  else
    let st := handled sha256 ed25519SignOpen api env st evt
    (sentTo .server ((pollReceive env st).log.drop st.log.length)).length

namespace UpdateNet

/-- A round of one of the nodes. -/
def round (net : UpdateNet) (env : OtaEnv) (evt : Option OtaEvent) : UpdateNode → UpdateNet
  | .server =>
    let st := otaStep sha256 ed25519SignOpen api net.server (.round evt env)
    { net with
      server := st
      air := net.air ++ sentTo .receiver (st.log.drop net.server.log.length) }
  | .receiver =>
    let st := otaStep sha256 ed25519SignOpen api net.receiver (.round evt env)
    { net with
      receiver := st
      air := net.air ++ sentTo .server (st.log.drop net.receiver.log.length)
      retried := net.retried + retriesOf sha256 ed25519SignOpen api env net.receiver evt }

variable (connHandle : UpdateNode → UInt16) (peer : UpdateNode → Bytes 8)

/-- A message arrives: the link is `connHandle` at its destination, and comes from `peer`. -/
def arrive (net : UpdateNet) (env : OtaEnv) (m : OtaMessage) : UpdateNet :=
  match bitleOtaHandlePacket (connHandle m.dst) (peer m.dst) m.type m.payload with
  | none => net
  | some evt => net.round sha256 ed25519SignOpen api env (some evt) m.dst

/-- The message `i` leaves the air. -/
def take (net : UpdateNet) (i : Nat) : UpdateNet :=
  { net with air := net.air.eraseIdx i, delivered := net.delivered + 1 }

end UpdateNet

variable (connHandle : UpdateNode → UInt16) (peer : UpdateNode → Bytes 8)

/-- What can happen: a message arrives or is lost, or a node has a round without an event. -/
inductive UpdateStep : UpdateNet → UpdateNet → Prop
  | deliver {net : UpdateNet} {i : Nat} {m : OtaMessage} {env : OtaEnv} :
      net.air[i]? = some m → env.Works →
      UpdateStep net ((net.take i).arrive sha256 ed25519SignOpen api connHandle peer env m)
  | lose {net : UpdateNet} {i : Nat} {m : OtaMessage} :
      net.air[i]? = some m →
      UpdateStep net { net with air := net.air.eraseIdx i, lost := net.lost + 1 }
  | tick {net : UpdateNet} {env : OtaEnv} (n : UpdateNode) :
      env.Works → UpdateStep net (net.round sha256 ed25519SignOpen api env none n)

/-- The server has seen the version of the receiver. -/
def offerUpdate (env : OtaEnv) (server receiver : OtaState) : UpdateNet :=
  match bitleOtaPeerVersionSeen server (connHandle .server) (peer .server) receiver.fwVersion with
  | none => { server := server, receiver := receiver }
  | some evt =>
    ({ server := server, receiver := receiver } : UpdateNet).round sha256 ed25519SignOpen api env
      (some evt) .server

end Net

/-! ## The messages -/

/-- The bytes of chunk `i`. -/
def pieceOf (m : OtaManifest) (image : List UInt8) (i : Nat) : List UInt8 :=
  (image.drop (i * m.chunkSize.toNat)).take m.chunkSize.toNat

/-- The message of a token. -/
def tokenMessage (m : OtaManifest) (image : List UInt8) : Pull.Token → OtaMessage
  | .ask i => ⟨.server, bitleMsgOtaReq, beBytes 4 m.version.toNat ++ beBytes 4 i⟩
  | .piece i =>
    ⟨.receiver, bitleMsgOtaChunk,
      beBytes 4 m.version.toNat ++ beBytes 4 i ++ pieceOf m image i⟩
  | .note => ⟨.server, bitleMsgOtaStatus, [0x00]⟩

theorem u32At_version (v : UInt32) (rest : List UInt8) :
    u32At (beBytes 4 v.toNat ++ rest) 0 = v := by
  unfold u32At
  have hcopy : (copyAt 4 (beBytes 4 v.toNat ++ rest) 0).val = beBytes 4 v.toNat := by
    rw [copyAt_val (by simp), List.drop_zero, List.take_left' (length_beBytes _ _)]
  rw [hcopy, beNat_beBytes v.toNat_lt]
  exact UInt32.ofNat_toNat

theorem u32At_index (v i : UInt32) (rest : List UInt8) :
    u32At (beBytes 4 v.toNat ++ beBytes 4 i.toNat ++ rest) 4 = i := by
  unfold u32At
  have hlen : 4 + 4 ≤ (beBytes 4 v.toNat ++ beBytes 4 i.toNat ++ rest).length := by
    rw [List.length_append, List.length_append, length_beBytes, length_beBytes]
    omega
  have hcopy : (copyAt 4 (beBytes 4 v.toNat ++ beBytes 4 i.toNat ++ rest) 4).val =
      beBytes 4 i.toNat := by
    rw [copyAt_val hlen, List.append_assoc, List.drop_left' (length_beBytes _ _),
      List.take_left' (length_beBytes _ _)]
  rw [hcopy, beNat_beBytes i.toNat_lt]
  exact UInt32.ofNat_toNat

/-! ## The states of the two nodes -/

/-- The server has the image. -/
structure Serving (m : OtaManifest) (image : List UInt8) (st : OtaState) : Prop where
  canServe : st.canServe = true
  manifest : st.serveManifest = m
  image : read (st.slots st.running) 0 m.size.toNat = image
  rx : st.rx = none
  rebootAtMs : st.rebootAtMs = 0
  halted : st.halted = false

/-- The receiver has an older version and is idle. -/
structure Stale (m : OtaManifest) (st : OtaState) : Prop where
  newer : st.fwVersion < m.version
  rx : st.rx = none
  rebootAtMs : st.rebootAtMs = 0
  halted : st.halted = false

/-- The receiver is pulling the image, and has the first chunks in its other slot. -/
structure Pulling (m : OtaManifest) (image : List UInt8) (next : Nat) (t : Transfer)
    (st : OtaState) : Prop where
  rx : st.rx = some t
  manifest : t.manifest = m
  total : t.totalChunks = totalChunks m
  part : t.part = st.running.other
  sha : t.sha = image.take (next * m.chunkSize.toNat)
  next : t.nextChunk.toNat = next
  wrote : t.wrote = t.sha.length
  held : read (st.slots t.part) 0 t.sha.length = t.sha
  retries : t.retries ≤ otaRxMaxRetries
  rebootAtMs : st.rebootAtMs = 0
  halted : st.halted = false

/-- The receiver has the image in the slot it boots next, and serves it. -/
structure Updated (m : OtaManifest) (image : List UInt8) (st : OtaState) : Prop where
  rx : st.rx = none
  boot : st.boot = st.running.other
  image : read (st.slots st.boot) 0 m.size.toNat = image
  canServe : st.canServe = true
  manifest : st.serveManifest = m
  nvsManifest : st.nvsManifest = some m.raw.val

/-- The receiver, by the phase of `Pull`. -/
def Stage (m : OtaManifest) (image : List UInt8) : Pull.Phase → Nat → OtaState → Prop
  | .pulling, next, st => ∃ t, Pulling m image next t st
  | .complete, _, st => Updated m image st
  | .stopped, _, st => st.rx = none

/-! ## The housekeeping -/

section Round

variable {sha256 : List UInt8 → Bytes 32}
  {ed25519SignOpen : List UInt8 → Bytes 32 → Bytes 64 → Bool} {api : OtaApi}
  {m : OtaManifest} {image : List UInt8} {st : OtaState} {env : OtaEnv} {evt : OtaEvent}
  {t : Transfer} {next : Nat} {phase : Pull.Phase}

/-- The end of a round sends nothing, and restarts only when that was scheduled. -/
theorem poll_calm (env : OtaEnv) (st : OtaState) :
    ∃ pending halted l, pollReboot env (pollHealth env st) =
        { st with pendingVerify := pending, halted := halted, log := st.log ++ l } ∧
      (∀ dst, sentTo dst l = []) ∧ (st.rebootAtMs = 0 → halted = st.halted) := by
  obtain ⟨pending, l, hhealth, hl⟩ : ∃ pending l,
      pollHealth env st = { st with pendingVerify := pending, log := st.log ++ l } ∧
        ∀ dst, sentTo dst l = [] := by
    unfold pollHealth
    by_cases hsignal : (st.healthSignal && st.pendingVerify) = true
    · rw [if_pos hsignal]
      exact ⟨false, [.markValid], rfl, fun _ => rfl⟩
    · rw [if_neg hsignal]
      dsimp only
      split
      · exact ⟨false, [.markValid], rfl, fun _ => rfl⟩
      · exact ⟨st.pendingVerify, [], by rw [List.append_nil], fun _ => rfl⟩
  rw [hhealth]
  unfold pollReboot
  dsimp only
  split
  · next hreboot =>
    refine ⟨pending, true, l ++ [.restart], ?_, ?_, fun h => absurd h hreboot.1⟩
    · unfold OtaState.call
      dsimp only
      rw [List.append_assoc]
    · intro dst
      unfold sentTo at hl ⊢
      rw [List.filterMap_append, hl dst]
      rfl
  · exact ⟨pending, st.halted, l, rfl, hl, fun _ => rfl⟩

theorem Stage.calm (h : Stage m image phase next st) (pending : Bool) {halted : Bool}
    (log : List OtaCall) (hhalted : st.rebootAtMs = 0 → halted = st.halted) :
    Stage m image phase next
      { st with pendingVerify := pending, halted := halted, log := log } := by
  cases phase with
  | pulling =>
    obtain ⟨t, h⟩ := h
    exact ⟨t, { h with halted := (hhalted h.rebootAtMs).trans h.halted }⟩
  | complete =>
    have h : Updated m image st := h
    exact { h with }
  | stopped => exact h

/-- The timeout: nothing happens, or the receiver asks again, or it gives up. -/
theorem Stage.poll (h : Stage m image phase next st) (env : OtaEnv) :
    ∃ l phase', (pollReceive env st).log = st.log ++ l ∧
      Stage m image phase' next (pollReceive env st) ∧
      (phase' = phase ∧ sentTo .server l = [] ∨
        phase = .pulling ∧ phase' = .pulling ∧
          sentTo .server l = [tokenMessage m image (.ask next)] ∨
        phase = .pulling ∧ phase' = .stopped ∧ sentTo .server l = [] ∧
          ∃ t, st.rx = some t ∧ t.retries = otaRxMaxRetries) := by
  have hrest : st.rx = none → pollReceive env st = st := by
    intro hrx
    unfold pollReceive
    rw [hrx]
  cases phase with
  | complete =>
    have hsame := hrest (show Updated m image st from h).rx
    exact ⟨[], .complete, by rw [hsame, List.append_nil], by rw [hsame]; exact h, .inl ⟨rfl, rfl⟩⟩
  | stopped =>
    have hsame := hrest h
    exact ⟨[], .stopped, by rw [hsame, List.append_nil], by rw [hsame]; exact h, .inl ⟨rfl, rfl⟩⟩
  | pulling =>
    obtain ⟨t, h⟩ := h
    unfold pollReceive
    rw [h.rx]
    dsimp only
    split
    · split
      · -- the last retry had no answer
        next hmax =>
        have hretries : t.retries = otaRxMaxRetries := by
          have hle := UInt32.le_iff_toNat_le.mp h.retries
          have hgt := UInt32.lt_iff_toNat_lt.mp hmax
          have h40 : otaRxMaxRetries.toNat = 40 := rfl
          rw [UInt32.toNat_add, show (1 : UInt32).toNat = 1 from rfl] at hgt
          apply UInt32.toNat_inj.mp
          omega
        exact ⟨[.otaAbort], .stopped, rfl, rfl, .inr (.inr ⟨rfl, rfl, rfl, t, rfl, hretries⟩)⟩
      · next hmax =>
        refine ⟨[.send t.connHandle bitleMsgOtaReq t.peer
          (beBytes 4 t.manifest.version.toNat ++ beBytes 4 t.nextChunk.toNat)], .pulling, rfl,
          ⟨_, { h with rx := rfl, retries := UInt32.not_lt.mp hmax }⟩, .inr (.inl ⟨rfl, rfl, ?_⟩)⟩
        rw [← h.manifest, ← h.next]
        rfl
    · exact ⟨[], .pulling, (List.append_nil _).symm, ⟨t, h⟩, .inl ⟨rfl, rfl⟩⟩

/-! ## The server -/

/-- A request is answered with the chunk. -/
theorem handleReq_serving (h : Serving m image st) (hu : Usable m) (hworks : env.Works)
    {i : UInt32} (hi : i < totalChunks m)
    (hpayload : evt.payload = beBytes 4 m.version.toNat ++ beBytes 4 i.toNat) :
    handleReq env st evt = st.call (.send evt.connHandle bitleMsgOtaChunk evt.peer
      (tokenMessage m image (.piece i.toNat)).payload) := by
  have hversion : u32At evt.payload 0 = m.version := by
    rw [hpayload]
    exact u32At_version _ _
  have hindex : u32At evt.payload 4 = i := by
    rw [hpayload, ← List.append_nil (_ ++ _)]
    exact u32At_index _ _ _
  have hlen : evt.payload.length = 8 := by
    rw [hpayload, List.length_append, length_beBytes, length_beBytes]
  have hlt := (lt_totalChunks_iff hu i).mp hi
  have hoff := toNat_offset_of_lt hlt
  unfold handleReq
  rw [h.canServe, if_neg (by simp [hlen])]
  dsimp only
  rw [h.manifest, hversion, hindex, if_neg (not_not_intro rfl),
    if_neg (UInt32.not_le.mpr (UInt32.lt_iff_toNat_lt.mpr (by omega))), partitionRead,
    if_pos (hworks.readOk _)]
  dsimp only
  have hpiece : read (st.slots st.running) (i * m.chunkSize.toUInt32).toNat
      (expectedLen m i).toNat = pieceOf m image i.toNat := by
    unfold pieceOf
    rw [← h.image, drop_take_read, Nat.zero_add, hoff, toNat_expectedLen hu hi]
  rw [hpiece, List.take_of_length_le (by omega), hpayload]
  rfl

/-! ## The receiver -/

/-- A chunk is as long as the receiver expects. -/
theorem length_pieceOf (hu : Usable m) (himage : image.length = m.size.toNat) {i : UInt32}
    (hi : i < totalChunks m) : (pieceOf m image i.toNat).length = (expectedLen m i).toNat := by
  rw [toNat_expectedLen hu hi, pieceOf, List.length_take, List.length_drop, himage]

theorem pieceOf_ne_nil (hu : Usable m) (himage : image.length = m.size.toNat) {i : UInt32}
    (hi : i < totalChunks m) : pieceOf m image i.toNat ≠ [] := by
  have hlt := (lt_totalChunks_iff hu i).mp hi
  obtain ⟨-, -, hchunk, -⟩ := hu.bounds
  apply List.ne_nil_of_length_pos
  rw [length_pieceOf hu himage hi, toNat_expectedLen hu hi]
  omega

variable (sha256 api image) in
/-- The manifest starts a transfer. -/
theorem handleManifest_stale (h : Stale m st)
    (hm : parseManifest ed25519SignOpen m.raw.val = some m) (hfits : m.size.toNat ≤ otaPartSize)
    (hworks : env.Works) (hpayload : evt.payload = m.raw.val) :
    ∃ t l, Pulling m image 0 t (handleManifest sha256 ed25519SignOpen api env st evt) ∧
      (handleManifest sha256 ed25519SignOpen api env st evt).log = st.log ++ l ∧
      sentTo .server l = [tokenMessage m image (.ask 0)] ∧ t.retries = 0 := by
  have hne : m.version ≠ st.fwVersion := fun heq =>
    UInt32.lt_irrefl _ (heq ▸ h.newer)
  have hge : ¬ m.version < st.fwVersion := fun hlt =>
    UInt32.lt_irrefl _ (UInt32.lt_trans hlt h.newer)
  unfold handleManifest
  rw [hpayload, hm]
  dsimp only
  rw [if_neg hne, if_neg hge, h.rx]
  unfold beginReceive
  dsimp only
  rw [if_neg (Nat.not_lt.mpr hfits), hworks.beginOk, Bool.not_true, if_neg Bool.false_ne_true]
  refine ⟨newTransfer env st evt m, [.otaBegin st.running.other,
    .send evt.connHandle bitleMsgOtaReq evt.peer (beBytes 4 m.version.toNat ++ beBytes 4 0)],
    ?_, ?_, rfl, rfl⟩
  · exact
      { rx := rfl, manifest := rfl, next := rfl, total := rfl, part := rfl
        sha := by rw [Nat.zero_mul]; rfl
        wrote := rfl, held := rfl, retries := UInt32.zero_le
        rebootAtMs := h.rebootAtMs, halted := h.halted }
  · show (st.log ++ [_]) ++ [_] = _
    rw [List.append_assoc]
    rfl

/-- A chunk that is not the next one is answered with a request. -/
theorem handleChunk_other (h : Pulling m image next t st) {i : UInt32} (hi : i.toNat ≠ next)
    {data : List UInt8} (hdata : data ≠ [])
    (hpayload : evt.payload = beBytes 4 m.version.toNat ++ beBytes 4 i.toNat ++ data)
    (env : OtaEnv) :
    handleChunk sha256 api env st evt =
      sendReq { st with rx := some { t with lastActivityMs := env.nowMs } }
        { t with lastActivityMs := env.nowMs } t.nextChunk := by
  have hlen : ¬ evt.payload.length < 9 := by
    have hpos := List.length_pos_iff.mpr hdata
    rw [hpayload, List.length_append, List.length_append, length_beBytes, length_beBytes]
    omega
  have hversion : u32At evt.payload 0 = m.version := by
    rw [hpayload, List.append_assoc]
    exact u32At_version _ _
  have hindex : u32At evt.payload 4 = i := by
    rw [hpayload]
    exact u32At_index _ _ _
  have hne : i ≠ t.nextChunk := by
    rintro rfl
    exact hi h.next
  unfold handleChunk
  rw [h.rx]
  dsimp only
  rw [if_neg hlen, hversion, hindex, h.manifest, if_neg (not_not_intro rfl), if_pos hne]

variable (sha256 api) in
/-- The next chunk is written. -/
theorem handleChunk_next (h : Pulling m image next t st) (hu : Usable m)
    (himage : image.length = m.size.toNat) (hnext : t.nextChunk < totalChunks m)
    (hpayload : evt.payload = (tokenMessage m image (.piece next)).payload) (env : OtaEnv) :
    handleChunk sha256 api env st evt = acceptChunk sha256 api env
        (st.touched env t) { t with lastActivityMs := env.nowMs } (pieceOf m image next) ∧
      t.sha ++ pieceOf m image next = image.take ((next + 1) * m.chunkSize.toNat) := by
  have hlenp : (pieceOf m image next).length = (expectedLen m t.nextChunk).toNat := by
    rw [← h.next]
    exact length_pieceOf hu himage hnext
  have hne : pieceOf m image next ≠ [] := by
    rw [← h.next]
    exact pieceOf_ne_nil hu himage hnext
  have hlen8 : (beBytes 4 m.version.toNat ++ beBytes 4 next).length = 8 := by
    rw [List.length_append, length_beBytes, length_beBytes]
  have hpay : evt.payload = beBytes 4 m.version.toNat ++ beBytes 4 next ++ pieceOf m image next :=
    hpayload
  have hlen : ¬ evt.payload.length < 9 := by
    have hpiece := List.length_pos_iff.mpr hne
    rw [hpay, List.length_append, hlen8]
    omega
  have hversion : u32At evt.payload 0 = m.version := by
    rw [hpay, List.append_assoc]
    exact u32At_version _ _
  have hindex : u32At evt.payload 4 = t.nextChunk := by
    rw [hpay, ← h.next]
    exact u32At_index _ _ _
  have hdrop : evt.payload.drop 8 = pieceOf m image next := by
    rw [hpay, List.drop_left' hlen8]
  constructor
  · unfold handleChunk OtaState.touched
    rw [h.rx]
    dsimp only
    rw [if_neg hlen, hversion, hindex, h.manifest, if_neg (not_not_intro rfl),
      if_neg (not_not_intro rfl), hdrop, if_neg (not_not_intro hlenp)]
  · rw [h.sha, Nat.succ_mul, List.take_add]
    rfl

end Round

section Accept

variable {sha256 : List UInt8 → Bytes 32} {api : OtaApi} {m : OtaManifest} {image : List UInt8}
  {st : OtaState} {env : OtaEnv} {t : Transfer} {next : Nat}

/-- The chunk is written, and it was not the last. -/
theorem acceptChunk_next (hapi : api.Lawful) (hworks : env.Works) (hu : Usable m)
    (h : Pulling m image next t st) (hnext : t.nextChunk < totalChunks m)
    (hmore : next + 1 < (totalChunks m).toNat) {data : List UInt8}
    (hsha : t.sha ++ data = image.take ((next + 1) * m.chunkSize.toNat)) :
    ∃ t' l, Pulling m image (next + 1) t' (acceptChunk sha256 api env st t data) ∧ t'.retries = 0 ∧
      (acceptChunk sha256 api env st t data).log = st.log ++ l ∧
      sentTo .server l = [tokenMessage m image (.ask (next + 1))] := by
  have hsucc : (t.nextChunk + 1).toNat = next + 1 := by rw [toNat_next hu hnext, h.next]
  have hgoes : ¬ t.nextChunk + 1 ≥ t.totalChunks := by
    rw [h.total]
    refine UInt32.not_le.mpr (UInt32.lt_iff_toNat_lt.mpr ?_)
    rw [hsucc]
    exact hmore
  unfold acceptChunk
  rw [hworks.writeOk]
  dsimp only
  rw [Bool.not_true, if_neg Bool.false_ne_true, if_neg hgoes]
  refine ⟨_, [.otaWrite t.part data, .send t.connHandle bitleMsgOtaReq t.peer
    (beBytes 4 t.manifest.version.toNat ++ beBytes 4 (t.nextChunk + 1).toNat)],
    { h with rx := rfl, next := hsucc, sha := hsha, wrote := ?_, held := ?_
             retries := UInt32.zero_le }, rfl, ?_, ?_⟩
  · show t.wrote + data.length = (t.sha ++ data).length
    rw [h.wrote, List.length_append]
  · show read (Function.update st.slots t.part (api.write (st.slots t.part) t.wrote data) t.part) 0
      (t.sha ++ data).length = t.sha ++ data
    rw [Function.update_self, h.wrote]
    exact read_write hapi h.held data
  · show (st.log ++ [_]) ++ [_] = _
    rw [List.append_assoc]
    rfl
  · rw [← hsucc, ← h.manifest]
    rfl

/-- The last chunk is written, and the image is as its manifest says. -/
theorem acceptChunk_last (hapi : api.Lawful) (hworks : env.Works) (h : Pulling m image next t st)
    (hlast : t.totalChunks ≤ t.nextChunk + 1) {data : List UInt8} (hsha : t.sha ++ data = image)
    (hlen : image.length = m.size.toNat) (hdigest : sha256 image = m.sha256) :
    ∃ l, Updated m image (acceptChunk sha256 api env st t data) ∧
      (acceptChunk sha256 api env st t data).log = st.log ++ l ∧
      sentTo .server l = [tokenMessage m image .note] := by
  have hheld : read (api.write (st.slots t.part) t.sha.length data) 0 (t.sha ++ data).length =
      t.sha ++ data := read_write hapi h.held data
  rw [hsha, hlen] at hheld
  unfold acceptChunk
  rw [hworks.writeOk]
  dsimp only
  rw [Bool.not_true, if_neg Bool.false_ne_true, if_pos hlast]
  unfold finishReceive
  dsimp only
  rw [hsha, h.manifest, if_neg (not_not_intro hdigest), hworks.endOk, hworks.setBootOk]
  unfold storeServeManifest
  rw [hworks.nvsOpenOk, hworks.nvsSetOk]
  dsimp only
  refine ⟨[.otaWrite t.part data, .setBoot t.part, .send t.connHandle bitleMsgOtaStatus t.peer
    [0x00]], { rx := rfl, boot := h.part, image := ?_, canServe := rfl, manifest := rfl
               nvsManifest := rfl }, ?_, rfl⟩
  · show read (Function.update st.slots t.part (api.write (st.slots t.part) t.wrote data) t.part) 0
      m.size.toNat = image
    rw [Function.update_self, h.wrote]
    exact hheld
  · show ((st.log ++ [_]) ++ [_]) ++ [_] = _
    rw [List.append_assoc, List.append_assoc]
    rfl

/-- The receiver did what `Pull` says, and is no closer to giving up. -/
structure Reacted (m : OtaManifest) (image : List UInt8) (st st' : OtaState)
    (after : Pull.Phase × Nat × List Pull.Token) (l : List OtaCall) : Prop where
  stage : Stage m image after.1 after.2.1 st'
  log : st'.log = st.log ++ l
  sent : sentTo .server l = after.2.2.map (tokenMessage m image)
  retries : ∀ t', st'.rx = some t' → t'.retries = otaRxMaxRetries →
    ∃ t, st.rx = some t ∧ t.retries = otaRxMaxRetries

/-- The next chunk arrives. -/
theorem Pulling.chunk_next (h : Pulling m image next t st) (hapi : api.Lawful) (hworks : env.Works)
    (hu : Usable m) (hlen : image.length = m.size.toNat) (hdigest : sha256 image = m.sha256)
    {evt : OtaEvent} (hnext : next < (totalChunks m).toNat)
    (hpayload : evt.payload = (tokenMessage m image (.piece next)).payload) :
    ∃ l, Reacted m image st (handleChunk sha256 api env st evt)
      (Pull.react (totalChunks m).toNat .pulling next (.piece next)) l := by
  have hlt : t.nextChunk < totalChunks m := by
    rw [UInt32.lt_iff_toNat_lt, h.next]
    exact hnext
  obtain ⟨hchunk, hsha⟩ := handleChunk_next sha256 api h hu hlen hlt hpayload env
  have htouched : Pulling m image next { t with lastActivityMs := env.nowMs } (st.touched env t) :=
    { h with rx := rfl }
  rw [hchunk]
  by_cases hmore : next + 1 < (totalChunks m).toNat
  · obtain ⟨t', l, hpulling, hretries, hlog, hsent⟩ :=
      acceptChunk_next hapi hworks hu htouched hlt hmore hsha
    rw [Pull.react_more hmore]
    refine ⟨l, ⟨t', hpulling⟩, hlog, hsent, ?_⟩
    intro u hrx hmax
    have hsame : t' = u := Option.some.inj (hpulling.rx.symm.trans hrx)
    rw [← hsame, hretries] at hmax
    exact absurd hmax (by decide)
  · -- the image ends with this chunk
    have hlast : t.totalChunks ≤ t.nextChunk + 1 := by
      rw [h.total, UInt32.le_iff_toNat_le, toNat_next hu hlt, h.next]
      omega
    have hall : t.sha ++ pieceOf m image next = image := by
      have hend := mt (lt_totalChunks_iff hu (t.nextChunk + 1)).mpr
        (UInt32.not_lt.mpr (h.total ▸ hlast))
      rw [toNat_next hu hlt, h.next] at hend
      rw [hsha]
      exact List.take_of_length_le (by omega)
    obtain ⟨l, hupdated, hlog, hsent⟩ :=
      acceptChunk_last hapi hworks htouched hlast hall hlen hdigest
    rw [Pull.react_last hmore]
    refine ⟨l, hupdated, hlog, hsent, ?_⟩
    intro u hrx _
    rw [hupdated.rx] at hrx
    cases hrx

/-- Another chunk arrives. -/
theorem Pulling.chunk_other (h : Pulling m image next t st) (hu : Usable m)
    (hlen : image.length = m.size.toNat) {evt : OtaEvent} {j : Nat} (hother : j ≠ next)
    (hj : j < (totalChunks m).toNat)
    (hpayload : evt.payload = (tokenMessage m image (.piece j)).payload) (env : OtaEnv) :
    ∃ l, Reacted m image st (handleChunk sha256 api env st evt)
      (Pull.react (totalChunks m).toNat .pulling next (.piece j)) l := by
  have hj' : (UInt32.ofNat j).toNat = j :=
    UInt32.toNat_ofNat_of_lt' (lt_trans hj (totalChunks m).toNat_lt)
  have hlt : UInt32.ofNat j < totalChunks m := by
    rw [UInt32.lt_iff_toNat_lt, hj']
    exact hj
  have hne := pieceOf_ne_nil hu hlen hlt
  rw [hj'] at hne
  rw [handleChunk_other h (by rw [hj']; exact hother) hne (by rw [hj']; exact hpayload) env,
    Pull.react_other hother]
  refine ⟨[.send t.connHandle bitleMsgOtaReq t.peer
    (beBytes 4 t.manifest.version.toNat ++ beBytes 4 t.nextChunk.toNat)],
    ⟨{ t with lastActivityMs := env.nowMs }, { h with rx := rfl }⟩, rfl, ?_, ?_⟩
  · rw [h.manifest, h.next]
    rfl
  · intro u hrx hmax
    cases hrx
    exact ⟨t, h.rx, hmax⟩

/-- **A chunk arrives.** -/
theorem Stage.chunk {phase : Pull.Phase} (h : Stage m image phase next st) (hapi : api.Lawful)
    (hworks : env.Works) (hu : Usable m) (hlen : image.length = m.size.toNat)
    (hdigest : sha256 image = m.sha256) {evt : OtaEvent} {j : Nat} (hj : j < (totalChunks m).toNat)
    (hpayload : evt.payload = (tokenMessage m image (.piece j)).payload) :
    ∃ l, Reacted m image st (handleChunk sha256 api env st evt)
      (Pull.react (totalChunks m).toNat phase next (.piece j)) l := by
  by_cases hphase : phase = .pulling
  · subst hphase
    obtain ⟨t, h⟩ := h
    by_cases hnext : j = next
    · subst hnext
      exact h.chunk_next hapi hworks hu hlen hdigest hj hpayload
    · exact h.chunk_other hu hlen hnext hj hpayload env
  · -- there is no transfer
    have hrx : st.rx = none := by
      cases phase with
      | pulling => exact absurd rfl hphase
      | stopped => exact h
      | complete => exact Updated.rx h
    have hsame : handleChunk sha256 api env st evt = st := by
      unfold handleChunk
      rw [hrx]
    rw [hsame, Pull.react_of_ne hphase]
    exact ⟨[], h, (List.append_nil _).symm, rfl, fun t' ht' hmax => ⟨t', ht', hmax⟩⟩

end Accept

end Bitle
