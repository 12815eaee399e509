import Bitle.Courier.Envelope
import Bitle.Store.Mailbox

/-!
# Bitle — the courier (`main/bitle_courier.c`)

Deposits are checked and put into the flash mailbox; a verified announce walks the mailbox and
delivers, floods or sprays what it finds. The walk is `bitle_store_iterate` with the callback
`announce_iter`, which runs with the store mutex held. Deletes and rewrites are collected and
made after the walk for that reason; but the callback also asks for a slot of the side table,
and `side_get` looks into the store when it finds no free slot.

`CourierEnv` gives what a call finds outside: the clock of the store, the outcome of the flash
calls of each store call, and of each `noise_send_packet`. `sends` is the record of the sends.
-/

namespace Bitle

open Wire

def bitleCourierMaxEnvelopes : Nat := 128
def bitleCourierMaxPerDepositor : Nat := 8
def courierDepositorLen : Nat := 8
/-- `MAX_LIFETIME_S`: 24 hours and one of slack. -/
def courierMaxLifetimeS : UInt64 := 25 * 60 * 60
def courierRemoteCooldownS : UInt32 := 600
def announceMaxDeliver : Nat := 8
def announceMaxSpray : Nat := 6

/-- What is not in the repository: the hashes, and the CRC of the store. -/
structure CourierLib extends CourierHash where
  crc32 : UInt32 → List UInt8 → UInt32

/-- The outcome of what a call asks of the platform. -/
structure CourierEnv where
  nowUnixS : UInt32 := 0
  flash : Nat → FlashEnv := fun _ => .good
  sendOk : Nat → Bool := fun _ => true

/-! ## Side state -/

/-- `side_state_t`. -/
structure SideState where
  inUse : Bool := false
  key : StoreKey := zeros 16
  sprayedMask : UInt32 := 0
  lastRemoteS : UInt32 := 0
  deriving DecidableEq

/-- `s_side`. -/
abbrev SideTable : Type := { l : List SideState // l.length = bitleCourierMaxEnvelopes }

namespace SideTable

/-- The table after `memset`. -/
def zero : SideTable := ⟨List.replicate bitleCourierMaxEnvelopes {}, List.length_replicate⟩

/-- Writes slot `i`. -/
def set (side : SideTable) (i : Nat) (s : SideState) : SideTable :=
  ⟨side.val.set i s, by rw [List.length_set, side.property]⟩

/-- Slot `i`, as a pointer to it reads it. -/
def slot (side : SideTable) (i : Nat) : SideState := side.val.getD i {}

end SideTable

/-- The loop of `side_get` that looks for a slot whose envelope has left the store. -/
def reclaimSide (store : StoreState) : List SideState → Nat → Except StoreFault (Option Nat)
  | [], _ => .ok none
  | s :: rest, i => do
    let (found, _) ← bitleStoreContains store s.key
    if found then reclaimSide store rest (i + 1) else return some i

/-- `side_get`: the slot of `key`, by its number. -/
def sideGet (store : StoreState) (side : SideTable) (key : StoreKey) (create : Bool) :
    Except StoreFault (Option Nat × SideTable) :=
  match side.val.findIdx? fun s => s.inUse && s.key == key with
  | some i => .ok (some i, side)
  | none =>
    if !create then .ok (none, side)
    else do
      let freeSlot ←
        match side.val.findIdx? fun s => !s.inUse with
        | some i => pure (some i)
        | none => reclaimSide store side.val 0
      match freeSlot with
      | none => return (none, side)
      | some i => return (some i, side.set i { inUse := true, key })

/-- `peer_bit`. -/
def peerBit (peerId : Bytes 8) : UInt32 :=
  let h := peerId.val.foldl (fun h b => (h ^^^ b.toUInt32) * 16777619) (2166136261 : UInt32)
  1 <<< (h &&& 31)

/-! ## The announce walk -/

/-- The arguments of `bitle_courier_peer_announced`. -/
structure Announce where
  connHandle : UInt16
  peerId : Bytes 8
  noiseKey : Bytes 32
  verified : Bool
  isDirect : Bool
  nowMs : UInt64

/-- `spray_op_t`: a rewrite that waits for the end of the walk. -/
structure SprayOp where
  key : StoreKey
  expiryS : UInt32
  copies : UInt8
  payload : List UInt8
  deriving DecidableEq

/-- Why an envelope is sent. -/
inductive HandoffKind where
  | deliver
  | flood
  | spray
  deriving DecidableEq

/-- One call of `noise_send_packet`, and the record of the store it was made for. -/
structure CourierSend where
  kind : HandoffKind
  key : StoreKey
  payload : List UInt8
  copies : UInt8
  ok : Bool
  deriving DecidableEq

/-- `announce_ctx_t` and the side table. -/
structure AnnounceCtx where
  side : SideTable
  deliverKeys : List StoreKey := []
  sprayOps : List SprayOp := []
  sent : UInt16 := 0
  sends : List CourierSend := []

/-- `send_envelope`. -/
def sendEnvelope (env : CourierEnv) (ctx : AnnounceCtx) (kind : HandoffKind) (key : StoreKey)
    (envelope : Envelope) (copies : UInt8) : Bool × AnnounceCtx :=
  match encodeEnvelope envelope copies bitleStorePayloadMax with
  | none => (false, ctx)
  | some payload =>
    let ok := env.sendOk ctx.sends.length
    (ok, { ctx with sends := ctx.sends ++ [⟨kind, key, payload, copies, ok⟩] })

/-- The owner is on a direct link: the mail is handed over and marked for deletion. -/
def deliverMail (env : CourierEnv) (ctx : AnnounceCtx) (key : StoreKey) (envelope : Envelope) :
    AnnounceCtx :=
  if ctx.deliverKeys.length < announceMaxDeliver then
    match sendEnvelope env ctx .deliver key envelope 1 with
    | (true, ctx) => { ctx with deliverKeys := ctx.deliverKeys ++ [key], sent := ctx.sent + 1 }
    | (false, ctx) => ctx
  else ctx

/-- The owner was heard through the mesh: one copy goes out, with a pause for each envelope. -/
def floodRemote (env : CourierEnv) (nowMs : UInt64) (store : StoreState) (ctx : AnnounceCtx)
    (key : StoreKey) (envelope : Envelope) : Except StoreFault AnnounceCtx := do
  let (slot, side) ← sideGet store ctx.side key true
  let ctx := { ctx with side }
  let nowS : UInt32 := (nowMs / 1000).toUInt32
  match slot with
  | none => return ctx
  | some i =>
    if nowS - (side.slot i).lastRemoteS ≥ courierRemoteCooldownS then
      let ctx := { ctx with side := side.set i { side.slot i with lastRemoteS := nowS } }
      match sendEnvelope env ctx .flood key envelope 1 with
      | (true, ctx) => return { ctx with sent := ctx.sent + 1 }
      | (false, ctx) => return ctx
    else return ctx

/-- Another carrier is on a direct link: it gets half of the copies, once. -/
def sprayCarrier (env : CourierEnv) (peerId : Bytes 8) (store : StoreState) (ctx : AnnounceCtx)
    (key : StoreKey) (expiryS : UInt32) (copies : UInt8) (payload : List UInt8)
    (envelope : Envelope) : Except StoreFault AnnounceCtx := do
  let (slot, side) ← sideGet store ctx.side key true
  let ctx := { ctx with side }
  let bit := peerBit peerId
  match slot with
  | none => return ctx
  | some i =>
    if (side.slot i).sprayedMask &&& bit ≠ 0 then return ctx
    else
      let give := copies / 2
      match sendEnvelope env ctx .spray key envelope give with
      | (false, ctx) => return ctx
      | (true, ctx) =>
        let slot := side.slot i
        let ctx := { ctx with
          side := side.set i { slot with sprayedMask := slot.sprayedMask ||| bit }
          sent := ctx.sent + 1 }
        match encodeEnvelope envelope (copies - give)
            (bitleStorePayloadMax - courierDepositorLen) with
        | none => return ctx
        | some enc =>
          return { ctx with sprayOps := ctx.sprayOps ++
            [⟨key, expiryS, copies - give, payload.take courierDepositorLen ++ enc⟩] }

/-- `announce_iter`; it always goes on. -/
def announceIter (env : CourierEnv) (a : Announce) (tags : List (Bytes 16)) :
    StoreIterCb AnnounceCtx := fun store key expiryS flags payload ctx =>
  if payload.length ≤ courierDepositorLen then .ok (true, ctx)
  else
    match parseEnvelope (payload.drop courierDepositorLen) with
    | none => .ok (true, ctx)
    | some envelope => do
      let copies := if flags ≠ 0 then flags else 1
      if tagMatches envelope tags then
        if a.isDirect then return (true, deliverMail env ctx key envelope)
        else return (true, ← floodRemote env a.nowMs store ctx key envelope)
      else if a.isDirect && a.verified && copies > 1 &&
          ctx.sprayOps.length < announceMaxSpray &&
          payload.take courierDepositorLen != a.peerId.val then
        return (true, ← sprayCarrier env a.peerId store ctx key expiryS copies payload envelope)
      else return (true, ctx)

/-! ## The calls -/

/-- The store and the side table. -/
structure CourierState where
  store : StoreState
  side : SideTable

/-- The deferred deletes; the number of the next store call goes along. -/
def applyDeletes (env : CourierEnv) : Nat → List StoreKey → StoreState →
    Except StoreFault StoreState
  | _, [], store => .ok store
  | n, key :: keys, store => do
    let store ← bitleStoreDelete (env.flash n) store key
    applyDeletes env (n + 1) keys store

/-- The deferred rewrites; their results are not looked at. -/
def applySprays (lib : CourierLib) (env : CourierEnv) : Nat → List SprayOp → StoreState →
    Except StoreFault StoreState
  | _, [], store => .ok store
  | n, op :: ops, store => do
    let (_, store) ← bitleStorePut (env.flash n) lib.crc32 store op.key op.expiryS op.copies
      op.payload
    applySprays lib env (n + 1) ops store

/-- `bitle_courier_peer_announced`. -/
def bitleCourierPeerAnnounced (lib : CourierLib) (env : CourierEnv) (a : Announce)
    (st : CourierState) : Except StoreFault CourierState := do
  if !a.verified || bitleStoreCount st.store == 0 then return st
  let tags := candidateTags lib.toCourierHash a.noiseKey a.nowMs
  let (store, ctx) ← bitleStoreIterate (env.flash 0) env.nowUnixS (announceIter env a tags)
    st.store { side := st.side }
  let store ← applyDeletes env 1 ctx.deliverKeys store
  let store ← applySprays lib env (1 + ctx.deliverKeys.length) ctx.sprayOps store
  return { store, side := ctx.side }

/-- `depositor_count_iter`. -/
def depositorCountIter (depositor : Bytes 8) : StoreIterCb Nat := fun _ _ _ _ payload count =>
  .ok (true, if payload.length > courierDepositorLen &&
    payload.take courierDepositorLen == depositor.val then count + 1 else count)

/-- A deposit: the arguments of `bitle_courier_accept`. -/
structure Deposit where
  depositor : Bytes 8
  verified : Bool
  payload : List UInt8
  nowMs : UInt64

/-- The checks of `bitle_courier_accept` that look at the deposit only. -/
def Deposit.admissible (d : Deposit) : Option Envelope :=
  if !d.verified then none
  else
    match parseEnvelope d.payload with
    | none => none
    | some envelope =>
      if d.nowMs ≥ envelope.expiryMs then none
      else if envelope.expiryMs > d.nowMs + courierMaxLifetimeS * 1000 then none
      else if d.payload.length + courierDepositorLen > bitleStorePayloadMax then none
      else some envelope

/-- `bitle_courier_accept`. -/
def bitleCourierAccept (lib : CourierLib) (env : CourierEnv) (d : Deposit) (st : CourierState) :
    Except StoreFault (Bool × CourierState) := do
  match d.admissible with
  | none => return (false, st)
  | some envelope =>
    if bitleStoreCount st.store ≥ bitleCourierMaxEnvelopes then return (false, st)
    let key := envelopeKey lib.toCourierHash envelope
    let (found, store) ← bitleStoreContains st.store key
    if found then return (true, { st with store })
    let (store, count) ← bitleStoreIterate (env.flash 0) env.nowUnixS
      (depositorCountIter d.depositor) store 0
    if count ≥ bitleCourierMaxPerDepositor then return (false, { st with store })
    let expiryS : UInt32 := (envelope.expiryMs / 1000).toUInt32
    let (err, store) ← bitleStorePut (env.flash 1) lib.crc32 store key expiryS envelope.copies
      (d.depositor.val ++ d.payload)
    return (err == .ok, { st with store })

/-- Power-on and `bitle_courier_init`. -/
def bitleCourierInit (lib : CourierLib) (env : CourierEnv) (st : CourierState) :
    EspErr × CourierState :=
  let (err, store) := bitleStoreReboot (env.flash 0) lib.crc32 env.nowUnixS st.store
  (err, { store, side := .zero })

/-! ## Runs -/

/-- What happens to the courier. -/
inductive CourierEvent where
  | boot
  | accept (d : Deposit)
  | announced (a : Announce)

/-- One event. -/
def courierStep (lib : CourierLib) (st : CourierState) (env : CourierEnv) :
    CourierEvent → Except StoreFault CourierState
  | .boot => .ok (bitleCourierInit lib env st).2
  | .accept d => do
    let (_, st) ← bitleCourierAccept lib env d st
    return st
  | .announced a => bitleCourierPeerAnnounced lib env a st

/-- A run. -/
def courierRun (lib : CourierLib) :
    CourierState → List (CourierEnv × CourierEvent) → Except StoreFault CourierState
  | st, [] => .ok st
  | st, (env, event) :: rest => do
    let st ← courierStep lib st env event
    courierRun lib st rest

/-- The device before its first boot, with whatever the partition holds. -/
def CourierState.off (m : Flash.Mem) : CourierState := ⟨powerOn m [], .zero⟩

end Bitle
