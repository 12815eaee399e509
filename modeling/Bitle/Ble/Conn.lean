import Bitle.Codec.Packet
import Bitle.Mesh.Link
import Bitle.Noise.Links

/-!
# Bitle — BLE connections (`main/bitchat_ble.c`)

The module keeps a table of six connections, the links it registered for them, and four addresses
that it does not dial for a while. It reacts to the events of NimBLE: a phone or another node
connects, subscribes and goes away, a scan finds another node, and the steps of the discovery on a
connection that was dialed. The main loop polls it, and the noise worker hangs up a connection.

Every callback, poll and call is one step. What NimBLE answers is in `BleEnv`; what the module asks
of NimBLE and of the other modules is in the log.
-/

namespace Bitle.Ble

open Wire Bitle.Link

/-- `BITLE_BLE_MAX_CONNECTIONS` = `CONFIG_BT_NIMBLE_MAX_CONNECTIONS` of `sdkconfig.defaults`. -/
def bitleBleMaxConnections : Nat := 6

def bitleCentralMaxLinks : Nat := 2
def bitleCentralReserve : Nat := 2
def bitleScanIntervalMs : UInt64 := 60000
def bitleDenyTtlMs : UInt64 := 120000
def bitleSubscribeTimeoutMs : UInt64 := 30000

/-- `BLE_HS_EDONE`. -/
def bleHsEdone : UInt16 := 14

/-- `BITLE_DEVICE_NAME`. -/
def bitleDeviceName : List UInt8 := "Bitle Relay".toList.map fun ch => UInt8.ofNat ch.toNat

/-- `ble_addr_t`. -/
structure BleAddr where
  type : UInt8 := 0
  val : Bytes 6 := zeros 6
  deriving DecidableEq

/-- `ble_conn_state_t`; the default is what `memset` leaves. -/
structure BleConnState where
  inUse : Bool := false
  subscribed : Bool := false
  isCentral : Bool := false
  connHandle : UInt16 := 0
  remoteValHandle : UInt16 := 0
  svcEndHandle : UInt16 := 0
  peerAddr : BleAddr := {}
  connectedAtMs : UInt64 := 0
  deriving DecidableEq

/-- `deny_entry_t`. -/
structure DenyEntry where
  inUse : Bool := false
  addr : BleAddr := {}
  untilMs : UInt64 := 0
  deriving DecidableEq

/-- The calls of the module to NimBLE, to the noise worker and to the mesh. -/
inductive BleCall where
  | advertise
  | scan
  | connect (addr : BleAddr)
  | terminate (connHandle : UInt16)
  | discService (connHandle : UInt16)
  | discChrs (connHandle startHandle endHandle : UInt16)
  | discDscs (connHandle valHandle endHandle : UInt16)
  | writeCccd (connHandle attrHandle : UInt16)
  | notifySubscribed (connHandle : UInt16)
  | resetConnection (connHandle : UInt16)
  | inbound (connHandle : UInt16) (data : List UInt8)
  deriving DecidableEq

/-- What NimBLE answers during one step: which procedures it starts, whom a connection leads to and
whether this node dialed it, and whether it is scanning or dialing. -/
structure BleEnv where
  nowMs : UInt64 := 0
  starts : BleCall → Bool := fun _ => true
  connFind : UInt16 → Option (BleAddr × Bool) := fun _ => none
  discActive : Bool := false
  connActive : Bool := false

/-- The state of the module, with the links and its calls so far. -/
structure BleState (F S C : Type) where
  connections : List BleConnState := List.replicate bitleBleMaxConnections {}
  deny : List DenyEntry := List.replicate 4 {}
  links : List (Link.LinkEntry F S C) := linkTable
  hostSynced : Bool := false
  lastScanMs : UInt64 := 0
  log : List BleCall := []

variable {F S C : Type}

/-! ## The tables -/

/-- `find_conn`: the slot of the handle. -/
def findConn (connections : List BleConnState) (connHandle : UInt16) : Option Nat :=
  connections.findIdx? fun c => c.inUse && c.connHandle == connHandle

/-- `count_connections`. -/
def countConnections (connections : List BleConnState) (centralsOnly : Bool) : Nat :=
  connections.countP fun c => c.inUse && (!centralsOnly || c.isCentral)

/-- `alloc_conn`: the slot of the handle, or the first free one, cleared and taken. -/
def allocConn (connections : List BleConnState) (connHandle : UInt16) :
    Option (Nat × List BleConnState) :=
  match findConn connections connHandle with
  | some i => some (i, connections)
  | none =>
    match connections.findIdx? fun c => !c.inUse with
    | some i => some (i, connections.set i { inUse := true, connHandle := connHandle })
    | none => none

/-- `addr_denied`. -/
def addrDenied (deny : List DenyEntry) (addr : BleAddr) (now : UInt64) : Bool :=
  deny.any fun e => e.inUse && now < e.untilMs && e.addr == addr

/-- The loop of `deny_addr` from slot `i` on: the first slot that is free or has run out, else the
one that runs out first. -/
def denySlot (now : UInt64) : List DenyEntry → Nat → Nat × UInt64 → Nat
  | [], _, slot => slot.1
  | e :: es, i, slot =>
    if !e.inUse || e.untilMs ≤ now then i
    else denySlot now es (i + 1) (if e.untilMs < slot.2 then (i, e.untilMs) else slot)

/-- `deny_addr`. -/
def denyAddr (deny : List DenyEntry) (addr : BleAddr) (now : UInt64) : List DenyEntry :=
  deny.set (denySlot now deny 0 (0, (deny.headD {}).untilMs))
    { inUse := true, addr := addr, untilMs := now + bitleDenyTtlMs }

/-- `already_linked_to`. -/
def alreadyLinkedTo (connections : List BleConnState) (addr : BleAddr) : Bool :=
  connections.any fun c => c.inUse && c.peerAddr == addr

/-- There is no room for another dialed link, or only what is kept for phones. -/
def centralsFull (connections : List BleConnState) : Bool :=
  countConnections connections true ≥ bitleCentralMaxLinks ||
    countConnections connections false + bitleCentralReserve ≥ bitleBleMaxConnections

namespace BleState

/-- Record a call. -/
def call (s : BleState F S C) (c : BleCall) : BleState F S C := { s with log := s.log ++ [c] }

/-- Write the connection in a slot. -/
def setConn (s : BleState F S C) (i : Nat) (c : BleConnState) : BleState F S C :=
  { s with connections := s.connections.set i c }

/-- `bitle_link_register` with `ble_link_send_cb`. -/
def register (s : BleState F S C) (bleLinkSendCb : F) (connHandle : UInt16) : BleState F S C :=
  { s with links := (bitleLinkRegister s.links connHandle .ble (some bleLinkSendCb)).2 }

/-- `bitle_link_unregister`. -/
def unregister (s : BleState F S C) (connHandle : UInt16) : BleState F S C :=
  { s with links := bitleLinkUnregister s.links connHandle }

/-- The connection of a handle, with its slot. -/
def conn? (s : BleState F S C) (connHandle : UInt16) : Option (Nat × BleConnState) :=
  (findConn s.connections connHandle).bind fun i => (s.connections[i]?).map (i, ·)

end BleState

/-- `drop_conn`. -/
def dropConn (s : BleState F S C) (connHandle : UInt16) : BleState F S C :=
  match findConn s.connections connHandle with
  | none => s
  | some i => (s.unregister connHandle).setConn i {}

/-! ## Sending -/

/-- What a send asks of NimBLE: a write to the peer's characteristic, or a notification. -/
inductive BleTx where
  | write (connHandle remoteValHandle : UInt16) (data : List UInt8)
  | notify (connHandle : UInt16) (data : List UInt8)
  deriving DecidableEq

/-- The errors of a send: `BLE_HS_ENOTCONN` and `BLE_HS_EINVAL`. -/
inductive BleTxErr where
  | notConn
  | inval
  deriving DecidableEq

/-- `link_send`. -/
def linkSend (c : BleConnState) (data : List UInt8) : Except BleTxErr BleTx :=
  if c.isCentral then
    if c.remoteValHandle = 0 then .error .inval
    else .ok (.write c.connHandle c.remoteValHandle data)
  else .ok (.notify c.connHandle data)

/-- `ble_link_send_cb`: it reads the connection at the time of the send. -/
def bleLinkSendCb (s : BleState F S C) (handle : UInt16) (data : List UInt8) :
    Except BleTxErr BleTx :=
  match s.conn? handle with
  | none => .error .notConn
  | some (_, c) => if c.subscribed then linkSend c data else .error .notConn

/-! ## The central engine -/

section Central

variable (cb : F) (env : BleEnv)

/-- `central_disc_failed`. -/
def centralDiscFailed (s : BleState F S C) (connHandle : UInt16) : BleState F S C :=
  let s :=
    match s.conn? connHandle with
    | none => s
    | some (_, c) => { s with deny := denyAddr s.deny c.peerAddr env.nowMs }
  s.call (.terminate connHandle)

/-- A procedure on a dialed connection; if it does not start, the discovery failed. -/
def tryStart (s : BleState F S C) (connHandle : UInt16) (c : BleCall) : BleState F S C :=
  if env.starts c then s.call c else centralDiscFailed env (s.call c) connHandle

/-- `central_cccd_written`. -/
def centralCccdWritten (s : BleState F S C) (connHandle status : UInt16) : BleState F S C :=
  if status ≠ 0 then centralDiscFailed env s connHandle
  else
    match s.conn? connHandle with
    | none => s
    | some (i, c) =>
      ((s.setConn i { c with subscribed := true }).register cb connHandle).call
        (.notifySubscribed connHandle)

/-- `central_dsc_cb`; a descriptor is its 16-bit UUID, if it has one, and its handle. -/
def centralDscCb (s : BleState F S C) (connHandle status : UInt16)
    (dsc : Option (Option UInt16 × UInt16)) : BleState F S C :=
  match s.conn? connHandle, dsc with
  | none, _ => s
  | some _, some (some uuid, handle) =>
    if status = 0 ∧ uuid = 0x2902 then tryStart env s connHandle (.writeCccd connHandle handle)
    else if status = bleHsEdone ∨ status = 0 then s
    else centralDiscFailed env s connHandle
  | some _, _ =>
    if status = bleHsEdone ∨ status = 0 then s else centralDiscFailed env s connHandle

/-- `central_chr_cb`. -/
def centralChrCb (s : BleState F S C) (connHandle status : UInt16) (valHandle : Option UInt16) :
    BleState F S C :=
  match s.conn? connHandle with
  | none => s
  | some (i, c) =>
    match valHandle with
    | some valHandle =>
      if status = 0 then s.setConn i { c with remoteValHandle := valHandle }
      else chrDone s c
    | none => chrDone s c
where
  /-- The end of the characteristics, or an error. -/
  chrDone (s : BleState F S C) (c : BleConnState) : BleState F S C :=
    if status = bleHsEdone then
      if c.remoteValHandle = 0 then centralDiscFailed env s connHandle
      else tryStart env s connHandle (.discDscs connHandle c.remoteValHandle c.svcEndHandle)
    else centralDiscFailed env s connHandle

/-- `central_svc_cb`; a service is its first and its last handle. -/
def centralSvcCb (s : BleState F S C) (connHandle status : UInt16)
    (service : Option (UInt16 × UInt16)) : BleState F S C :=
  match s.conn? connHandle with
  | none => s
  | some (i, c) =>
    match service with
    | some (startHandle, endHandle) =>
      if status = 0 then
        tryStart env (s.setConn i { c with svcEndHandle := endHandle }) connHandle
          (.discChrs connHandle startHandle endHandle)
      else svcDone s c
    | none => svcDone s c
where
  /-- The end of the services, or an error. -/
  svcDone (s : BleState F S C) (c : BleConnState) : BleState F S C :=
    if status = bleHsEdone then
      if c.svcEndHandle = 0 then centralDiscFailed env s connHandle else s
    else centralDiscFailed env s connHandle

/-- `maybe_connect_to_bitle`; the name is none if the advertisement does not parse. -/
def maybeConnectToBitle (s : BleState F S C) (name : Option (List UInt8)) (addr : BleAddr) :
    BleState F S C :=
  if name ≠ some bitleDeviceName then s
  else if addrDenied s.deny addr env.nowMs || alreadyLinkedTo s.connections addr then s
  else if centralsFull s.connections then s
  else s.call (.connect addr)

/-! ## Events -/

/-- A connection is up. -/
def gapConnected (s : BleState F S C) (connHandle : UInt16) : BleState F S C :=
  match allocConn s.connections connHandle with
  | none => s.call (.terminate connHandle)
  | some (i, connections) =>
    let c := (connections[i]?).getD {}
    let c := { c with connectedAtMs := env.nowMs }
    let c :=
      match env.connFind connHandle with
      | none => c
      | some (addr, master) => { c with peerAddr := addr, isCentral := master }
    let s := { s with connections := connections.set i c }
    let s := if c.isCentral then tryStart env s connHandle (.discService connHandle) else s
    s.call .advertise

/-- A peer subscribes, or takes its subscription back. -/
def gapSubscribe (s : BleState F S C) (connHandle : UInt16) (curNotify curIndicate : Bool) :
    BleState F S C :=
  match s.conn? connHandle with
  | none => s
  | some (i, c) =>
    let subscribed := curNotify || curIndicate
    let s := s.setConn i { c with subscribed := subscribed }
    if subscribed && !c.subscribed then
      (s.register cb connHandle).call (.notifySubscribed connHandle)
    else if !subscribed && c.subscribed then s.unregister connHandle
    else s

/-- A write or a notification with a frame. -/
def received (s : BleState F S C) (connHandle : UInt16) (data : List UInt8) : BleState F S C :=
  if data.length = 0 ∨ data.length > bitchatBleMaxPacketSize then s
  else s.call (.inbound connHandle data)

/-- The watchdog of `bitchat_ble_poll` has given a connection enough time to subscribe. -/
def overdue (now : UInt64) (c : BleConnState) : Bool :=
  !(!c.inUse || c.subscribed || c.connectedAtMs == 0) &&
    now - c.connectedAtMs > bitleSubscribeTimeoutMs

/-- `maybe_start_scan`. -/
def maybeStartScan (s : BleState F S C) : BleState F S C :=
  if !s.hostSynced || env.nowMs - s.lastScanMs < bitleScanIntervalMs then s
  else if env.discActive || env.connActive then s
  else if centralsFull s.connections then s
  else { s with lastScanMs := env.nowMs }.call .scan

/-- `bitchat_ble_poll`: each round of its loop only touches its own slot. -/
def bitchatBlePoll (s : BleState F S C) : BleState F S C :=
  maybeStartScan env
    { s with
      connections := s.connections.map fun c =>
        if overdue env.nowMs c then { c with connectedAtMs := env.nowMs } else c
      log := s.log ++ (s.connections.filter (overdue env.nowMs)).map fun c =>
        .terminate c.connHandle }

/-- `bitchat_ble_disconnect`. -/
def bitchatBleDisconnect (s : BleState F S C) (connHandle : UInt16) : BleState F S C :=
  centralDiscFailed env s connHandle

/-- What happens to the module: `on_sync`, the events of NimBLE, the poll, a call of the noise
worker, and, in the same link table, the start of the trunk. -/
inductive BleEvent (F : Type) where
  | sync
  | connect (status connHandle : UInt16)
  | disconnect (connHandle : UInt16)
  | disc (name : Option (List UInt8)) (addr : BleAddr)
  | subscribe (connHandle : UInt16) (curNotify curIndicate : Bool)
  | cccdWritten (connHandle status : UInt16)
  | dsc (connHandle status : UInt16) (dsc : Option (Option UInt16 × UInt16))
  | chr (connHandle status : UInt16) (valHandle : Option UInt16)
  | svc (connHandle status : UInt16) (service : Option (UInt16 × UInt16))
  | received (connHandle : UInt16) (data : List UInt8)
  | poll
  | hangUp (connHandle : UInt16)
  | trunk (loraLinkSend : F)

/-- One step. -/
def bleStep (s : BleState F S C) : BleEvent F → BleState F S C
  | .sync => { s with hostSynced := true }.call .advertise
  | .connect status connHandle =>
    if status = 0 then gapConnected env s connHandle else s.call .advertise
  | .disconnect connHandle =>
    (dropConn (s.call (.resetConnection connHandle)) connHandle).call .advertise
  | .disc name addr => maybeConnectToBitle env s name addr
  | .subscribe connHandle curNotify curIndicate => gapSubscribe cb s connHandle curNotify curIndicate
  | .cccdWritten connHandle status => centralCccdWritten cb env s connHandle status
  | .dsc connHandle status dsc => centralDscCb env s connHandle status dsc
  | .chr connHandle status valHandle => centralChrCb env s connHandle status valHandle
  | .svc connHandle status service => centralSvcCb env s connHandle status service
  | .received connHandle data => received s connHandle data
  | .poll => bitchatBlePoll env s
  | .hangUp connHandle => bitchatBleDisconnect env s connHandle
  | .trunk loraLinkSend =>
    { s with links := (bitleLinkRegister s.links bitleLoraLinkHandle .lora (some loraLinkSend)).2 }

end Central

end Bitle.Ble
