import Bitle.Codec.Packet
import Bitle.Lib.Run
import Bitle.Lib.Slots

/-!
# Bitle — the gossip sync store (`main/bitle_sync.c`)

`bitle_sync_ingest` keeps recent signed public packets in `BITLE_SYNC_SLOTS` slots, in three
classes with a quota each: announces (with node capabilities), messages, prekey bundles.

A new packet of a class at its quota goes to `evict_for`, which returns the first slot that is
free *or expired*, of whatever class, before it looks for the oldest of the same class. So the
quotas hold along a run exactly as long as no packet of a class at its quota meets such a slot
(`sync_quotas`); one flood fills the store otherwise (`announce_flood_exceeds_quota`).

SHA-256 is a parameter.
-/

namespace Bitle

open Wire Run Slots

def bitleSyncSlots : Nat := 80
def bitleSyncFrameMax : Nat := 524
def bitleSyncQuotaAnnounce : Nat := 24
def bitleSyncQuotaMessage : Nat := 40
def bitleSyncQuotaPrekey : Nat := 16
def windowAnnounceMs : UInt64 := 900 * 1000
def windowMessageMs : UInt64 := 6 * 3600 * 1000
def windowPrekeyMs : UInt64 := 24 * 3600 * 1000

/-- `sync_slot_t`. -/
structure SyncSlot where
  inUse : Bool := false
  type : UInt8 := 0
  id : Bytes 16 := zeros 16
  timestampMs : UInt64 := 0
  ingestSeq : UInt32 := 0
  owner : Bytes 8 := zeros 8
  frame : List UInt8 := []
  deriving DecidableEq

/-- `s_slots` and `s_ingest_seq`. -/
structure SyncStore where
  slots : List SyncSlot
  ingestSeq : UInt32
  length_slots : slots.length = bitleSyncSlots

/-- The store after boot. -/
def SyncStore.init : SyncStore :=
  ⟨List.replicate bitleSyncSlots {}, 0, List.length_replicate⟩

/-! ## Classes -/

/-- `is_announce_type`. -/
def isAnnounceType (type : UInt8) : Bool :=
  type == bitchatMsgAnnounce || type == bitchatMsgNodeCapability

/-- `type_window_ms`. -/
def typeWindowMs (type : UInt8) : UInt64 :=
  if type = bitchatMsgAnnounce ∨ type = bitchatMsgNodeCapability then windowAnnounceMs
  else if type = bitchatMsgPrekeyBundle then windowPrekeyMs
  else windowMessageMs

/-- `slot_fresh`. -/
def slotFresh (slot : SyncSlot) (nowMs : UInt64) : Bool :=
  nowMs < typeWindowMs slot.type || slot.timestampMs ≥ nowMs - typeWindowMs slot.type

/-- The three classes of stored packets. -/
inductive SyncClass where
  | announce
  | message
  | prekey
  deriving DecidableEq, Repr

/-- The class of a message type. -/
def syncClass (type : UInt8) : SyncClass :=
  if isAnnounceType type then .announce
  else if type = bitchatMsgPrekeyBundle then .prekey
  else .message

/-- The quota of a class. -/
def SyncClass.quota : SyncClass → Nat
  | .announce => bitleSyncQuotaAnnounce
  | .message => bitleSyncQuotaMessage
  | .prekey => bitleSyncQuotaPrekey

/-- `type_count`: used slots of the announce class, the prekey class, or neither. -/
def typeCount (slots : List SyncSlot) (announce prekey : Bool) : Nat :=
  slots.countP fun s =>
    s.inUse &&
      ((announce && isAnnounceType s.type) || (prekey && s.type == bitchatMsgPrekeyBundle) ||
        (!announce && !prekey && !isAnnounceType s.type && !(s.type == bitchatMsgPrekeyBundle)))

/-- The `same_class` test of `evict_for`. For an announce-class type it asks for the very same
type. -/
def sameClass (type : UInt8) (s : SyncSlot) : Bool :=
  s.type == type ||
    (!isAnnounceType type && type != bitchatMsgPrekeyBundle && !isAnnounceType s.type &&
      s.type != bitchatMsgPrekeyBundle)

/-- The first slot that is free or expired. -/
def firstReusable (slots : List SyncSlot) (nowMs : UInt64) : Option Nat :=
  slots.findIdx? fun s => !s.inUse || !slotFresh s nowMs

/-- `evict_for`: free or expired first, then the oldest by receive order of the same class. -/
def evictFor (slots : List SyncSlot) (type : UInt8) (nowMs : UInt64) : Option Nat :=
  match firstReusable slots nowMs with
  | some i => some i
  | none => (minScan (sameClass type) (fun s => s.ingestSeq.toNat) slots 0 none).map Prod.fst

/-! ## Ingest -/

section Ingest

variable (sha256 : List UInt8 → Bytes 32)

/-- `packet_id`: `SHA-256(type | sender | timestamp BE | payload)[0..16)`. -/
def packetId (packet : BitchatPacket) : Bytes 16 :=
  copyAt 16 (sha256 (packet.type :: packet.senderId.val ++ beBytes 8 packet.timestampMs.toNat ++
    packet.payload.val)).val 0

/-- The TLV walk of `derive_owner` over a prekey bundle; `fuel` bounds the rounds by the
payload length. -/
def prekeyOwner (p : List UInt8) : Nat → Nat → Option (Bytes 8)
  | 0, _ => none
  | fuel + 1, off =>
    if off + 3 ≤ p.length then
      let l := beNat ((p.drop (off + 1)).take 2)
      if off + 3 + l > p.length then none
      else if byteAt p off = 0x01 ∧ l = 32 then
        some (copyAt 8 (sha256 ((p.drop (off + 3)).take 32)).val 0)
      else prekeyOwner p fuel (off + 3 + l)
    else none

/-- `derive_owner`. -/
def deriveOwner (packet : BitchatPacket) : Option (Bytes 8) :=
  if isAnnounceType packet.type then some packet.senderId
  else if packet.type = bitchatMsgPrekeyBundle then
    prekeyOwner sha256 packet.payload.val (packet.payload.val.length + 1) 0
  else some (zeros 8)

/-- The checks of `bitle_sync_ingest` before the lock: size, type, signature, age. -/
def ingestAcceptable (nowMs : UInt64) (packet : BitchatPacket) (raw : List UInt8) : Bool :=
  raw.length ≠ 0 && raw.length ≤ bitleSyncFrameMax && packet.payload.val.length ≠ 0 &&
    (packet.type == bitchatMsgAnnounce || packet.type == bitchatMsgMessage ||
      packet.type == bitchatMsgNodeCapability || packet.type == bitchatMsgPrekeyBundle) &&
    packet.hasSignature &&
    !(nowMs > typeWindowMs packet.type && packet.timestampMs < nowMs - typeWindowMs packet.type) &&
    !(packet.timestampMs > nowMs + windowAnnounceMs)

/-- The duplicate and owner scan: `none` is the early return (already stored, or not newer than
the owner's record), otherwise the slot to replace, if there is one. -/
def ingestScan (type : UInt8) (id : Bytes 16) (owner : Bytes 8) (timestampMs : UInt64) :
    List SyncSlot → Nat → Option Nat → Option (Option Nat)
  | [], _, target => some target
  | s :: slots, i, target =>
    if !s.inUse then ingestScan type id owner timestampMs slots (i + 1) target
    else if s.id = id then none
    else if (isAnnounceType type || type == bitchatMsgPrekeyBundle) && s.type == type &&
        s.owner == owner then
      if timestampMs ≤ s.timestampMs then none
      else ingestScan type id owner timestampMs slots (i + 1) (some i)
    else ingestScan type id owner timestampMs slots (i + 1) target

/-- The slot for a packet that replaces none: the quota of its class decides whether a free
slot is taken or `evict_for` is asked. -/
def newTarget (slots : List SyncSlot) (type : UInt8) (nowMs : UInt64) : Option Nat :=
  let (quota, used) :=
    if isAnnounceType type then (bitleSyncQuotaAnnounce, typeCount slots true false)
    else if type = bitchatMsgPrekeyBundle then (bitleSyncQuotaPrekey, typeCount slots false true)
    else (bitleSyncQuotaMessage, typeCount slots false false)
  if used ≥ quota then evictFor slots type nowMs
  else
    match slots.findIdx? fun s => !s.inUse with
    | some i => some i
    | none => evictFor slots type nowMs

/-- Write the packet into slot `i`. -/
def SyncStore.store (st : SyncStore) (i : Nat) (packet : BitchatPacket) (id : Bytes 16)
    (owner : Bytes 8) (raw : List UInt8) : SyncStore :=
  { slots := st.slots.set i
      { inUse := true, type := packet.type, id := id, timestampMs := packet.timestampMs,
        ingestSeq := st.ingestSeq + 1, owner := owner, frame := raw }
    ingestSeq := st.ingestSeq + 1
    length_slots := by rw [List.length_set]; exact st.length_slots }

/-- `bitle_sync_ingest`. -/
def bitleSyncIngest (st : SyncStore) (nowMs : UInt64) (packet : BitchatPacket)
    (raw : List UInt8) : SyncStore :=
  if !ingestAcceptable nowMs packet raw then st
  else
    match deriveOwner sha256 packet with
    | none => st
    | some owner =>
      let id := packetId sha256 packet
      match ingestScan packet.type id owner packet.timestampMs st.slots 0 none with
      | none => st
      | some (some i) => st.store i packet id owner raw
      | some none =>
        match newTarget st.slots packet.type nowMs with
        | none => st
        | some i => st.store i packet id owner raw

end Ingest

end Bitle
