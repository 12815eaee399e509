import Bitle.Lib.Bytes
import Bitle.Lib.Flash
import Bitle.Lib.Slots

/-!
# Bitle — the flash mailbox (`main/bitle_store.c`)

Records are appended to a ring of 4096-byte sectors; a RAM index holds the offset of every live
record. A record is deleted by clearing its `alive` byte in place, a sector by erasing it.
`bitle_store_init` rebuilds the index by walking every sector.

The flash calls may fail: `FlashEnv` gives the outcome of each during one operation. The store
mutex is part of the state, since `bitle_store_iterate` runs a callback with it held: a take of
a held mutex never returns (`StoreFault.deadlock`), nor does a loop that makes no progress
(`StoreFault.spin`).

`esp_crc32_le` is in ROM and is the parameter `crc32` (`espCrc32Le` where a run is computed). Offsets are plain numbers: all of them
stay below the partition size plus one record. `erased` is the history of erased sectors; the
code does not read it.
-/

namespace Bitle

open Wire Flash Slots

def storeSectorSize : Nat := 4096
def storeRecordMagic : UInt16 := 0xB17E
/-- "STOR". -/
def storeSectorMagic : UInt32 := 0x53544F52
def bitleStorePayloadMax : Nat := 520
def bitleStoreMaxRecords : Nat := 256
/-- The size of the `msgstore` partition in `partitions.csv`. -/
def storePartSize : Nat := 0x60000

/-- A key, `uint8_t[BITLE_STORE_KEY_LEN]`. -/
abbrev StoreKey : Type := Bytes 16

/-! ## What is on flash -/

/-- `store_record_hdr_t`. -/
@[ext]
structure StoreRecordHdr where
  magic : UInt16
  payloadLen : UInt16
  alive : UInt8
  flags : UInt8
  reserved : UInt16
  expiryUnixS : UInt32
  key : StoreKey
  crc : UInt32
  deriving DecidableEq

/-- `sizeof(store_record_hdr_t)`; the structure is packed. -/
def storeRecordHdrSize : Nat := 32

/-- `STORE_ALIVE_OFFSET`. -/
def storeAliveOffset : Nat := 4

/-- The header in memory order. -/
def StoreRecordHdr.bytes (h : StoreRecordHdr) : List UInt8 :=
  leBytes 2 h.magic.toNat ++ (leBytes 2 h.payloadLen.toNat ++ ([h.alive, h.flags] ++
    (leBytes 2 h.reserved.toNat ++ (leBytes 4 h.expiryUnixS.toNat ++
      (h.key.val ++ leBytes 4 h.crc.toNat)))))

/-- The header a read of 32 bytes fills. -/
def StoreRecordHdr.ofBytes (l : List UInt8) : StoreRecordHdr where
  magic := .ofNat (leNat (l.take 2))
  payloadLen := .ofNat (leNat ((l.drop 2).take 2))
  alive := byteAt l 4
  flags := byteAt l 5
  reserved := .ofNat (leNat ((l.drop 6).take 2))
  expiryUnixS := .ofNat (leNat ((l.drop 8).take 4))
  key := copyAt 16 l 12
  crc := .ofNat (leNat ((l.drop 28).take 4))

/-- `store_sector_hdr_t`. -/
structure StoreSectorHdr where
  magic : UInt32
  seq : UInt32
  deriving DecidableEq

/-- `sizeof(store_sector_hdr_t)`. -/
def storeSectorHdrSize : Nat := 8

def StoreSectorHdr.bytes (h : StoreSectorHdr) : List UInt8 :=
  leBytes 4 h.magic.toNat ++ leBytes 4 h.seq.toNat

def StoreSectorHdr.ofBytes (l : List UInt8) : StoreSectorHdr where
  magic := .ofNat (leNat (l.take 4))
  seq := .ofNat (leNat ((l.drop 4).take 4))

/-- `sector_base`. -/
def sectorBase (off : Nat) : Nat := off - off % storeSectorSize

/-- The sector bases, in the order of the `for` loops over the partition. -/
def sectorBases : List Nat :=
  (List.range (storePartSize / storeSectorSize)).map (· * storeSectorSize)

/-- `esp_crc32_le` as the ROM computes it: the reflected CRC-32, inverted on entry and exit. -/
def espCrc32Le (crc : UInt32) (buf : List UInt8) : UInt32 :=
  ~~~ buf.foldl (fun c b =>
    (List.range 8).foldl (fun c _ => if c &&& 1 = 1 then (c >>> 1) ^^^ 0xEDB88320 else c >>> 1)
      (c ^^^ b.toUInt32)) (~~~ crc)

/-- `record_crc`: `payload_len`, `flags`, `expiry_unix_s`, `key` and the payload, chained. -/
def recordCrc (crc32 : UInt32 → List UInt8 → UInt32) (hdr : StoreRecordHdr)
    (payload : List UInt8) : UInt32 :=
  let crc := crc32 0 (leBytes 2 hdr.payloadLen.toNat)
  let crc := crc32 crc [hdr.flags]
  let crc := crc32 crc (leBytes 4 hdr.expiryUnixS.toNat)
  let crc := crc32 crc hdr.key.val
  crc32 crc payload

/-! ## State and platform -/

/-- `store_index_entry_t`. -/
structure StoreIndexEntry where
  key : StoreKey
  offset : Nat
  expiryUnixS : UInt32
  seq : UInt32
  deriving DecidableEq

/-- `s_lock`: not created, free or taken. -/
inductive StoreLock where
  | absent
  | free
  | held
  deriving DecidableEq

/-- The partition and the variables of the module. `part` is `s_part != NULL`; `index` holds
the first `s_index_count` entries of `s_index`. -/
structure StoreState where
  mem : Mem
  part : Bool := false
  lock : StoreLock := .absent
  index : List StoreIndexEntry := []
  writeOff : Nat := 0
  nextSeq : UInt32 := 0
  headSeq : UInt32 := 0
  erased : List Nat := []

/-- Why a call does not return. -/
inductive StoreFault where
  | nullLock
  | deadlock
  | spin
  deriving DecidableEq, Repr

/-- The error codes of the module. -/
inductive EspErr where
  | ok
  | fail
  | invalidArg
  | noMem
  | notFound
  deriving DecidableEq, Repr

/-- The outcome of the platform calls during one operation: which reads and erases succeed, and
for a write that fails how many bytes it has programmed. -/
structure FlashEnv where
  partFound : Bool := true
  mutexCreated : Bool := true
  readOk : Nat → Bool := fun _ => true
  eraseOk : Nat → Bool := fun _ => true
  writeCut : Nat → Option Nat := fun _ => none

/-- Every call succeeds. -/
def FlashEnv.good : FlashEnv := {}

/-- `esp_partition_read` of `n` bytes returns `ESP_OK`. -/
def espPartitionReadOk (env : FlashEnv) (off n : Nat) : Bool :=
  env.readOk off && off + n ≤ storePartSize

/-- `esp_partition_write`. -/
def espPartitionWrite (env : FlashEnv) (m : Mem) (off : Nat) (data : List UInt8) : EspErr × Mem :=
  match env.writeCut off with
  | none => (.ok, program m off data)
  | some k => (.fail, program m off (data.take k))

/-- `xSemaphoreTake(s_lock, portMAX_DELAY)`. -/
def takeLock (st : StoreState) : Except StoreFault StoreState :=
  match st.lock with
  | .absent => .error .nullLock
  | .free => .ok { st with lock := .held }
  | .held => .error .deadlock

/-- `xSemaphoreGive(s_lock)`. -/
def giveLock (st : StoreState) : StoreState := { st with lock := .free }

/-! ## The index -/

/-- `index_remove_at`. -/
def indexRemoveAt (st : StoreState) (i : Nat) : StoreState :=
  { st with index := swapRemove st.index i }

/-- `index_find`. -/
def indexFind (index : List StoreIndexEntry) (key : StoreKey) : Option Nat :=
  index.findIdx? fun e => e.key == key

/-- The loop of `reclaim_oldest_sector` and `open_sector` that drops the records of a sector. -/
def dropSector (index : List StoreIndexEntry) (base : Nat) : List StoreIndexEntry :=
  sweepAll (fun e => sectorBase e.offset == base) index

/-- `tombstone_at`; a failed write is only logged. -/
def tombstoneAt (env : FlashEnv) (st : StoreState) (recordOff : Nat) : StoreState :=
  { st with mem := (espPartitionWrite env st.mem (recordOff + storeAliveOffset) [0x00]).2 }

/-- Tombstones the record of entry `i` and drops the entry. -/
def tombstoneEntry (env : FlashEnv) (st : StoreState) (i : Nat) : StoreState :=
  match st.index[i]? with
  | none => st
  | some e => indexRemoveAt (tombstoneAt env st e.offset) i

/-- The copy of `key` that is in the index, if there is one, is tombstoned and dropped: the start
of `bitle_store_put`, and all that `bitle_store_delete` does. -/
def unbindKey (env : FlashEnv) (st : StoreState) (key : StoreKey) : StoreState :=
  match indexFind st.index key with
  | none => st
  | some i => tombstoneEntry env st i

/-! ## Sectors -/

/-- `esp_partition_erase_range` of one sector, with its place in the history. -/
def eraseSector (st : StoreState) (base : Nat) : StoreState :=
  { st with mem := eraseRange st.mem base storeSectorSize, erased := st.erased ++ [base] }

/-- The header of the sector at `base`. -/
def readSectorHdr (m : Mem) (base : Nat) : StoreSectorHdr :=
  .ofBytes (read m base storeSectorHdrSize)

/-- The first loop of `reclaim_oldest_sector`: the lowest sequence number so far and its base. -/
def oldestStep (env : FlashEnv) (st : StoreState) (acc : UInt32 × Option Nat) (base : Nat) :
    UInt32 × Option Nat :=
  let hdr := readSectorHdr st.mem base
  if espPartitionReadOk env base storeSectorHdrSize && hdr.magic == storeSectorMagic &&
      hdr.seq < acc.1 && base != sectorBase st.writeOff then
    (hdr.seq, some base)
  else acc

/-- `reclaim_oldest_sector`; `none` is `false`. The result of the erase is not looked at. -/
def reclaimOldestSector (env : FlashEnv) (st : StoreState) : Option StoreState :=
  match (sectorBases.foldl (oldestStep env st) (0xFFFFFFFF, none)).2 with
  | none => none
  | some base =>
    let st := { st with index := dropSector st.index base }
    some (if env.eraseOk base then eraseSector st base else st)

/-- `open_sector`. -/
def openSector (env : FlashEnv) (st : StoreState) (base : Nat) : EspErr × StoreState :=
  let st :=
    if espPartitionReadOk env base storeSectorHdrSize &&
        (readSectorHdr st.mem base).magic == storeSectorMagic then
      { st with index := dropSector st.index base }
    else st
  if !env.eraseOk base then (.fail, st)
  else
    let st := eraseSector st base
    let newHdr : StoreSectorHdr := ⟨storeSectorMagic, st.nextSeq⟩
    let (err, mem) := espPartitionWrite env st.mem base newHdr.bytes
    let st := { st with mem, nextSeq := st.nextSeq + 1, headSeq := newHdr.seq }
    if err ≠ .ok then (err, st)
    else (.ok, { st with writeOff := base + storeSectorHdrSize })

/-! ## Put -/

/-- The quota loop of `bitle_store_put`. -/
def evictLoop (env : FlashEnv) : Nat → StoreState → Except StoreFault (EspErr × StoreState)
  | 0, _ => .error .spin
  | fuel + 1, st =>
    if st.index.length ≥ bitleStoreMaxRecords then
      match reclaimOldestSector env st with
      | none => .ok (.noMem, st)
      | some st => evictLoop env fuel st
    else .ok (.ok, st)

/-- A record of `need` bytes fits behind the write offset, inside an open sector. -/
def fits (writeOff need : Nat) : Bool :=
  let base := sectorBase writeOff
  writeOff != base && writeOff + need ≤ base + storeSectorSize

/-- The sector that is opened when nothing fits. -/
def nextSector (writeOff : Nat) : Nat :=
  let base := sectorBase writeOff
  let next := if writeOff = base then base else base + storeSectorSize
  if next ≥ storePartSize then 0 else next

/-- One round of the loop that finds room: `none` when it leaves the loop with room. -/
def roomRound (env : FlashEnv) (need : Nat) (st : StoreState) : Option EspErr × StoreState :=
  if fits st.writeOff need then (none, st)
  else
    let (err, st) := openSector env st (nextSector st.writeOff)
    (some err, st)

/-- The loop of `bitle_store_put` that finds room for the record. -/
def roomLoop (env : FlashEnv) (need : Nat) : Nat → StoreState →
    Except StoreFault (EspErr × StoreState)
  | 0, _ => .error .spin
  | fuel + 1, st =>
    -- the write offset may stand on the end of the partition
    let (err, st) :=
      if st.writeOff ≥ storePartSize then openSector env st 0 else (.ok, st)
    if err ≠ .ok then .ok (err, st)
    else
      match roomRound env need st with
      | (none, st) => .ok (.ok, st)
      | (some .ok, st) => roomLoop env need fuel st
      | (some err, st) => .ok (err, st)

/-- `bitle_store_put` up to the first write of the record: the tombstone of an older copy, the
quota, the room. -/
def putPrepare (env : FlashEnv) (st : StoreState) (key : StoreKey) (payloadLen : Nat) :
    Except StoreFault (EspErr × StoreState) := do
  let (err, st) ← evictLoop env (storePartSize / storeSectorSize + 1) (unbindKey env st key)
  if err ≠ .ok then return (err, st)
  roomLoop env (storeRecordHdrSize + payloadLen) 3 st

/-- The arguments `bitle_store_put` rejects. -/
def putRejects (st : StoreState) (payloadLen : Nat) : Bool :=
  !st.part || payloadLen == 0 || payloadLen > bitleStorePayloadMax

/-- The header `bitle_store_put` writes. -/
def putHdr (crc32 : UInt32 → List UInt8 → UInt32) (key : StoreKey) (expiryUnixS : UInt32)
    (flags : UInt8) (payload : List UInt8) : StoreRecordHdr :=
  let hdr : StoreRecordHdr :=
    { magic := storeRecordMagic, payloadLen := .ofNat payload.length, alive := 0xFF, flags,
      reserved := 0xFFFF, expiryUnixS, key, crc := 0 }
  { hdr with crc := recordCrc crc32 hdr payload }

/-- The two writes of a record; the second is only made after the first. -/
def writeRecord (env : FlashEnv) (m : Mem) (off : Nat) (hdr : StoreRecordHdr)
    (payload : List UInt8) : EspErr × Mem :=
  match espPartitionWrite env m off hdr.bytes with
  | (.ok, m) => espPartitionWrite env m (off + storeRecordHdrSize) payload
  | (err, m) => (err, m)

/-- The end of `bitle_store_put`: the record is written and indexed. -/
def putRecord (env : FlashEnv) (crc32 : UInt32 → List UInt8 → UInt32) (st : StoreState)
    (key : StoreKey) (expiryUnixS : UInt32) (flags : UInt8) (payload : List UInt8) :
    EspErr × StoreState :=
  let hdr := putHdr crc32 key expiryUnixS flags payload
  let recordOff := st.writeOff
  let (err, mem) := writeRecord env st.mem recordOff hdr payload
  if err ≠ .ok then (err, { st with mem })
  else
    (.ok, { st with
      mem
      writeOff := recordOff + (storeRecordHdrSize + payload.length)
      index := st.index ++ [⟨key, recordOff, expiryUnixS, st.headSeq⟩] })

/-- `bitle_store_put`. -/
def bitleStorePut (env : FlashEnv) (crc32 : UInt32 → List UInt8 → UInt32) (st : StoreState)
    (key : StoreKey) (expiryUnixS : UInt32) (flags : UInt8) (payload : List UInt8) :
    Except StoreFault (EspErr × StoreState) := do
  if putRejects st payload.length then return (.invalidArg, st)
  let st ← takeLock st
  let (err, st) ← putPrepare env st key payload.length
  if err ≠ .ok then return (err, giveLock st)
  let (err, st) := putRecord env crc32 st key expiryUnixS flags payload
  return (err, giveLock st)

/-! ## Iterate, delete, contains -/

/-- `entry->expiry_unix_s && now > entry->expiry_unix_s`. -/
def storeExpired (now expiryUnixS : UInt32) : Bool := expiryUnixS != 0 && now > expiryUnixS

/-- The two reads of `bitle_store_iterate`. -/
def readRecord (env : FlashEnv) (m : Mem) (off : Nat) : Option (StoreRecordHdr × List UInt8) :=
  let hdr := StoreRecordHdr.ofBytes (read m off storeRecordHdrSize)
  if !espPartitionReadOk env off storeRecordHdrSize || hdr.magic ≠ storeRecordMagic ||
      hdr.payloadLen.toNat > bitleStorePayloadMax ||
      !espPartitionReadOk env (off + storeRecordHdrSize) hdr.payloadLen.toNat then
    none
  else some (hdr, read m (off + storeRecordHdrSize) hdr.payloadLen.toNat)

/-- `bitle_store_iter_cb`, with its context `σ`. It may call into the store again, which needs
the mutex; the only other access is `bitle_store_count`, so it leaves the store as it is. -/
abbrev StoreIterCb (σ : Type) : Type :=
  StoreState → StoreKey → UInt32 → UInt8 → List UInt8 → σ → Except StoreFault (Bool × σ)

/-- The loop of `bitle_store_iterate` from entry `i` on, with `n` entries left. -/
def iterateLoop {σ : Type} (env : FlashEnv) (now : UInt32) (cb : StoreIterCb σ) :
    Nat → Nat → StoreState → σ → Except StoreFault (StoreState × σ)
  | 0, _, st, s => .ok (st, s)
  | n + 1, i, st, s =>
    match st.index[i]? with
    | none => .ok (st, s)
    | some entry =>
      if storeExpired now entry.expiryUnixS then
        iterateLoop env now cb n i (indexRemoveAt (tombstoneAt env st entry.offset) i) s
      else
        match readRecord env st.mem entry.offset with
        | none => iterateLoop env now cb n i (indexRemoveAt st i) s
        | some (hdr, payload) => do
          let (keepGoing, s) ← cb st entry.key hdr.expiryUnixS hdr.flags payload s
          if keepGoing then iterateLoop env now cb n (i + 1) st s else return (st, s)

/-- `bitle_store_iterate`. -/
def bitleStoreIterate {σ : Type} (env : FlashEnv) (now : UInt32) (cb : StoreIterCb σ)
    (st : StoreState) (s : σ) : Except StoreFault (StoreState × σ) := do
  if !st.part then return (st, s)
  let st ← takeLock st
  let (st, s) ← iterateLoop env now cb st.index.length 0 st s
  return (giveLock st, s)

/-- `bitle_store_delete`. -/
def bitleStoreDelete (env : FlashEnv) (st : StoreState) (key : StoreKey) :
    Except StoreFault StoreState := do
  if !st.part then return st
  let st ← takeLock st
  return giveLock (unbindKey env st key)

/-- `bitle_store_contains`. -/
def bitleStoreContains (st : StoreState) (key : StoreKey) : Except StoreFault (Bool × StoreState) :=
  do
  if !st.part then return (false, st)
  let st ← takeLock st
  return ((indexFind st.index key).isSome, giveLock st)

/-- `bitle_store_count`. -/
def bitleStoreCount (st : StoreState) : Nat := st.index.length

/-! ## Boot -/

/-- The header at `off` is one the walks accept: magic and length. -/
def hdrPlausible (hdr : StoreRecordHdr) : Bool :=
  hdr.magic == storeRecordMagic && hdr.payloadLen.toNat != 0 &&
    hdr.payloadLen.toNat ≤ bitleStorePayloadMax

/-- What the index walk does with a record whose CRC holds. -/
def indexRecord (now : UInt32) (seq : UInt32) (index : List StoreIndexEntry) (off : Nat)
    (hdr : StoreRecordHdr) : List StoreIndexEntry :=
  if hdr.alive == 0xFF && !storeExpired now hdr.expiryUnixS &&
      index.length < bitleStoreMaxRecords then
    let entry : StoreIndexEntry := ⟨hdr.key, off, hdr.expiryUnixS, seq⟩
    match indexFind index hdr.key with
    | none => index ++ [entry]
    | some dup =>
      -- an older copy whose tombstone failed: the higher sequence number wins
      match index[dup]? with
      | none => index
      | some old => if seq ≤ old.seq then index else index.set dup entry
  else index

/-- The walk of `bitle_store_init` over one sector that ends at `stop`: it leaves at the first
header or CRC that does not hold. -/
def indexWalk (env : FlashEnv) (crc32 : UInt32 → List UInt8 → UInt32) (m : Mem) (now : UInt32)
    (seq : UInt32) (stop : Nat) : Nat → Nat → List StoreIndexEntry → List StoreIndexEntry
  | 0, _, index => index
  | fuel + 1, off, index =>
    let hdr := StoreRecordHdr.ofBytes (read m off storeRecordHdrSize)
    let payload := read m (off + storeRecordHdrSize) hdr.payloadLen.toNat
    if off + storeRecordHdrSize ≤ stop && espPartitionReadOk env off storeRecordHdrSize &&
        hdrPlausible hdr &&
        espPartitionReadOk env (off + storeRecordHdrSize) hdr.payloadLen.toNat &&
        recordCrc crc32 hdr payload == hdr.crc then
      indexWalk env crc32 m now seq stop fuel
        (off + (storeRecordHdrSize + hdr.payloadLen.toNat)) (indexRecord now seq index off hdr)
    else index

/-- What the sector loop of `bitle_store_init` carries. -/
structure StoreScan where
  newestSeq : UInt32 := 0
  newestBase : Option Nat := none
  index : List StoreIndexEntry := []

/-- One sector of the loop. -/
def scanSector (env : FlashEnv) (crc32 : UInt32 → List UInt8 → UInt32) (m : Mem) (now : UInt32)
    (scan : StoreScan) (base : Nat) : StoreScan :=
  let shdr := readSectorHdr m base
  if !espPartitionReadOk env base storeSectorHdrSize || shdr.magic ≠ storeSectorMagic then scan
  else
    let index := indexWalk env crc32 m now shdr.seq (base + storeSectorSize) storeSectorSize
      (base + storeSectorHdrSize) scan.index
    if shdr.seq ≥ scan.newestSeq then ⟨shdr.seq, some base, index⟩ else { scan with index }

/-- The second walk: where appending resumes in the newest sector. It does not look at the
CRC. -/
def resumeWalk (env : FlashEnv) (m : Mem) (stop : Nat) : Nat → Nat → Nat
  | 0, off => off
  | fuel + 1, off =>
    let hdr := StoreRecordHdr.ofBytes (read m off storeRecordHdrSize)
    if off + storeRecordHdrSize ≤ stop && espPartitionReadOk env off storeRecordHdrSize &&
        hdrPlausible hdr then
      resumeWalk env m stop fuel (off + (storeRecordHdrSize + hdr.payloadLen.toNat))
    else off

/-- `bitle_store_init`. -/
def bitleStoreInit (env : FlashEnv) (crc32 : UInt32 → List UInt8 → UInt32) (now : UInt32)
    (st : StoreState) : EspErr × StoreState :=
  if !env.partFound then (.notFound, { st with part := false })
  else if !env.mutexCreated then (.noMem, { st with part := true, lock := .absent })
  else
    let scan := sectorBases.foldl (scanSector env crc32 st.mem now) { index := st.index }
    let st := { st with
      part := true, lock := .free, index := scan.index, nextSeq := scan.newestSeq + 1 }
    match scan.newestBase with
    | none => openSector env st 0
    | some base =>
      (.ok, { st with
        writeOff := resumeWalk env st.mem (base + storeSectorSize) storeSectorSize
          (base + storeSectorHdrSize)
        headSeq := scan.newestSeq })

/-- The state at power-on: the flash contents, and RAM as zeroed. -/
def powerOn (m : Mem) (erased : List Nat) : StoreState := { mem := m, erased }

/-- A reboot: RAM is lost and the store is initialised again. -/
def bitleStoreReboot (env : FlashEnv) (crc32 : UInt32 → List UInt8 → UInt32) (now : UInt32)
    (st : StoreState) : EspErr × StoreState :=
  bitleStoreInit env crc32 now (powerOn st.mem st.erased)

end Bitle
