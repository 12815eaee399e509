import Bitle.Codec.Frame
import Bitle.Lora.Trunk
import Bitle.Lib.Run

/-!
# Bitle — fragments on the trunk (`main/bitle_lora.c`)

`batch_next_frame` cuts a queued packet into frames of at most `TRUNK_CHUNK_TX` bytes, and
`rx_frame` puts them together again in one of `RX_SLOTS` reassembly slots, found by source tag
and sequence number. A slot is dropped after `RX_TIMEOUT_MS`, and the oldest one is evicted when
a new packet finds none free.

The radio may lose, repeat and reorder frames: an `Arrival` is any frame of any queued packet at
any time. `rxFrame_arrival` says what `rx_frame` does with one.
-/

namespace Bitle

open Wire

/-! ## Frames -/

def trunkMagic0 : UInt8 := 0xB7
def trunkMagic1 : UInt8 := 0x1E
def trunkVersion : UInt8 := 0x02
def ftypeAck : UInt8 := 0x01
def ftypeAckReq : UInt8 := 0x02
def sx1262MaxPayload : Nat := 255

/-- `TRUNK_CHUNK_MAX`. -/
def trunkChunkMax : Nat := sx1262MaxPayload - trunkHdrLen

/-- `lora_frame_t`. -/
structure LoraFrame where
  wantAck : Bool
  data : List UInt8
  deriving DecidableEq

/-- The trunk header: type, source, destination, sequence number, fragment index and count. -/
def trunkHeader (ftype : UInt8) (src dst : Bytes 4) (seq : UInt16) (idx total : UInt8) :
    List UInt8 :=
  [trunkMagic0, trunkMagic1, trunkVersion, ftype] ++ src.val ++ dst.val ++ beBytes 2 seq.toNat ++
    [idx, total]

/-- Fragment `idx` of a packet. -/
def chunkAt (data : List UInt8) (idx : Nat) : List UInt8 :=
  (data.drop (idx * trunkChunkTx)).take trunkChunkTx

/-- The frame `batch_next_frame` fills for fragment `idx`. -/
def batchFrame (srcTag : Bytes 4) (batch : LoraBatch) (idx : Nat) : LoraFrame where
  wantAck := batch.wantAck
  data := trunkHeader (if batch.wantAck then ftypeAckReq else 0x00) srcTag (zeros 4) batch.seq
    (UInt8.ofNat idx) (UInt8.ofNat batch.total) ++ chunkAt batch.data idx

/-- `batch_next_frame`: the frame and the next index, until the batch is through. -/
def batchNextFrame (srcTag : Bytes 4) (batch : LoraBatch) (nextIdx : Nat) :
    Option (LoraFrame × Nat) :=
  if nextIdx ≥ batch.total then none else some (batchFrame srcTag batch nextIdx, nextIdx + 1)

/-! ## The receiver -/

def rxSlots : Nat := 2
def rxTimeoutMs : UInt64 := 10000
def ackOutboxSize : Nat := 4

/-- `rx_slot_t`; a part carries its length. -/
structure RxSlot where
  inUse : Bool := false
  src : Bytes 4 := zeros 4
  seq : UInt16 := 0
  total : UInt8 := 0
  haveMask : Nat := 0
  startedMs : UInt64 := 0
  parts : List (List UInt8) := List.replicate trunkMaxFrags []
  deriving DecidableEq

/-- `ack_slot_t`. -/
structure AckSlot where
  dst : Bytes 4
  seq : UInt16
  idx : UInt8
  total : UInt8
  deriving DecidableEq

/-- What `rx_frame` works on: the reassembly slots, the ack it saw last, the acks to send. -/
structure Receiver where
  srcTag : Bytes 4
  slots : List RxSlot
  ackSeen : Bool
  ackSeq : UInt16
  ackIdx : UInt8
  ackOutbox : List AckSlot

/-- The receiver after boot. -/
def Receiver.init (srcTag : Bytes 4) : Receiver :=
  ⟨srcTag, List.replicate rxSlots {}, false, 0, 0, []⟩

/-- `queue_ack`. -/
def queueAck (r : Receiver) (a : AckSlot) : Receiver :=
  if r.ackOutbox.length ≥ ackOutboxSize then r else { r with ackOutbox := r.ackOutbox ++ [a] }

/-- The timeout check of the slot scan. -/
def RxSlot.expire (now : UInt64) (s : RxSlot) : RxSlot :=
  if s.inUse && now - s.startedMs > rxTimeoutMs then { s with inUse := false } else s

/-- The slot belongs to this packet. -/
def RxSlot.hit (src : Bytes 4) (seq : UInt16) (s : RxSlot) : Bool :=
  s.inUse && s.seq == seq && s.src == src

/-- The slot scan of `rx_frame` over the slots from index `i` on: the packet's slot, the first
free slot, the oldest slot. -/
def rxScan (src : Bytes 4) (seq : UInt16) :
    List RxSlot → Nat → Option Nat → Option Nat → Nat × RxSlot → Option Nat × Option Nat × Nat
  | [], _, slot, free, oldest => (slot, free, oldest.1)
  | s :: slots, i, slot, free, oldest =>
    let oldest := if s.startedMs < oldest.2.startedMs then (i, s) else oldest
    if s.hit src seq then rxScan src seq slots (i + 1) (some i) free oldest
    else if !s.inUse && free.isNone then rxScan src seq slots (i + 1) slot (some i) oldest
    else rxScan src seq slots (i + 1) slot free oldest

/-- The slots with the packet's slot among them, and its index: found, or cleared and opened. -/
def rxOpen (now : UInt64) (src : Bytes 4) (seq : UInt16) (total : UInt8) (slots : List RxSlot) :
    List RxSlot × Nat :=
  match rxScan src seq slots 0 none none (0, slots.getD 0 {}) with
  | (some i, _, _) => (slots, i)
  | (none, free, oldest) =>
    let i := free.getD oldest
    (slots.set i { inUse := true, src := src, seq := seq, total := total, startedMs := now }, i)

/-- The copy loop over the parts; a packet that outgrows the buffer is given up. -/
def joinParts : List (List UInt8) → List UInt8 → Option (List UInt8)
  | [], packet => some packet
  | part :: parts, packet =>
    if packet.length + part.length > bitchatBleMaxPacketSize then none
    else joinParts parts (packet ++ part)

/-- Store a fragment; once all are there, the packet. -/
def rxStore (slots : List RxSlot) (i : Nat) (idx total : UInt8) (chunk : List UInt8) :
    List RxSlot × Option (List UInt8) :=
  let s := slots.getD i {}
  if s.total ≠ total then (slots, none)
  else
    let s := { s with parts := s.parts.set idx.toNat chunk
                      haveMask := (s.haveMask ||| 1 <<< idx.toNat) % 256 }
    let want := (1 <<< total.toNat - 1) % 256
    if s.haveMask &&& want ≠ want then (slots.set i s, none)
    else (slots.set i { s with inUse := false }, joinParts (s.parts.take total.toNat) [])

/-- A fragment that passed the checks: its slot, and the packet once it is whole. -/
def rxData (now : UInt64) (src : Bytes 4) (seq : UInt16) (idx total : UInt8) (chunk : List UInt8)
    (slots : List RxSlot) : List RxSlot × Option (List UInt8) :=
  let slots := slots.map (RxSlot.expire now)
  let (slots, i) := rxOpen now src seq total slots
  rxStore slots i idx total chunk

/-- `rx_frame`: the packet it passes to `bitle_mesh_inbound`, if there is one. -/
def rxFrame (now : UInt64) (r : Receiver) (f : List UInt8) : Receiver × Option (List UInt8) :=
  if f.length < trunkHdrLen ∨ byteAt f 0 ≠ trunkMagic0 ∨ byteAt f 1 ≠ trunkMagic1 ∨
      byteAt f 2 ≠ trunkVersion then (r, none)
  else
    let src := copyAt 4 f 4
    if src = r.srcTag then (r, none)
    else
      let seq := (beNat ((f.drop 12).take 2)).toUInt16
      let idx := byteAt f 14
      let total := byteAt f 15
      if byteAt f 3 &&& ftypeAck ≠ 0 then
        if copyAt 4 f 8 = r.srcTag then
          ({ r with ackSeen := true, ackSeq := seq, ackIdx := idx }, none)
        else (r, none)
      else
        let r := if byteAt f 3 &&& ftypeAckReq ≠ 0 then queueAck r ⟨src, seq, idx, total⟩ else r
        let chunk := f.drop trunkHdrLen
        if f.length < trunkHdrLen + 1 then (r, none)
        else if total = 0 ∨ total.toNat > trunkMaxFrags ∨ idx ≥ total ∨
            chunk.length > trunkChunkMax then (r, none)
        else
          let (slots, packet) := rxData now src seq idx total chunk r.slots
          ({ r with slots := slots }, packet)

/-! ## Arrivals -/

/-- A frame of a queued packet reaches the receiver. -/
structure Arrival where
  now : UInt64
  tag : Bytes 4
  batch : LoraBatch
  idx : Nat

/-- How the receiver tells packets apart: source tag and sequence number. -/
abbrev TrunkKey : Type := Bytes 4 × UInt16

namespace Arrival

def key (a : Arrival) : TrunkKey := (a.tag, a.batch.seq)

/-- The frame `batch_next_frame` produced. -/
def frame (a : Arrival) : LoraFrame := batchFrame a.tag a.batch a.idx

end Arrival

/-- What the sender makes of a fragment is the frame that arrives. -/
theorem batchNextFrame_arrival {a : Arrival} (h : a.idx < a.batch.total) :
    batchNextFrame a.tag a.batch a.idx = some (a.frame, a.idx + 1) := by
  rw [batchNextFrame, if_neg (by omega)]
  rfl

/-- A slot opened at `started` has timed out at `now`. -/
def timedOut (now started : UInt64) : Bool := now - started > rxTimeoutMs

/-- What the radio and the senders may do: frames of admitted packets in any number and order;
one sender's packets with the same sequence number are heard more than the timeout apart. -/
structure Network (as : List Arrival) : Prop where
  wf : ∀ a ∈ as, a.batch.Admitted ∧ a.idx < a.batch.total
  mono : as.Pairwise fun a b => a.now ≤ b.now
  noReuse : as.Pairwise fun a b => a.key = b.key → a.batch ≠ b.batch → timedOut b.now a.now

/-- The receiver after a run of arrivals. -/
def rxAfter (r : Receiver) (as : List Arrival) : Receiver :=
  Run.final (fun r (a : Arrival) => (rxFrame a.now r a.frame.data).1) r as

/-! ## Fragments make up the packet -/

theorem flatten_chunks (data : List UInt8) (n : Nat) :
    ((List.range n).map (chunkAt data)).flatten = data.take (n * trunkChunkTx) := by
  induction n with
  | zero => rw [Nat.zero_mul, List.take_zero]; rfl
  | succ n ih =>
    rw [List.range_succ, List.map_append, List.flatten_append, ih, Nat.succ_mul, List.take_add]
    simp [chunkAt]

theorem joinParts_eq {parts : List (List UInt8)} {packet : List UInt8}
    (h : (packet ++ parts.flatten).length ≤ bitchatBleMaxPacketSize) :
    joinParts parts packet = some (packet ++ parts.flatten) := by
  induction parts generalizing packet with
  | nil => rw [joinParts, List.flatten_nil, List.append_nil]
  | cons part parts ih =>
    rw [List.flatten_cons, ← List.append_assoc] at h ⊢
    have hlen := h
    rw [List.length_append, List.length_append] at hlen
    rw [joinParts, if_neg (by omega), ih h]

section Batch

variable {b : LoraBatch} (hb : b.Admitted)
include hb

theorem LoraBatch.Admitted.total_le : b.total ≤ 5 := by
  obtain ⟨-, h520, htotal⟩ := hb
  unfold fragCount trunkChunkTx at htotal
  unfold bitchatBleMaxPacketSize at h520
  omega

theorem LoraBatch.Admitted.toNat_total : (UInt8.ofNat b.total).toNat = b.total := by
  have := hb.total_le
  rw [UInt8.toNat_ofNat']
  omega

theorem LoraBatch.Admitted.join : ((List.range b.total).map (chunkAt b.data)).flatten = b.data := by
  obtain ⟨-, -, htotal⟩ := hb
  rw [flatten_chunks, List.take_of_length_le]
  unfold fragCount trunkChunkTx at htotal
  unfold trunkChunkTx
  omega

theorem LoraBatch.Admitted.length_chunk {i : Nat} (hi : i < b.total) :
    0 < (chunkAt b.data i).length ∧ (chunkAt b.data i).length ≤ trunkChunkTx := by
  obtain ⟨-, -, htotal⟩ := hb
  unfold fragCount trunkChunkTx at htotal
  unfold chunkAt trunkChunkTx
  rw [List.length_take, List.length_drop]
  omega

end Batch

/-! ## The header read back -/

section Header

variable (ftype : UInt8) (src dst : Bytes 4) (seq : UInt16) (idx total : UInt8)
  (chunk : List UInt8)

theorem length_trunkHeader : (trunkHeader ftype src dst seq idx total).length = trunkHdrLen := by
  simp [trunkHeader, src.property, dst.property, trunkHdrLen]

/-- What `rx_frame` reads off a frame. -/
theorem trunkHeader_fields (f : List UInt8)
    (hf : f = trunkHeader ftype src dst seq idx total ++ chunk) :
    byteAt f 0 = trunkMagic0 ∧ byteAt f 1 = trunkMagic1 ∧ byteAt f 2 = trunkVersion ∧
      byteAt f 3 = ftype ∧ copyAt 4 f 4 = src ∧ copyAt 4 f 8 = dst ∧
      (beNat ((f.drop 12).take 2)).toUInt16 = seq ∧ byteAt f 14 = idx ∧ byteAt f 15 = total ∧
      f.drop trunkHdrLen = chunk := by
  have h4 : f.drop 4 = src.val ++ (dst.val ++ (beBytes 2 seq.toNat ++ ([idx, total] ++ chunk))) := by
    rw [hf]
    simp [trunkHeader]
  have h8 : f.drop 8 = dst.val ++ (beBytes 2 seq.toNat ++ ([idx, total] ++ chunk)) := by
    have h := drop_next h4
    rwa [src.property] at h
  have h12 : f.drop 12 = beBytes 2 seq.toNat ++ ([idx, total] ++ chunk) := by
    have h := drop_next h8
    rwa [dst.property] at h
  have h14 : f.drop 14 = idx :: (total :: chunk) := by
    have h := drop_next h12
    rwa [length_beBytes] at h
  have h15 : f.drop 15 = total :: chunk := by
    rw [show 15 = 14 + 1 from rfl, ← List.drop_drop, h14]
    rfl
  have h16 : f.drop trunkHdrLen = chunk := by
    rw [show trunkHdrLen = 15 + 1 from rfl, ← List.drop_drop, h15]
    rfl
  have hseq : (beNat ((f.drop 12).take 2)).toUInt16 = seq := by
    rw [h12, List.take_left' (length_beBytes _ _), beNat_beBytes seq.toNat_lt]
    exact UInt16.ofNat_toNat
  refine ⟨?_, ?_, ?_, ?_, ?_, ?_, hseq, byteAt_of_drop h14, byteAt_of_drop h15, h16⟩
  · rw [hf]; rfl
  · rw [hf]; rfl
  · rw [hf]; rfl
  · rw [hf]; rfl
  · rw [copyAt_of_drop h4 src.property, copyAt_self]
  · rw [copyAt_of_drop h8 dst.property, copyAt_self]

end Header

theorem queueAck_eq (r : Receiver) (x : AckSlot) :
    ∃ outbox, queueAck r x = { r with ackOutbox := outbox } := by
  unfold queueAck
  split
  · exact ⟨r.ackOutbox, rfl⟩
  · exact ⟨_, rfl⟩

/-- **`rx_frame` on a fragment**: frames of the node itself are dropped, any other one goes to its
slot; the acks are apart from that. -/
theorem rxFrame_arrival (r : Receiver) {a : Arrival}
    (hwf : a.batch.Admitted ∧ a.idx < a.batch.total) :
    (a.tag = r.srcTag → rxFrame a.now r a.frame.data = (r, none)) ∧
    (a.tag ≠ r.srcTag → ∃ outbox,
      rxFrame a.now r a.frame.data =
        ({ r with ackOutbox := outbox
                  slots := (rxData a.now a.tag a.batch.seq (UInt8.ofNat a.idx)
                    (UInt8.ofNat a.batch.total) (chunkAt a.batch.data a.idx) r.slots).1 },
          (rxData a.now a.tag a.batch.seq (UInt8.ofNat a.idx)
            (UInt8.ofNat a.batch.total) (chunkAt a.batch.data a.idx) r.slots).2)) := by
  obtain ⟨hb, hidx⟩ := hwf
  have htotal := hb.total_le
  obtain ⟨hpos, hchunk⟩ := hb.length_chunk hidx
  obtain ⟨h0, h1, h2, h3, hsrc, hdst, hseq, h14, h15, h16⟩ := trunkHeader_fields _ _ _ _ _ _ _
    a.frame.data rfl
  have hlen : a.frame.data.length = trunkHdrLen + (chunkAt a.batch.data a.idx).length := by
    show (trunkHeader _ _ _ _ _ _ ++ chunkAt a.batch.data a.idx).length = _
    rw [List.length_append, length_trunkHeader]
  -- a frame made by the sender passes every test of `rx_frame`: no ack, its sizes, its magic
  have hack : ¬ byteAt a.frame.data 3 &&& ftypeAck ≠ 0 := by
    rw [h3, not_not]
    cases a.batch.wantAck <;> decide
  have hzero : ¬ (UInt8.ofNat a.batch.total = 0 ∨ (UInt8.ofNat a.batch.total).toNat > trunkMaxFrags ∨
      UInt8.ofNat a.idx ≥ UInt8.ofNat a.batch.total ∨
      (chunkAt a.batch.data a.idx).length > trunkChunkMax) := by
    have hidxNat : (UInt8.ofNat a.idx).toNat = a.idx := by
      rw [UInt8.toNat_ofNat']
      omega
    have hmax : trunkMaxFrags = 5 := rfl
    have hcmax : trunkChunkMax = 239 := rfl
    have htx : trunkChunkTx = 120 := rfl
    rintro (h | h | h | h)
    · have := congrArg UInt8.toNat h
      rw [hb.toNat_total] at this
      have : (0 : UInt8).toNat = 0 := rfl
      omega
    · rw [hb.toNat_total] at h
      omega
    · have := UInt8.le_iff_toNat_le.mp h
      rw [hb.toNat_total, hidxNat] at this
      omega
    · omega
  have hmagic : ¬ (a.frame.data.length < trunkHdrLen ∨ byteAt a.frame.data 0 ≠ trunkMagic0 ∨
      byteAt a.frame.data 1 ≠ trunkMagic1 ∨ byteAt a.frame.data 2 ≠ trunkVersion) := by
    rw [h0, h1, h2]
    simp only [ne_eq, not_true_eq_false, or_false, Nat.not_lt]
    omega
  unfold rxFrame
  dsimp only
  rw [if_neg hmagic]
  constructor
  · intro hown
    rw [if_pos (hsrc.trans hown)]
  · intro hother
    -- an ack that is asked for only changes the outbox
    have houtbox : ∀ x, ∃ outbox,
        (if byteAt a.frame.data 3 &&& ftypeAckReq ≠ 0 then queueAck r x else r) =
          { r with ackOutbox := outbox } := by
      intro x
      split
      · exact queueAck_eq r x
      · exact ⟨r.ackOutbox, rfl⟩
    rw [hsrc, if_neg hother, if_neg hack, hseq, h14, h15, h16]
    obtain ⟨outbox, ho⟩ := houtbox ⟨a.tag, a.batch.seq, UInt8.ofNat a.idx, UInt8.ofNat a.batch.total⟩
    rw [ho, if_neg (by omega), if_neg hzero]
    exact ⟨outbox, rfl⟩

end Bitle
