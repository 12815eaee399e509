import Bitle.Store.Map

/-!
# Bitle — power loss during `bitle_store_put`

A power loss leaves the first `n` bytes of the record programmed (`tornPut`), and the device
boots from that. The walk that rebuilds the index stops at a record whose CRC does not hold; the
walk that looks for the write offset does not look at the CRC and goes on behind it. What is put
there is in the index until the next boot, which does not find it again
(`torn_record_hides_later_put`).

`TornHarmless` is when this does not happen: nothing plausible was programmed, or the two walks
agree because the CRC holds, or nothing fits behind the torn record. Three bytes are a case of
their own: the length is not plausible yet, so the next record is programmed over them, and its
length has to be one that their third byte allows.
-/

namespace Bitle

open Wire Flash Slots

/-! ## The torn record -/

/-- The arguments of a `bitle_store_put`. -/
structure PutArgs where
  key : StoreKey
  expiryUnixS : UInt32
  flags : UInt8
  payload : List UInt8

namespace PutArgs

variable (crc32 : UInt32 → List UInt8 → UInt32)

/-- The record the call programs. -/
def bytes (a : PutArgs) : List UInt8 :=
  (putHdr crc32 a.key a.expiryUnixS a.flags a.payload).bytes ++ a.payload

/-- What reads back when only its first `n` bytes were programmed. -/
def torn (a : PutArgs) (n : Nat) : List UInt8 :=
  (a.bytes crc32).take n ++ List.replicate (32 + a.payload.length - n) 0xFF

/-- The header that reads back. -/
def tornHdr (a : PutArgs) (n : Nat) : StoreRecordHdr := .ofBytes ((a.torn crc32 n).take 32)

/-- The payload that reads back. -/
def tornPayload (a : PutArgs) (n : Nat) : List UInt8 := (a.torn crc32 n).drop 32

/-- The CRC that reads back is the right one. -/
def tornCrcHolds (a : PutArgs) (n : Nat) : Bool :=
  recordCrc crc32 (a.tornHdr crc32 n) (a.tornPayload crc32 n) == (a.tornHdr crc32 n).crc

end PutArgs

/-- The first `n` bytes of the record are programmed at the write offset. -/
def tornState (crc32 : UInt32 → List UInt8 → UInt32) (st : StoreState) (a : PutArgs) (n : Nat) :
    StoreState :=
  { st with mem := program st.mem st.writeOff ((a.bytes crc32).take n) }

/-- `bitle_store_put` up to a power loss that leaves the first `n` bytes of the record. -/
def tornPut (crc32 : UInt32 → List UInt8 → UInt32) (st : StoreState) (a : PutArgs) (n : Nat) :
    Except StoreFault StoreState := do
  if putRejects st a.payload.length then return st
  let st ← takeLock st
  let (err, st) ← putPrepare .good st a.key a.payload.length
  if err ≠ .ok then return st
  return tornState crc32 st a n

/-- Where in its sector a record of `len` payload bytes is put. -/
def recordOffset (st : StoreState) (len : Nat) : Nat :=
  if fits st.writeOff (storeRecordHdrSize + len) then st.writeOff % storeSectorSize
  else storeSectorHdrSize

/-- **The power loss does no harm**, when the next boot is at time `now`. -/
def TornHarmless (crc32 : UInt32 → List UInt8 → UInt32) (now : UInt32) (st : StoreState)
    (a : PutArgs) (n : Nat) : Prop :=
  -- the call gives up before it programs anything
  ¬ (1 ≤ a.payload.length ∧ a.payload.length ≤ bitleStorePayloadMax) ∨
  -- no more than the magic
  n ≤ 2 ∨
  -- the low byte of the length too, and it allows every length that fits there
  (n = 3 ∧ ∀ k, 1 ≤ k → k ≤ 520 → recordOffset st a.payload.length + 32 + k ≤ 4096 →
    UInt8.ofNat a.payload.length &&& UInt8.ofNat k = UInt8.ofNat k) ∨
  -- a bad CRC, and nothing fits behind it
  (4 ≤ n ∧ a.tornCrcHolds crc32 n = false ∧
    4096 < recordOffset st a.payload.length + 32 + a.payload.length + 33) ∨
  -- a good CRC, and the record is expired or has a key that no other record has
  (4 ≤ n ∧ a.tornCrcHolds crc32 n = true ∧
    (storeExpired now (a.tornHdr crc32 n).expiryUnixS = true ∨
      ∀ e ∈ st.index, e.key = (a.tornHdr crc32 n).key → e.key = a.key))

section Torn

variable {crc32 : UInt32 → List UInt8 → UInt32} {now : UInt32} {m : Mem} {e n : Nat}
  {r : LogRecord}

variable (crc32) in
/-- A byte after part of a record was programmed into a fresh tail. -/
theorem Fresh.program_take (h : Fresh m r.off e) (h1 : 1 ≤ r.payload.length)
    (h2 : r.payload.length ≤ 520) (hfit : r.off + r.size ≤ e) {i : Nat}
    (hi : i < (r.bytes crc32).length) :
    program m r.off ((r.bytes crc32).take n) (r.off + i) =
      if i < n then (r.bytes crc32)[i] else m (r.off + i) := by
  by_cases hin : i < n
  · rw [if_pos hin, program_inside (by simp; omega), List.getElem_take,
      h.and_bytes h1 h2 hfit hi]
  · rw [if_neg hin, program_outside (by simp; omega)]

variable (crc32) in
/-- Up to three bytes leave the tail fresh, the third under a condition on the lengths. -/
theorem Fresh.fresh_take (h : Fresh m r.off e) (h1 : 1 ≤ r.payload.length)
    (h2 : r.payload.length ≤ 520) (hfit : r.off + r.size ≤ e) (hn : n ≤ 3)
    (hlen : n = 3 → ∀ k, 1 ≤ k → k ≤ 520 → r.off + 32 + k ≤ e →
      UInt8.ofNat r.payload.length &&& UInt8.ofNat k = UInt8.ofNat k) :
    Fresh (program m r.off ((r.bytes crc32).take n)) r.off e := by
  have hblen := r.length_bytes crc32
  have hsize : r.size = 32 + r.payload.length := rfl
  obtain ⟨rest, hrest⟩ := LogRecord.bytes_head crc32 h2
  have hbyte := fun {i : Nat} (hi : i < (r.bytes crc32).length) =>
    h.program_take crc32 (n := n) h1 h2 hfit hi
  have hb0 := hbyte (i := 0) (by omega)
  have hb1 := hbyte (i := 1) (by omega)
  have hb2 := hbyte (i := 2) (by omega)
  simp only [hrest, List.getElem_cons_zero, List.getElem_cons_succ, Nat.add_zero] at hb0 hb1 hb2
  refine ⟨fun a ha1 ha2 => ?_, fun k hk1 hk2 hk3 => ?_⟩
  · rw [program_outside (by simp; omega), h.blank a ha1 ha2]
  · obtain ⟨hc0, hc1, hc2⟩ := h.compat k hk1 hk2 hk3
    rw [hrest, hb0, hb1, hb2]
    refine ⟨?_, ?_, ?_⟩
    · split
      · decide
      · exact hc0
    · split
      · decide
      · exact hc1
    · split
      · exact hlen (by omega) k hk1 hk2 hk3
      · exact hc2

/-- The record of a call, at an offset. -/
def PutArgs.record (a : PutArgs) (off : Nat) : LogRecord :=
  ⟨off, true, a.key, a.expiryUnixS, a.flags, a.payload⟩

theorem PutArgs.bytes_record (a : PutArgs) (off : Nat) :
    (a.record off).bytes crc32 = a.bytes crc32 := rfl

variable (crc32) in
theorem PutArgs.length_bytes (a : PutArgs) : (a.bytes crc32).length = 32 + a.payload.length :=
  (a.record 0).length_bytes crc32

variable (crc32) in
theorem PutArgs.length_torn (a : PutArgs) (n : Nat) :
    (a.torn crc32 n).length = 32 + a.payload.length := by
  rw [PutArgs.torn, List.length_append, List.length_take, a.length_bytes, List.length_replicate]
  omega

variable (crc32) in
theorem PutArgs.byteAt_torn (a : PutArgs) {i : Nat} (hi : i < 32 + a.payload.length) :
    byteAt (a.torn crc32 n) i = if i < n then byteAt (a.bytes crc32) i else 0xFF := by
  have hblen := a.length_bytes crc32
  unfold byteAt PutArgs.torn
  by_cases hin : i < n
  · rw [if_pos hin, List.getD_append _ _ _ _ (by simp; omega), List.getD_eq_getElem?_getD,
      List.getElem?_take_of_lt hin, ← List.getD_eq_getElem?_getD]
  · rw [if_neg hin, List.getD_append_right _ _ _ _ (by simp; omega),
      List.getD_replicate _ (by simp; omega)]

variable (crc32) in
/-- With four bytes or more the length is there, and the record reads back with blank bytes
behind what was programmed. -/
theorem Fresh.read_torn {a : PutArgs} {off : Nat} (h : Fresh m off e)
    (h1 : 1 ≤ a.payload.length) (h2 : a.payload.length ≤ 520)
    (hfit : off + (32 + a.payload.length) ≤ e) (hn : 4 ≤ n) :
    read (program m off ((a.bytes crc32).take n)) off (32 + a.payload.length) = a.torn crc32 n := by
  have hblen := a.length_bytes crc32
  have htlen := a.length_torn crc32 n
  rw [← htlen, read_eq_iff]
  intro i hi
  have hbyte := Fresh.program_take crc32 (n := n) (r := a.record off) (i := i) h h1 h2
    hfit (by rw [a.bytes_record]; omega)
  have htorn := a.byteAt_torn crc32 (n := n) (i := i) (by omega)
  rw [byteAt, List.getD_eq_getElem _ _ hi] at htorn
  rw [htorn]
  refine hbyte.trans ?_
  by_cases hin : i < n
  · rw [if_pos hin, if_pos hin, byteAt, List.getD_eq_getElem _ _ (by omega)]
    rfl
  · rw [if_neg hin, if_neg hin]
    exact h.blank _ (by simp only [PutArgs.record]; omega) (by simp only [PutArgs.record]; omega)

variable (crc32) in
/-- The first bytes that read back: the magic, the length, and what is blank in any record. -/
theorem PutArgs.byteAt_tornHdr (a : PutArgs) (h2 : a.payload.length ≤ 520) (hn : 4 ≤ n) :
    byteAt ((a.torn crc32 n).take 32) 0 = 0x7E ∧ byteAt ((a.torn crc32 n).take 32) 1 = 0xB1 ∧
      byteAt ((a.torn crc32 n).take 32) 2 = UInt8.ofNat a.payload.length ∧
      byteAt ((a.torn crc32 n).take 32) 3 = UInt8.ofNat (a.payload.length / 256) ∧
      byteAt ((a.torn crc32 n).take 32) 4 = 0xFF ∧ byteAt ((a.torn crc32 n).take 32) 6 = 0xFF ∧
      byteAt ((a.torn crc32 n).take 32) 7 = 0xFF := by
  obtain ⟨rest, hrest⟩ := LogRecord.bytes_head crc32 (r := a.record 0) h2
  rw [a.bytes_record] at hrest
  have hbyte := fun {i : Nat} (hi : i < 32) => (byteAt_take (a.torn crc32 n) hi).trans
    (a.byteAt_torn crc32 (n := n) (i := i) (by omega))
  rw [hbyte (by omega), hbyte (by omega), hbyte (by omega), hbyte (by omega), hbyte (by omega),
    hbyte (by omega), hbyte (by omega), if_pos (by omega), if_pos (by omega), if_pos (by omega),
    if_pos (by omega), hrest]
  refine ⟨rfl, rfl, rfl, rfl, ?_, ?_, ?_⟩ <;> split <;> rfl

variable (crc32) in
/-- The header that reads back from four bytes or more. -/
theorem PutArgs.tornHdr_eq (a : PutArgs) (h2 : a.payload.length ≤ 520) (hn : 4 ≤ n) :
    (a.tornHdr crc32 n).magic = storeRecordMagic ∧
      (a.tornHdr crc32 n).payloadLen = .ofNat a.payload.length ∧
      (a.tornHdr crc32 n).alive = 0xFF ∧ (a.tornHdr crc32 n).reserved = 0xFFFF := by
  have htlen := a.length_torn crc32 n
  have hlen32 : ((a.torn crc32 n).take 32).length = 32 := by
    rw [List.length_take]
    omega
  obtain ⟨hb0, hb1, hb2, hb3, hb4, hb6, hb7⟩ := a.byteAt_tornHdr crc32 h2 hn
  have hmagic : ((a.torn crc32 n).take 32).take 2 = [0x7E, 0xB1] := by
    have hslice := slice_two (l := (a.torn crc32 n).take 32) (i := 0) (by omega)
    rwa [List.drop_zero, hb0, hb1] at hslice
  have hplen : (((a.torn crc32 n).take 32).drop 2).take 2 = leBytes 2 a.payload.length := by
    rw [slice_two (by omega), hb2, hb3]
    rfl
  have hres : (((a.torn crc32 n).take 32).drop 6).take 2 = [0xFF, 0xFF] := by
    rw [slice_two (by omega), hb6, hb7]
  unfold PutArgs.tornHdr StoreRecordHdr.ofBytes
  dsimp only
  refine ⟨?_, ?_, hb4, ?_⟩
  · rw [hmagic]
    decide
  · rw [hplen, leNat_leBytes (by omega)]
  · rw [hres]
    decide

/-- The record that reads back. -/
def PutArgs.tornRecord (crc32 : UInt32 → List UInt8 → UInt32) (a : PutArgs) (n off : Nat) :
    LogRecord :=
  ⟨off, true, (a.tornHdr crc32 n).key, (a.tornHdr crc32 n).expiryUnixS,
    (a.tornHdr crc32 n).flags, a.tornPayload crc32 n⟩

variable (crc32) in
theorem PutArgs.length_tornPayload (a : PutArgs) (n : Nat) :
    (a.tornPayload crc32 n).length = a.payload.length := by
  rw [PutArgs.tornPayload, List.length_drop, a.length_torn]
  omega

/-- If its CRC holds it is a record like any other. -/
theorem PutArgs.bytes_tornRecord (a : PutArgs) (h2 : a.payload.length ≤ 520) (hn : 4 ≤ n)
    (hcrc : a.tornCrcHolds crc32 n = true) (off : Nat) :
    (a.tornRecord crc32 n off).bytes crc32 = a.torn crc32 n := by
  obtain ⟨hmagic, hplen, halive, hres⟩ := a.tornHdr_eq crc32 h2 hn
  have hlen := a.length_tornPayload crc32 n
  have hhdr : (a.tornRecord crc32 n off).hdr crc32 = a.tornHdr crc32 n := by
    have hcrc' := beq_iff_eq.mp hcrc
    unfold recordCrc at hcrc'
    rw [hplen] at hcrc'
    apply StoreRecordHdr.ext
    · exact hmagic.symm
    · rw [hplen, ← hlen]
      rfl
    · exact halive.symm
    · rfl
    · exact hres.symm
    · rfl
    · rfl
    · rw [← hcrc', ← hlen]
      rfl
  have htlen := a.length_torn crc32 n
  rw [LogRecord.bytes, hhdr, PutArgs.tornHdr, StoreRecordHdr.bytes_ofBytes
    (by rw [List.length_take]; omega)]
  exact List.take_append_drop 32 _

/-- Bytes behind what was programmed are as they were. -/
theorem program_torn (m : Mem) (off : Nat) (a : PutArgs) (n : Nat) :
    program m off (a.torn crc32 n) = program m off ((a.bytes crc32).take n) :=
  program_append_ones m off _ _

/-- A torn record with a bad CRC and no room behind it. -/
theorem Fresh.stuck_torn {a : PutArgs} {off : Nat} (h : Fresh m off e)
    (h1 : 1 ≤ a.payload.length) (h2 : a.payload.length ≤ 520)
    (hfit : off + (32 + a.payload.length) ≤ e) (hn : 4 ≤ n)
    (hcrc : a.tornCrcHolds crc32 n = false) (hfull : e < off + 32 + a.payload.length + 33) :
    Stuck crc32 (program m off ((a.bytes crc32).take n)) off e ∧
      (hdrAt (program m off ((a.bytes crc32).take n)) off).payloadLen.toNat =
        a.payload.length := by
  have hread := h.read_torn crc32 h1 h2 hfit hn
  have htlen := a.length_torn crc32 n
  rw [read_add] at hread
  have hhdr : hdrAt (program m off ((a.bytes crc32).take n)) off = a.tornHdr crc32 n := by
    rw [hdrAt, PutArgs.tornHdr, ← hread, List.take_left' (length_read _ _ _)]
  have hpay : read (program m off ((a.bytes crc32).take n)) (off + 32) a.payload.length =
      a.tornPayload crc32 n := by
    rw [PutArgs.tornPayload, ← hread, List.drop_left' (length_read _ _ _)]
  obtain ⟨hmagic, hplen, -, -⟩ := a.tornHdr_eq crc32 h2 hn
  have hlen : (a.tornHdr crc32 n).payloadLen.toNat = a.payload.length := by
    rw [hplen, UInt16.toNat_ofNat']
    exact Nat.mod_eq_of_lt (by omega)
  refine ⟨⟨?_, ?_, ?_, ?_, fun x hx1 hx2 => ?_⟩, by rw [hhdr, hlen]⟩
  · rw [hhdr, hdrPlausible, hmagic, hlen]
    unfold bitleStorePayloadMax
    simp only [beq_self_eq_true, Bool.true_and, Bool.and_eq_true, bne_iff_ne, ne_eq,
      decide_eq_true_eq]
    omega
  · rw [hhdr, hlen]
    omega
  · rw [hhdr, hlen]
    exact hfull
  · rw [crcHoldsAt, hhdr, hlen, hpay]
    exact hcrc
  · rw [hhdr, hlen] at hx1
    have hblen := a.length_bytes crc32
    rw [program_outside (by simp; omega), h.blank x (by omega) hx2]

/-! ## The next boot -/

/-- New contents behind the last record of a sector. -/
theorem LogAt.retail {m' : Mem} {S : Nat → Option LogSector} (hlog : LogAt crc32 m S) {h : Nat}
    (hh : h < 96) {s : LogSector} (hs : S h = some s)
    (hframe : ∀ a, a < s.stop (h * 4096) ∨ h * 4096 + 4096 ≤ a → m a = m' a)
    (htail : Tail crc32 m' (s.stop (h * 4096)) (h * 4096 + 4096)) : LogAt crc32 m' S := by
  have hat := hlog.used h hh s hs
  have hin := hat.inside
  have hstop : s.stop (h * 4096) = h * 4096 + 8 + extent s.recs := rfl
  have hnew : s.At crc32 m' (h * 4096) := by
    refine ⟨?_, hat.laid, fun r hr => ?_, hin, htail⟩
    · rw [← hat.hdr]
      exact congrArg _ (read_congr fun a _ h2 => (hframe a (by
        unfold storeSectorHdrSize at h2
        omega)).symm)
    · have hb := hat.bounds hr
      exact (hat.recs r hr).congr fun a _ h2 => hframe a (by omega)
  have hlog' : LogAt crc32 m' (Function.update S h (some s)) := hlog.update (fun a ha => hframe a (by omega))
    (fun x hx => by
      rw [Option.some.injEq] at hx
      exact hx ▸ hnew) (by simp)
  rwa [← hs, Function.update_eq_self] at hlog'

variable {st st1 : StoreState} {S S1 : Nat → Option LogSector} {h h1 : Nat} {bases : List Nat}

/-- A boot only looks at the flash. -/
theorem Ring.reboot (hr : Ring crc32 now st S h) (ho : HeadOpen st S h) (x : StoreState)
    (hmem : x.mem = st.mem) :
    ∃ st' h', bitleStoreReboot .good crc32 now x = (.ok, st') ∧ StoreInv crc32 now st' S h' := by
  obtain ⟨s, hs, -⟩ := ho
  obtain ⟨st', h', heq, hinv, -⟩ := hr.log.boot hr.indexed ⟨h, hr.head_lt, by rw [hs]; rfl⟩
    hr.oneTop x.erased
  refine ⟨st', h', ?_, hinv⟩
  rw [bitleStoreReboot, hmem]
  exact heq

/-- Where the record is put, as the condition names it. -/
theorem Prepared.recordOffset {key : StoreKey} {len : Nat}
    (hp : Prepared crc32 now st S key len st1 S1 h1 bases) :
    st1.writeOff = h1 * 4096 + recordOffset st len := by
  obtain ⟨s, hs, -, hw, -, hfit⟩ := hp.ready
  have hlo := hp.ring.head_lo
  have hoff := hp.offset
  unfold Bitle.recordOffset storeRecordHdrSize storeSectorSize storeSectorHdrSize
  omega

section Prepared

variable {a : PutArgs} (hp : Prepared crc32 now st S a.key a.payload.length st1 S1 h1 bases)
include hp

/-- The log with the torn record behind it, if what stands there is a tail. -/
theorem Prepared.logAt_torn
    (htail : Tail crc32 (tornState crc32 st1 a n).mem st1.writeOff (h1 * 4096 + 4096)) :
    LogAt crc32 (tornState crc32 st1 a n).mem S1 := by
  obtain ⟨s, hs, -, hw, -, hfit⟩ := hp.ready
  have hlo := hp.ring.head_lo
  have hblen := a.length_bytes crc32
  refine hp.ring.log.retail hp.ring.head_lt hs (fun b hb => (program_outside ?_).symm)
    (by rw [← hw]; exact htail)
  rw [List.length_take]
  omega

variable (hpos : 1 ≤ a.payload.length) (hle : a.payload.length ≤ 520)
include hpos hle

/-- At most three bytes: both walks stop in front of them. -/
theorem Prepared.torn_short (hn : n ≤ 3)
    (hlen : n = 3 → ∀ k, 1 ≤ k → k ≤ 520 → st1.writeOff + 32 + k ≤ h1 * 4096 + 4096 →
      UInt8.ofNat a.payload.length &&& UInt8.ofNat k = UInt8.ofNat k) :
    Ring crc32 now (tornState crc32 st1 a n) S1 h1 ∧
      HeadOpen (tornState crc32 st1 a n) S1 h1 := by
  obtain ⟨s, hs, hseq, hw, hfresh, hfit⟩ := hp.ready
  have hr := hp.ring
  have hfresh' : Fresh (tornState crc32 st1 a n).mem st1.writeOff (h1 * 4096 + 4096) :=
    hfresh.fresh_take crc32 (r := a.record st1.writeOff) hpos hle hfit hn hlen
  have hopen : HeadOpen (tornState crc32 st1 a n) S1 h1 := ⟨s, hs, hseq, .inl ⟨hw, hfresh'⟩⟩
  exact ⟨⟨hp.logAt_torn (.inl hfresh'), hr.indexed, hr.head_lt, hr.head_lo, hr.head_hi,
    .inr hopen, hr.wrap⟩, hopen⟩

/-- A bad CRC with no room behind it: the walks part, but nothing is ever put there. -/
theorem Prepared.torn_stuck (hn : 4 ≤ n) (hcrc : a.tornCrcHolds crc32 n = false)
    (hfull : h1 * 4096 + 4096 < st1.writeOff + 32 + a.payload.length + 33) :
    ∃ x, x.mem = (tornState crc32 st1 a n).mem ∧ Ring crc32 now x S1 h1 ∧ HeadOpen x S1 h1 := by
  obtain ⟨s, hs, hseq, hw, hfresh, hfit⟩ := hp.ready
  have hr := hp.ring
  have hlo := hr.head_lo
  have hstuck : Stuck crc32 (tornState crc32 st1 a n).mem st1.writeOff (h1 * 4096 + 4096) :=
    (hfresh.stuck_torn hpos hle hfit hn hcrc hfull).1
  let x : StoreState :=
    { tornState crc32 st1 a n with writeOff := st1.writeOff + (32 + a.payload.length) }
  have hopen : HeadOpen x S1 h1 := ⟨s, hs, hseq, .inr (by simp only [x]; omega)⟩
  exact ⟨x, rfl, ⟨hp.logAt_torn (.inr hstuck), hr.indexed, hr.head_lt,
    by simp only [x]; omega, hfit, .inr hopen, hr.wrap⟩, hopen⟩

/-- A good CRC: what is there is a record, indexed at the next boot unless it is expired. -/
theorem Prepared.torn_record (hn : 4 ≤ n) (hcrc : a.tornCrcHolds crc32 n = true)
    (hkey : storeExpired now (a.tornHdr crc32 n).expiryUnixS = true ∨
      ∀ e ∈ st.index, e.key = (a.tornHdr crc32 n).key → e.key = a.key) :
    ∃ x S2, x.mem = (tornState crc32 st1 a n).mem ∧ Ring crc32 now x S2 h1 ∧
      HeadOpen x S2 h1 := by
  obtain ⟨s, hs, hseq, hw, hfresh, hfit⟩ := hp.ready
  have hr := hp.ring
  have hmem : program st1.mem st1.writeOff ((a.tornRecord crc32 n st1.writeOff).bytes crc32) =
      (tornState crc32 st1 a n).mem := by
    rw [a.bytes_tornRecord hle hn hcrc, program_torn]
    rfl
  have hplen : (a.tornRecord crc32 n st1.writeOff).payload.length = a.payload.length :=
    a.length_tornPayload crc32 n
  have hsize : (a.tornRecord crc32 n st1.writeOff).size = 32 + a.payload.length := by
    rw [LogRecord.size, hplen]
  have hwritten := fun {index : List StoreIndexEntry} hidx => hr.written
    (r := a.tornRecord crc32 n st1.writeOff) hs hseq hw hfresh rfl
    (by rw [hsize]; exact hfit) (by omega) (by omega) (hidx : Indexed now _ index)
  by_cases hlive : storeExpired now (a.tornHdr crc32 n).expiryUnixS = true
  · have hidx : Indexed now (Function.update S1 h1
        (some ⟨s.seq, s.recs ++ [a.tornRecord crc32 n st1.writeOff]⟩)) st1.index := by
      refine ⟨hr.indexed.nodup, hr.indexed.length_le, fun e he => ?_, fun seq x hx hl => ?_⟩
      · obtain ⟨seq, x, hx, hal, rfl⟩ := hr.indexed.sound e he
        exact ⟨seq, x, (stored_append hr.head_lt hs _).mpr (.inl hx), hal, rfl⟩
      · rcases (stored_append hr.head_lt hs _).mp hx with hx | ⟨rfl, -⟩
        · exact hr.indexed.complete seq x hx hl
        · simp [LogRecord.live, PutArgs.tornRecord, hlive] at hl
    obtain ⟨hring, hopen⟩ := hwritten hidx
    exact ⟨_, _, hmem, hring, hopen⟩
  · have hnokey : ∀ x, ¬ Bound st1 S1 (a.tornHdr crc32 n).key x := by
      intro x hx
      obtain ⟨⟨hk, seq, -, he⟩, hne, -⟩ := (hp.bound _ _).mp hx
      exact hne (hk.symm.trans (hkey.resolve_left hlive _ he hk))
    obtain ⟨hring, hopen⟩ := hwritten (hr.indexed_append hs hseq hp.room rfl hnokey)
    exact ⟨_, _, hmem, hring, hopen⟩

/-- **After a harmless power loss** the flash is that of a store with the invariant. -/
theorem Prepared.torn (hharm : TornHarmless crc32 now st a n) :
    ∃ x S2, x.mem = (tornState crc32 st1 a n).mem ∧ Ring crc32 now x S2 h1 ∧
      HeadOpen x S2 h1 := by
  have hwoff := hp.recordOffset
  rcases hharm with hbad | hn | ⟨rfl, hlen⟩ | ⟨hn, hcrc, hfull⟩ | ⟨hn, hcrc, hkey⟩
  · exact absurd ⟨hpos, hle⟩ hbad
  · exact ⟨_, S1, rfl, hp.torn_short hpos hle (by omega) (by omega)⟩
  · exact ⟨_, S1, rfl, hp.torn_short hpos hle (Nat.le_refl 3) fun _ k hk1 hk2 hk3 =>
      hlen k hk1 hk2 (by omega)⟩
  · obtain ⟨x, hx⟩ := hp.torn_stuck hpos hle hn hcrc (by omega)
    exact ⟨x, S1, hx⟩
  · exact hp.torn_record hpos hle hn hcrc hkey

end Prepared

/-- **Power loss and boot.** -/
theorem StoreInv.torn (hi : StoreInv crc32 now st S h) {a : PutArgs}
    (hharm : TornHarmless crc32 now st a n) :
    ∃ st1 st' S' h', tornPut crc32 st a n = .ok st1 ∧
      bitleStoreReboot .good crc32 now st1 = (.ok, st') ∧ StoreInv crc32 now st' S' h' := by
  by_cases hlen : 1 ≤ a.payload.length ∧ a.payload.length ≤ 520
  · obtain ⟨st1, S1, h1, bases, hprep, hp⟩ :=
      (hi.toRing.setLock .held).prepare a.key hlen.1 hlen.2
    obtain ⟨x, S2, hmem, hring, hopen⟩ := hp.torn hlen.1 hlen.2 hharm
    obtain ⟨st', h', hboot, hinv⟩ := hring.reboot hopen (tornState crc32 st1 a n) hmem.symm
    refine ⟨_, st', S2, h', ?_, hboot, hinv⟩
    unfold tornPut
    rw [putRejects_of_valid hi.part hlen.1 hlen.2, takeLock_free hi.lock]
    simp only [Bool.false_eq_true, if_false, bind, Except.bind, pure, Except.pure, hprep]
    rfl
  · obtain ⟨st', h', hboot, hinv, -⟩ := hi.reboot
    refine ⟨st, st', S, h', ?_, hboot, hinv⟩
    unfold tornPut
    rw [putRejects_of_invalid st hlen]
    rfl

end Torn

/-! ## Runs with power losses -/

/-- A call, or a power loss during a `put` and the boot after it. -/
inductive StoreEvent where
  | call (op : StoreOp)
  | torn (a : PutArgs) (n : Nat)

/-- One event; the time of a power loss is that of the boot after it. -/
def eventStep (crc32 : UInt32 → List UInt8 → UInt32) (now : UInt32) (st : StoreState) :
    StoreEvent → Except StoreFault StoreState
  | .call op => do
    let (_, st) ← storeStep crc32 now st op
    return st
  | .torn a n => do
    let st ← tornPut crc32 st a n
    return (bitleStoreReboot .good crc32 now st).2

def eventRun (crc32 : UInt32 → List UInt8 → UInt32) :
    StoreState → List (UInt32 × StoreEvent) → Except StoreFault StoreState
  | st, [] => .ok st
  | st, (now, event) :: rest => do
    let st ← eventStep crc32 now st event
    eventRun crc32 st rest

/-- What is asked of an event. -/
def StoreEvent.harmless (crc32 : UInt32 → List UInt8 → UInt32) (now : UInt32) (st : StoreState) :
    StoreEvent → Prop
  | .call _ => True
  | .torn a n => TornHarmless crc32 now st a n

/-- Every power loss of the run is harmless in the state it meets. -/
def AllHarmless (crc32 : UInt32 → List UInt8 → UInt32) :
    StoreState → List (UInt32 × StoreEvent) → Prop
  | _, [] => True
  | st, (now, event) :: rest => event.harmless crc32 now st ∧
    ∀ st', eventStep crc32 now st event = .ok st' → AllHarmless crc32 st' rest

theorem StoreInv.events {crc32 : UInt32 → List UInt8 → UInt32} {now : UInt32} {st : StoreState}
    {S : Nat → Option LogSector} {h : Nat} (hi : StoreInv crc32 now st S h)
    {events : List (UInt32 × StoreEvent)} (hclock : ClockFrom now events)
    (hharm : AllHarmless crc32 st events) :
    ∃ st' S' h', eventRun crc32 st events = .ok st' ∧
      StoreInv crc32 (lastTime now events) st' S' h' := by
  induction events generalizing now st S h with
  | nil => exact ⟨st, S, h, rfl, hi⟩
  | cons x events ih =>
    obtain ⟨t, event⟩ := x
    obtain ⟨hle, hclock⟩ := hclock
    obtain ⟨hev, hrest⟩ := hharm
    have hstep : ∃ st1 S1 h1, eventStep crc32 t st event = .ok st1 ∧ StoreInv crc32 t st1 S1 h1 := by
      cases event with
      | call op =>
        obtain ⟨out, st1, S1, h1, bases, heq, hs⟩ := (hi.mono hle).step op
        refine ⟨st1, S1, h1, ?_, hs.inv⟩
        rw [eventStep, heq]
        rfl
      | torn a n =>
        obtain ⟨st1, st2, S2, h2, htorn, hboot, hinv⟩ := (hi.mono hle).torn hev
        refine ⟨st2, S2, h2, ?_, hinv⟩
        rw [eventStep, htorn]
        exact congrArg (Except.ok ·.2) hboot
    obtain ⟨st1, S1, h1, heq, hi1⟩ := hstep
    obtain ⟨st', S', h', hrun, hi'⟩ := ih hi1 hclock (hrest st1 heq)
    refine ⟨st', S', h', ?_, hi'⟩
    rw [eventRun, heq]
    exact hrun

/-- **What is put after a power loss stays.** In every run from an erased partition in which each
power loss is harmless, a record that is put afterwards is there after the next reboot, whatever
calls come in between, unless one of them refreshes or deletes it, its sector is erased or it is
expired by then. -/
theorem put_survives_reboot (crc32 : UInt32 → List UInt8 → UInt32) (t : UInt32)
    (before : List (UInt32 × StoreEvent)) (now : UInt32) (a : PutArgs)
    (after : List (UInt32 × StoreOp)) (tEnd : UInt32)
    (hclock : ClockFrom t before ∧ lastTime t before ≤ now ∧ ClockFrom now after ∧
      lastTime now after ≤ tEnd)
    (hharm : ∀ st0, bitleStoreInit .good crc32 t (powerOn blankFlash []) = (.ok, st0) →
      AllHarmless crc32 st0 before)
    (hlen : 1 ≤ a.payload.length ∧ a.payload.length ≤ bitleStorePayloadMax)
    (htouch : ∀ x ∈ after, x.2.touches a.key = false)
    (hexp : storeExpired tEnd a.expiryUnixS = false) :
    ∃ st0 st st1 st2 st3 base bases,
      bitleStoreInit .good crc32 t (powerOn blankFlash []) = (.ok, st0) ∧
      eventRun crc32 st0 before = .ok st ∧
      storeStep crc32 now st (.put a.key a.expiryUnixS a.flags a.payload) = .ok (.err .ok, st1) ∧
      storeRun crc32 st1 after = .ok st2 ∧
      bitleStoreReboot .good crc32 tEnd st2 = (.ok, st3) ∧
      storeBase st1 a.key = some base ∧ st2.erased = st1.erased ++ bases ∧
      (base ∉ bases → storeMap st3 a.key = some ⟨a.expiryUnixS, a.flags, a.payload⟩) := by
  obtain ⟨hbefore, hnow, hafter, hend⟩ := hclock
  obtain ⟨st0, S0, h0, hboot, hi0, -⟩ := storeInv_firstBoot crc32 t
  obtain ⟨st, S, h, hrun, hi⟩ := hi0.events hbefore (hharm st0 hboot)
  obtain ⟨out, st1, S1, h1, bases1, hput, hs1⟩ :=
    (hi.mono hnow).step (.put a.key a.expiryUnixS a.flags a.payload)
  obtain ⟨rfl, hmap, -⟩ := hs1.map.1 hlen
  obtain ⟨r, hb, hval⟩ := hs1.inv.storeMap_eq_some_iff.mp hmap
  have hrexp : r.expiryUnixS = a.expiryUnixS := congrArg StoreValue.expiryUnixS hval
  obtain ⟨st2, S2, h2, bases, hrun2, hi2, her2, hkeeps⟩ := hs1.inv.run hafter
  obtain ⟨st3, h3, hboot3, hi3, -, hbound3⟩ := (hi2.mono hend).reboot
  refine ⟨st0, st, st1, st2, st3, sectorBase r.off, bases, hboot, hrun, hput, hrun2, hboot3,
    hs1.inv.storeBase_of_bound hb, her2, fun hbase => ?_⟩
  rw [← hrexp] at hexp
  have hexp2 : storeExpired (lastTime now after) r.expiryUnixS = false := by
    refine Bool.eq_false_iff.mpr fun he => ?_
    simp [storeExpired_mono hend he] at hexp
  have hb2 := hkeeps a.key r htouch hb hbase hexp2
  rw [hi3.storeMap_of_bound ((hbound3 a.key r).mpr ⟨hb2, hexp⟩), hval]

/-- A power loss after the magic, then two puts. -/
theorem put_survives_reboot_magic :
    ∃ st0 st st1 st2 st3 base bases,
      bitleStoreInit .good espCrc32Le 1 (powerOn blankFlash []) = (.ok, st0) ∧
      eventRun espCrc32Le st0 [(2, .torn ⟨zeros 16, 9, 0, [1, 2, 3]⟩ 2)] = .ok st ∧
      storeStep espCrc32Le 3 st (.put (copyAt 16 [1] 0) 9 0 [7]) = .ok (.err .ok, st1) ∧
      storeRun espCrc32Le st1 [(4, .put (copyAt 16 [2] 0) 9 0 [8])] = .ok st2 ∧
      bitleStoreReboot .good espCrc32Le 5 st2 = (.ok, st3) ∧
      storeBase st1 (copyAt 16 [1] 0) = some base ∧ st2.erased = st1.erased ++ bases ∧
      (base ∉ bases → storeMap st3 (copyAt 16 [1] 0) = some ⟨9, 0, [7]⟩) :=
  put_survives_reboot espCrc32Le 1 [(2, .torn ⟨zeros 16, 9, 0, [1, 2, 3]⟩ 2)] 3
    ⟨copyAt 16 [1] 0, 9, 0, [7]⟩ [(4, .put (copyAt 16 [2] 0) 9 0 [8])] 5 (by decide)
    (fun _ _ => ⟨.inr (.inl (Nat.le_refl 2)), fun _ _ => trivial⟩) (by decide) (by decide)
    (by decide)

/-- A power loss after the header of the first record. At the next boot the write offset is
behind it, so a second record is put there with `ESP_OK`; at the boot after that it is gone. -/
theorem torn_record_hides_later_put :
    (do
      let st0 := (bitleStoreInit .good espCrc32Le 1 (powerOn blankFlash [])).2
      let st ← eventRun espCrc32Le st0 [(2, .torn ⟨zeros 16, 9, 0, [1, 2, 3]⟩ 32)]
      let (out, st1) ← storeStep espCrc32Le 3 st (.put (copyAt 16 [1] 0) 9 0 [7])
      let (_, st2) ← storeStep espCrc32Le 4 st1 .reboot
      return (out, storeMap st1 (copyAt 16 [1] 0), storeMap st2 (copyAt 16 [1] 0),
        st2.erased == st.erased) :
        Except StoreFault (StoreOut × Option StoreValue × Option StoreValue × Bool)).toOption =
      some (.err .ok, some ⟨9, 0, [7]⟩, none, true) := by
  decide +kernel

end Bitle
