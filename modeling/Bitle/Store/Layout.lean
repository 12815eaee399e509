import Mathlib.Data.List.Pairwise
import Bitle.Store.Mailbox

/-!
# Bitle — what the mailbox partition holds

The abstract side of a partition: every sector is unused or a sequence number with a list of
records, laid out one behind the other. `SectorAt` says that the flash contents are such a
sector; `indexWalk_eq` and `resumeWalk_eq` say what the two walks of `bitle_store_init` make of
it.

What stands behind the last record is the delicate part, because a torn `put` leaves bytes
there. A tail is `Fresh` when both walks stop at it and every record that fits can still be
programmed over it, and `Stuck` when the second walk jumps over a record that the first one
rejects, with no room behind it for another.
-/

namespace Bitle

open Wire Flash Slots

/-! ## Headers read back -/

theorem StoreRecordHdr.length_bytes (h : StoreRecordHdr) : h.bytes.length = 32 := by
  simp [StoreRecordHdr.bytes, h.key.2]

theorem StoreSectorHdr.length_bytes (h : StoreSectorHdr) : h.bytes.length = 8 := by
  simp [StoreSectorHdr.bytes]

theorem ofNat16_leNat (v : UInt16) : UInt16.ofNat (leNat (leBytes 2 v.toNat)) = v := by
  rw [leNat_leBytes (by simpa using v.toNat_lt), UInt16.ofNat_toNat]

theorem ofNat32_leNat (v : UInt32) : UInt32.ofNat (leNat (leBytes 4 v.toNat)) = v := by
  rw [leNat_leBytes (by simpa using v.toNat_lt), UInt32.ofNat_toNat]

/-- A field in the middle of a byte string. -/
theorem slice_mid {pre field post : List UInt8} {off n : Nat} (hoff : pre.length = off)
    (hn : field.length = n) : ((pre ++ (field ++ post)).drop off).take n = field := by
  rw [List.drop_left' hoff, List.take_left' hn]

theorem StoreSectorHdr.ofBytes_bytes (h : StoreSectorHdr) : ofBytes h.bytes = h := by
  have hmagic : h.bytes.take 4 = leBytes 4 h.magic.toNat := by
    rw [bytes, List.take_left' (by simp)]
  have hseq : (h.bytes.drop 4).take 4 = leBytes 4 h.seq.toNat := by
    rw [bytes, List.drop_left' (by simp), List.take_of_length_le (by simp)]
  simp only [ofBytes, hmagic, hseq, ofNat32_leNat]

theorem StoreRecordHdr.ofBytes_bytes (h : StoreRecordHdr) : ofBytes h.bytes = h := by
  have hlen : h.bytes.length = 32 := h.length_bytes
  have hkey : h.key.val.length = 16 := h.key.2
  have hmagic : h.bytes.take 2 = leBytes 2 h.magic.toNat := by
    rw [bytes, List.take_left' (by simp)]
  have hpl : (h.bytes.drop 2).take 2 = leBytes 2 h.payloadLen.toNat := by
    rw [bytes, slice_mid (by simp) (by simp)]
  have halive : byteAt h.bytes 4 = h.alive := by
    simp [bytes, byteAt, leBytes]
  have hflags : byteAt h.bytes 5 = h.flags := by
    simp [bytes, byteAt, leBytes]
  have hres : (h.bytes.drop 6).take 2 = leBytes 2 h.reserved.toNat := by
    rw [bytes, ← List.append_assoc, ← List.append_assoc, slice_mid (by simp) (by simp)]
  have hexp : (h.bytes.drop 8).take 4 = leBytes 4 h.expiryUnixS.toNat := by
    rw [bytes, ← List.append_assoc, ← List.append_assoc, ← List.append_assoc,
      slice_mid (by simp) (by simp)]
  have hk : copyAt 16 h.bytes 12 = h.key := by
    apply Subtype.ext
    rw [copyAt_val (by omega), bytes, ← List.append_assoc, ← List.append_assoc,
      ← List.append_assoc, ← List.append_assoc, slice_mid (by simp) hkey]
  have hcrc : (h.bytes.drop 28).take 4 = leBytes 4 h.crc.toNat := by
    rw [bytes, ← List.append_assoc, ← List.append_assoc, ← List.append_assoc, ← List.append_assoc,
      ← List.append_assoc, List.drop_left' (by simp [hkey]), List.take_of_length_le (by simp)]
  simp only [ofBytes, hmagic, hpl, halive, hflags, hres, hexp, hk, hcrc, ofNat16_leNat,
    ofNat32_leNat]

theorem leBytes_ofNat16 {l : List UInt8} (hl : l.length = 2) :
    leBytes 2 (UInt16.ofNat (leNat l)).toNat = l := by
  have hlt := leNat_lt l
  rw [hl] at hlt
  rw [UInt16.toNat_ofNat_of_lt' (by simpa using hlt), ← hl, leBytes_leNat]

theorem leBytes_ofNat32 {l : List UInt8} (hl : l.length = 4) :
    leBytes 4 (UInt32.ofNat (leNat l)).toNat = l := by
  have hlt := leNat_lt l
  rw [hl] at hlt
  rw [UInt32.toNat_ofNat_of_lt' (by simpa using hlt), ← hl, leBytes_leNat]

/-- Two adjacent slices. -/
theorem slice_append (l : List UInt8) (a n k : Nat) :
    (l.drop a).take n ++ (l.drop (a + n)).take k = (l.drop a).take (n + k) := by
  rw [List.take_add, List.drop_drop]

theorem slice_two {l : List UInt8} {i : Nat} (hi : i + 1 < l.length) :
    (l.drop i).take 2 = [byteAt l i, byteAt l (i + 1)] := by
  apply List.ext_getElem (by simp; omega)
  intro j h1 h2
  simp only [List.length_cons, List.length_nil] at h2
  match j with
  | 0 => simp [byteAt, show i < l.length by omega]
  | 1 => simp [byteAt, hi]

/-- A header is the 32 bytes it was read from. -/
theorem StoreRecordHdr.bytes_ofBytes {l : List UInt8} (hl : l.length = 32) : (ofBytes l).bytes = l := by
  have hmid : [byteAt l 4, byteAt l 5] = (l.drop 4).take 2 := (slice_two (by omega)).symm
  have hkey : (copyAt 16 l 12).val = (l.drop 12).take 16 := copyAt_val (by omega)
  simp only [bytes, ofBytes]
  rw [leBytes_ofNat16 (by simp; omega), leBytes_ofNat16 (by simp; omega),
    leBytes_ofNat16 (by simp; omega), leBytes_ofNat32 (by simp; omega),
    leBytes_ofNat32 (by simp; omega), hmid, hkey]
  have hall : l = (l.drop 0).take 32 := by
    rw [List.drop_zero, List.take_of_length_le (by omega)]
  conv_rhs => rw [hall]
  rw [slice_append l 12 16 4, slice_append l 8 4 20, slice_append l 6 2 24, slice_append l 4 2 26,
    slice_append l 2 2 28]
  exact slice_append l 0 2 30

/-! ## Records -/

/-- A record of the log: where it is and what it says. -/
structure LogRecord where
  off : Nat
  alive : Bool
  key : StoreKey
  expiryUnixS : UInt32
  flags : UInt8
  payload : List UInt8
  deriving DecidableEq

namespace LogRecord

/-- The bytes a record takes. -/
def size (r : LogRecord) : Nat := 32 + r.payload.length

/-- The record after its tombstone. -/
def kill (r : LogRecord) : LogRecord := { r with alive := false }

/-- It still counts at time `now`. -/
def live (now : UInt32) (r : LogRecord) : Bool := r.alive && !storeExpired now r.expiryUnixS

/-- The index entry of a record in the sector with number `seq`. -/
def entry (seq : UInt32) (r : LogRecord) : StoreIndexEntry :=
  ⟨r.key, r.off, r.expiryUnixS, seq⟩

@[simp] theorem size_kill (r : LogRecord) : r.kill.size = r.size := rfl
@[simp] theorem off_kill (r : LogRecord) : r.kill.off = r.off := rfl

variable (crc32 : UInt32 → List UInt8 → UInt32)

/-- Its header: the one `bitle_store_put` wrote, with `alive` cleared by a tombstone. -/
def hdr (r : LogRecord) : StoreRecordHdr :=
  { putHdr crc32 r.key r.expiryUnixS r.flags r.payload with
    alive := if r.alive then 0xFF else 0x00 }

/-- The flash holds the record, and its payload has a length `bitle_store_put` accepts. -/
structure At (m : Mem) (r : LogRecord) : Prop where
  pos : 1 ≤ r.payload.length
  le : r.payload.length ≤ 520
  hdr : read m r.off 32 = (r.hdr crc32).bytes
  payload : read m (r.off + 32) r.payload.length = r.payload

variable {crc32} {m m' : Mem} {r : LogRecord}

variable (crc32) in
theorem payloadLen_toNat (h : r.payload.length ≤ 520) :
    (r.hdr crc32).payloadLen.toNat = r.payload.length := by
  simp only [LogRecord.hdr, putHdr, UInt16.toNat_ofNat']
  exact Nat.mod_eq_of_lt (by omega)

/-- The CRC does not cover the `alive` byte, so it holds before and after a tombstone. -/
theorem recordCrc_hdr (r : LogRecord) : recordCrc crc32 (r.hdr crc32) r.payload = (r.hdr crc32).crc :=
  rfl

namespace At

theorem ofBytes (h : r.At crc32 m) : StoreRecordHdr.ofBytes (read m r.off 32) = r.hdr crc32 := by
  rw [h.hdr, StoreRecordHdr.ofBytes_bytes]

theorem congr (h : r.At crc32 m) (hm : ∀ a, r.off ≤ a → a < r.off + r.size → m a = m' a) :
    r.At crc32 m' := by
  have hsize : r.size = 32 + r.payload.length := rfl
  refine ⟨h.pos, h.le, ?_, ?_⟩
  · exact (read_congr fun a h1 h2 => (hm a h1 (by omega)).symm).trans h.hdr
  · exact (read_congr fun a h1 h2 => (hm a (by omega) (by omega)).symm).trans h.payload

theorem size_pos (h : r.At crc32 m) : 33 ≤ r.size := by
  have := h.pos
  unfold size
  omega

theorem hdrPlausible_hdr (h : r.At crc32 m) : hdrPlausible (r.hdr crc32) = true := by
  have hlen := payloadLen_toNat crc32 h.le
  have h1 := h.pos
  have h2 := h.le
  simp only [hdrPlausible, hlen, bitleStorePayloadMax, Bool.and_eq_true, decide_eq_true_eq,
    bne_iff_ne, beq_iff_eq]
  exact ⟨⟨rfl, by omega⟩, h2⟩

end At

end LogRecord

/-! ## Runs of records -/

/-- Records one behind the other, the first at `start`. -/
def Consecutive : Nat → List LogRecord → Prop
  | _, [] => True
  | start, r :: rs => r.off = start ∧ Consecutive (start + r.size) rs

/-- The bytes a run of records takes. -/
def extent (rs : List LogRecord) : Nat := (rs.map LogRecord.size).sum

@[simp] theorem extent_nil : extent [] = 0 := rfl

@[simp] theorem extent_cons (r : LogRecord) (rs : List LogRecord) :
    extent (r :: rs) = r.size + extent rs := rfl

@[simp] theorem extent_append (rs rs' : List LogRecord) :
    extent (rs ++ rs') = extent rs + extent rs' := by
  simp [extent]

theorem consecutive_append {start : Nat} {rs rs' : List LogRecord} :
    Consecutive start (rs ++ rs') ↔ Consecutive start rs ∧ Consecutive (start + extent rs) rs' := by
  induction rs generalizing start with
  | nil => simp [Consecutive]
  | cons r rs ih => simp [Consecutive, ih, and_assoc, Nat.add_assoc]

namespace Consecutive

variable {start : Nat} {rs : List LogRecord}

/-- Every record lies inside the run. -/
theorem bounds (h : Consecutive start rs) {r : LogRecord} (hr : r ∈ rs) :
    start ≤ r.off ∧ r.off + r.size ≤ start + extent rs := by
  induction rs generalizing start with
  | nil => simp at hr
  | cons x rs ih =>
    obtain ⟨hx, hrs⟩ := h
    rw [extent_cons]
    rcases List.mem_cons.mp hr with rfl | hr
    · omega
    · have := ih hrs hr
      omega

/-- The run is in the order of the offsets, without overlap. -/
theorem pairwise (h : Consecutive start rs) : rs.Pairwise fun r r' => r.off + r.size ≤ r'.off := by
  induction rs generalizing start with
  | nil => exact List.Pairwise.nil
  | cons x rs ih =>
    obtain ⟨rfl, hrs⟩ := h
    exact List.pairwise_cons.mpr ⟨fun r hr => (hrs.bounds hr).1, ih hrs⟩

/-- Two records of a run are the same or apart. -/
theorem apart (h : Consecutive start rs) {r r' : LogRecord} (hr : r ∈ rs) (hr' : r' ∈ rs) :
    r = r' ∨ r.off + r.size ≤ r'.off ∨ r'.off + r'.size ≤ r.off := by
  have : Std.Symm fun r r' : LogRecord => r.off + r.size ≤ r'.off ∨ r'.off + r'.size ≤ r.off :=
    ⟨fun _ _ => Or.symm⟩
  have hsymm : rs.Pairwise fun r r' => r.off + r.size ≤ r'.off ∨ r'.off + r'.size ≤ r.off :=
    h.pairwise.imp Or.inl
  by_cases heq : r = r'
  · exact .inl heq
  · exact .inr (hsymm.forall hr hr' heq)

/-- Changing records without moving them keeps the run. -/
theorem map {f : LogRecord → LogRecord} (hoff : ∀ r, (f r).off = r.off)
    (hsize : ∀ r, (f r).size = r.size) (h : Consecutive start rs) : Consecutive start (rs.map f) := by
  induction rs generalizing start with
  | nil => trivial
  | cons x rs ih =>
    obtain ⟨rfl, hrs⟩ := h
    exact ⟨hoff x, by rw [hsize]; exact ih hrs⟩

end Consecutive

theorem extent_map {f : LogRecord → LogRecord} (hsize : ∀ r, (f r).size = r.size)
    (rs : List LogRecord) : extent (rs.map f) = extent rs := by
  simp [extent, Function.comp_def, hsize]

/-- At least 33 bytes a record. -/
theorem length_mul_le_extent {rs : List LogRecord} (h : ∀ r ∈ rs, 33 ≤ r.size) :
    33 * rs.length ≤ extent rs := by
  induction rs with
  | nil => simp
  | cons r rs ih =>
    have h1 := h r List.mem_cons_self
    have h2 := ih fun x hx => h x (List.mem_cons_of_mem _ hx)
    rw [List.length_cons, extent_cons]
    omega

/-! ## Tails -/

/-- From `c` to the end `e` of the sector both walks find nothing, and whatever record fits can
still be programmed: all but the first three bytes are blank. -/
structure Fresh (m : Mem) (c e : Nat) : Prop where
  blank : ∀ a, c + 3 ≤ a → a < e → m a = 0xFF
  compat : ∀ n, 1 ≤ n → n ≤ 520 → c + 32 + n ≤ e →
    m c &&& 0x7E = 0x7E ∧ m (c + 1) &&& 0xB1 = 0xB1 ∧ m (c + 2) &&& UInt8.ofNat n = UInt8.ofNat n

/-- The header at `off`. -/
def hdrAt (m : Mem) (off : Nat) : StoreRecordHdr := .ofBytes (read m off 32)

/-- The CRC of the record at `off` is the one in its header. -/
def crcHoldsAt (crc32 : UInt32 → List UInt8 → UInt32) (m : Mem) (off : Nat) : Bool :=
  recordCrc crc32 (hdrAt m off) (read m (off + 32) (hdrAt m off).payloadLen.toNat) ==
    (hdrAt m off).crc

/-- At `c` stands a record with a bad CRC, and no record fits between it and the end. -/
structure Stuck (crc32 : UInt32 → List UInt8 → UInt32) (m : Mem) (c e : Nat) : Prop where
  hdr_ok : hdrPlausible (hdrAt m c) = true
  inside : c + 32 + (hdrAt m c).payloadLen.toNat ≤ e
  full : e < c + 32 + (hdrAt m c).payloadLen.toNat + 33
  crc : crcHoldsAt crc32 m c = false
  blank : ∀ a, c + 32 + (hdrAt m c).payloadLen.toNat ≤ a → a < e → m a = 0xFF

/-- What may stand behind the last record of a sector. -/
def Tail (crc32 : UInt32 → List UInt8 → UInt32) (m : Mem) (c e : Nat) : Prop :=
  Fresh m c e ∨ Stuck crc32 m c e

theorem read_two (m : Mem) (off : Nat) : read m off 2 = [m off, m (off + 1)] := rfl

theorem hdrAt_congr {m m' : Mem} {off : Nat} (h : ∀ a, off ≤ a → a < off + 32 → m a = m' a) :
    hdrAt m off = hdrAt m' off := by
  rw [hdrAt, hdrAt, read_congr h]

theorem hdrAt_payloadLen (m : Mem) (off : Nat) :
    (hdrAt m off).payloadLen.toNat = (m (off + 2)).toNat + 256 * (m (off + 3)).toNat := by
  have h0 := (m (off + 2)).toNat_lt
  have h1 := (m (off + 3)).toNat_lt
  simp only [hdrAt, StoreRecordHdr.ofBytes, drop_take_read, read_two, leNat, UInt16.toNat_ofNat',
    show min 2 (32 - 2) = 2 from rfl, Nat.add_assoc, Nat.reduceAdd]
  omega

/-- A length whose high byte is blank is out of range. -/
theorem hdrPlausible_eq_false_of_blank (m : Mem) (off : Nat) (h : m (off + 3) = 0xFF) :
    hdrPlausible (hdrAt m off) = false := by
  have hlen := hdrAt_payloadLen m off
  have h255 : (m (off + 3)).toNat = 255 := by rw [h]; rfl
  have : ¬ (hdrAt m off).payloadLen.toNat ≤ bitleStorePayloadMax := by
    unfold bitleStorePayloadMax
    omega
  simp [hdrPlausible, this]

namespace Fresh

variable {m m' : Mem} {c e : Nat}

theorem of_blank (h : ∀ a, c ≤ a → a < e → m a = 0xFF) : Fresh m c e := by
  refine ⟨fun a h1 h2 => h a (by omega) h2, fun n h1 h2 h3 => ?_⟩
  rw [h c (by omega) (by omega), h (c + 1) (by omega) (by omega), h (c + 2) (by omega) (by omega)]
  exact ⟨rfl, rfl, ff_and _⟩

theorem congr (h : Fresh m c e) (hm : ∀ a, c ≤ a → a < e → m a = m' a) : Fresh m' c e := by
  refine ⟨fun a h1 h2 => ?_, fun n h1 h2 h3 => ?_⟩
  · rw [← hm a (by omega) h2]
    exact h.blank a h1 h2
  · rw [← hm c (by omega) (by omega), ← hm (c + 1) (by omega) (by omega),
      ← hm (c + 2) (by omega) (by omega)]
    exact h.compat n h1 h2 h3

theorem hdrPlausible_eq_false (h : Fresh m c e) (hc : c + 32 ≤ e) : hdrPlausible (hdrAt m c) = false :=
  hdrPlausible_eq_false_of_blank _ _ (h.blank _ (by omega) (by omega))

end Fresh

theorem Stuck.congr {crc32 : UInt32 → List UInt8 → UInt32} {m m' : Mem} {c e : Nat}
    (h : Stuck crc32 m c e) (hm : ∀ a, c ≤ a → a < e → m a = m' a) : Stuck crc32 m' c e := by
  have hin := h.inside
  have hhdr : hdrAt m c = hdrAt m' c := hdrAt_congr fun a h1 h2 => hm a h1 (by omega)
  have hpl : read m (c + 32) (hdrAt m c).payloadLen.toNat =
      read m' (c + 32) (hdrAt m c).payloadLen.toNat :=
    read_congr fun a h1 h2 => hm a (by omega) (by omega)
  have hcrc := h.crc
  unfold crcHoldsAt at hcrc
  rw [hpl, hhdr] at hcrc
  refine ⟨hhdr ▸ h.hdr_ok, hhdr ▸ h.inside, hhdr ▸ h.full, hcrc, fun a h1 h2 => ?_⟩
  rw [← hhdr] at h1
  rw [← hm a (by omega) h2]
  exact h.blank a h1 h2

theorem Tail.congr {crc32 : UInt32 → List UInt8 → UInt32} {m m' : Mem} {c e : Nat}
    (h : Tail crc32 m c e) (hm : ∀ a, c ≤ a → a < e → m a = m' a) : Tail crc32 m' c e :=
  h.imp (·.congr hm) (·.congr hm)

/-! ## Writing a record -/

/-- The bytes `bitle_store_put` programs. -/
def LogRecord.bytes (crc32 : UInt32 → List UInt8 → UInt32) (r : LogRecord) : List UInt8 :=
  (r.hdr crc32).bytes ++ r.payload

section Write

variable {crc32 : UInt32 → List UInt8 → UInt32} {m : Mem} {c e : Nat} {r : LogRecord}

variable (crc32) in
theorem LogRecord.length_bytes (r : LogRecord) : (r.bytes crc32).length = r.size := by
  simp [LogRecord.bytes, StoreRecordHdr.length_bytes, LogRecord.size]

variable (crc32) in
/-- How every record starts. -/
theorem LogRecord.bytes_head (hle : r.payload.length ≤ 520) :
    ∃ rest, r.bytes crc32 = 0x7E :: 0xB1 :: UInt8.ofNat r.payload.length ::
      UInt8.ofNat (r.payload.length / 256) :: (if r.alive then 0xFF else 0x00) :: r.flags ::
      0xFF :: 0xFF :: rest := by
  have hlen := payloadLen_toNat crc32 hle
  have hmagic : leBytes 2 (r.hdr crc32).magic.toNat = [0x7E, 0xB1] := by
    show leBytes 2 storeRecordMagic.toNat = _
    decide
  have hres : leBytes 2 (r.hdr crc32).reserved.toNat = [0xFF, 0xFF] := by
    show leBytes 2 (0xFFFF : UInt16).toNat = _
    decide
  rw [LogRecord.bytes, StoreRecordHdr.bytes, hmagic, hlen, hres]
  exact ⟨_, rfl⟩

theorem LogRecord.at_of_read (hpos : 1 ≤ r.payload.length) (hle : r.payload.length ≤ 520)
    (h : read m r.off r.size = r.bytes crc32) : r.At crc32 m := by
  rw [LogRecord.size, read_add, LogRecord.bytes] at h
  obtain ⟨h1, h2⟩ := List.append_inj h (by simp [StoreRecordHdr.length_bytes])
  exact ⟨hpos, hle, h1, h2⟩

/-- No bit of a record that fits is cleared in a fresh tail: the first three bytes may have been
programmed before, the others are blank. -/
theorem Fresh.and_bytes (h : Fresh m r.off e) (hpos : 1 ≤ r.payload.length)
    (hle : r.payload.length ≤ 520) (hfit : r.off + r.size ≤ e) {i : Nat}
    (hi : i < (r.bytes crc32).length) :
    m (r.off + i) &&& (r.bytes crc32)[i] = (r.bytes crc32)[i] := by
  have hlen := r.length_bytes crc32
  obtain ⟨rest, hrest⟩ := LogRecord.bytes_head crc32 hle
  have hsize : r.size = 32 + r.payload.length := rfl
  obtain ⟨hm0, hm1, hm2⟩ := h.compat _ hpos hle (by omega)
  match i with
  | 0 => simpa [hrest] using hm0
  | 1 => simpa [hrest] using hm1
  | 2 => simpa [hrest] using hm2
  | i + 3 => rw [h.blank _ (by omega) (by omega), ff_and]

/-- What is programmed into a fresh tail is a record. -/
theorem Fresh.at_program (h : Fresh m r.off e) (hpos : 1 ≤ r.payload.length)
    (hle : r.payload.length ≤ 520) (hfit : r.off + r.size ≤ e) :
    r.At crc32 (program m r.off (r.bytes crc32)) := by
  refine LogRecord.at_of_read hpos hle ?_
  rw [← r.length_bytes crc32]
  exact read_program_self _ _ _ fun i hi => h.and_bytes hpos hle hfit hi

theorem Fresh.fresh_program (h : Fresh m r.off e) (hpos : 1 ≤ r.payload.length) :
    Fresh (program m r.off (r.bytes crc32)) (r.off + r.size) e := by
  have hsize : r.size = 32 + r.payload.length := rfl
  have hlen := r.length_bytes crc32
  refine Fresh.of_blank fun a h1 h2 => ?_
  rw [program_outside (by omega), h.blank a (by omega) h2]

/-- A tombstone clears the `alive` byte and nothing else. -/
theorem LogRecord.At.kill (h : r.At crc32 m) :
    r.kill.At crc32 (program m (r.off + storeAliveOffset) [0x00]) := by
  have hset : (r.kill.hdr crc32).bytes = (r.hdr crc32).bytes.set storeAliveOffset 0x00 := by
    simp [StoreRecordHdr.bytes, LogRecord.hdr, LogRecord.kill, leBytes, storeAliveOffset, putHdr]
  refine ⟨h.pos, h.le, ?_, ?_⟩
  · rw [LogRecord.off_kill, read_program_byte _ (by decide), h.hdr, hset, UInt8.and_zero]
  · refine (read_congr fun a h1 _ => program_outside (.inr ?_)).trans h.payload
    rw [LogRecord.off_kill] at h1
    simp [storeAliveOffset]
    omega

end Write

/-! ## Sectors -/

theorem erase_inside {m : Mem} {base a : Nat} (h1 : base ≤ a) (h2 : a < base + 4096) :
    eraseRange m base storeSectorSize a = 0xFF := by
  unfold storeSectorSize
  exact eraseRange_inside h1 h2

theorem erase_outside {m : Mem} {base a : Nat} (h : a < base ∨ base + 4096 ≤ a) :
    eraseRange m base storeSectorSize a = m a := by
  unfold storeSectorSize
  exact eraseRange_outside h

/-- A sector in use. -/
structure LogSector where
  seq : UInt32
  recs : List LogRecord

/-- Where the records of the sector at `base` end. -/
def LogSector.stop (s : LogSector) (base : Nat) : Nat := base + 8 + extent s.recs

/-- The flash holds sector `s` at `base`. -/
structure LogSector.At (crc32 : UInt32 → List UInt8 → UInt32) (m : Mem) (base : Nat)
    (s : LogSector) : Prop where
  hdr : readSectorHdr m base = ⟨storeSectorMagic, s.seq⟩
  laid : Consecutive (base + 8) s.recs
  recs : ∀ r ∈ s.recs, r.At crc32 m
  inside : s.stop base ≤ base + 4096
  tail : Tail crc32 m (s.stop base) (base + 4096)

namespace LogSector.At

variable {crc32 : UInt32 → List UInt8 → UInt32} {m m' : Mem} {base : Nat} {s : LogSector}

theorem congr (h : s.At crc32 m base) (hm : ∀ a, base ≤ a → a < base + 4096 → m a = m' a) :
    s.At crc32 m' base := by
  have hin := h.inside
  have hstop : s.stop base = base + 8 + extent s.recs := rfl
  refine ⟨?_, h.laid, fun r hr => ?_, h.inside, ?_⟩
  · rw [← h.hdr]
    exact congrArg _ (read_congr fun a h1 h2 => (hm a h1 (by
      unfold storeSectorHdrSize at h2
      omega)).symm)
  · have hb := h.laid.bounds hr
    exact (h.recs r hr).congr fun a h1 h2 => hm a (by omega) (by omega)
  · exact h.tail.congr fun a h1 h2 => hm a (by omega) h2

/-- A record lies inside its sector, behind the sector header. -/
theorem bounds (h : s.At crc32 m base) {r : LogRecord} (hr : r ∈ s.recs) :
    base + 8 ≤ r.off ∧ r.off + r.size ≤ s.stop base := h.laid.bounds hr

/-- No sector holds more than 123 records. -/
theorem length_le (h : s.At crc32 m base) : s.recs.length ≤ 123 := by
  have h1 := length_mul_le_extent fun r hr => (h.recs r hr).size_pos
  have h2 := h.inside
  unfold LogSector.stop at h2
  omega

/-- Two records with one offset are the same. -/
theorem eq_of_off (h : s.At crc32 m base) {r r' : LogRecord} (hr : r ∈ s.recs)
    (hr' : r' ∈ s.recs) (hoff : r.off = r'.off) : r = r' := by
  have h1 := (h.recs r hr).size_pos
  have h2 := (h.recs r' hr').size_pos
  rcases h.laid.apart hr hr' with heq | hlt | hlt
  · exact heq
  · omega
  · omega

/-- A record programmed at a fresh end becomes the last one of the sector. -/
theorem append (h : s.At crc32 m base) (hfresh : Fresh m (s.stop base) (base + 4096))
    {r : LogRecord} (hoff : r.off = s.stop base) (hpos : 1 ≤ r.payload.length)
    (hle : r.payload.length ≤ 520) (hfit : r.off + r.size ≤ base + 4096) :
    LogSector.At crc32 (program m r.off (r.bytes crc32)) base ⟨s.seq, s.recs ++ [r]⟩ := by
  have hstop : s.stop base = base + 8 + extent s.recs := rfl
  have hstop' : LogSector.stop ⟨s.seq, s.recs ++ [r]⟩ base = r.off + r.size := by
    simp only [LogSector.stop, extent_append, extent_cons, extent_nil]
    omega
  have hframe : ∀ a, a < r.off → m a = program m r.off (r.bytes crc32) a :=
    fun a ha => (program_outside (.inl ha)).symm
  rw [← hoff] at hfresh
  refine ⟨?_, ?_, fun x hx => ?_, ?_, ?_⟩
  · rw [← h.hdr]
    exact congrArg _ (read_congr fun a _ h2 => (hframe a (by
      unfold storeSectorHdrSize at h2
      omega)).symm)
  · exact consecutive_append.mpr ⟨h.laid, by omega, trivial⟩
  · rcases List.mem_append.mp hx with hx | hx
    · have hb := h.bounds hx
      exact (h.recs x hx).congr fun a _ h2 => hframe a (by omega)
    · rw [List.mem_singleton.mp hx]
      exact hfresh.at_program hpos hle hfit
  · rw [hstop']
    exact hfit
  · rw [hstop']
    exact .inl (hfresh.fresh_program hpos)

end LogSector.At

/-- Tombstones the record at `off`, if it is one of the sector's. -/
def LogSector.kill (off : Nat) (s : LogSector) : LogSector :=
  { s with recs := s.recs.map fun r => if r.off = off then r.kill else r }

theorem LogSector.stop_kill (off base : Nat) (s : LogSector) :
    (s.kill off).stop base = s.stop base := by
  unfold LogSector.stop LogSector.kill
  rw [extent_map]
  intro r
  split <;> rfl

namespace LogSector.At

variable {crc32 : UInt32 → List UInt8 → UInt32} {m : Mem} {base : Nat} {s : LogSector}

/-- The tombstone of a record of the sector. -/
theorem kill (h : s.At crc32 m base) {r : LogRecord} (hr : r ∈ s.recs) :
    (s.kill r.off).At crc32 (program m (r.off + storeAliveOffset) [0x00]) base := by
  have hb := h.bounds hr
  have hpos := (h.recs r hr).size_pos
  have hframe : ∀ a, a ≠ r.off + 4 → m a = program m (r.off + storeAliveOffset) [0x00] a := by
    intro a ha
    refine (program_outside ?_).symm
    simp only [storeAliveOffset, List.length_singleton]
    omega
  have hlaid : Consecutive (base + 8) (s.kill r.off).recs :=
    h.laid.map (fun x => by split <;> rfl) (fun x => by split <;> rfl)
  refine ⟨?_, hlaid, fun x hx => ?_, ?_, ?_⟩
  · rw [show (s.kill r.off).seq = s.seq from rfl, ← h.hdr]
    exact congrArg _ (read_congr fun a _ h2 => (hframe a (by
      unfold storeSectorHdrSize at h2
      omega)).symm)
  · obtain ⟨y, hy, rfl⟩ := List.mem_map.mp hx
    by_cases hoff : y.off = r.off
    · rw [if_pos hoff, h.eq_of_off hy hr hoff]
      exact (h.recs r hr).kill
    · rw [if_neg hoff]
      refine (h.recs y hy).congr fun a h1 h2 => hframe a ?_
      rcases h.laid.apart hy hr with rfl | hlt | hlt
      · exact absurd rfl hoff
      · omega
      · omega
  · rw [LogSector.stop_kill]
    exact h.inside
  · rw [LogSector.stop_kill]
    exact h.tail.congr fun a h1 _ => hframe a (by omega)

/-- A sector after `open_sector`. -/
theorem opened (crc32 : UInt32 → List UInt8 → UInt32) (m : Mem) (base : Nat) (seq : UInt32) :
    LogSector.At crc32 (program (eraseRange m base storeSectorSize) base
      (StoreSectorHdr.bytes ⟨storeSectorMagic, seq⟩)) base ⟨seq, []⟩ := by
  have hlen := StoreSectorHdr.length_bytes ⟨storeSectorMagic, seq⟩
  have hblank : ∀ a, base ≤ a → a < base + 4096 → eraseRange m base storeSectorSize a = 0xFF :=
    fun a h1 h2 => erase_inside h1 h2
  refine ⟨?_, trivial, by simp, by simp [LogSector.stop], .inl (Fresh.of_blank fun a h1 h2 => ?_)⟩
  · have hread := read_program_self (eraseRange m base storeSectorSize) base
      (StoreSectorHdr.bytes ⟨storeSectorMagic, seq⟩) fun i hi => by
        rw [hblank _ (by omega) (by omega), ff_and]
    rw [hlen] at hread
    rw [readSectorHdr, storeSectorHdrSize, hread, StoreSectorHdr.ofBytes_bytes]
  · simp only [LogSector.stop, extent_nil] at h1
    rw [program_outside (by omega), hblank a (by omega) h2]

end LogSector.At

end Bitle
