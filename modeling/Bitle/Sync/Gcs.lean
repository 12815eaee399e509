import Bitle.Lib.Bits
import Bitle.Sync.Store

/-!
# Bitle — the sync filter (`main/bitle_sync.c`)

A requester tells a peer what it already holds as a Golomb-coded set: packet ids hashed to
buckets below `m`, sorted, and the gaps written as a unary quotient and a `p`-bit remainder.

The round trip is `gcsDecode_gcsEncode`: the decoder reads back exactly the buckets that were
written. The last byte is padded with fewer than eight zero bits, which the decoder takes for
the start of a code and gives up on, because a code has at least `p + 1` bits.
-/

namespace Bitle

open Wire

def gcsP : Nat := 7
def gcsMaxBytes : Nat := 400
def gcsMaxAccept : Nat := 1024
def gcsMaxElements : Nat := 355

/-- `gcs_bucket`: never zero for `m > 1`, so that every gap is at least one. -/
def gcsBucket (sha256 : List UInt8 → Bytes 32) (id : Bytes 16) (m : Nat) : Nat :=
  if m ≤ 1 then 0
  else
    let h := beNat ((sha256 id.val).val.take 8) % 2 ^ 63
    let v := h % m
    if v = 0 then 1 else v

/-! ## MSB-first bit IO -/

/-- `bitwriter_t`; `cap` is the length of the buffer. -/
structure BitWriter where
  buf : List UInt8
  bit : Nat := 0

/-- `bw_put`. -/
def bwPut (w : BitWriter) (bit : Bool) : Option BitWriter :=
  let byte := w.bit / 8
  if byte ≥ w.buf.length then none
  else
    some
      { buf :=
          if bit then
            w.buf.set byte (byteAt w.buf byte ||| ((0x80 : UInt8) >>> UInt8.ofNat (w.bit % 8)))
          else w.buf
        bit := w.bit + 1 }

/-- `bw_put_bits`: `count` low bits of `value`, the highest first. -/
def bwPutBits (w : BitWriter) (value : Nat) : Nat → Option BitWriter
  | 0 => some w
  | i + 1 => do
    let w ← bwPut w (value.testBit i)
    bwPutBits w value i

/-- The loop `while (q--)` of `gcs_encode`. -/
def bwPutOnes (w : BitWriter) : Nat → Option BitWriter
  | 0 => some w
  | q + 1 => do
    let w ← bwPut w true
    bwPutOnes w q

/-- `bitreader_t`. -/
structure BitReader where
  buf : List UInt8
  bit : Nat := 0
  deriving DecidableEq

/-- `br_get`; `none` is the `-1` at the end of the data. -/
def brGet (r : BitReader) : Option (Bool × BitReader) :=
  if r.bit / 8 ≥ r.buf.length then none
  else some (bitAt r.buf r.bit, { r with bit := r.bit + 1 })

/-- The loop of `gcs_decode` that counts ones up to a zero. A reader gives at most
`8 * buf.length` bits, and `fuel` is above that. -/
def brUnary : Nat → BitReader → Nat → Option (Nat × BitReader)
  | 0, _, _ => none
  | fuel + 1, r, q =>
    match brGet r with
    | none => none
    | some (true, r) => brUnary fuel r (q + 1)
    | some (false, r) => some (q, r)

/-- The remainder loop of `gcs_decode`. -/
def brGetBits : Nat → BitReader → Nat → Option (Nat × BitReader)
  | 0, r, rem => some (rem, r)
  | i + 1, r, rem => do
    let (b, r) ← brGet r
    brGetBits i r (2 * rem + b.toNat)

/-! ## The filter -/

/-- The loop of `gcs_encode` over the sorted buckets. -/
def gcsEncodeLoop (p : Nat) : List Nat → Nat → BitWriter → Option BitWriter
  | [], _, w => some w
  | b :: sorted, prev, w => do
    let x := b - prev
    let w ← bwPutOnes w ((x - 1) >>> p)
    let w ← bwPut w false
    let w ← bwPutBits w ((x - 1) &&& (2 ^ p - 1)) p
    gcsEncodeLoop p sorted b w

/-- `gcs_encode`: the bytes written, `none` where the source runs out of `out_cap` and
returns zero. -/
def gcsEncode (sorted : List Nat) (p outCap : Nat) : Option (List UInt8) := do
  let w ← gcsEncodeLoop p sorted 0 { buf := List.replicate outCap 0 }
  return w.buf.take ((w.bit + 7) / 8)

/-- The loop of `gcs_decode`; `room` is `out_cap - n`. The running value stays below
`m < 2^32` and a quotient below `2^14`, so nothing wraps in 64 bits. -/
def gcsDecodeLoop (p m : Nat) : Nat → BitReader → Nat → List Nat
  | 0, _, _ => []
  | room + 1, r, acc =>
    match brUnary (8 * r.buf.length + 1) r 0 with
    | none => []
    | some (q, r) =>
      match brGetBits p r 0 with
      | none => []
      | some (rem, r) =>
        let acc := acc + ((q <<< p) + rem + 1)
        if acc ≥ m then [] else acc :: gcsDecodeLoop p m room r acc

/-- `gcs_decode`. -/
def gcsDecode (data : List UInt8) (p : Int) (m outCap : Nat) : List Nat :=
  if p < 1 ∨ p > 32 ∨ m ≤ 1 then [] else gcsDecodeLoop p.toNat m outCap { buf := data } 0

/-- The loop of `sorted_contains`; `fuel` bounds the halvings by the length. -/
def sortedContainsLoop (values : List Nat) (needle : Nat) : Nat → Nat → Nat → Bool
  | 0, _, _ => false
  | fuel + 1, lo, hi =>
    if lo < hi then
      let mid := (lo + hi) / 2
      if values.getD mid 0 < needle then sortedContainsLoop values needle fuel (mid + 1) hi
      else if values.getD mid 0 > needle then sortedContainsLoop values needle fuel lo mid
      else true
    else false

/-- `sorted_contains`. -/
def sortedContains (values : List Nat) (needle : Nat) : Bool :=
  sortedContainsLoop values needle (values.length + 1) 0 values.length

/-! ## Buckets -/

theorem gcsBucket_pos (sha256 : List UInt8 → Bytes 32) (id : Bytes 16) {m : Nat} (hm : 1 < m) :
    0 < gcsBucket sha256 id m := by
  rw [gcsBucket, if_neg (by omega)]
  dsimp only
  split <;> omega

theorem gcsBucket_lt (sha256 : List UInt8 → Bytes 32) (id : Bytes 16) {m : Nat} (hm : 1 < m) :
    gcsBucket sha256 id m < m := by
  rw [gcsBucket, if_neg (by omega)]
  dsimp only
  split
  · exact hm
  · exact Nat.mod_lt _ (by omega)

/-! ## Writing -/

/-- The writer has written `bits` and the rest of its buffer is still zero. -/
def BitWriter.Written (w : BitWriter) (bits : List Bool) : Prop :=
  w.bit = bits.length ∧ bits.length ≤ 8 * w.buf.length ∧
    bitsOf w.buf = bits ++ List.replicate (8 * w.buf.length - bits.length) false

theorem BitWriter.Written.init (n : Nat) :
    BitWriter.Written { buf := List.replicate n 0 } [] := by
  refine ⟨rfl, Nat.zero_le _, ?_⟩
  simp [bitsOf_replicate_zero]

/-- Room for one more bit: it is appended. -/
theorem BitWriter.Written.put {w : BitWriter} {bits : List Bool} (h : w.Written bits) (b : Bool)
    (hroom : bits.length < 8 * w.buf.length) :
    ∃ w', bwPut w b = some w' ∧ w'.Written (bits ++ [b]) ∧ w'.buf.length = w.buf.length := by
  obtain ⟨hbit, hle, hbits⟩ := h
  have hpad : List.replicate (8 * w.buf.length - bits.length) false =
      false :: List.replicate (8 * w.buf.length - (bits.length + 1)) false := by
    rw [← List.replicate_succ]
    congr 1
    omega
  rw [bwPut, if_neg (by omega)]
  refine ⟨_, rfl, ⟨?_, ?_, ?_⟩, ?_⟩
  · show w.bit + 1 = (bits ++ [b]).length
    rw [hbit, List.length_append]
    rfl
  · cases b <;> simp <;> omega
  · cases b with
    | false =>
      show bitsOf w.buf = _
      rw [hbits, hpad]
      simp
    | true =>
      show bitsOf (w.buf.set (w.bit / 8) _) = _
      rw [bitsOf_set_bit (by omega), hbits, hbit, hpad]
      simp
  · cases b <;> simp

/-- The bits of one gap. -/
def riceBits (p x : Nat) : List Bool :=
  List.replicate ((x - 1) >>> p) true ++ false :: msbBits p ((x - 1) &&& (2 ^ p - 1))

/-- The bits of the whole filter. -/
def gcsBits (p : Nat) : Nat → List Nat → List Bool
  | _, [] => []
  | prev, b :: sorted => riceBits p (b - prev) ++ gcsBits p b sorted

/-- Put a list of bits. -/
def bwPutAll (w : BitWriter) (bits : List Bool) : Option BitWriter := bits.foldlM bwPut w

theorem bwPutOnes_eq (w : BitWriter) (q : Nat) :
    bwPutOnes w q = bwPutAll w (List.replicate q true) := by
  induction q generalizing w with
  | zero => rfl
  | succ q ih =>
    simp only [bwPutOnes, bwPutAll, List.replicate_succ, List.foldlM_cons]
    congr 1
    funext w'
    exact ih w'

theorem bwPutBits_eq (w : BitWriter) (value n : Nat) :
    bwPutBits w value n = bwPutAll w (msbBits n value) := by
  induction n generalizing w with
  | zero => rfl
  | succ n ih =>
    simp only [bwPutBits, bwPutAll, msbBits, List.foldlM_cons]
    congr 1
    funext w'
    exact ih w'

theorem bwPutAll_append (w : BitWriter) (l l' : List Bool) :
    bwPutAll w (l ++ l') = (bwPutAll w l).bind fun w => bwPutAll w l' := by
  rw [bwPutAll, List.foldlM_append]
  rfl

theorem bwPutAll_cons (w : BitWriter) (b : Bool) (l : List Bool) :
    bwPutAll w (b :: l) = (bwPut w b).bind fun w => bwPutAll w l := by
  rw [bwPutAll, List.foldlM_cons]
  rfl

/-- The encoder writes `gcsBits`. -/
theorem gcsEncodeLoop_eq (p : Nat) (sorted : List Nat) (prev : Nat) (w : BitWriter) :
    gcsEncodeLoop p sorted prev w = bwPutAll w (gcsBits p prev sorted) := by
  induction sorted generalizing prev w with
  | nil => rfl
  | cons b sorted ih =>
    simp only [gcsEncodeLoop, bwPutOnes_eq, bwPutBits_eq, ih, gcsBits, riceBits,
      List.append_assoc, List.cons_append, bwPutAll_append, bwPutAll_cons, Option.bind_eq_bind]

/-- As many bits as there is room for are written. -/
theorem BitWriter.Written.putAll {w : BitWriter} {bits : List Bool} (h : w.Written bits)
    (l : List Bool) (hroom : bits.length + l.length ≤ 8 * w.buf.length) :
    ∃ w', bwPutAll w l = some w' ∧ w'.Written (bits ++ l) ∧ w'.buf.length = w.buf.length := by
  induction l generalizing w bits with
  | nil => exact ⟨w, rfl, by simpa using h, rfl⟩
  | cons b l ih =>
    rw [List.length_cons] at hroom
    obtain ⟨w₁, hput, hw₁, hlen₁⟩ := h.put b (by omega)
    obtain ⟨w₂, hall, hw₂, hlen₂⟩ := ih hw₁ (by simp; omega)
    refine ⟨w₂, ?_, by simpa using hw₂, hlen₂.trans hlen₁⟩
    rw [bwPutAll_cons, hput]
    exact hall

/-- The encoder succeeds when its bits fit, and the bytes it returns spell them, followed by
fewer than eight zero bits. -/
theorem gcsEncode_eq_some {sorted : List Nat} {p outCap : Nat}
    (hroom : (gcsBits p 0 sorted).length ≤ 8 * outCap) :
    ∃ bytes k, gcsEncode sorted p outCap = some bytes ∧ k < 8 ∧
      bitsOf bytes = gcsBits p 0 sorted ++ List.replicate k false ∧
      8 * bytes.length = (gcsBits p 0 sorted).length + k := by
  obtain ⟨w, hput, ⟨hbit, hle, hbits⟩, hlen⟩ :=
    (BitWriter.Written.init outCap).putAll (gcsBits p 0 sorted) (by simpa using hroom)
  have hcap : w.buf.length = outCap := by simpa using hlen
  rw [List.nil_append] at hbit hle hbits
  have hbytes : (w.bit + 7) / 8 ≤ w.buf.length := by omega
  refine ⟨w.buf.take ((w.bit + 7) / 8), 8 * ((w.bit + 7) / 8) - w.bit, ?_, by omega, ?_, ?_⟩
  · rw [gcsEncode, gcsEncodeLoop_eq, hput]
    rfl
  · -- the cut is past the written bits, so only padding is lost
    rw [bitsOf_take _ hbytes, hbits, List.take_append, List.take_of_length_le (by omega),
      List.take_replicate]
    congr 2
    omega
  · rw [List.length_take]
    omega

/-! ## Reading -/

/-- The bits a reader has not consumed. -/
def BitReader.rest (r : BitReader) : List Bool := (bitsOf r.buf).drop r.bit

theorem BitReader.rest_advance (r : BitReader) (n : Nat) :
    BitReader.rest { r with bit := r.bit + n } = r.rest.drop n := by
  simp [BitReader.rest, Nat.add_comm]

theorem brGet_nil {r : BitReader} (h : r.rest = []) : brGet r = none := by
  have hlen := congrArg List.length h
  simp only [BitReader.rest, List.length_drop, length_bitsOf, List.length_nil] at hlen
  rw [brGet, if_pos (by omega)]

theorem brGet_cons {r : BitReader} {b : Bool} {l : List Bool} (h : r.rest = b :: l) :
    brGet r = some (b, { r with bit := r.bit + 1 }) := by
  have hlen := congrArg List.length h
  simp only [BitReader.rest, List.length_drop, length_bitsOf, List.length_cons] at hlen
  have hb : (bitsOf r.buf)[r.bit]? = some b := by
    have hhead := congrArg List.head? h
    rwa [BitReader.rest, List.head?_drop, List.head?_cons] at hhead
  rw [getElem?_bitsOf (by omega)] at hb
  rw [brGet, if_neg (by omega), Option.some.inj hb]

/-- A unary number followed by its zero is read whole. -/
theorem brUnary_ones {fuel q : Nat} {r : BitReader} {l : List Bool}
    (h : r.rest = List.replicate q true ++ false :: l) (hfuel : q < fuel) (n : Nat) :
    brUnary fuel r n = some (n + q, { r with bit := r.bit + (q + 1) }) := by
  induction q generalizing fuel r n with
  | zero =>
    obtain ⟨fuel, rfl⟩ : ∃ f, fuel = f + 1 := ⟨fuel - 1, by omega⟩
    rw [brUnary, brGet_cons h]
    rfl
  | succ q ih =>
    obtain ⟨fuel, rfl⟩ : ∃ f, fuel = f + 1 := ⟨fuel - 1, by omega⟩
    rw [List.replicate_succ, List.cons_append] at h
    rw [brUnary, brGet_cons h]
    have hrest : BitReader.rest { r with bit := r.bit + 1 } =
        List.replicate q true ++ false :: l := by rw [BitReader.rest_advance, h]; rfl
    show brUnary fuel { r with bit := r.bit + 1 } (n + 1) = _
    rw [ih hrest (by omega)]
    simp only [Option.some.injEq, Prod.mk.injEq, BitReader.mk.injEq, true_and]
    omega

theorem brGetBits_append {r : BitReader} {bits l : List Bool} (h : r.rest = bits ++ l)
    (acc : Nat) :
    brGetBits bits.length r acc =
      some (natOfBits acc bits, { r with bit := r.bit + bits.length }) := by
  induction bits generalizing r acc with
  | nil => rfl
  | cons b bits ih =>
    rw [List.cons_append] at h
    have hrest : BitReader.rest { r with bit := r.bit + 1 } = bits ++ l := by
      rw [BitReader.rest_advance, h]
      rfl
    rw [List.length_cons, brGetBits, brGet_cons h]
    show brGetBits bits.length { r with bit := r.bit + 1 } (2 * acc + b.toNat) = _
    rw [ih hrest]
    simp only [Option.some.injEq, Prod.mk.injEq, BitReader.mk.injEq, true_and]
    exact ⟨rfl, by omega⟩

/-- Fewer bits than asked for: the remainder loop gives up. -/
theorem brGetBits_short {n : Nat} {r : BitReader} (h : r.rest.length < n) (acc : Nat) :
    brGetBits n r acc = none := by
  induction n generalizing r acc with
  | zero => omega
  | succ n ih =>
    rw [brGetBits]
    match hrest : r.rest with
    | [] =>
      rw [brGet_nil hrest]
      rfl
    | b :: l =>
      rw [brGet_cons hrest]
      rw [hrest, List.length_cons] at h
      apply ih
      rw [BitReader.rest_advance, hrest]
      show l.length < n
      omega

/-- One code followed by anything: the loop yields its value and goes on behind it. -/
theorem gcsDecodeLoop_code {p m room x acc : Nat} {r : BitReader} {l : List Bool} (hx : 0 < x)
    (hacc : acc + x < m) (h : r.rest = riceBits p x ++ l) :
    gcsDecodeLoop p m (room + 1) r acc =
      (acc + x) :: gcsDecodeLoop p m room { r with bit := r.bit + (riceBits p x).length }
        (acc + x) := by
  have hq : (x - 1) >>> p < 8 * r.buf.length + 1 := by
    have hlen := congrArg List.length h
    simp only [BitReader.rest, List.length_drop, length_bitsOf, List.length_append, riceBits,
      List.length_replicate] at hlen
    omega
  rw [riceBits, List.append_assoc, List.cons_append] at h
  -- the remainder starts behind the quotient's terminating zero
  have hrest : BitReader.rest { r with bit := r.bit + ((x - 1) >>> p + 1) } =
      msbBits p ((x - 1) &&& (2 ^ p - 1)) ++ l := by
    rw [BitReader.rest_advance, h, List.drop_append, List.length_replicate,
      List.drop_eq_nil_of_le (by rw [List.length_replicate]; omega), Nat.add_sub_cancel_left]
    rfl
  have hbits := brGetBits_append hrest 0
  rw [length_msbBits, natOfBits_msbBits, Nat.zero_mul, Nat.zero_add] at hbits
  have hval : ((x - 1) >>> p) <<< p + ((x - 1) &&& (2 ^ p - 1)) % 2 ^ p + 1 = x := by
    rw [Nat.and_two_pow_sub_one_eq_mod, Nat.mod_mod, Nat.shiftRight_eq_div_pow,
      Nat.shiftLeft_eq, Nat.div_add_mod']
    omega
  rw [gcsDecodeLoop, brUnary_ones h hq 0, Nat.zero_add]
  dsimp only
  rw [hbits]
  dsimp only
  rw [hval, if_neg (by omega)]
  congr 2
  rw [riceBits, List.length_append, List.length_cons, List.length_replicate, length_msbBits]
  congr 1
  omega

/-- The padding holds no code. -/
theorem gcsDecodeLoop_pad {p m room acc k : Nat} {r : BitReader} (hk : k ≤ p)
    (h : r.rest = List.replicate k false) : gcsDecodeLoop p m room r acc = [] := by
  cases room with
  | zero => rfl
  | succ room =>
    rw [gcsDecodeLoop]
    cases k with
    | zero => rw [brUnary, brGet_nil h]
    | succ k =>
      rw [brUnary, brGet_cons h]
      dsimp only
      rw [brGetBits_short]
      rw [BitReader.rest_advance, h]
      simp
      omega

/-- Strictly increasing buckets above `prev` and below `m` are read back, and the loop goes on
with whatever follows them. -/
theorem gcsDecodeLoop_append {p m room prev : Nat} {sorted : List Nat} {l : List Bool}
    {r : BitReader} (hsorted : (prev :: sorted).Pairwise (· < ·)) (hm : ∀ b ∈ sorted, b < m)
    (hroom : sorted.length ≤ room) (h : r.rest = gcsBits p prev sorted ++ l) :
    ∃ r' : BitReader, r'.rest = l ∧ gcsDecodeLoop p m room r prev =
      sorted ++ gcsDecodeLoop p m (room - sorted.length) r' (sorted.getLastD prev) := by
  induction sorted generalizing prev room r with
  | nil => exact ⟨r, h, rfl⟩
  | cons b sorted ih =>
    obtain ⟨room, rfl⟩ : ∃ n, room = n + 1 := ⟨room - 1, by simp at hroom; omega⟩
    have hprev : prev < b := List.rel_of_pairwise_cons hsorted (List.mem_cons_self ..)
    have hb : prev + (b - prev) = b := by omega
    have hbm : prev + (b - prev) < m := by
      rw [hb]
      exact hm b (List.mem_cons_self ..)
    rw [gcsBits, List.append_assoc] at h
    have hrest : BitReader.rest { r with bit := r.bit + (riceBits p (b - prev)).length } =
        gcsBits p b sorted ++ l := by
      rw [BitReader.rest_advance, h, List.drop_left]
    obtain ⟨r', hr', htail⟩ := ih hsorted.of_cons (fun c hc => hm c (List.mem_cons_of_mem _ hc))
      (show sorted.length ≤ room by simpa using hroom) hrest
    refine ⟨r', hr', ?_⟩
    rw [gcsDecodeLoop_code (by omega) hbm h, hb, htail, List.length_cons, Nat.add_sub_add_right,
      List.getLastD_cons]
    rfl

/-- **Filter round trip.** What the encoder wrote, the decoder reads. -/
theorem gcsDecode_gcsEncode {sorted : List Nat} {p m outCap n : Nat} {bytes : List UInt8}
    (hp : 7 ≤ p) (hp32 : p ≤ 32) (hsorted : (0 :: sorted).Pairwise (· < ·))
    (hm : ∀ b ∈ sorted, b < m) (hm1 : 1 < m) (hn : sorted.length ≤ n)
    (hroom : (gcsBits p 0 sorted).length ≤ 8 * outCap)
    (henc : gcsEncode sorted p outCap = some bytes) : gcsDecode bytes p m n = sorted := by
  obtain ⟨bytes', k, henc', hk, hbits, -⟩ := gcsEncode_eq_some hroom
  obtain rfl : bytes = bytes' := Option.some.inj (henc.symm.trans henc')
  obtain ⟨r, hrest, hdec⟩ := gcsDecodeLoop_append (r := { buf := bytes }) hsorted hm hn hbits
  rw [gcsDecode, if_neg (by omega), Int.toNat_natCast, hdec,
    gcsDecodeLoop_pad (show k ≤ p by omega) hrest, List.append_nil]

/-! ## Size -/

theorem length_riceBits (p x : Nat) : (riceBits p x).length = (x - 1) / 2 ^ p + (p + 1) := by
  rw [riceBits, List.length_append, List.length_cons, List.length_replicate, length_msbBits,
    Nat.shiftRight_eq_div_pow]

/-- `p + 1` bits a bucket, and the unary parts together no longer than the range allows. -/
theorem length_gcsBits_le {p prev top : Nat} {sorted : List Nat}
    (hsorted : (prev :: sorted).Pairwise (· < ·)) (htop : ∀ b ∈ sorted, b ≤ top) :
    (gcsBits p prev sorted).length ≤ (p + 1) * sorted.length + (top - prev) / 2 ^ p := by
  induction sorted generalizing prev with
  | nil => exact Nat.zero_le _
  | cons b sorted ih =>
    have hprev : prev < b := List.rel_of_pairwise_cons hsorted (List.mem_cons_self ..)
    have hb : b ≤ top := htop b (List.mem_cons_self ..)
    have hrest := ih hsorted.of_cons (fun c hc => htop c (List.mem_cons_of_mem _ hc))
    -- the quotients of the two parts of the range add up to at most the whole
    have hquot : (b - prev - 1) / 2 ^ p + (top - b) / 2 ^ p ≤ (top - prev) / 2 ^ p :=
      calc (b - prev - 1) / 2 ^ p + (top - b) / 2 ^ p
          ≤ (b - prev - 1 + (top - b)) / 2 ^ p := Nat.div_add_div_le_add_div
        _ ≤ (top - prev) / 2 ^ p := Nat.div_le_div_right (by omega)
    rw [gcsBits, List.length_append, length_riceBits, List.length_cons, Nat.mul_add]
    omega

/-! ## Search -/

/-- A sought value between the two bounds is found. -/
theorem sortedContainsLoop_of_mem {values : List Nat} (hsorted : values.Pairwise (· < ·))
    {needle fuel lo hi i : Nat} (hfuel : hi - lo < fuel) (hhi : hi ≤ values.length) (hlo : lo ≤ i)
    (hi' : i < hi) (hval : values.getD i 0 = needle) :
    sortedContainsLoop values needle fuel lo hi = true := by
  induction fuel generalizing lo hi with
  | zero => omega
  | succ fuel ih =>
    have hget : ∀ j k, j < k → k < values.length → values.getD j 0 < values.getD k 0 := by
      intro j k hjk hk
      have h := List.pairwise_iff_getElem.mp hsorted j k (by omega) hk hjk
      rwa [List.getD_eq_getElem?_getD, List.getD_eq_getElem?_getD,
        List.getElem?_eq_getElem (show j < values.length by omega),
        List.getElem?_eq_getElem hk]
    rw [sortedContainsLoop, if_pos (by omega)]
    dsimp only
    split
    · -- the middle is below: the value is to its right
      next hlt =>
        apply ih (by omega) hhi ?_ hi'
        by_contra hmid
        rcases Nat.lt_or_ge i ((lo + hi) / 2) with h | h
        · have := hget i ((lo + hi) / 2) h (by omega)
          omega
        · have : i = (lo + hi) / 2 := by omega
          subst this
          omega
    · split
      · next hnlt hgt =>
          apply ih (by omega) (by omega) hlo
          by_contra hmid
          rcases Nat.lt_or_ge ((lo + hi) / 2) i with h | h
          · have := hget ((lo + hi) / 2) i h (by omega)
            omega
          · have : i = (lo + hi) / 2 := by omega
            subst this
            omega
      · rfl

theorem sortedContains_of_mem {values : List Nat} (hsorted : values.Pairwise (· < ·))
    {needle : Nat} (hmem : needle ∈ values) : sortedContains values needle = true := by
  obtain ⟨i, hi, hval⟩ := List.getElem_of_mem hmem
  apply sortedContainsLoop_of_mem hsorted (by omega) (Nat.le_refl _) (Nat.zero_le i) hi
  rw [List.getD_eq_getElem?_getD, List.getElem?_eq_getElem hi, Option.getD_some, hval]

end Bitle
