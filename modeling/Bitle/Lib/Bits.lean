import Bitle.Lib.Bytes
import Mathlib.Data.Nat.Bitwise

/-!
# Bits of a byte buffer, most significant first

* `bitsOf`: a byte buffer as the list of its bits, the order in which MSB-first bit readers and
  writers walk it.
* `msbBits` / `natOfBits`: a number as a fixed count of bits, and back.

A writer that ors single bits into a zeroed buffer is described by `bitsOf_set_bit`, a reader
that shifts them out by `getElem?_bitsOf`.
-/

namespace Wire

/-! ## Buffers as bit lists -/

/-- Bit `i` of the buffer: bit `7 - i % 8` of byte `i / 8`. -/
def bitAt (buf : List UInt8) (i : Nat) : Bool := (byteAt buf (i / 8)).toNat.testBit (7 - i % 8)

/-- All bits of the buffer. -/
def bitsOf (buf : List UInt8) : List Bool := (List.range (8 * buf.length)).map (bitAt buf)

@[simp] theorem length_bitsOf (buf : List UInt8) : (bitsOf buf).length = 8 * buf.length := by
  simp [bitsOf]

theorem getElem?_bitsOf {buf : List UInt8} {i : Nat} (hi : i < 8 * buf.length) :
    (bitsOf buf)[i]? = some (bitAt buf i) := by
  simp [bitsOf, hi]

theorem bitsOf_replicate_zero (n : Nat) :
    bitsOf (List.replicate n 0) = List.replicate (8 * n) false := by
  apply List.ext_getElem?
  intro i
  by_cases hi : i < 8 * n
  · rw [getElem?_bitsOf (by simpa using hi), List.getElem?_replicate_of_lt hi]
    have hbyte : byteAt (List.replicate n 0) (i / 8) = 0 := by
      rw [byteAt, List.getD_eq_getElem?_getD, List.getElem?_replicate_of_lt (by omega)]
      rfl
    rw [bitAt, hbyte]
    simp
  · rw [List.getElem?_eq_none (by simpa using hi), List.getElem?_eq_none (by simpa using hi)]

/-- The bits of a prefix are the first bits. -/
theorem bitsOf_take (buf : List UInt8) {n : Nat} (hn : n ≤ buf.length) :
    bitsOf (buf.take n) = (bitsOf buf).take (8 * n) := by
  apply List.ext_getElem?
  intro i
  by_cases hi : i < 8 * n
  · rw [getElem?_bitsOf (by simp; omega), List.getElem?_take_of_lt hi,
      getElem?_bitsOf (by omega), bitAt, byteAt_take buf (by omega), bitAt]
  · rw [List.getElem?_eq_none (by simp; omega), List.getElem?_eq_none (by simp; omega)]

/-- The mask `0x80 >> k` is one bit. -/
theorem toNat_msb_shiftRight {k : Nat} (hk : k < 8) :
    ((0x80 : UInt8) >>> UInt8.ofNat k).toNat = 2 ^ (7 - k) := by
  have h : ∀ k : Fin 8, ((0x80 : UInt8) >>> UInt8.ofNat k.val).toNat = 2 ^ (7 - k.val) := by
    decide
  exact h ⟨k, hk⟩

/-- Oring the mask of position `i` into its byte sets bit `i` and leaves the others. -/
theorem bitsOf_set_bit {buf : List UInt8} {i : Nat} (hi : i < 8 * buf.length) :
    bitsOf (buf.set (i / 8) (byteAt buf (i / 8) ||| ((0x80 : UInt8) >>> UInt8.ofNat (i % 8)))) =
      (bitsOf buf).set i true := by
  apply List.ext_getElem?
  intro j
  by_cases hj : j < 8 * buf.length
  · rw [getElem?_bitsOf (by simpa using hj), List.getElem?_set, bitAt,
      byteAt_set _ _ (by omega)]
    by_cases hbyte : i / 8 = j / 8
    · -- same byte: the mask decides, by position inside the byte
      rw [if_pos hbyte, UInt8.toNat_or, toNat_msb_shiftRight (Nat.mod_lt _ (by omega)),
        Nat.testBit_or, Nat.testBit_two_pow]
      by_cases hij : i = j
      · subst hij
        simp [hi]
      · have hpos : ¬ 7 - i % 8 = 7 - j % 8 := by omega
        rw [if_neg hij, getElem?_bitsOf hj, bitAt, hbyte]
        simp [hpos]
    · have hij : ¬ i = j := by
        rintro rfl
        exact hbyte rfl
      rw [if_neg hbyte, if_neg hij, getElem?_bitsOf hj, bitAt]
  · rw [List.getElem?_eq_none (by simpa using hj), List.getElem?_eq_none (by simpa using hj)]

/-! ## Numbers as bit lists -/

/-- The `n` low bits of `v`, most significant first. -/
def msbBits : Nat → Nat → List Bool
  | 0, _ => []
  | n + 1, v => v.testBit n :: msbBits n v

@[simp] theorem length_msbBits (n v : Nat) : (msbBits n v).length = n := by
  induction n with
  | zero => rfl
  | succ n ih => rw [msbBits, List.length_cons, ih]

/-- The number the bits spell, continuing from `acc`. -/
def natOfBits (acc : Nat) (bits : List Bool) : Nat :=
  bits.foldl (fun v b => 2 * v + b.toNat) acc

theorem natOfBits_msbBits (acc n v : Nat) :
    natOfBits acc (msbBits n v) = acc * 2 ^ n + v % 2 ^ n := by
  induction n generalizing acc with
  | zero => simp [natOfBits, msbBits, Nat.mod_one]
  | succ n ih =>
    have hstep : natOfBits acc (msbBits (n + 1) v) =
        natOfBits (2 * acc + (v.testBit n).toNat) (msbBits n v) := rfl
    have hbit : v % 2 ^ (n + 1) = 2 ^ n * (v.testBit n).toNat + v % 2 ^ n := by
      rw [Nat.pow_succ, Nat.mod_mul, Nat.toNat_testBit, Nat.add_comm]
    calc natOfBits acc (msbBits (n + 1) v)
        = (2 * acc + (v.testBit n).toNat) * 2 ^ n + v % 2 ^ n := by rw [hstep, ih]
      _ = acc * 2 ^ (n + 1) + (2 ^ n * (v.testBit n).toNat + v % 2 ^ n) := by
          rw [Nat.pow_succ, Nat.add_mul, Nat.add_assoc, Nat.mul_comm 2 acc, Nat.mul_assoc,
            Nat.mul_comm 2 (2 ^ n), Nat.mul_comm (2 ^ n) (v.testBit n).toNat]
      _ = acc * 2 ^ (n + 1) + v % 2 ^ (n + 1) := by rw [hbit]

end Wire
