import Mathlib.Algebra.Ring.Nat
import Mathlib.Data.List.TakeDrop

/-!
# Fixed-width byte strings and integers on the wire

* `Bytes n`: a byte string that carries its length, for fields declared `uint8_t x[n]`.
* `copyAt`: the `n` bytes of a buffer from an offset on (`memcpy` out of a buffer).
* `beNat` / `leNat`: the number a run of bytes spells, most or least significant byte first.
-/

namespace Wire

/-! ## Byte strings of a fixed length -/

/-- A byte string of exactly `n` bytes. -/
abbrev Bytes (n : Nat) : Type := { l : List UInt8 // l.length = n }

/-- The `n` bytes of `data` from `off` on; bytes past the end read as zero. -/
def copyAt (n : Nat) (data : List UInt8) (off : Nat) : Bytes n :=
  ⟨(data.drop off).takeD n 0, List.takeD_length _ _ _⟩

/-- The all-zero string, as `memset` leaves it. -/
def zeros (n : Nat) : Bytes n := ⟨List.replicate n 0, List.length_replicate⟩

instance (n : Nat) : Inhabited (Bytes n) := ⟨zeros n⟩

/-- Inside the buffer `copyAt` is a plain slice. -/
theorem copyAt_val {n off : Nat} {data : List UInt8} (h : off + n ≤ data.length) :
    (copyAt n data off).val = (data.drop off).take n := by
  unfold copyAt
  exact List.takeD_eq_take _ (by simp; omega)

/-- A slice only depends on the bytes it covers. -/
theorem slice_take {α : Type} {l : List α} {off n k : Nat} (h : off + n ≤ k) :
    ((l.take k).drop off).take n = (l.drop off).take n := by
  rw [List.drop_take, List.take_take]
  congr 1
  omega

/-- A copy only depends on the bytes it reads: a buffer and a prefix of it that holds
the whole field give the same copy. -/
theorem copyAt_take {n off k : Nat} {data : List UInt8} (hk : off + n ≤ k)
    (h : k ≤ data.length) : copyAt n (data.take k) off = copyAt n data off := by
  apply Subtype.ext
  rw [copyAt_val (by simp; omega), copyAt_val (by omega), slice_take hk]

theorem copyAt_self {n : Nat} (b : Bytes n) : copyAt n b.val 0 = b := by
  apply Subtype.ext
  rw [copyAt_val (Nat.le_of_eq (by rw [b.property, Nat.zero_add])), List.drop_zero]
  exact List.take_of_length_le (Nat.le_of_eq b.property)

/-! ## Integers -/

/-- The byte of `data` at `i`; out of range reads are zero. -/
def byteAt (data : List UInt8) (i : Nat) : UInt8 := data.getD i 0

theorem byteAt_take (data : List UInt8) {i k : Nat} (h : i < k) :
    byteAt (data.take k) i = byteAt data i := by
  simp [byteAt, List.getD_eq_getElem?_getD, h]

theorem byteAt_append (l post : List UInt8) {i : Nat} (hi : i < l.length) :
    byteAt (l ++ post) i = byteAt l i := by
  rw [byteAt, byteAt, List.getD_eq_getElem?_getD, List.getD_eq_getElem?_getD,
    List.getElem?_append_left hi]

theorem byteAt_set (l : List UInt8) {i j : Nat} (v : UInt8) (hi : i < l.length) :
    byteAt (l.set i v) j = if i = j then v else byteAt l j := by
  rw [byteAt, byteAt, List.getD_eq_getElem?_getD, List.getD_eq_getElem?_getD]
  by_cases hij : i = j
  · rw [if_pos hij, ← hij, List.getElem?_set_self hi]
    rfl
  · rw [if_neg hij, List.getElem?_set_ne hij]

theorem eq_of_byteAt {l l' : List UInt8} (hlen : l.length = l'.length)
    (h : ∀ i, i < l.length → byteAt l i = byteAt l' i) : l = l' := by
  apply List.ext_getElem hlen
  intro i hi hi'
  have hb := h i hi
  rwa [byteAt, byteAt, List.getD_eq_getElem?_getD, List.getD_eq_getElem?_getD,
    List.getElem?_eq_getElem hi, List.getElem?_eq_getElem hi', Option.getD_some,
    Option.getD_some] at hb

/-- Most significant byte first. -/
def beNat (l : List UInt8) : Nat := l.foldl (fun v b => v * 256 + b.toNat) 0

/-- Least significant byte first. -/
def leNat : List UInt8 → Nat
  | [] => 0
  | b :: l => b.toNat + 256 * leNat l

/-- The `n` low bytes of `v`, least significant first. -/
def leBytes : Nat → Nat → List UInt8
  | 0, _ => []
  | n + 1, v => UInt8.ofNat v :: leBytes n (v / 256)

/-- The `n` low bytes of `v`, most significant first. -/
def beBytes (n v : Nat) : List UInt8 := (leBytes n v).reverse

@[simp] theorem length_leBytes (n v : Nat) : (leBytes n v).length = n := by
  induction n generalizing v with
  | zero => rfl
  | succ n ih => simp [leBytes, ih]

@[simp] theorem length_beBytes (n v : Nat) : (beBytes n v).length = n := by
  simp [beBytes]

theorem leNat_lt (l : List UInt8) : leNat l < 256 ^ l.length := by
  induction l with
  | nil => simp [leNat]
  | cons b l ih =>
    have hb := b.toNat_lt
    simp only [leNat, List.length_cons, Nat.pow_succ]
    omega

/-- A value that fits in `n` bytes is read back from them. -/
theorem leNat_leBytes {n v : Nat} (h : v < 256 ^ n) : leNat (leBytes n v) = v := by
  induction n generalizing v with
  | zero => simp_all [leBytes, leNat]
  | succ n ih =>
    have hdiv : v / 256 < 256 ^ n := by
      rw [Nat.pow_succ] at h
      exact Nat.div_lt_of_lt_mul (by omega)
    simp only [leBytes, leNat, ih hdiv, UInt8.toNat_ofNat']
    omega

/-- The bytes of a number are the bytes it was read from. -/
theorem leBytes_leNat (l : List UInt8) : leBytes l.length (leNat l) = l := by
  induction l with
  | nil => rfl
  | cons b l ih =>
    have hb := b.toNat_lt
    have hdiv : (b.toNat + 256 * leNat l) / 256 = leNat l := by omega
    have hmod : UInt8.ofNat (b.toNat + 256 * leNat l) = b := by
      apply UInt8.toNat_inj.mp
      rw [UInt8.toNat_ofNat']
      omega
    rw [List.length_cons, leNat, leBytes, hmod, hdiv, ih]

theorem beNat_concat (l : List UInt8) (b : UInt8) :
    beNat (l ++ [b]) = beNat l * 256 + b.toNat := by
  simp [beNat]

/-- The bytes in front weigh more. -/
theorem beNat_append (l l' : List UInt8) :
    beNat (l ++ l') = beNat l * 256 ^ l'.length + beNat l' := by
  induction l' generalizing l with
  | nil => simp [beNat]
  | cons b l' ih =>
    have hone : beNat [b] = b.toNat := by simp [beNat]
    have hcons : beNat (b :: l') = b.toNat * 256 ^ l'.length + beNat l' := by
      rw [← hone, ← ih [b]]
      rfl
    rw [List.append_cons, ih, beNat_concat, hcons, List.length_cons, Nat.pow_succ, Nat.add_mul,
      Nat.add_assoc, Nat.mul_assoc, Nat.mul_comm 256]

/-- Reversal turns one byte order into the other. -/
theorem beNat_reverse (l : List UInt8) : beNat l.reverse = leNat l := by
  induction l with
  | nil => rfl
  | cons b l ih =>
    rw [List.reverse_cons, beNat_concat, ih, leNat]
    omega

theorem beNat_lt (l : List UInt8) : beNat l < 256 ^ l.length := by
  have h := leNat_lt l.reverse
  rwa [← beNat_reverse, List.reverse_reverse, List.length_reverse] at h

theorem beNat_beBytes {n v : Nat} (h : v < 256 ^ n) : beNat (beBytes n v) = v := by
  rw [beBytes, beNat_reverse, leNat_leBytes h]

theorem beBytes_beNat (l : List UInt8) : beBytes l.length (beNat l) = l := by
  have h := leBytes_leNat l.reverse
  rw [← beNat_reverse, List.reverse_reverse, List.length_reverse] at h
  rw [beBytes, h, List.reverse_reverse]

end Wire
