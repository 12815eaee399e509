import Mathlib.Data.List.GetD

/-!
# Flash memory

A flash device is a function from addresses to bytes; `read` is the list of bytes of a range.
`read_congr` says that a read depends on the bytes of its range only, which is all a frame
argument needs.

Programming can only clear bits and erasing sets a whole range to `0xFF`; `read_program_self`
says when data reads back as it was programmed.
-/

namespace Flash

/-- The contents of a device. -/
abbrev Mem : Type := Nat → UInt8

/-- The `n` bytes from `off` on. -/
def read (m : Mem) (off n : Nat) : List UInt8 := (List.range n).map fun i => m (off + i)

@[simp] theorem length_read (m : Mem) (off n : Nat) : (read m off n).length = n := by
  simp [read]

@[simp] theorem read_zero (m : Mem) (off : Nat) : read m off 0 = [] := rfl

theorem getElem?_read {m : Mem} {off n i : Nat} (h : i < n) :
    (read m off n)[i]? = some (m (off + i)) := by
  simp [read, h]

/-- Two adjacent ranges are one. -/
theorem read_add (m : Mem) (off a b : Nat) :
    read m off (a + b) = read m off a ++ read m (off + a) b := by
  simp [read, List.range_add, Nat.add_assoc, Function.comp_def]

/-- A slice of a range is a range, cut off where the first one ends. -/
theorem drop_take_read (m : Mem) (off n k len : Nat) :
    ((read m off n).drop k).take len = read m (off + k) (min len (n - k)) := by
  apply List.ext_getElem?
  intro i
  by_cases hi : i < min len (n - k)
  · rw [List.getElem?_take_of_lt (by omega), List.getElem?_drop, getElem?_read (by omega),
      getElem?_read hi, Nat.add_assoc]
  · rw [List.getElem?_eq_none (by simp; omega), List.getElem?_eq_none (by simp; omega)]

/-- A read depends on the bytes of its range only. -/
theorem read_congr {m m' : Mem} {off n : Nat} (h : ∀ i, off ≤ i → i < off + n → m i = m' i) :
    read m off n = read m' off n := by
  apply List.map_congr_left
  intro i hi
  rw [List.mem_range] at hi
  exact h _ (by omega) (by omega)

/-- What a read says about the single bytes. -/
theorem read_eq_iff {m : Mem} {off : Nat} {l : List UInt8} :
    read m off l.length = l ↔ ∀ i (hi : i < l.length), m (off + i) = l[i] := by
  constructor
  · intro h i hi
    have h1 : (read m off l.length)[i]? = some (m (off + i)) := getElem?_read hi
    rw [h, List.getElem?_eq_getElem hi] at h1
    exact (Option.some.inj h1).symm
  · intro h
    apply List.ext_getElem (by simp)
    intro i h1 h2
    simpa [read] using h i h2

/-! ## Programming and erasing -/

/-- Programming `data` from `off` on clears the bits that are zero in it. -/
def program (m : Mem) (off : Nat) (data : List UInt8) : Mem := fun a =>
  if off ≤ a then m a &&& data.getD (a - off) 0xFF else m a

/-- Erasing sets every bit of the range. -/
def eraseRange (m : Mem) (off n : Nat) : Mem := fun a =>
  if off ≤ a ∧ a < off + n then 0xFF else m a

theorem ff_and (b : UInt8) : 0xFF &&& b = b := UInt8.neg_one_and

theorem and_ff (b : UInt8) : b &&& 0xFF = b := UInt8.and_neg_one

/-- Bytes outside the programmed range keep their value. -/
theorem program_outside {m : Mem} {off : Nat} {data : List UInt8} {a : Nat}
    (h : a < off ∨ off + data.length ≤ a) : program m off data a = m a := by
  unfold program
  by_cases ha : off ≤ a
  · rw [if_pos ha, List.getD_eq_default _ _ (by omega), and_ff]
  · rw [if_neg ha]

theorem program_inside {m : Mem} {off : Nat} {data : List UInt8} {i : Nat}
    (h : i < data.length) : program m off data (off + i) = m (off + i) &&& data[i] := by
  simp [program, h]

/-- Two programs of adjacent ranges are one. -/
theorem program_append (m : Mem) (off : Nat) (d d' : List UInt8) :
    program (program m off d) (off + d.length) d' = program m off (d ++ d') := by
  funext a
  by_cases h1 : a < off + d.length
  · rw [program_outside (.inl h1)]
    unfold program
    by_cases h0 : off ≤ a
    · simp [h0, List.getElem?_append_left (show a - off < d.length by omega)]
    · simp [h0]
  · have h0 : off ≤ a := by omega
    have hsub : a - off - d.length = a - (off + d.length) := by omega
    unfold program
    rw [if_pos (by omega), if_pos h0, if_pos h0, List.getD_eq_default d _ (by omega), and_ff,
      List.getD_append_right _ _ _ _ (by omega), hsub]

/-- Programming ones changes nothing. -/
theorem program_append_ones (m : Mem) (off : Nat) (d : List UInt8) (n : Nat) :
    program m off (d ++ List.replicate n 0xFF) = program m off d := by
  funext a
  unfold program
  by_cases h0 : off ≤ a
  · rw [if_pos h0, if_pos h0]
    by_cases h1 : a - off < d.length
    · rw [List.getD_append _ _ _ _ h1]
    · rw [List.getD_append_right _ _ _ _ (by omega), List.getD_eq_default d _ (by omega),
        List.getD_eq_getElem?_getD, List.getElem?_getD_replicate_default_eq]
  · rw [if_neg h0, if_neg h0]

/-- Data reads back as programmed where no bit of it was cleared before. -/
theorem read_program_self (m : Mem) (off : Nat) (data : List UInt8)
    (h : ∀ i (hi : i < data.length), m (off + i) &&& data[i] = data[i]) :
    read (program m off data) off data.length = data := by
  rw [read_eq_iff]
  intro i hi
  rw [program_inside hi, h i hi]

/-- One programmed byte, as a read that covers it sees it. -/
theorem read_program_byte {m : Mem} {off n i : Nat} (b : UInt8) (hi : i < n) :
    read (program m (off + i) [b]) off n = (read m off n).set i (m (off + i) &&& b) := by
  apply List.ext_getElem? fun j => ?_
  by_cases hj : j < n
  · rw [getElem?_read hj, List.getElem?_set]
    by_cases hij : i = j
    · subst hij
      rw [if_pos rfl, if_pos (by simpa using hi)]
      simp [program]
    · rw [if_neg hij, getElem?_read hj]
      exact congrArg some (program_outside (by simp; omega))
  · rw [List.getElem?_eq_none (by simp; omega), List.getElem?_eq_none (by simp; omega)]

theorem eraseRange_inside {m : Mem} {off n a : Nat} (h0 : off ≤ a) (h1 : a < off + n) :
    eraseRange m off n a = 0xFF := by
  simp [eraseRange, h0, h1]

theorem eraseRange_outside {m : Mem} {off n a : Nat} (h : a < off ∨ off + n ≤ a) :
    eraseRange m off n a = m a := by
  unfold eraseRange
  rw [if_neg (by omega)]

end Flash
