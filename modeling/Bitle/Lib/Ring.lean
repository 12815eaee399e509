import Mathlib.Data.List.Rotate

/-!
# Ring buffers

A ring of `n` cells is written at a cursor that goes round. Read from the cursor on (`view`), its
cells are the last `n` values written, the oldest first; cells never written are `none`.
-/

namespace Ring

variable {α : Type*}

/-- The cells from the cursor on. -/
def view (cells : List (Option α)) (next : Nat) : List (Option α) := cells.rotate next

/-- The last `n` of the values written. -/
def lastOf (n : Nat) (written : List α) : List α := written.drop (written.length - n)

/-- The ring shows the values written so far. -/
structure Shows (n : Nat) (cells : List (Option α)) (next : Nat) (written : List α) : Prop where
  length : cells.length = n
  next_lt : next < n
  view : view cells next = (List.replicate n none ++ written.map some).drop written.length

theorem Shows.init {n : Nat} (h : 0 < n) : Shows n (List.replicate n (none : Option α)) 0 [] :=
  ⟨List.length_replicate, h, by simp [Ring.view]⟩

/-- A write drops the oldest cell of the view and puts the value at its end. -/
theorem view_set {cells : List (Option α)} {next : Nat} (h : next < cells.length) (x : α) :
    view (cells.set next (some x)) ((next + 1) % cells.length) =
      (view cells next).tail ++ [some x] := by
  have hdrop : cells.drop next = cells[next] :: cells.drop (next + 1) :=
    List.drop_eq_getElem_cons h
  have hlen : (cells.set next (some x)).length = cells.length := List.length_set
  have htail : (view cells next).tail = cells.drop (next + 1) ++ cells.take next := by
    unfold view
    rw [List.rotate_eq_drop_append_take (Nat.le_of_lt h), hdrop]
    rfl
  have hset : view (cells.set next (some x)) ((next + 1) % cells.length) =
      (cells.set next (some x)).drop (next + 1) ++ (cells.set next (some x)).take (next + 1) := by
    unfold view
    rw [← hlen, List.rotate_mod, List.rotate_eq_drop_append_take (by omega)]
  have htake : (cells.set next (some x)).take (next + 1) = cells.take next ++ [some x] := by
    rw [List.take_add_one, List.take_set_of_le (Nat.le_refl _), List.getElem?_set_self h]
    rfl
  rw [hset, htail, htake, List.drop_set_of_lt (Nat.lt_succ_self next), List.append_assoc]

/-- **One write.** -/
theorem Shows.write {n : Nat} {cells : List (Option α)} {next : Nat} {written : List α}
    (h : Shows n cells next written) (x : α) :
    Shows n (cells.set next (some x)) ((next + 1) % n) (written ++ [x]) := by
  have hpos : 0 < n := Nat.lt_of_le_of_lt (Nat.zero_le _) h.next_lt
  refine ⟨by rw [List.length_set, h.length], Nat.mod_lt _ hpos, ?_⟩
  have hview := view_set (by rw [h.length]; exact h.next_lt) x
  rw [h.length] at hview
  have hle : written.length + 1 ≤ (List.replicate n none ++ written.map some).length := by
    rw [List.length_append, List.length_replicate, List.length_map]
    omega
  rw [hview, h.view, List.tail_drop, List.map_append, ← List.append_assoc, List.length_append]
  exact (List.drop_append_of_le_length hle).symm

/-- **What the ring has**: the last `n` values written, and no others. -/
theorem Shows.mem_iff {n : Nat} {cells : List (Option α)} {next : Nat} {written : List α}
    (h : Shows n cells next written) (x : α) :
    some x ∈ cells ↔ x ∈ lastOf n written := by
  have hmem : some x ∈ cells ↔ some x ∈ Ring.view cells next := List.mem_rotate.symm
  rw [hmem, h.view, List.drop_append, List.length_replicate, List.drop_replicate,
    List.mem_append, ← List.map_drop]
  unfold lastOf
  constructor
  · rintro (hx | hx)
    · cases List.eq_of_mem_replicate hx
    · obtain ⟨y, hy, hyx⟩ := List.mem_map.mp hx
      rwa [← Option.some.inj hyx]
  · exact fun hx => .inr (List.mem_map_of_mem hx)

/-- The last values are the last of any final stretch that is long enough. -/
theorem lastOf_append {n : Nat} (l l' : List α) (h : n ≤ l'.length) :
    lastOf n (l ++ l') = lastOf n l' := by
  unfold lastOf
  rw [List.length_append, List.drop_append, List.drop_of_length_le (by omega), List.nil_append]
  congr 1
  omega

theorem length_lastOf {n : Nat} {l : List α} (h : n ≤ l.length) : (lastOf n l).length = n := by
  unfold lastOf
  rw [List.length_drop]
  omega

theorem lastOf_sublist (n : Nat) (l : List α) : (lastOf n l).Sublist l := List.drop_sublist _ l

/-- One more value: the window moves on. -/
theorem lastOf_concat_sublist (n : Nat) (l : List α) (x : α) :
    (lastOf n (l ++ [x])).Sublist (lastOf n l ++ [x]) := by
  have hdrop : lastOf n l ++ [x] = (l ++ [x]).drop (l.length - n) := by
    unfold lastOf
    rw [List.drop_append_of_le_length (Nat.sub_le _ _)]
  rw [hdrop]
  unfold lastOf
  rw [List.length_append, List.length_singleton]
  exact List.drop_sublist_drop_left _ (by omega)

end Ring
