import Mathlib.Algebra.Ring.Nat
import Mathlib.Data.Finset.Card
import Mathlib.Data.List.Perm.Basic
import Mathlib.Data.List.ReduceOption

/-!
# Tables of slots

A table is a list of fixed length; entries are looked up by a predicate and overwritten in
place. This module has the scan for the smallest entry of a kind, what overwriting one slot does
to the first entry of a kind and to the number of entries of a kind, and the comparison of two
tables by their keys.

For tables kept dense it has the removal that moves the last entry into the gap
(`swapRemove`) and the loop that removes every entry of a kind so (`sweep`); for tables whose
slots are given to keys, who owns a slot, how many are vacant and who has none yet.
-/

namespace Slots

variable {α : Type}

/-- `x` beats the best entry so far. -/
def better (key : α → Nat) (x : α) : Option (Nat × α) → Bool
  | none => true
  | some (_, y) => key x < key y

/-- The first entry that satisfies `p` with the smallest `key`, scanning from index `i` with
the best entry so far in `best`. -/
def minScan (p : α → Bool) (key : α → Nat) : List α → Nat → Option (Nat × α) → Option (Nat × α)
  | [], _, best => best
  | x :: xs, i, best =>
    minScan p key xs (i + 1) (if p x && better key x best then some (i, x) else best)

/-- What the scan returns was the best so far, or is an entry of the list with `p`. -/
theorem minScan_spec {p : α → Bool} {key : α → Nat} {l : List α} {i j : Nat} {x : α}
    {best : Option (Nat × α)} (h : minScan p key l i best = some (j, x)) :
    best = some (j, x) ∨ ∃ k, j = i + k ∧ l[k]? = some x ∧ p x = true := by
  induction l generalizing i best with
  | nil => exact Or.inl h
  | cons y l ih =>
    rcases ih h with hb | ⟨k, hk, hx, hp⟩
    · by_cases hc : (p y && better key y best) = true
      · rw [if_pos hc, Option.some.injEq, Prod.mk.injEq] at hb
        obtain ⟨rfl, rfl⟩ := hb
        rw [Bool.and_eq_true] at hc
        exact Or.inr ⟨0, rfl, rfl, hc.1⟩
      · rw [if_neg hc] at hb
        exact Or.inl hb
    · exact Or.inr ⟨k + 1, by omega, by simpa using hx, hp⟩

/-- The scan returns a smallest entry: no larger than any with `p`, nor than the best so far. -/
theorem minScan_le {p : α → Bool} {key : α → Nat} {l : List α} {i j : Nat} {x : α}
    {best : Option (Nat × α)} (h : minScan p key l i best = some (j, x)) :
    (∀ y ∈ l, p y = true → key x ≤ key y) ∧ ∀ b, best = some b → key x ≤ key b.2 := by
  induction l generalizing i best with
  | nil =>
    refine ⟨fun y hy => absurd hy List.not_mem_nil, ?_⟩
    rintro b rfl
    obtain rfl : b = (j, x) := Option.some.inj h
    exact Nat.le_refl _
  | cons y l ih =>
    obtain ⟨hrest, hbest⟩ := ih h
    by_cases hc : (p y && better key y best) = true
    · -- `y` is the best now, and it beat the one before
      have hxy : key x ≤ key y := hbest (i, y) (if_pos hc)
      rw [Bool.and_eq_true] at hc
      refine ⟨List.forall_mem_cons.mpr ⟨fun _ => hxy, hrest⟩, ?_⟩
      rintro b rfl
      have hlt : key y < key b.2 := of_decide_eq_true hc.2
      omega
    · have hold : ∀ b, best = some b → key x ≤ key b.2 := by
        intro b hb
        exact hbest b (by rw [if_neg hc, hb])
      refine ⟨List.forall_mem_cons.mpr ⟨fun hp => ?_, hrest⟩, hold⟩
      cases hb : best with
      | none =>
        rw [hb, hp] at hc
        exact absurd rfl hc
      | some b =>
        have hle := hold b hb
        rw [hb, hp, Bool.true_and] at hc
        have hge : ¬ key y < key b.2 := fun hlt => hc (decide_eq_true hlt)
        omega

/-! ### The first entry of a kind -/

section Find

variable {p : α → Bool} {l : List α} {i : Nat} {a : α}

theorem find?_of_findIdx? (h : l.findIdx? p = some i) : l.find? p = l[i]? := by
  induction l generalizing i with
  | nil => cases h
  | cons b l ih =>
    rw [List.findIdx?_cons] at h
    by_cases hb : p b = true
    · rw [if_pos hb] at h
      cases h
      rw [List.find?_cons_of_pos hb]
      rfl
    · rw [if_neg hb, Option.map_eq_some_iff] at h
      obtain ⟨j, hj, rfl⟩ := h
      rw [List.find?_cons_of_neg hb, ih hj]
      rfl

/-- Overwriting an entry that is not of the kind with another such. -/
theorem find?_set_of_neg (hold : ∀ b, l[i]? = some b → p b = false) (hnew : p a = false) :
    (l.set i a).find? p = l.find? p := by
  induction l generalizing i with
  | nil => rfl
  | cons b l ih =>
    cases i with
    | zero =>
      have hb := hold b rfl
      rw [List.set_cons_zero, List.find?_cons_of_neg (by rw [hnew]; decide),
        List.find?_cons_of_neg (by rw [hb]; decide)]
    | succ i => rw [List.set_cons_succ, List.find?_cons, List.find?_cons, ih fun b hb => hold b hb]

/-- Overwriting the first entry of the kind, or any slot while there is none. -/
theorem findIdx?_set_of_pos (hfirst : l.findIdx? p = some i ∨ (l.find? p = none ∧ i < l.length))
    (ha : p a = true) : (l.set i a).findIdx? p = some i := by
  induction l generalizing i with
  | nil =>
    rcases hfirst with h | ⟨-, h⟩
    · cases h
    · exact absurd h (Nat.not_lt_zero i)
  | cons b l ih =>
    cases i with
    | zero => rw [List.set_cons_zero, List.findIdx?_cons, if_pos ha]
    | succ i =>
      rw [List.set_cons_succ, List.findIdx?_cons]
      rcases hfirst with h | ⟨hnone, hlt⟩
      · rw [List.findIdx?_cons] at h
        by_cases hb : p b = true
        · rw [if_pos hb] at h
          cases h
        · rw [if_neg hb, Option.map_eq_some_iff] at h
          obtain ⟨j, hj, hji⟩ := h
          cases hji
          rw [if_neg hb, ih (.inl hj)]
          rfl
      · rw [List.find?_cons] at hnone
        split at hnone
        · cases hnone
        · next hb =>
          rw [if_neg (by rw [hb]; decide), ih (.inr ⟨hnone, Nat.lt_of_succ_lt_succ hlt⟩)]
          rfl

end Find

/-- Overwriting one slot changes a count by the old and the new entry. -/
theorem countP_set_add {p : α → Bool} {l : List α} {i : Nat} {old : α} (new : α)
    (h : l[i]? = some old) :
    (l.set i new).countP p + (if p old then 1 else 0) = l.countP p + (if p new then 1 else 0) := by
  obtain ⟨hi, rfl⟩ := List.getElem?_eq_some_iff.mp h
  rw [List.countP_set hi]
  by_cases hp : p l[i] = true
  · have := List.countP_pos_iff.mpr ⟨l[i], List.getElem_mem hi, hp⟩
    rw [if_pos hp]
    omega
  · rw [if_neg hp]
    omega

/-- Overwriting one slot changes a sum by the old and the new entry. -/
theorem sum_map_set_add {f : α → Nat} {l : List α} {i : Nat} {old : α} (new : α)
    (h : l[i]? = some old) : ((l.set i new).map f).sum + f old = (l.map f).sum + f new := by
  induction l generalizing i with
  | nil => cases h
  | cons a l ih =>
    cases i with
    | zero =>
      obtain rfl : a = old := Option.some.inj h
      simp only [List.set_cons_zero, List.map_cons, List.sum_cons]
      omega
    | succ i =>
      have hrest := ih (show l[i]? = some old from h)
      simp only [List.set_cons_succ, List.map_cons, List.sum_cons]
      omega

/-- A table with fewer entries of a kind than slots has a first slot without it. -/
theorem exists_findIdx?_not {p : α → Bool} {l : List α} (h : l.countP p < l.length) :
    ∃ i x, l.findIdx? (fun y => !p y) = some i ∧ l[i]? = some x ∧ p x = false := by
  cases hf : l.findIdx? (fun y => !p y) with
  | none =>
    have hall : ∀ y ∈ l, p y = true := by
      simpa using List.findIdx?_eq_none_iff.mp hf
    exact absurd (List.countP_eq_length.mpr hall) (by omega)
  | some i =>
    obtain ⟨hi, hp, -⟩ := List.findIdx?_eq_some_iff_getElem.mp hf
    exact ⟨i, l[i], rfl, List.getElem?_eq_getElem hi, by simpa using hp⟩

/-- Counting by key: every entry of a kind has a partner of the same key in the other table. -/
theorem countP_le_of_keys {κ : Type} {f : α → κ} {p q : α → Bool} {l l' : List α}
    (hnodup : (l'.map f).Nodup)
    (h : ∀ x ∈ l', q x = true → ∃ y ∈ l, p y = true ∧ f y = f x) : l'.countP q ≤ l.countP p := by
  have hsub : (l'.filter q).map f ⊆ (l.filter p).map f := by
    intro k hk
    obtain ⟨x, hx, rfl⟩ := List.mem_map.mp hk
    obtain ⟨hmem, hq⟩ := List.mem_filter.mp hx
    obtain ⟨y, hy, hp, hkey⟩ := h x hmem hq
    exact List.mem_map.mpr ⟨y, List.mem_filter.mpr ⟨hy, hp⟩, hkey⟩
  have hnodup' : ((l'.filter q).map f).Nodup := hnodup.sublist (List.filter_sublist.map f)
  have hlen := (hnodup'.subperm hsub).length_le
  rw [List.length_map, List.length_map] at hlen
  rw [List.countP_eq_length_filter, List.countP_eq_length_filter]
  exact hlen

/-! ## Dense tables -/

/-- Removes entry `i`: the last entry takes its place. -/
def swapRemove (l : List α) (i : Nat) : List α :=
  match l.getLast? with
  | none => l
  | some x => (l.set i x).dropLast

theorem swapRemove_concat_of_lt {l : List α} {y : α} {i : Nat} (h : i < l.length) :
    swapRemove (l ++ [y]) i = l.set i y := by
  simp [swapRemove, List.set_append_left _ _ h]

theorem swapRemove_concat_length (l : List α) (y : α) : swapRemove (l ++ [y]) l.length = l := by
  simp [swapRemove]

theorem swapRemove_perm {l : List α} {i : Nat} {x : α} (h : l[i]? = some x) :
    (x :: swapRemove l i).Perm l := by
  obtain ⟨hi, rfl⟩ := List.getElem?_eq_some_iff.mp h
  obtain ⟨l', y, rfl⟩ :=
    (List.eq_nil_or_concat' l).resolve_left (List.ne_nil_of_length_pos (by omega))
  rw [List.length_append, List.length_singleton] at hi
  rcases Nat.lt_succ_iff_lt_or_eq.mp hi with hlt | rfl
  · rw [swapRemove_concat_of_lt hlt, List.getElem_append_left hlt]
    refine ((List.set_perm_cons_eraseIdx hlt y).cons _).trans ?_
    refine (List.Perm.swap _ _ _).trans ?_
    refine ((List.getElem_cons_eraseIdx_perm hlt).cons y).trans ?_
    exact (List.perm_append_singleton y l').symm
  · rw [swapRemove_concat_length, List.getElem_concat_length rfl]
    exact (List.perm_append_singleton y l').symm

theorem length_swapRemove {l : List α} {i : Nat} (h : i < l.length) :
    (swapRemove l i).length + 1 = l.length := by
  have := (swapRemove_perm (List.getElem?_eq_getElem h)).length_eq
  simpa using this

/-- Entries before the gap stay where they are. -/
theorem take_swapRemove {l : List α} {i : Nat} (h : i < l.length) :
    (swapRemove l i).take i = l.take i := by
  obtain ⟨l', y, rfl⟩ :=
    (List.eq_nil_or_concat' l).resolve_left (List.ne_nil_of_length_pos (by omega))
  rw [List.length_append, List.length_singleton] at h
  rcases Nat.lt_succ_iff_lt_or_eq.mp h with hlt | rfl
  · rw [swapRemove_concat_of_lt hlt, List.take_set_of_le (Nat.le_refl i),
      List.take_append_of_le_length (by omega)]
  · rw [swapRemove_concat_length, List.take_append_of_le_length (Nat.le_refl _)]

/-- Behind the gap are the entries that were behind it. -/
theorem drop_swapRemove_perm {l : List α} {i : Nat} (h : i < l.length) :
    ((swapRemove l i).drop i).Perm (l.drop (i + 1)) := by
  have hperm := swapRemove_perm (List.getElem?_eq_getElem h)
  rw [← List.take_append_drop i (swapRemove l i), take_swapRemove h] at hperm
  have hl : l = l.take i ++ l[i] :: l.drop (i + 1) := by
    rw [List.getElem_cons_drop, List.take_append_drop]
  have hmid : (l[i] :: (l.take i ++ (swapRemove l i).drop i)).Perm
      (l[i] :: (l.take i ++ l.drop (i + 1))) :=
    hperm.trans ((List.Perm.of_eq hl).trans List.perm_middle)
  exact (List.perm_append_left_iff _).mp hmid.cons_inv

/-- From entry `i` on, removes every entry with `p`; `n` is the number of entries left. -/
def sweep (p : α → Bool) : Nat → Nat → List α → List α
  | 0, _, l => l
  | n + 1, i, l =>
    match l[i]? with
    | none => l
    | some x => if p x then sweep p n i (swapRemove l i) else sweep p n (i + 1) l

/-- The loop keeps exactly the entries without `p`. -/
theorem sweep_perm {p : α → Bool} {n i : Nat} {l : List α} (hn : i + n = l.length)
    (hi : ∀ x ∈ l.take i, p x = false) :
    (sweep p n i l).Perm (l.filter fun x => !p x) := by
  induction n generalizing i l with
  | zero =>
    rw [sweep, List.filter_eq_self.mpr]
    intro x hx
    rw [hi x (by rwa [List.take_of_length_le (by omega)])]
    rfl
  | succ n ih =>
    have hlt : i < l.length := by omega
    rw [sweep, List.getElem?_eq_getElem hlt]
    dsimp only
    by_cases hp : p l[i] = true
    · -- the removed entry is one the filter drops too
      have hperm := swapRemove_perm (List.getElem?_eq_getElem hlt)
      have hlen := length_swapRemove hlt
      rw [if_pos hp]
      refine (ih (by omega) ?_).trans ?_
      · rwa [take_swapRemove hlt]
      · simpa [hp] using hperm.filter fun x => !p x
    · rw [if_neg hp]
      refine ih (by omega) fun x hx => ?_
      rw [List.take_succ_eq_append_getElem hlt, List.mem_append, List.mem_singleton] at hx
      rcases hx with hx | rfl
      · exact hi x hx
      · simpa using hp

/-- Removes every entry with `p`. -/
def sweepAll (p : α → Bool) (l : List α) : List α := sweep p l.length 0 l

theorem sweepAll_perm (p : α → Bool) (l : List α) :
    (sweepAll p l).Perm (l.filter fun x => !p x) :=
  sweep_perm (by simp) (by simp)

/-! ## Slots with an owner -/

section Owners

variable {κ : Type} [DecidableEq κ] {l l' : List (Option κ)} {k : κ} {ks : List κ} {i : Nat}

/-- The keys that have a slot. -/
def owned (l : List (Option κ)) : Finset κ := l.reduceOption.toFinset

/-- The number of slots without an owner. -/
def vacancies (l : List (Option κ)) : Nat := l.countP Option.isNone

/-- The keys among `ks` that have no slot. -/
def homeless (ks : List κ) (l : List (Option κ)) : Finset κ := ks.toFinset \ owned l

theorem mem_owned : k ∈ owned l ↔ some k ∈ l := by
  rw [owned, List.mem_toFinset, List.reduceOption_mem_iff]

omit [DecidableEq κ] in
theorem vacancies_eq_zero : vacancies l = 0 ↔ none ∉ l := by
  rw [vacancies, List.countP_eq_zero]
  constructor
  · exact fun h hmem => h none hmem rfl
  · intro h x hx hnone
    rw [Option.isNone_iff_eq_none] at hnone
    exact h (hnone ▸ hx)

/-- A vacant slot is given to `k`. -/
theorem owned_set (h : l[i]? = some none) : owned (l.set i (some k)) = insert k (owned l) := by
  obtain ⟨hi, hnone⟩ := List.getElem?_eq_some_iff.mp h
  ext x
  rw [Finset.mem_insert, mem_owned, mem_owned, List.mem_iff_getElem?, List.mem_iff_getElem?]
  constructor
  · rintro ⟨j, hj⟩
    by_cases hij : i = j
    · subst hij
      rw [List.getElem?_set_self hi, Option.some.injEq, Option.some.injEq] at hj
      exact .inl hj.symm
    · rw [List.getElem?_set_ne hij] at hj
      exact .inr ⟨j, hj⟩
  · rintro (rfl | ⟨j, hj⟩)
    · exact ⟨i, List.getElem?_set_self hi⟩
    · have hij : i ≠ j := by
        rintro rfl
        simp [h] at hj
      exact ⟨j, by rw [List.getElem?_set_ne hij, hj]⟩

omit [DecidableEq κ] in
theorem vacancies_set (h : l[i]? = some none) :
    vacancies (l.set i (some k)) + 1 = vacancies l := by
  exact countP_set_add (p := Option.isNone) (some k) h

/-- A key that has a slot needs none. -/
theorem homeless_cons_of_mem (h : k ∈ owned l) : homeless (k :: ks) l = homeless ks l := by
  rw [homeless, List.toFinset_cons, Finset.insert_sdiff_of_mem _ h, homeless]

/-- A key that is given a slot is one fewer. -/
theorem card_homeless_cons (ks : List κ) (h : k ∉ owned l) (h' : owned l' = insert k (owned l)) :
    (homeless (k :: ks) l).card = (homeless ks l').card + 1 := by
  have hinsert : homeless (k :: ks) l = insert k (homeless ks l') := by
    ext x
    simp only [homeless, h', List.toFinset_cons, Finset.mem_sdiff, Finset.mem_insert,
      List.mem_toFinset]
    by_cases hx : x = k
    · simp [hx, h]
    · simp [hx]
  rw [hinsert, Finset.card_insert_of_notMem (by simp [homeless, h'])]

theorem card_homeless_le_cons : (homeless ks l).card ≤ (homeless (k :: ks) l).card := by
  refine Finset.card_le_card fun x hx => ?_
  rw [homeless, Finset.mem_sdiff, List.mem_toFinset] at hx ⊢
  exact ⟨List.mem_cons_of_mem _ hx.1, hx.2⟩

end Owners

end Slots
