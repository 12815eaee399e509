import Bitle.Lib.Slots
import Mathlib.Data.Finmap

/-!
# Keyed tables and finite maps

A table of slots in which every used slot has a key. An entry is put into the slot of its key, or
else into the first vacant slot, and dropping a key blanks its slot. Such a table refines a finite
map from keys to entries (`Refines`) whose size is bounded by the number of slots: putting is
`Finmap.insert`, unless the map is full (`Refines.put`), and dropping is `Finmap.erase`
(`Refines.drop`).
-/

namespace Table

variable {α κ : Type} [DecidableEq κ]

section Ops

variable (used : α → Bool) (key : α → κ)

/-- `x` is a used slot of key `k`. -/
def isAt (k : κ) (x : α) : Bool := used x && key x == k

/-- The keys of the used slots. -/
def keys (l : List α) : List κ := (l.filter used).map key

/-- The slot of key `k`, or else the first vacant one. -/
def slotFor (l : List α) (k : κ) : Option Nat :=
  (l.findIdx? (isAt used key k)).or (l.findIdx? fun x => !used x)

/-- Puts an entry into the slot of its key, or else into a vacant one. -/
def put (x : α) (l : List α) : Option (List α) := (slotFor used key l (key x)).map (l.set · x)

/-- Blanks the slot of key `k`. -/
def drop (blank : α) (k : κ) (l : List α) : List α :=
  match l.findIdx? (isAt used key k) with
  | none => l
  | some i => l.set i blank

/-- The table `l` holds the entries of the map `m`, each in one slot. -/
structure Refines (l : List α) (m : Finmap fun _ : κ => α) : Prop where
  nodup : (keys used key l).Nodup
  lookup : ∀ k, l.find? (isAt used key k) = m.lookup k

end Ops

variable {used : α → Bool} {key : α → κ} {k : κ} {l : List α} {i : Nat} {x y : α}
  {m : Finmap fun _ : κ => α}

theorem isAt_iff : isAt used key k x = true ↔ used x = true ∧ key x = k := by
  rw [isAt, Bool.and_eq_true, beq_iff_eq]

theorem isAt_eq_false (h : used x = true → key x ≠ k) : isAt used key k x = false := by
  rw [Bool.eq_false_iff]
  intro hat
  exact h (isAt_iff.mp hat).1 (isAt_iff.mp hat).2

theorem mem_keys : k ∈ keys used key l ↔ ∃ x ∈ l, isAt used key k x = true := by
  simp only [keys, List.mem_map, List.mem_filter, isAt_iff, and_assoc]

/-! ### What overwriting a slot does to the keys -/

omit [DecidableEq κ] in
/-- Another entry of the same key. -/
theorem keys_set_of_key (hold : l[i]? = some y) (hy : used y = true) (hx : used x = true)
    (hkey : key x = key y) : keys used key (l.set i x) = keys used key l := by
  induction l generalizing i with
  | nil => rfl
  | cons z l ih =>
    cases i with
    | zero =>
      cases hold
      rw [List.set_cons_zero, keys, keys, List.filter_cons_of_pos hx, List.filter_cons_of_pos hy,
        List.map_cons, List.map_cons, hkey]
    | succ i =>
      have hrest := ih (i := i) hold
      rw [List.set_cons_succ, keys, keys, List.filter_cons, List.filter_cons]
      split
      · rw [List.map_cons, List.map_cons]
        exact congrArg (key z :: ·) hrest
      · exact hrest

omit [DecidableEq κ] in
/-- A vacant slot is taken. -/
theorem keys_set_perm (hold : l[i]? = some y) (hy : used y = false) (hx : used x = true) :
    (keys used key (l.set i x)).Perm (key x :: keys used key l) := by
  induction l generalizing i with
  | nil => cases hold
  | cons z l ih =>
    cases i with
    | zero =>
      cases hold
      rw [List.set_cons_zero, keys, keys, List.filter_cons_of_pos hx,
        List.filter_cons_of_neg (by rw [hy]; decide), List.map_cons]
    | succ i =>
      have hrest := ih (i := i) hold
      rw [List.set_cons_succ, keys, keys, List.filter_cons, List.filter_cons]
      split
      · rw [List.map_cons, List.map_cons]
        exact (hrest.cons (key z)).trans (List.Perm.swap _ _ _)
      · exact hrest

omit [DecidableEq κ] in
variable (key) in
/-- A used slot is blanked. -/
theorem keys_blank_perm (hold : l[i]? = some y) (hy : used y = true) (hx : used x = false) :
    (key y :: keys used key (l.set i x)).Perm (keys used key l) := by
  obtain ⟨hi, rfl⟩ := List.getElem?_eq_some_iff.mp hold
  have hset : (keys used key ((l.set i x).set i l[i])).Perm
      (key l[i] :: keys used key (l.set i x)) :=
    keys_set_perm (List.getElem?_set_self hi) hx hy
  rw [List.set_set, List.set_getElem_self] at hset
  exact hset.symm

/-! ### Lookups -/

/-- The slot of a key holds a used entry of that key. -/
theorem at_slot (h : l.findIdx? (isAt used key k) = some i) :
    ∃ y, l[i]? = some y ∧ used y = true ∧ key y = k := by
  obtain ⟨hi, hp, -⟩ := List.findIdx?_eq_some_iff_getElem.mp h
  exact ⟨l[i], List.getElem?_eq_getElem hi, isAt_iff.mp hp⟩

/-- An entry put into its slot is the one found there. -/
theorem find?_put (hx : used x = true)
    (hslot : l.findIdx? (isAt used key (key x)) = some i ∨
      (l.find? (isAt used key (key x)) = none ∧ i < l.length)) :
    (l.set i x).find? (isAt used key (key x)) = some x := by
  have hi : i < l.length := by
    rcases hslot with h | ⟨-, h⟩
    · exact (List.findIdx?_eq_some_iff_getElem.mp h).1
    · exact h
  rw [Slots.find?_of_findIdx? (Slots.findIdx?_set_of_pos hslot (isAt_iff.mpr ⟨hx, rfl⟩)),
    List.getElem?_set_self hi]

namespace Refines

theorem mem_iff (h : Refines used key l m) : k ∈ m ↔ k ∈ keys used key l := by
  rw [← Finmap.lookup_isSome, ← h.lookup, List.find?_isSome, mem_keys]

theorem keys_eq (h : Refines used key l m) : m.keys = (keys used key l).toFinset := by
  ext k
  rw [Finmap.mem_keys, h.mem_iff, List.mem_toFinset]

/-- The size of the map is the number of used slots. -/
theorem card (h : Refines used key l m) : m.keys.card = l.countP used := by
  rw [h.keys_eq, List.toFinset_card_of_nodup h.nodup, keys, List.length_map,
    List.countP_eq_length_filter]

theorem card_le (h : Refines used key l m) : m.keys.card ≤ l.length := by
  rw [h.card]
  exact List.countP_le_length

/-- The used entries of the table are those of the map. -/
theorem mem_filter (h : Refines used key l m) :
    x ∈ l.filter used ↔ used x = true ∧ m.lookup (key x) = some x := by
  rw [← h.lookup]
  constructor
  · intro hx
    have hused := (List.mem_filter.mp hx).2
    refine ⟨hused, ?_⟩
    cases hfind : l.find? (isAt used key (key x)) with
    | none =>
      have hnone := List.find?_eq_none.mp hfind x (List.mem_filter.mp hx).1
      exact absurd (isAt_iff.mpr ⟨hused, rfl⟩) hnone
    | some y =>
      -- the keys are distinct, so that the entry found is `x` itself
      have hy := isAt_iff.mp (List.find?_some hfind)
      have hmem : y ∈ l.filter used :=
        List.mem_filter.mpr ⟨List.mem_of_find?_eq_some hfind, hy.1⟩
      rw [List.inj_on_of_nodup_map h.nodup hmem hx hy.2]
  · intro hx
    exact List.mem_filter.mpr ⟨List.mem_of_find?_eq_some hx.2, hx.1⟩

theorem empty (h : ∀ x ∈ l, used x = false) : Refines used key l ∅ := by
  have hkeys : l.filter used = [] := by
    rw [List.filter_eq_nil_iff]
    intro x hx
    rw [h x hx]
    decide
  constructor
  · rw [keys, hkeys]
    exact List.nodup_nil
  · intro k
    rw [Finmap.lookup_empty, List.find?_eq_none]
    intro x hx hat
    exact nomatch (h x hx).symm.trans (isAt_iff.mp hat).1

/-- Overwriting a slot that is vacant or of the same key keeps the lookups of the other keys. -/
theorem lookup_set_ne (hold : l[i]? = some y) (hy : used y = true → key y = key x)
    (hk : k ≠ key x) : (l.set i x).find? (isAt used key k) = l.find? (isAt used key k) := by
  apply Slots.find?_set_of_neg
  · intro z hz
    rw [hold] at hz
    cases hz
    exact isAt_eq_false fun hu => (hy hu).trans_ne hk.symm
  · exact isAt_eq_false fun _ => hk.symm

/-- Putting an entry fails only when the map has another key for every slot; otherwise it is
`Finmap.insert`. -/
theorem put (h : Refines used key l m) (hx : used x = true) :
    match Table.put used key x l with
    | none => key x ∉ m ∧ m.keys.card = l.length
    | some l' => (key x ∈ m ∨ m.keys.card < l.length) ∧ l'.length = l.length ∧
        Refines used key l' (m.insert (key x) x) := by
  -- what is left to show once the slot is known
  have hinsert : ∀ i y, l[i]? = some y → (used y = true → key y = key x) →
      (l.findIdx? (isAt used key (key x)) = some i ∨
        (l.find? (isAt used key (key x)) = none ∧ i < l.length)) →
      (keys used key (l.set i x)).Nodup → Refines used key (l.set i x) (m.insert (key x) x) := by
    intro i y hold hy hslot hnodup
    refine ⟨hnodup, fun k => ?_⟩
    by_cases hk : k = key x
    · rw [hk, find?_put hx hslot, Finmap.lookup_insert]
    · rw [lookup_set_ne hold hy hk, Finmap.lookup_insert_of_ne m hk, h.lookup]
  rw [Table.put, slotFor]
  cases hfind : l.findIdx? (isAt used key (key x)) with
  | some i =>
    -- the key has a slot, which is overwritten
    obtain ⟨y, hold, hy, hkey⟩ := at_slot hfind
    have hmem : key x ∈ m := by
      rw [h.mem_iff, mem_keys]
      exact ⟨y, List.mem_of_getElem? hold, isAt_iff.mpr ⟨hy, hkey⟩⟩
    refine ⟨.inl hmem, List.length_set, hinsert i y hold (fun _ => hkey) (.inl hfind) ?_⟩
    rw [keys_set_of_key hold hy hx hkey.symm]
    exact h.nodup
  | none =>
    have hnone : l.find? (isAt used key (key x)) = none := by
      rw [List.find?_eq_none]
      intro z hz
      rw [List.findIdx?_eq_none_iff.mp hfind z hz]
      decide
    have hmem : key x ∉ m := by
      rw [← Finmap.lookup_eq_none, ← h.lookup, hnone]
    rw [Option.none_or]
    by_cases hfull : l.countP used < l.length
    · -- the first vacant slot is taken
      obtain ⟨i, y, hfree, hold, hy⟩ := Slots.exists_findIdx?_not hfull
      have hi : i < l.length := (List.findIdx?_eq_some_iff_getElem.mp hfree).1
      rw [hfree]
      refine ⟨.inr (h.card ▸ hfull), List.length_set,
        hinsert i y hold (fun hu => nomatch hy.symm.trans hu) (.inr ⟨hnone, hi⟩) ?_⟩
      rw [(keys_set_perm hold hy hx).nodup_iff, List.nodup_cons, ← h.mem_iff]
      exact ⟨hmem, h.nodup⟩
    · -- there is none
      have hall : l.countP used = l.length := by
        have := List.countP_le_length (p := used) (l := l)
        omega
      have hfree : l.findIdx? (fun z => !used z) = none := by
        rw [List.findIdx?_eq_none_iff]
        intro z hz
        rw [List.countP_eq_length.mp hall z hz]
        rfl
      rw [hfree]
      exact ⟨hmem, h.card.trans hall⟩

/-- The slot of a key holds what the map has for it. -/
theorem slot (h : Refines used key l m) (hfind : l.findIdx? (isAt used key k) = some i) :
    ∃ y, l[i]? = some y ∧ used y = true ∧ key y = k ∧ m.lookup k = some y := by
  obtain ⟨y, hold, hy, hkey⟩ := at_slot hfind
  exact ⟨y, hold, hy, hkey, by rw [← h.lookup, Slots.find?_of_findIdx? hfind, hold]⟩

theorem lookup_eq_none (h : Refines used key l m)
    (hfind : l.findIdx? (isAt used key k) = none) : m.lookup k = none := by
  rw [← h.lookup, List.find?_eq_none]
  intro x hx
  rw [List.findIdx?_eq_none_iff.mp hfind x hx]
  decide

/-- A key has a slot exactly if the map has it. -/
theorem isSome_slot (h : Refines used key l m) :
    (l.findIdx? (isAt used key k)).isSome = (m.lookup k).isSome := by
  cases hfind : l.findIdx? (isAt used key k) with
  | none =>
    rw [h.lookup_eq_none hfind]
    rfl
  | some i =>
    obtain ⟨y, -, -, -, hlookup⟩ := h.slot hfind
    rw [hlookup]
    rfl

/-- Overwriting the slot of a key with another entry of that key. -/
theorem set (h : Refines used key l m) (hfind : l.findIdx? (isAt used key (key x)) = some i)
    (hx : used x = true) : Refines used key (l.set i x) (m.insert (key x) x) := by
  have hput := h.put hx
  unfold Table.put slotFor at hput
  rw [hfind] at hput
  exact hput.2.2

/-- A change of the entries that keeps which slots are used and for which keys. -/
theorem map {f : α → α} (h : Refines used key l m) (hused : ∀ x, used (f x) = used x)
    (hkey : ∀ x, key (f x) = key x) :
    ∃ m', Refines used key (l.map f) m' ∧ ∀ k, m'.lookup k = (m.lookup k).map f := by
  have hdom : ∀ k, ((m.lookup k).map f).isSome ↔ k ∈ m.keys := by
    intro k
    rw [Option.isSome_map, Finmap.lookup_isSome, Finmap.mem_keys]
  have hlookup := Finmap.keysLookupEquiv_symm_apply_lookup
    ⟨(m.keys, fun k => (m.lookup k).map f), hdom⟩
  have hkeys : keys used key (l.map f) = keys used key l := by
    unfold keys
    rw [List.filter_map, List.map_map]
    refine (congrArg _ (List.filter_congr fun x _ => hused x)).trans ?_
    exact List.map_congr_left fun x _ => hkey x
  have hat : ∀ k, isAt used key k ∘ f = isAt used key k := by
    intro k
    funext x
    show (used (f x) && key (f x) == k) = (used x && key x == k)
    rw [hused, hkey]
  refine ⟨_, ⟨?_, ?_⟩, hlookup⟩
  · rw [hkeys]
    exact h.nodup
  · intro k
    rw [List.find?_map, hat, h.lookup]
    exact (hlookup k).symm

/-- Dropping a key is `Finmap.erase`. -/
theorem drop {blank : α} (h : Refines used key l m) (hblank : used blank = false) (k : κ) :
    Refines used key (Table.drop used key blank k l) (m.erase k) := by
  rw [Table.drop]
  cases hfind : l.findIdx? (isAt used key k) with
  | none =>
    have hmem : k ∉ m := by
      rw [h.mem_iff, mem_keys]
      rintro ⟨x, hx, hat⟩
      rw [List.findIdx?_eq_none_iff.mp hfind x hx] at hat
      cases hat
    have herase : m.erase k = m := by
      apply Finmap.ext_lookup
      intro k'
      by_cases hk : k' = k
      · rw [hk, Finmap.lookup_erase, Finmap.lookup_eq_none.mpr hmem]
      · rw [Finmap.lookup_erase_ne hk]
    rw [herase]
    exact h
  | some i =>
    obtain ⟨y, hold, hy, rfl⟩ := at_slot hfind
    have hperm := keys_blank_perm key hold hy hblank
    have hnodup := hperm.nodup_iff.mpr h.nodup
    constructor
    · exact (List.nodup_cons.mp hnodup).2
    · intro k'
      by_cases hk : k' = key y
      · -- the key is in no other slot
        rw [hk, Finmap.lookup_erase, List.find?_eq_none]
        intro x hx hat
        exact (List.nodup_cons.mp hnodup).1 (mem_keys.mpr ⟨x, hx, hat⟩)
      · rw [Finmap.lookup_erase_ne hk, ← h.lookup]
        apply Slots.find?_set_of_neg
        · intro z hz
          rw [hold] at hz
          cases hz
          exact isAt_eq_false fun _ => Ne.symm hk
        · exact isAt_eq_false fun hu => nomatch hblank.symm.trans hu

end Refines

theorem length_drop (blank : α) (k : κ) (l : List α) :
    (drop used key blank k l).length = l.length := by
  rw [drop]
  split
  · rfl
  · exact List.length_set

end Table
