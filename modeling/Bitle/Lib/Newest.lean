import Mathlib.Data.Finset.Card
import Mathlib.Data.List.Induction
import Bitle.Lib.Run

/-!
# A bounded table that keeps the highest item of every key

Items come one by one. An item with a new key gets a place as long as there is one free; an item
whose key has a place takes it over if it ranks above the item there. When all places are taken
nothing is looked at any more, not even an item whose key has a place. `mem_collect` says which
items are left of a sequence: for each key the first one of highest rank among those that came
while there was a place (`Wins`).
-/

namespace Newest

section Keep

variable {α κ ρ : Type*} [DecidableEq κ] [LinearOrder ρ] (key : α → κ) (rank : α → ρ) (cap : Nat)

/-- One item. -/
def keep (kept : List α) (x : α) : List α :=
  if kept.length < cap then
    match kept.findIdx? fun y => decide (key y = key x) with
    | none => kept ++ [x]
    | some i =>
      match kept[i]? with
      | none => kept
      | some old => if rank x ≤ rank old then kept else kept.set i x
  else kept

/-- What is left of a sequence of items. -/
def collect (xs : List α) : List α := xs.foldl (keep key rank cap) []

/-- The keys of the items. -/
def keys (xs : List α) : Finset κ := (xs.map key).toFinset

/-- There was a place when `z` came, all items of its key in front of it rank below it, and none
of those behind it that came while there was a place ranks above it. -/
structure WinsAt (pre : List α) (z : α) (post : List α) : Prop where
  place : (keys key pre).card < cap
  front : ∀ y ∈ pre, key y = key z → rank y < rank z
  behind : ∀ mid y post', post = mid ++ y :: post' → (keys key (pre ++ z :: mid)).card < cap →
    key y = key z → rank y ≤ rank z

def Wins (xs : List α) (z : α) : Prop :=
  ∃ pre post, xs = pre ++ z :: post ∧ WinsAt key rank cap pre z post

variable {key rank cap} {kept xs : List α} {x z : α}

theorem collect_append (xs : List α) (x : α) :
    collect key rank cap (xs ++ [x]) = keep key rank cap (collect key rank cap xs) x := by
  simp [collect]

theorem mem_keys {k : κ} : k ∈ keys key xs ↔ ∃ y ∈ xs, key y = k := by
  simp [keys]

theorem keys_append (xs ys : List α) : keys key (xs ++ ys) = keys key xs ∪ keys key ys := by
  simp [keys]

theorem card_keys_le_of_initial {ys : List α} (h : ys <+: xs) :
    (keys key ys).card ≤ (keys key xs).card := by
  obtain ⟨zs, rfl⟩ := h
  rw [keys_append]
  exact Finset.card_le_card Finset.subset_union_left

/-- With no place left an item changes nothing. -/
theorem keep_full (h : ¬ kept.length < cap) : keep key rank cap kept x = kept := if_neg h

/-- An item whose key is not there is appended. -/
theorem keep_new (h : kept.length < cap) (hkey : ∀ y ∈ kept, key y ≠ key x) :
    keep key rank cap kept x = kept ++ [x] := by
  have hfind : kept.findIdx? (fun y => decide (key y = key x)) = none := by
    simpa [List.findIdx?_eq_none_iff] using hkey
  rw [keep, if_pos h, hfind]

variable (rank) in
/-- An item whose key is there takes the place over, or not. -/
theorem keep_old (h : kept.length < cap) {old : α} (hold : old ∈ kept) (hkey : key old = key x) :
    ∃ (i : Nat) (hi : i < kept.length), key kept[i] = key x ∧
      keep key rank cap kept x = if rank x ≤ rank kept[i] then kept else kept.set i x := by
  obtain ⟨i, hfind⟩ : ∃ i, kept.findIdx? (fun y => decide (key y = key x)) = some i := by
    refine Option.ne_none_iff_exists'.mp fun hnone => ?_
    rw [List.findIdx?_eq_none_iff] at hnone
    have := hnone old hold
    simp [hkey] at this
  obtain ⟨hi, hk, -⟩ := List.findIdx?_eq_some_iff_getElem.mp hfind
  refine ⟨i, hi, by simpa using hk, ?_⟩
  rw [keep, if_pos h, hfind]
  simp only [List.getElem?_eq_getElem hi]

/-- The keys after an item for which there was a place. -/
theorem map_keep (h : kept.length < cap) :
    (keep key rank cap kept x).map key =
      if ∃ old ∈ kept, key old = key x then kept.map key else kept.map key ++ [key x] := by
  by_cases hold : ∃ old ∈ kept, key old = key x
  · rw [if_pos hold]
    obtain ⟨old, hmem, hkey⟩ := hold
    obtain ⟨i, hi, hk, heq⟩ := keep_old rank h hmem hkey
    rw [heq]
    split
    · rfl
    · rw [List.map_set, ← hk, ← List.getElem_map key (h := by simpa using hi),
        List.set_getElem_self]
  · rw [if_neg hold, keep_new h fun y hy hk => hold ⟨y, hy, hk⟩]
    simp

/-- What is there after an item for which there was a place. -/
theorem mem_keep (hnd : (kept.map key).Nodup) (h : kept.length < cap) :
    z ∈ keep key rank cap kept x ↔
      (z = x ∧ ∀ old ∈ kept, key old = key x → rank old < rank x) ∨
        (z ∈ kept ∧ (key z = key x → rank x ≤ rank z)) := by
  by_cases hold : ∃ old ∈ kept, key old = key x
  · obtain ⟨old, hmem, hkey⟩ := hold
    obtain ⟨i, hi, hk, heq⟩ := keep_old rank h hmem hkey
    -- the item at `i` is the only one with that key
    have huniq : ∀ y ∈ kept, key y = key x → y = kept[i] := fun y hy hyk =>
      List.inj_on_of_nodup_map hnd hy (List.getElem_mem hi) (hyk.trans hk.symm)
    rw [heq]
    split
    · rename_i hle
      constructor
      · intro hz
        refine .inr ⟨hz, fun hzk => ?_⟩
        rwa [huniq z hz hzk]
      · rintro (⟨-, hall⟩ | ⟨hz, -⟩)
        · exact absurd (hall _ (List.getElem_mem hi) hk) (not_lt.mpr hle)
        · exact hz
    · rename_i hlt
      have hperm := List.getElem_cons_eraseIdx_perm hi
      have hmap := (hperm.map key).nodup_iff.mpr hnd
      rw [List.map_cons, List.nodup_cons] at hmap
      have hrest : ∀ y, y ∈ kept.eraseIdx i ↔ y ∈ kept ∧ key y ≠ key x := by
        intro y
        rw [← hperm.mem_iff, List.mem_cons]
        refine ⟨fun hy => ⟨.inr hy, fun hyk => hmap.1 ?_⟩, fun ⟨hy, hyk⟩ => hy.resolve_left ?_⟩
        · rw [hk, ← hyk]
          exact List.mem_map_of_mem hy
        · rintro rfl
          exact hyk hk
      rw [(List.set_perm_cons_eraseIdx hi x).mem_iff, List.mem_cons, hrest]
      constructor
      · rintro (rfl | ⟨hz, hne⟩)
        · refine .inl ⟨rfl, fun y hy hyk => ?_⟩
          rw [huniq y hy hyk]
          exact not_le.mp hlt
        · exact .inr ⟨hz, fun hzk => absurd hzk hne⟩
      · rintro (⟨rfl, -⟩ | ⟨hz, hle⟩)
        · exact .inl rfl
        · refine .inr ⟨hz, fun hzk => hlt ?_⟩
          rw [← huniq z hz hzk]
          exact hle hzk
  · rw [keep_new h fun y hy hk => hold ⟨y, hy, hk⟩, List.mem_append, List.mem_singleton]
    constructor
    · rintro (hz | rfl)
      · exact .inr ⟨hz, fun hk => absurd ⟨z, hz, hk⟩ hold⟩
      · exact .inl ⟨rfl, fun y hy hk => absurd ⟨y, hy, hk⟩ hold⟩
    · rintro (⟨rfl, -⟩ | ⟨hz, -⟩)
      · exact .inr rfl
      · exact .inl hz

theorem Wins.mem (h : Wins key rank cap xs z) : z ∈ xs := by
  obtain ⟨pre, post, rfl, -⟩ := h
  simp

/-- The winner of a key ranks at least as high as every item of the key, if there was a place for
all of them. -/
theorem Wins.rank_le (h : Wins key rank cap xs z) (hroom : (keys key xs).card < cap) {y : α}
    (hy : y ∈ xs) (hk : key y = key z) : rank y ≤ rank z := by
  obtain ⟨pre, post, rfl, hw⟩ := h
  rcases List.mem_append.mp hy with hy | hy
  · exact le_of_lt (hw.front y hy hk)
  rcases List.mem_cons.mp hy with rfl | hy
  · exact le_refl _
  obtain ⟨mid, post', rfl⟩ := List.append_of_mem hy
  refine hw.behind mid y post' rfl (lt_of_le_of_lt (card_keys_le_of_initial ?_) hroom) hk
  exact ⟨y :: post', by simp⟩

/-- One more item, with no place for it. -/
theorem wins_append_full (hroom : ¬ (keys key xs).card < cap) :
    Wins key rank cap (xs ++ [x]) z ↔ Wins key rank cap xs z := by
  constructor
  · rintro ⟨pre, post, heq, hw⟩
    rcases Run.concat_eq_split heq with ⟨rfl, -⟩ | ⟨post', rfl⟩
    · exact absurd hw.place hroom
    · have hpost : post = post' ++ [x] := by simpa using heq.symm
      exact ⟨pre, post', rfl, hw.place, hw.front, fun mid y rest hrest =>
        hw.behind mid y (rest ++ [x]) (by rw [hpost, hrest]; simp)⟩
  · rintro ⟨pre, post, rfl, hw⟩
    refine ⟨pre, post ++ [x], by simp, hw.place, hw.front, fun mid y rest hrest hplace hk => ?_⟩
    rcases Run.concat_eq_split hrest with ⟨rfl, -⟩ | ⟨rest', rfl⟩
    · exact absurd hplace hroom
    · exact hw.behind mid y rest' rfl hplace hk

/-- One more item, with a place for it. -/
theorem wins_append_room (hroom : (keys key xs).card < cap) :
    Wins key rank cap (xs ++ [x]) z ↔
      (z = x ∧ ∀ y ∈ xs, key y = key x → rank y < rank x) ∨
        (Wins key rank cap xs z ∧ (key z = key x → rank x ≤ rank z)) := by
  constructor
  · rintro ⟨pre, post, heq, hw⟩
    rcases Run.concat_eq_split heq with ⟨rfl, rfl⟩ | ⟨post', rfl⟩
    · exact .inl ⟨rfl, hw.front⟩
    · have hpost : post = post' ++ [x] := by simpa using heq.symm
      refine .inr ⟨⟨pre, post', rfl, hw.place, hw.front, fun mid y rest hrest =>
        hw.behind mid y (rest ++ [x]) (by rw [hpost, hrest]; simp)⟩, fun hk => ?_⟩
      exact hw.behind post' x [] hpost hroom hk.symm
  · rintro (⟨rfl, hall⟩ | ⟨⟨pre, post, rfl, hw⟩, hlast⟩)
    · exact ⟨xs, [], rfl, hroom, hall, fun mid y rest hrest => by simp at hrest⟩
    · refine ⟨pre, post ++ [x], by simp, hw.place, hw.front, fun mid y rest hrest hplace hk => ?_⟩
      rcases Run.concat_eq_split hrest with ⟨rfl, rfl⟩ | ⟨rest', rfl⟩
      · exact hlast hk.symm
      · exact hw.behind mid y rest' rfl hplace hk

/-- **What is left of a sequence**: one item a key, no more than there are places, the winners;
and it has all keys unless the places are taken. -/
structure Collected (key : α → κ) (rank : α → ρ) (cap : Nat) (xs kept : List α) : Prop where
  nodup : (kept.map key).Nodup
  length_le : kept.length ≤ cap
  keys_eq : keys key kept = keys key xs ∨ (kept.length = cap ∧ cap ≤ (keys key xs).card)
  mem : ∀ z, z ∈ kept ↔ Wins key rank cap xs z

/-- There is a place as long as there are fewer keys than places. -/
theorem Collected.length_lt_iff (h : Collected key rank cap xs kept) :
    kept.length < cap ↔ (keys key xs).card < cap := by
  rcases h.keys_eq with heq | ⟨h1, h2⟩
  · rw [← heq, keys, List.toFinset_card_of_nodup h.nodup, List.length_map]
  · omega

theorem collected_nil : Collected key rank cap [] [] := by
  refine ⟨List.nodup_nil, Nat.zero_le _, .inl rfl, fun z => ?_⟩
  constructor
  · intro hz
    cases hz
  · rintro ⟨pre, post, heq, -⟩
    simp at heq

theorem Collected.keep (h : Collected key rank cap xs kept) (x : α) :
    Collected key rank cap (xs ++ [x]) (keep key rank cap kept x) := by
  by_cases hroom : kept.length < cap
  · have hcard := h.length_lt_iff.mp hroom
    have heq : keys key kept = keys key xs := h.keys_eq.resolve_right (by omega)
    have hmap : (Newest.keep key rank cap kept x).map key = _ := map_keep hroom
    have hold : (∃ old ∈ kept, key old = key x) ↔ key x ∈ keys key kept := mem_keys.symm
    refine ⟨?_, ?_, .inl ?_, fun z => ?_⟩
    · rw [hmap]
      split
      · exact h.nodup
      · rename_i hno
        refine List.nodup_append.mpr ⟨h.nodup, List.nodup_singleton _, fun a ha b hb hab => hno ?_⟩
        obtain ⟨y, hy, rfl⟩ := List.mem_map.mp ha
        exact ⟨y, hy, hab.trans (List.mem_singleton.mp hb)⟩
    · have hlen := congrArg List.length hmap
      rw [List.length_map] at hlen
      rw [hlen]
      split
      · rw [List.length_map]
        omega
      · simp only [List.length_append, List.length_map, List.length_singleton]
        omega
    · rw [keys_append, ← heq, keys, hmap]
      split
      · rename_i hyes
        rw [← keys, Finset.union_eq_left.mpr]
        intro k hk
        rw [show k = key x by simpa [keys] using hk]
        exact hold.mp hyes
      · rw [List.toFinset_append]
        rfl
    · rw [mem_keep h.nodup hroom, wins_append_room hcard, h.mem]
      refine or_congr_left (and_congr_right fun _ => ⟨fun hall y hy hk => ?_, fun hall y hy hk => ?_⟩)
      · -- the winner of the key ranks at least as high as `y`
        obtain ⟨old, hmem, hko⟩ := mem_keys.mp (heq ▸ mem_keys.mpr ⟨y, hy, hk⟩)
        refine lt_of_le_of_lt ?_ (hall old hmem hko)
        exact ((h.mem old).mp hmem).rank_le hcard hy (hk.trans hko.symm)
      · exact hall y ((h.mem y).mp hy).mem hk
  · have hcard : ¬ (keys key xs).card < cap := fun hlt => hroom (h.length_lt_iff.mpr hlt)
    have hmono : (keys key xs).card ≤ (keys key (xs ++ [x])).card :=
      card_keys_le_of_initial (List.prefix_append xs [x])
    rw [keep_full hroom]
    have hle := h.length_le
    exact ⟨h.nodup, hle, .inr ⟨by omega, by omega⟩,
      fun z => (h.mem z).trans (wins_append_full hcard).symm⟩

theorem collected_collect (xs : List α) :
    Collected key rank cap xs (collect key rank cap xs) := by
  induction xs using List.reverseRecOn with
  | nil => exact collected_nil
  | append_singleton xs x ih =>
    rw [collect_append]
    exact ih.keep x

/-- **The winners are left.** -/
theorem mem_collect : z ∈ collect key rank cap xs ↔ Wins key rank cap xs z :=
  (collected_collect xs).mem z

end Keep

/-! ## Which item was written last

A history of writes is a list, the newest in front; an item may have been written several times.
-/

section History

variable {α : Type*} {hist : List α} {a b x : α} {p : α → Prop}

/-- `b` was written after the last write of `a`. -/
def After (hist : List α) (a b : α) : Prop :=
  ∃ newer older, hist = newer ++ a :: older ∧ a ∉ newer ∧ b ∈ newer

/-- Of the items with `p`, `a` is the one that was written last. -/
def Last (p : α → Prop) (hist : List α) (a : α) : Prop :=
  p a ∧ ∃ newer older, hist = newer ++ a :: older ∧ ∀ b ∈ newer, ¬ p b

theorem After.cons (h : After hist a b) (hne : a ≠ x) : After (x :: hist) a b := by
  obtain ⟨newer, older, rfl, hnot, hmem⟩ := h
  exact ⟨x :: newer, older, rfl, by simp [hnot, hne], List.mem_cons_of_mem _ hmem⟩

theorem after_cons (h : a ∈ hist) (hne : a ≠ x) : After (x :: hist) a x := by
  obtain ⟨newer, older, rfl, hnot⟩ := List.eq_append_cons_of_mem h
  exact ⟨x :: newer, older, rfl, by simp [hnot, hne], List.mem_cons_self⟩

/-- What is written last is not followed by another one. -/
theorem Last.not_after (h : Last p hist a) (hb : p b) : ¬ After hist a b := by
  rintro ⟨newer', older', heq', hnot, hmem⟩
  obtain ⟨ha, newer, older, heq, hlast⟩ := h
  have hnot' : a ∉ newer := fun hin => hlast a hin ha
  rcases List.append_eq_append_iff.mp (heq.symm.trans heq') with ⟨mid, rfl, hmid⟩ | ⟨mid, rfl, hmid⟩
  · cases mid with
    | nil => exact hlast b (by simpa using hmem) hb
    | cons y mid =>
      obtain ⟨rfl, -⟩ := List.cons.inj hmid
      simp at hnot
  · exact hlast b (List.mem_append_left _ hmem) hb

end History

end Newest
