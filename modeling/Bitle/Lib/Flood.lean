import Mathlib.Algebra.Order.Ring.Nat
import Mathlib.Data.Fintype.Card
import Mathlib.Logic.Relation

/-!
# Flooding with a hop limit

A message starts at one node of a finite network. A node that gets it for the first time sends it on
to its neighbours with one hop less, if it is willing and a hop is left, and drops it later. The
links are reliable and deliver in any order, so that a node may get the message on a detour first
and have fewer hops left than its distance asks for. `Inv` holds all the same: a message has lost a
hop only to a willing node that has got it (`paid`). With at least as many hops as there are nodes
but one, whoever runs out of hops has nobody left to tell, and when nothing is on its way any more
every node that the willing ones connect to the start has got the message (`Inv.reaches`).
-/

namespace Flood

variable {V M : Type}

section Defs

variable (src dst : M → V) (ttl : M → Nat) (linked : V → V → Prop) (willing : V → Prop)
  [DecidablePred willing] (start : V) (limit degree : Nat)

/-- The nodes `got` have got the message, `air` is on its way, and so many were delivered. -/
structure Inv (got : Finset V) (air : List M) (delivered : Nat) : Prop where
  paid : ∀ m ∈ air, limit ≤ ttl m + (got.filter willing).card
  sent : ∀ m ∈ air, src m = start ∨ src m ∈ got
  first : ∀ x, linked start x → x ∈ got ∨ ∃ m ∈ air, dst m = x
  onward : ∀ v ∈ got, willing v → ∀ x, linked v x → x = start ∨ x ∈ got ∨ ∃ m ∈ air, dst m = x
  made : delivered + air.length ≤ degree * ((got.filter willing).card + 1)

/-- A way on which every node but the first sends the message on. -/
def Way : V → V → Prop :=
  Relation.ReflTransGen fun v w => linked v w ∧ (v = start ∨ willing v)

end Defs

variable {src dst : M → V} {ttl : M → Nat} {linked : V → V → Prop} {willing : V → Prop}
  [DecidablePred willing] {start : V} {limit degree : Nat} {got : Finset V} {air : List M}
  {delivered i : Nat} {m : M}

theorem inv_start (hlimit : ∀ m ∈ air, limit ≤ ttl m) (hsrc : ∀ m ∈ air, src m = start)
    (hfirst : ∀ x, linked start x → ∃ m ∈ air, dst m = x) (hlen : air.length ≤ degree) :
    Inv src dst ttl linked willing start limit degree ∅ air 0 where
  paid m hm := (hlimit m hm).trans (Nat.le_add_right _ _)
  sent m hm := .inl (hsrc m hm)
  first x hx := .inr (hfirst x hx)
  onward v hv := absurd hv (Finset.notMem_empty v)
  made := by
    rw [Finset.filter_empty, Finset.card_empty, Nat.zero_add, Nat.zero_add, Nat.mul_one]
    exact hlen

/-- What is on its way to somebody else stays. -/
theorem mem_eraseIdx_of_dst (hi : air[i]? = some m) {x : V} (hx : dst m ≠ x)
    (hair : ∃ m' ∈ air, dst m' = x) : ∃ m' ∈ air.eraseIdx i, dst m' = x := by
  obtain ⟨m', hmem, rfl⟩ := hair
  obtain ⟨j, hj⟩ := List.mem_iff_getElem?.mp hmem
  refine ⟨m', List.mem_eraseIdx_iff_getElem?.mpr ⟨j, ?_, hj⟩, rfl⟩
  rintro rfl
  obtain rfl : m = m' := Option.some.inj (hi.symm.trans hj)
  exact hx rfl

/-- A message to a node that has got it is dropped. -/
theorem Inv.drop (h : Inv src dst ttl linked willing start limit degree got air delivered)
    (hi : air[i]? = some m) (hgot : dst m ∈ got) :
    Inv src dst ttl linked willing start limit degree got (air.eraseIdx i) (delivered + 1) where
  paid m' hm' := h.paid m' (List.mem_of_mem_eraseIdx hm')
  sent m' hm' := h.sent m' (List.mem_of_mem_eraseIdx hm')
  first x hx := by
    by_cases hgx : x ∈ got
    · exact .inl hgx
    · have hair := (h.first x hx).resolve_left hgx
      exact .inr (mem_eraseIdx_of_dst hi (ne_of_mem_of_not_mem hgot hgx) hair)
  onward v hv hw x hx := by
    by_cases hgx : x ∈ got
    · exact .inr (.inl hgx)
    · rcases h.onward v hv hw x hx with hstart | hgx' | hair
      · exact .inl hstart
      · exact absurd hgx' hgx
      · exact .inr (.inr (mem_eraseIdx_of_dst hi (ne_of_mem_of_not_mem hgot hgx) hair))
  made := by
    have hmade := h.made
    have hlt := (List.getElem?_eq_some_iff.mp hi).1
    rw [List.length_eraseIdx_of_lt hlt]
    omega

/-- **When nothing is on its way any more**, the message has been everywhere. -/
theorem Inv.reaches (h : Inv src dst ttl linked willing start limit degree got [] delivered) {v : V}
    (hway : Way linked willing start start v) : v = start ∨ v ∈ got := by
  induction hway with
  | refl => exact .inl rfl
  | @tail v w _ hstep ih =>
    obtain ⟨hlinked, hsends⟩ := hstep
    have hstart : linked start w → w ∈ got := by
      intro hfirst
      rcases h.first w hfirst with hgot | ⟨m, hm, -⟩
      · exact hgot
      · cases hm
    rcases hsends with rfl | hw
    · exact .inr (hstart hlinked)
    · rcases ih with rfl | hv
      · exact .inr (hstart hlinked)
      · rcases h.onward v hv hw w hlinked with hw' | hw' | ⟨m, hm, -⟩
        · exact .inl hw'
        · exact .inr hw'
        · cases hm

variable [Fintype V]

/-- There are never more than so many messages. -/
theorem Inv.bound (h : Inv src dst ttl linked willing start limit degree got air delivered)
    (hself : ¬ willing start) : delivered + air.length ≤ degree * Fintype.card V := by
  refine h.made.trans (Nat.mul_le_mul_left _ ?_)
  have hlt : (got.filter willing).card < Fintype.card V := by
    rw [← Finset.card_univ]
    refine Finset.card_lt_card ⟨Finset.subset_univ _, fun hall => hself ?_⟩
    exact (Finset.mem_filter.mp (hall (Finset.mem_univ start))).2
  exact hlt

variable [DecidableEq V]

/-- **A node gets the message for the first time** and sends it on. -/
theorem Inv.take (h : Inv src dst ttl linked willing start limit degree got air delivered)
    (hself : ¬ willing start) (hcard : Fintype.card V ≤ limit + 1)
    (hi : air[i]? = some m) (hgot : dst m ∉ got) {new : List M}
    (hnew : ∀ n ∈ new, src n = dst m ∧ ttl n + 1 = ttl m ∧ willing (dst m))
    (hall : willing (dst m) → 2 ≤ ttl m → ∀ x, linked (dst m) x → x = src m ∨ ∃ n ∈ new, dst n = x)
    (hlen : new.length ≤ degree) :
    Inv src dst ttl linked willing start limit degree (insert (dst m) got)
      (air.eraseIdx i ++ new) (delivered + 1) := by
  have hmem : m ∈ air := List.mem_of_getElem? hi
  have hpaid := h.paid m hmem
  have hmono : (got.filter willing).card ≤ ((insert (dst m) got).filter willing).card :=
    Finset.card_le_card (Finset.filter_subset_filter _ (Finset.subset_insert _ _))
  -- one more willing node has it, which pays for the hop its messages lack
  have hone : willing (dst m) →
      ((insert (dst m) got).filter willing).card = (got.filter willing).card + 1 := by
    intro hw
    rw [Finset.filter_insert, if_pos hw, Finset.card_insert_of_notMem]
    exact fun hin => hgot (Finset.mem_filter.mp hin).1
  have hkeep : ∀ x, (∃ m' ∈ air, dst m' = x) → x ∈ insert (dst m) got ∨
      ∃ m' ∈ air.eraseIdx i ++ new, dst m' = x := by
    intro x hair
    by_cases hx : dst m = x
    · exact .inl (hx ▸ Finset.mem_insert_self _ _)
    · obtain ⟨m', hm', hdst⟩ := mem_eraseIdx_of_dst hi hx hair
      exact .inr ⟨m', List.mem_append_left _ hm', hdst⟩
  refine ⟨?_, ?_, ?_, ?_, ?_⟩
  · intro n hn
    rcases List.mem_append.mp hn with hn | hn
    · exact (h.paid n (List.mem_of_mem_eraseIdx hn)).trans (Nat.add_le_add_left hmono _)
    · obtain ⟨-, httl, hw⟩ := hnew n hn
      rw [hone hw]
      omega
  · intro n hn
    rcases List.mem_append.mp hn with hn | hn
    · exact (h.sent n (List.mem_of_mem_eraseIdx hn)).imp_right (Finset.mem_insert_of_mem ·)
    · exact .inr ((hnew n hn).1 ▸ Finset.mem_insert_self _ _)
  · intro x hx
    rcases h.first x hx with hgx | hair
    · exact .inl (Finset.mem_insert_of_mem hgx)
    · exact hkeep x hair
  · intro v hv hw x hx
    rcases Finset.mem_insert.mp hv with rfl | hv
    · by_cases httl : 2 ≤ ttl m
      · rcases hall hw httl x hx with rfl | ⟨n, hn, hdst⟩
        · exact (h.sent m hmem).imp_right fun hgot => .inl (Finset.mem_insert_of_mem hgot)
        · exact .inr (.inr ⟨n, List.mem_append_right _ hn, hdst⟩)
      · -- no hop is left, and nobody either
        by_contra hleft
        rw [not_or, not_or] at hleft
        obtain ⟨hxstart, hxgot, -⟩ := hleft
        rw [Finset.mem_insert, not_or] at hxgot
        have hthree : insert start (insert x (insert (dst m) (got.filter willing))) ⊆ Finset.univ :=
          Finset.subset_univ _
        have hdst : dst m ∉ got.filter willing := fun hin => hgot (Finset.mem_filter.mp hin).1
        have hxnew : x ∉ insert (dst m) (got.filter willing) := by
          rw [Finset.mem_insert, not_or]
          exact ⟨hxgot.1, fun hin => hxgot.2 (Finset.mem_filter.mp hin).1⟩
        have hstart : start ∉ insert x (insert (dst m) (got.filter willing)) := by
          rw [Finset.mem_insert, Finset.mem_insert, not_or, not_or]
          refine ⟨Ne.symm hxstart, ?_, fun hin => hself (Finset.mem_filter.mp hin).2⟩
          rintro rfl
          exact hself hw
        have hcount := Finset.card_le_card hthree
        rw [Finset.card_insert_of_notMem hstart, Finset.card_insert_of_notMem hxnew,
          Finset.card_insert_of_notMem hdst, Finset.card_univ] at hcount
        omega
    · rcases h.onward v hv hw x hx with hstart | hgx | hair
      · exact .inl hstart
      · exact .inr (.inl (Finset.mem_insert_of_mem hgx))
      · exact .inr (hkeep x hair)
  · have hmade := h.made
    have hlt := (List.getElem?_eq_some_iff.mp hi).1
    rw [List.length_append, List.length_eraseIdx_of_lt hlt]
    by_cases hw : willing (dst m)
    · rw [hone hw, Nat.mul_add_one]
      omega
    · have hnone : new = [] := by
        rw [List.eq_nil_iff_forall_not_mem]
        exact fun n hn => hw (hnew n hn).2.2
      have hle := Nat.mul_le_mul_left degree (Nat.add_le_add_right hmono 1)
      rw [hnone, List.length_nil]
      omega

end Flood
