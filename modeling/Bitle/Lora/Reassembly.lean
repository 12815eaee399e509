import Bitle.Lora.Fragment
import Mathlib.Data.Finset.Card
import Mathlib.Data.List.Nodup

/-!
# Bitle — reassembly (`main/bitle_lora.c`)

What `rx_frame` passes on. Every slot in use holds fragments of one packet only (`SlotsOk`), so a
packet that is passed on is one that was sent. With no more packets in reassembly than slots, the
slots do what a receiver without a limit would do (`Tracks`), so nothing that arrives in time is
lost. `rx_delivers_sent` has both.
-/

namespace Bitle

open Wire

/-! ## The slot scan -/

section Scan

variable {src : Bytes 4} {seq : UInt16} {l : List RxSlot} {i : Nat} {slot free : Option Nat}
  {oldest : Nat × RxSlot}

theorem RxSlot.inUse_of_hit {s : RxSlot} (h : s.hit src seq = true) : s.inUse = true := by
  unfold RxSlot.hit at h
  simp only [Bool.and_eq_true] at h
  exact h.1.1

theorem rxScan_slot :
    (∀ j, (rxScan src seq l i slot free oldest).1 = some j →
      slot = some j ∨ ∃ k s, j = i + k ∧ l[k]? = some s ∧ s.hit src seq = true) ∧
    ((rxScan src seq l i slot free oldest).1 = none →
      slot = none ∧ ∀ s ∈ l, s.hit src seq = false) := by
  induction l generalizing i slot free oldest with
  | nil => exact ⟨fun j h => .inl h, fun h => ⟨h, by simp⟩⟩
  | cons s l ih =>
    -- a slot that is no hit only moves the scan on
    have hskip : ∀ {slot' free' oldest'}, s.hit src seq = false →
        (∀ j, (rxScan src seq l (i + 1) slot' free' oldest').1 = some j → slot' = some j ∨
          ∃ k t, j = i + k ∧ (s :: l)[k]? = some t ∧ t.hit src seq = true) ∧
        ((rxScan src seq l (i + 1) slot' free' oldest').1 = none →
          slot' = none ∧ ∀ t ∈ s :: l, t.hit src seq = false) := by
      intro slot' free' oldest' hmiss
      obtain ⟨h1, h2⟩ := @ih (i + 1) slot' free' oldest'
      constructor
      · intro j hj
        rcases h1 j hj with h | ⟨k, t, hk, ht, hhit⟩
        · exact .inl h
        · exact .inr ⟨k + 1, t, by omega, by simpa using ht, hhit⟩
      · intro hnone
        obtain ⟨hs, hall⟩ := h2 hnone
        exact ⟨hs, List.forall_mem_cons.mpr ⟨hmiss, hall⟩⟩
    unfold rxScan
    dsimp only
    by_cases hhit : s.hit src seq = true
    · rw [if_pos hhit]
      obtain ⟨h1, h2⟩ := @ih (i + 1) (some i) free
        (if s.startedMs < oldest.2.startedMs then (i, s) else oldest)
      constructor
      · intro j hj
        rcases h1 j hj with h | ⟨k, t, hk, ht, hht⟩
        · exact .inr ⟨0, s, by simpa using h.symm, rfl, hhit⟩
        · exact .inr ⟨k + 1, t, by omega, by simpa using ht, hht⟩
      · intro hnone
        exact absurd (h2 hnone).1 (by simp)
    · rw [Bool.not_eq_true] at hhit
      rw [hhit, if_neg (by decide)]
      split
      · exact hskip hhit
      · exact hskip hhit

theorem rxScan_free : (rxScan src seq l i slot free oldest).2.1 =
    free.or ((l.findIdx? fun s => !s.inUse).map (· + i)) := by
  induction l generalizing i slot free oldest with
  | nil => rw [List.findIdx?_nil, Option.map_none, Option.or_none]; rfl
  | cons s l ih =>
    have hnext : s.inUse = true → ((s :: l).findIdx? fun s => !s.inUse).map (· + i) =
        (l.findIdx? fun s => !s.inUse).map (· + (i + 1)) := by
      intro huse
      rw [List.findIdx?_cons, huse, Bool.not_true, if_neg (by decide), Option.map_map]
      congr 1
      funext k
      show k + 1 + i = k + (i + 1)
      omega
    unfold rxScan
    dsimp only
    by_cases hhit : s.hit src seq = true
    · rw [if_pos hhit, ih, hnext (RxSlot.inUse_of_hit hhit)]
    · rw [if_neg hhit]
      by_cases hfree : (!s.inUse && free.isNone) = true
      · simp only [Bool.and_eq_true, Bool.not_eq_true', Option.isNone_iff_eq_none] at hfree
        obtain ⟨huse, rfl⟩ := hfree
        rw [huse, if_pos (by decide), ih, List.findIdx?_cons, huse, if_pos (by decide)]
        simp
      · rw [if_neg hfree, ih]
        cases free with
        | some j => rfl
        | none => rw [hnext (by simpa using hfree)]

theorem rxScan_oldest : (rxScan src seq l i slot free oldest).2.2 = oldest.1 ∨
    ∃ k, k < l.length ∧ (rxScan src seq l i slot free oldest).2.2 = i + k := by
  induction l generalizing i slot free oldest with
  | nil => exact .inl rfl
  | cons s l ih =>
    have hstep : ∀ slot' free', (rxScan src seq l (i + 1) slot' free'
          (if s.startedMs < oldest.2.startedMs then (i, s) else oldest)).2.2 = oldest.1 ∨
        ∃ k, k < (s :: l).length ∧ (rxScan src seq l (i + 1) slot' free'
          (if s.startedMs < oldest.2.startedMs then (i, s) else oldest)).2.2 = i + k := by
      intro slot' free'
      rcases @ih (i + 1) slot' free'
        (if s.startedMs < oldest.2.startedMs then (i, s) else oldest) with h | ⟨k, hk, h⟩
      · rw [h]
        split
        · exact .inr ⟨0, Nat.succ_pos _, rfl⟩
        · exact .inl rfl
      · exact .inr ⟨k + 1, Nat.succ_lt_succ hk, by omega⟩
    unfold rxScan
    dsimp only
    split
    · exact hstep _ _
    · split
      · exact hstep _ _
      · exact hstep _ _

/-- A freshly opened slot. -/
def RxSlot.opened (now : UInt64) (src : Bytes 4) (seq : UInt16) (total : UInt8) : RxSlot :=
  { inUse := true, src := src, seq := seq, total := total, startedMs := now }

/-- **`rxOpen` finds the packet's slot or opens one**, a free one if there is any. -/
theorem rxOpen_cases (now : UInt64) (src : Bytes 4) (seq : UInt16) (total : UInt8)
    {slots : List RxSlot} (hne : 0 < slots.length) :
    (∃ i s, rxOpen now src seq total slots = (slots, i) ∧ slots[i]? = some s ∧
      s.hit src seq = true) ∨
    (∃ i s, rxOpen now src seq total slots =
        (slots.set i (RxSlot.opened now src seq total), i) ∧ slots[i]? = some s ∧
      (∀ t ∈ slots, t.hit src seq = false) ∧
      (s.inUse = true → ∀ t ∈ slots, t.inUse = true)) := by
  have hscan := @rxScan_slot src seq slots 0 none none (0, slots.getD 0 {})
  have hfree := @rxScan_free src seq slots 0 none none (0, slots.getD 0 {})
  have hold := @rxScan_oldest src seq slots 0 none none (0, slots.getD 0 {})
  unfold rxOpen
  generalize rxScan src seq slots 0 none none (0, slots.getD 0 {}) = r at hscan hfree hold ⊢
  obtain ⟨slot, free, oldest⟩ := r
  dsimp only at hscan hfree hold ⊢
  cases slot with
  | some i =>
    rcases hscan.1 i rfl with h | ⟨k, s, hk, hs, hhit⟩
    · cases h
    · rw [Nat.zero_add] at hk
      exact .inl ⟨i, s, rfl, by rw [hk, hs], hhit⟩
  | none =>
    right
    -- no slot has the key: the first free one is opened, and without one the oldest
    have hmiss := (hscan.2 rfl).2
    rw [Option.none_or] at hfree
    cases hf : slots.findIdx? fun s => !s.inUse with
    | some j =>
      obtain ⟨hj, hp, -⟩ := List.findIdx?_eq_some_iff_getElem.mp hf
      rw [hf, Option.map_some, Nat.add_zero] at hfree
      rw [hfree]
      refine ⟨j, slots[j], rfl, List.getElem?_eq_getElem hj, hmiss, ?_⟩
      intro huse
      rw [huse] at hp
      cases hp
    | none =>
      have hall : ∀ t ∈ slots, t.inUse = true := by
        intro t ht
        simpa using List.findIdx?_eq_none_iff.mp hf t ht
      rw [hf, Option.map_none] at hfree
      rw [hfree]
      have hlt : oldest < slots.length := by
        rcases hold with h | ⟨k, hk, h⟩
        · omega
        · omega
      exact ⟨oldest, slots[oldest], rfl, List.getElem?_eq_getElem hlt, hmiss, fun _ => hall⟩

end Scan

/-! ## One slot -/

/-- The slot has fragment `i`. -/
def RxSlot.has (s : RxSlot) (i : Nat) : Prop := s.haveMask.testBit i = true

/-- The slot with one more fragment. -/
def RxSlot.put (s : RxSlot) (idx : Nat) (chunk : List UInt8) : RxSlot :=
  { s with parts := s.parts.set idx chunk, haveMask := (s.haveMask ||| 1 <<< idx) % 256 }

theorem RxSlot.has_put (s : RxSlot) {idx i : Nat} (chunk : List UInt8) (hi : i < 8) :
    (s.put idx chunk).has i ↔ s.has i ∨ i = idx := by
  unfold RxSlot.has RxSlot.put
  show ((s.haveMask ||| 1 <<< idx) % 2 ^ 8).testBit i = true ↔ _
  rw [Nat.testBit_mod_two_pow, Nat.testBit_or, Nat.one_shiftLeft, Nat.testBit_two_pow,
    decide_eq_true hi, Bool.true_and, Bool.or_eq_true, decide_eq_true_eq]
  exact or_congr_right eq_comm

/-- The mask comparison asks for every fragment. -/
theorem mask_full (m : Nat) {total : Nat} (ht : total < 8) :
    m &&& ((1 <<< total - 1) % 256) = (1 <<< total - 1) % 256 ↔
      ∀ i, i < total → m.testBit i = true := by
  have hwant : (1 <<< total - 1) % 256 = 2 ^ total - 1 := by
    have hle : 2 ^ total ≤ 2 ^ 7 := Nat.pow_le_pow_right (by decide) (by omega)
    rw [Nat.one_shiftLeft, Nat.mod_eq_of_lt (by omega)]
  rw [hwant]
  constructor
  · intro h i hi
    have hbit := congrArg (fun x => x.testBit i) h
    simpa [Nat.testBit_and, Nat.testBit_two_pow_sub_one, hi] using hbit
  · intro h
    apply Nat.eq_of_testBit_eq
    intro i
    rw [Nat.testBit_and, Nat.testBit_two_pow_sub_one]
    by_cases hi : i < total
    · simp [hi, h i hi]
    · simp [hi]

/-- The slot was opened by this arrival and holds fragments of its packet only. -/
structure RxSlot.Holds (s : RxSlot) (b : Arrival) : Prop where
  src : s.src = b.tag
  seq : s.seq = b.batch.seq
  total : s.total = UInt8.ofNat b.batch.total
  startedMs : s.startedMs = b.now
  length_parts : s.parts.length = trunkMaxFrags
  part : ∀ i, i < b.batch.total → s.has i → s.parts[i]? = some (chunkAt b.batch.data i)

section Slot

variable {s : RxSlot} {b : Arrival} (hb : b.batch.Admitted) {idx : Nat} (hidx : idx < b.batch.total)
include hb hidx

theorem RxSlot.Holds.put (h : s.Holds b) : (s.put idx (chunkAt b.batch.data idx)).Holds b := by
  have htotal := hb.total_le
  have hmax : trunkMaxFrags = 5 := rfl
  refine ⟨h.src, h.seq, h.total, h.startedMs, (List.length_set ..).trans h.length_parts, ?_⟩
  intro i hi hhas
  show (s.parts.set idx (chunkAt b.batch.data idx))[i]? = _
  by_cases hii : idx = i
  · rw [← hii, List.getElem?_set_self (by rw [h.length_parts]; omega)]
  · rw [List.getElem?_set_ne hii]
    rcases (s.has_put _ (by omega)).mp hhas with hold | rfl
    · exact h.part i hi hold
    · exact absurd rfl hii

omit hidx in
/-- All fragments together are the packet. -/
theorem RxSlot.Holds.join (h : s.Holds b) (hall : ∀ i, i < b.batch.total → s.has i) :
    joinParts (s.parts.take b.batch.total) [] = some b.batch.data := by
  have htotal := hb.total_le
  have hmax : trunkMaxFrags = 5 := rfl
  have hparts : s.parts.take b.batch.total = (List.range b.batch.total).map (chunkAt b.batch.data) := by
    apply List.ext_getElem?
    intro i
    by_cases hi : i < b.batch.total
    · rw [List.getElem?_take_of_lt hi, h.part i hi (hall i hi), List.getElem?_map,
        List.getElem?_range hi]
      rfl
    · rw [List.getElem?_eq_none (by rw [List.length_take]; omega),
        List.getElem?_eq_none (by rw [List.length_map, List.length_range]; omega)]
  rw [hparts, joinParts_eq, hb.join, List.nil_append]
  rw [hb.join, List.nil_append]
  exact hb.2.1

/-- **A fragment in its slot**: stored, and the packet is passed on once none is missing. -/
theorem rxStore_holds {slots : List RxSlot} {i : Nat} (hs : slots[i]? = some s) (h : s.Holds b) :
    rxStore slots i (UInt8.ofNat idx) (UInt8.ofNat b.batch.total) (chunkAt b.batch.data idx) =
      if ∀ j, j < b.batch.total → (s.put idx (chunkAt b.batch.data idx)).haveMask.testBit j = true then
        (slots.set i { s.put idx (chunkAt b.batch.data idx) with inUse := false },
          some b.batch.data)
      else (slots.set i (s.put idx (chunkAt b.batch.data idx)), none) := by
  have htotal := hb.total_le
  have hidxNat : (UInt8.ofNat idx).toNat = idx := by
    rw [UInt8.toNat_ofNat']
    omega
  have hget : slots.getD i {} = s := by
    rw [List.getD_eq_getElem?_getD, hs]
    rfl
  have hput := h.put hb hidx
  unfold rxStore
  dsimp only
  rw [hget, if_neg (not_not.mpr h.total), hb.toNat_total, hidxNat]
  show (if (s.put idx (chunkAt b.batch.data idx)).haveMask &&& _ ≠ _ then _ else _) = _
  by_cases hall : ∀ j, j < b.batch.total →
      (s.put idx (chunkAt b.batch.data idx)).haveMask.testBit j = true
  · rw [if_neg (not_not.mpr ((mask_full _ (by omega)).mpr hall)), if_pos hall]
    exact congrArg (Prod.mk _) (hput.join hb hall)
  · rw [if_pos (fun hfull => hall ((mask_full _ (by omega)).mp hfull)), if_neg hall]
    rfl

end Slot

/-! ## One arrival -/

theorem RxSlot.expire_inUse {now : UInt64} {s : RxSlot} (h : (s.expire now).inUse = true) :
    s.expire now = s ∧ s.inUse = true ∧ timedOut now s.startedMs = false := by
  unfold RxSlot.expire at h ⊢
  by_cases hc : (s.inUse && decide (now - s.startedMs > rxTimeoutMs)) = true
  · rw [if_pos hc] at h
    cases h
  · rw [if_neg hc] at h ⊢
    rw [h, Bool.true_and, Bool.not_eq_true] at hc
    exact ⟨rfl, h, hc⟩

/-- Every slot in use was opened by some arrival and holds fragments of its packet only. -/
structure SlotsOk (h : List Arrival) (slots : List RxSlot) : Prop where
  length : slots.length = rxSlots
  holds : ∀ s ∈ slots, s.inUse = true → ∃ b ∈ h, s.Holds b

section Step

variable {h : List Arrival} {a : Arrival}

theorem Network.sublist {as bs : List Arrival} (hnet : Network bs) (hsub : as.Sublist bs) :
    Network as where
  wf := fun b hb => hnet.wf b (hsub.subset hb)
  mono := hnet.mono.sublist hsub
  noReuse := hnet.noReuse.sublist hsub

theorem Network.front (hnet : Network (h ++ [a])) : Network h :=
  hnet.sublist (List.sublist_append_left _ _)

theorem Network.le_last (hnet : Network (h ++ [a])) {b : Arrival} (hb : b ∈ h) : b.now ≤ a.now :=
  (List.pairwise_append.mp hnet.mono).2.2 b hb a (List.mem_singleton.mpr rfl)

/-- Two packets of one key are heard more than the timeout apart. -/
theorem Network.timedOut_last (hnet : Network (h ++ [a])) {b : Arrival} (hb : b ∈ h)
    (hkey : b.key = a.key) (hne : b.batch ≠ a.batch) : timedOut a.now b.now = true :=
  (List.pairwise_append.mp hnet.noReuse).2.2 b hb a (List.mem_singleton.mpr rfl) hkey hne

theorem Network.wf_last (hnet : Network (h ++ [a])) : a.batch.Admitted ∧ a.idx < a.batch.total :=
  hnet.wf a (List.mem_append_right _ (List.mem_singleton.mpr rfl))

/-- Within the timeout a key stands for one packet. -/
theorem Network.batch_eq (hnet : Network (h ++ [a])) {b : Arrival} (hb : b ∈ h)
    (hkey : b.key = a.key) (htime : timedOut a.now b.now = false) : b.batch = a.batch := by
  by_contra hne
  rw [hnet.timedOut_last hb hkey hne] at htime
  cases htime

/-- The slot an arrival is stored in, and what that does to the table. -/
theorem rxData_cases (hnet : Network (h ++ [a])) {slots : List RxSlot} (hok : SlotsOk h slots) :
    ∃ i s b old, (slots.map (RxSlot.expire a.now))[i]? = some old ∧
      b ∈ h ++ [a] ∧ b.batch = a.batch ∧ s.Holds b ∧ s.hit a.tag a.batch.seq = true ∧
      (s = old ∨ s = RxSlot.opened a.now a.tag a.batch.seq (UInt8.ofNat a.batch.total) ∧
        (∀ t ∈ slots.map (RxSlot.expire a.now), t.hit a.tag a.batch.seq = false) ∧
        (old.inUse = true → ∀ t ∈ slots.map (RxSlot.expire a.now), t.inUse = true)) ∧
      rxData a.now a.tag a.batch.seq (UInt8.ofNat a.idx) (UInt8.ofNat a.batch.total)
          (chunkAt a.batch.data a.idx) slots =
        if ∀ j, j < a.batch.total →
            (s.put a.idx (chunkAt a.batch.data a.idx)).haveMask.testBit j = true then
          ((slots.map (RxSlot.expire a.now)).set i
              { s.put a.idx (chunkAt a.batch.data a.idx) with inUse := false },
            some a.batch.data)
        else ((slots.map (RxSlot.expire a.now)).set i
            (s.put a.idx (chunkAt a.batch.data a.idx)), none) := by
  obtain ⟨hadm, hidx⟩ := hnet.wf_last
  have hlen : 0 < (slots.map (RxSlot.expire a.now)).length := by
    rw [List.length_map, hok.length]
    decide
  unfold rxData
  dsimp only
  rcases rxOpen_cases a.now a.tag a.batch.seq (UInt8.ofNat a.batch.total) hlen with
    ⟨i, s, hopen, hs, hhit⟩ | ⟨i, old, hopen, hold, hmiss, hfull⟩
  · -- an open slot: it was opened within the timeout, so by a frame of the same packet
    obtain ⟨t, ht, rfl⟩ := List.mem_map.mp (List.mem_of_getElem? hs)
    obtain ⟨hexp, huse, htime⟩ := RxSlot.expire_inUse (RxSlot.inUse_of_hit hhit)
    rw [hexp] at hs hhit
    obtain ⟨b, hb, hholds⟩ := hok.holds t ht huse
    have hkey : b.key = a.key := by
      simp only [RxSlot.hit, Bool.and_eq_true, beq_iff_eq] at hhit
      rw [Arrival.key, Arrival.key, ← hholds.src, ← hholds.seq, hhit.1.2, hhit.2]
    rw [hholds.startedMs] at htime
    have hbatch := hnet.batch_eq hb hkey htime
    refine ⟨i, t, b, t, hs, List.mem_append_left _ hb, hbatch, hholds, hhit, .inl rfl, ?_⟩
    rw [hopen]
    dsimp only
    rw [← hbatch] at hadm hidx ⊢
    exact rxStore_holds hadm hidx hs hholds
  · -- no slot yet: a cleared one
    have hilt := (List.getElem?_eq_some_iff.mp hold).1
    have hfresh : (RxSlot.opened a.now a.tag a.batch.seq (UInt8.ofNat a.batch.total)).Holds a := by
      refine ⟨rfl, rfl, rfl, rfl, List.length_replicate, ?_⟩
      intro j _ hhas
      unfold RxSlot.has RxSlot.opened at hhas
      rw [Nat.zero_testBit] at hhas
      cases hhas
    refine ⟨i, _, a, old, hold, List.mem_append_right _ (List.mem_singleton.mpr rfl), rfl, hfresh,
      ?_, .inr ⟨rfl, hmiss, hfull⟩, ?_⟩
    · simp [RxSlot.hit, RxSlot.opened]
    · rw [hopen]
      dsimp only
      rw [rxStore_holds hadm hidx (List.getElem?_set_self hilt) hfresh, List.set_set, List.set_set]

/-- **A fragment keeps the slots pure**, and what is passed on is its packet. -/
theorem rxData_ok (hnet : Network (h ++ [a])) {slots : List RxSlot} (hok : SlotsOk h slots) :
    SlotsOk (h ++ [a]) (rxData a.now a.tag a.batch.seq (UInt8.ofNat a.idx)
      (UInt8.ofNat a.batch.total) (chunkAt a.batch.data a.idx) slots).1 ∧
    ∀ packet, (rxData a.now a.tag a.batch.seq (UInt8.ofNat a.idx) (UInt8.ofNat a.batch.total)
      (chunkAt a.batch.data a.idx) slots).2 = some packet → packet = a.batch.data := by
  obtain ⟨hadm, hidx⟩ := hnet.wf_last
  obtain ⟨i, s, b, old, -, hb, hbatch, hholds, -, -, hdata⟩ := rxData_cases hnet hok
  have hput : (s.put a.idx (chunkAt a.batch.data a.idx)).Holds b := by
    rw [← hbatch] at hadm hidx ⊢
    exact hholds.put hadm hidx
  have hset : ∀ x : RxSlot, (x.inUse = true → x.Holds b) →
      SlotsOk (h ++ [a]) ((slots.map (RxSlot.expire a.now)).set i x) := by
    intro x hx
    refine ⟨by rw [List.length_set, List.length_map, hok.length], ?_⟩
    intro t ht huse
    rcases List.mem_or_eq_of_mem_set ht with hmem | rfl
    · obtain ⟨t', ht', rfl⟩ := List.mem_map.mp hmem
      obtain ⟨hexp, huse', -⟩ := RxSlot.expire_inUse huse
      obtain ⟨c, hc, hholds'⟩ := hok.holds t' ht' huse'
      exact ⟨c, List.mem_append_left _ hc, by rwa [hexp]⟩
    · exact ⟨b, hb, hx huse⟩
  rw [hdata]
  split
  · exact ⟨hset _ (fun hoff => by cases hoff), fun packet hp => (Option.some.inj hp).symm⟩
  · exact ⟨hset _ (fun _ => hput), fun packet hp => by cases hp⟩

end Step

/-! ## Whole runs -/

theorem rxAfter_concat (r : Receiver) (h : List Arrival) (a : Arrival) :
    rxAfter r (h ++ [a]) = (rxFrame a.now (rxAfter r h) a.frame.data).1 := by
  rw [rxAfter, Run.final_append]
  rfl

/-- Along every run the slots are pure. -/
theorem rxAfter_slotsOk (srcTag : Bytes 4) {h : List Arrival} (hnet : Network h) :
    (rxAfter (Receiver.init srcTag) h).srcTag = srcTag ∧
      SlotsOk h (rxAfter (Receiver.init srcTag) h).slots := by
  induction h using List.reverseRecOn with
  | nil =>
    refine ⟨rfl, List.length_replicate, ?_⟩
    intro s hs huse
    rw [List.eq_of_mem_replicate hs] at huse
    cases huse
  | append_singleton h a ih =>
    obtain ⟨htag, hok⟩ := ih hnet.front
    obtain ⟨hown, hother⟩ := rxFrame_arrival (rxAfter (Receiver.init srcTag) h) hnet.wf_last
    rw [rxAfter_concat]
    by_cases htag' : a.tag = (rxAfter (Receiver.init srcTag) h).srcTag
    · rw [hown htag']
      refine ⟨htag, hok.length, fun s hs huse => ?_⟩
      obtain ⟨b, hb, hholds⟩ := hok.holds s hs huse
      exact ⟨b, List.mem_append_left _ hb, hholds⟩
    · obtain ⟨outbox, hframe⟩ := hother htag'
      rw [hframe]
      exact ⟨htag, (rxData_ok hnet hok).1⟩

/-! ## Reassembly without a limit

What a receiver with a slot for every packet would do: each key has its own reassembly, opened by
a fragment, closed by the last missing one or by the timeout. -/

/-- An open reassembly. -/
structure Assembly where
  startedMs : UInt64
  got : Finset Nat

/-- It is still there at `now`. -/
def Assembly.alive (now : UInt64) (x : Assembly) : Bool := !timedOut now x.startedMs

/-- One arrival, as the reassembly of `key` sees it. -/
def assemblyStep (key : TrunkKey) (o : Option Assembly) (a : Arrival) : Option Assembly :=
  let o := o.filter (Assembly.alive a.now)
  if a.key = key then
    let x := o.getD ⟨a.now, ∅⟩
    if insert a.idx x.got = Finset.range a.batch.total then none
    else some { x with got := insert a.idx x.got }
  else o

/-- The reassembly of `key` after a run. -/
def assemblyOf (key : TrunkKey) (h : List Arrival) : Option Assembly :=
  Run.final (assemblyStep key) none h

/-- The packets in reassembly while `a` is handled, its own included. A repeated fragment of a
packet that was passed on before opens a reassembly again and counts. -/
def inReassembly (h : List Arrival) (a : Arrival) : Finset TrunkKey :=
  ((h ++ [a]).map Arrival.key).toFinset.filter fun key =>
    key = a.key ∨ ((assemblyOf key h).filter (Assembly.alive a.now)).isSome

/-- At most `RX_SLOTS` packets are in reassembly at once, at every arrival of the run. -/
def WithinSlots (h : List Arrival) : Prop :=
  ∀ pre a, pre ++ [a] <+: h → (inReassembly pre a).card ≤ rxSlots

theorem assemblyOf_concat (key : TrunkKey) (h : List Arrival) (a : Arrival) :
    assemblyOf key (h ++ [a]) = assemblyStep key (assemblyOf key h) a := by
  rw [assemblyOf, Run.final_append]
  rfl

/-- An open reassembly was opened by an arrival with its key. -/
theorem assemblyOf_started {key : TrunkKey} {h : List Arrival} {x : Assembly}
    (hx : assemblyOf key h = some x) : ∃ b ∈ h, b.key = key ∧ x.startedMs = b.now := by
  induction h using List.reverseRecOn generalizing x with
  | nil => cases hx
  | append_singleton h a ih =>
    have hprev : ∀ y, (assemblyOf key h).filter (Assembly.alive a.now) = some y →
        ∃ b ∈ h ++ [a], b.key = key ∧ y.startedMs = b.now := by
      intro y hy
      obtain ⟨b, hb, hkey, hstart⟩ := ih (Option.filter_eq_some_iff.mp hy).1
      exact ⟨b, List.mem_append_left _ hb, hkey, hstart⟩
    rw [assemblyOf_concat, assemblyStep] at hx
    dsimp only at hx
    split at hx
    · next hkey =>
      split at hx
      · cases hx
      · cases hx
        cases hf : (assemblyOf key h).filter (Assembly.alive a.now) with
        | none =>
          exact ⟨a, List.mem_append_right _ (List.mem_singleton.mpr rfl), hkey, rfl⟩
        | some y => exact hprev y hf
    · exact hprev x hx

/-! ## The slots follow the unlimited reassembly -/

def RxSlot.key (s : RxSlot) : TrunkKey := (s.src, s.seq)

theorem RxSlot.hit_iff {s : RxSlot} {src : Bytes 4} {seq : UInt16} :
    s.hit src seq = true ↔ s.inUse = true ∧ s.key = (src, seq) := by
  simp only [RxSlot.hit, RxSlot.key, Bool.and_eq_true, beq_iff_eq, Prod.mk.injEq]
  tauto

/-- Slot and reassembly started together and have the same fragments. -/
def RxSlot.Matches (s : RxSlot) (x : Assembly) : Prop :=
  x.startedMs = s.startedMs ∧ ∀ j, j ∈ x.got ↔ j < s.total.toNat ∧ s.has j

/-- The slots in use are the open reassemblies, one each. -/
structure Tracks (asm : TrunkKey → Option Assembly) (slots : List RxSlot) : Prop where
  matched : ∀ (i : Nat) (s : RxSlot), slots[i]? = some s → s.inUse = true →
    ∃ x, asm s.key = some x ∧ s.Matches x
  found : ∀ key x, asm key = some x →
    ∃ (i : Nat) (s : RxSlot), slots[i]? = some s ∧ s.inUse = true ∧ s.key = key
  distinct : ∀ (i j : Nat) (s t : RxSlot), slots[i]? = some s → slots[j]? = some t → s.inUse = true →
    t.inUse = true → s.key = t.key → i = j

theorem Tracks.expire {asm : TrunkKey → Option Assembly} {slots : List RxSlot}
    (ht : Tracks asm slots) (now : UInt64) :
    Tracks (fun key => (asm key).filter (Assembly.alive now)) (slots.map (RxSlot.expire now)) := by
  have hback : ∀ (i : Nat) (s : RxSlot), (slots.map (RxSlot.expire now))[i]? = some s → s.inUse = true →
      slots[i]? = some s ∧ timedOut now s.startedMs = false := by
    intro i s hs huse
    rw [List.getElem?_map, Option.map_eq_some_iff] at hs
    obtain ⟨t, ht, rfl⟩ := hs
    obtain ⟨hexp, -, htime⟩ := RxSlot.expire_inUse huse
    rw [hexp]
    exact ⟨ht, htime⟩
  constructor
  · intro i s hs huse
    obtain ⟨hold, htime⟩ := hback i s hs huse
    obtain ⟨x, hx, hm⟩ := ht.matched i s hold huse
    refine ⟨x, Option.filter_eq_some_iff.mpr ⟨hx, ?_⟩, hm⟩
    rw [Assembly.alive, hm.1, htime]
    rfl
  · intro key x hx
    obtain ⟨hsome, halive⟩ := Option.filter_eq_some_iff.mp hx
    obtain ⟨i, s, hs, huse, hkey⟩ := ht.found key x hsome
    obtain ⟨x', hx', hm⟩ := ht.matched i s hs huse
    rw [hkey, hsome, Option.some.injEq] at hx'
    refine ⟨i, s, ?_, huse, hkey⟩
    have htime : timedOut now s.startedMs = false := by
      rw [← hm.1, ← hx']
      simpa [Assembly.alive] using halive
    rw [List.getElem?_map, hs, Option.map_some, RxSlot.expire]
    unfold timedOut at htime
    rw [htime, Bool.and_false, if_neg (by decide)]
  · intro i j s t hs hts huse huse' hkey
    exact ht.distinct i j s t (hback i s hs huse).1 (hback j t hts huse').1 huse huse' hkey

/-- Overwriting the slot of one key. -/
theorem Tracks.set {asm asm' : TrunkKey → Option Assembly} {slots : List RxSlot}
    (ht : Tracks asm slots) {i : Nat} {old new : RxSlot} {key : TrunkKey}
    (hold : slots[i]? = some old) (hkey : old.inUse = true → old.key = key)
    (hother : ∀ k, k ≠ key → asm' k = asm k)
    (honly : ∀ (j : Nat) (t : RxSlot), slots[j]? = some t → t.inUse = true → t.key = key → j = i)
    (hnew : new.inUse = true → new.key = key ∧ ∃ x, asm' key = some x ∧ new.Matches x)
    (hfound : ∀ x, asm' key = some x → new.inUse = true) : Tracks asm' (slots.set i new) := by
  have hi := (List.getElem?_eq_some_iff.mp hold).1
  have hcases : ∀ (j : Nat) (t : RxSlot), (slots.set i new)[j]? = some t → j = i ∧ t = new ∨
      j ≠ i ∧ slots[j]? = some t := by
    intro j t hj
    by_cases hij : i = j
    · subst hij
      rw [List.getElem?_set_self hi, Option.some.injEq] at hj
      exact .inl ⟨rfl, hj.symm⟩
    · rw [List.getElem?_set_ne hij] at hj
      exact .inr ⟨fun h => hij h.symm, hj⟩
  -- the slots beside `i` have other keys
  have hne : ∀ (j : Nat) (t : RxSlot), j ≠ i → slots[j]? = some t → t.inUse = true → t.key ≠ key :=
    fun j t hj hts huse heq => hj (honly j t hts huse heq)
  constructor
  · intro j t hj huse
    rcases hcases j t hj with ⟨-, rfl⟩ | ⟨hji, hts⟩
    · obtain ⟨hk, x, hx, hm⟩ := hnew huse
      exact ⟨x, by rw [hk, hx], hm⟩
    · rw [hother _ (hne j t hji hts huse)]
      exact ht.matched j t hts huse
  · intro k x hx
    by_cases hk : k = key
    · have huse := hfound x (hk ▸ hx)
      exact ⟨i, new, List.getElem?_set_self hi, huse, (hnew huse).1.trans hk.symm⟩
    · rw [hother k hk] at hx
      obtain ⟨j, t, hts, huse, hkt⟩ := ht.found k x hx
      refine ⟨j, t, ?_, huse, hkt⟩
      rw [List.getElem?_set_ne, hts]
      rintro rfl
      rw [hold, Option.some.injEq] at hts
      exact hk (hkt ▸ hts ▸ hkey (hts ▸ huse))
  · intro j k s t hj hk huse huse' hkt
    rcases hcases j s hj with ⟨rfl, rfl⟩ | ⟨hji, hsj⟩
    · rcases hcases k t hk with ⟨rfl, rfl⟩ | ⟨hki, htk⟩
      · rfl
      · exact absurd (hkt.symm.trans (hnew huse).1) (hne k t hki htk huse')
    · rcases hcases k t hk with ⟨rfl, rfl⟩ | ⟨hki, htk⟩
      · exact absurd (hkt.trans (hnew huse').1) (hne j s hji hsj huse)
      · exact ht.distinct j k s t hsj htk huse huse' hkt

section Capacity

variable {h : List Arrival} {a : Arrival} {slots : List RxSlot}

/-- With at most `RX_SLOTS` packets in reassembly, one that has no slot yet finds one free. -/
theorem Tracks.exists_free (ht : Tracks (assemblyOf · h) slots) (hlen : slots.length = rxSlots)
    (hcap : (inReassembly h a).card ≤ rxSlots)
    (hmiss : ∀ t ∈ slots.map (RxSlot.expire a.now), t.hit a.tag a.batch.seq = false) :
    ¬ ∀ t ∈ slots.map (RxSlot.expire a.now), t.inUse = true := by
  intro hall
  have hte := ht.expire a.now
  have hElen : (slots.map (RxSlot.expire a.now)).length = rxSlots := by rw [List.length_map, hlen]
  generalize slots.map (RxSlot.expire a.now) = E at hte hmiss hall hElen
  have hnodup : (E.map RxSlot.key).Nodup := by
    rw [List.nodup_iff_getElem?_ne_getElem?]
    intro i j hij hj heq
    rw [List.length_map] at hj
    have hi := Nat.lt_trans hij hj
    rw [List.getElem?_map, List.getElem?_map, List.getElem?_eq_getElem hj,
      List.getElem?_eq_getElem hi, Option.map_some, Option.map_some, Option.some.injEq] at heq
    have hsame := hte.distinct i j E[i] E[j] (List.getElem?_eq_getElem hi)
      (List.getElem?_eq_getElem hj) (hall _ (List.getElem_mem hi)) (hall _ (List.getElem_mem hj)) heq
    omega
  have hnew : a.key ∉ (E.map RxSlot.key).toFinset := by
    rw [List.mem_toFinset, List.mem_map]
    rintro ⟨t, htmem, hkey⟩
    have hhit := RxSlot.hit_iff.mpr ⟨hall t htmem, hkey⟩
    rw [hmiss t htmem] at hhit
    cases hhit
  -- all the slots' packets and the new one are in reassembly: one too many
  have hsub : insert a.key (E.map RxSlot.key).toFinset ⊆ inReassembly h a := by
    intro key hkey
    rw [Finset.mem_insert] at hkey
    rw [inReassembly, Finset.mem_filter, List.mem_toFinset]
    rcases hkey with rfl | hkey
    · exact ⟨by simp, .inl rfl⟩
    · rw [List.mem_toFinset, List.mem_map] at hkey
      obtain ⟨t, htmem, rfl⟩ := hkey
      obtain ⟨i, hi⟩ := List.mem_iff_getElem?.mp htmem
      obtain ⟨x, hx, -⟩ := hte.matched i t hi (hall t htmem)
      obtain ⟨b, hb, hkey, -⟩ := assemblyOf_started (Option.filter_eq_some_iff.mp hx).1
      refine ⟨?_, .inr (by rw [hx]; rfl)⟩
      rw [List.map_append, List.mem_append, List.mem_map]
      exact .inl ⟨b, hb, hkey⟩
  have hcard := Finset.card_le_card hsub
  rw [Finset.card_insert_of_notMem hnew, List.toFinset_card_of_nodup hnodup, List.length_map,
    hElen] at hcard
  omega

/-- **Within the slots, `rx_frame` does what the unlimited reassembly does.** -/
theorem Tracks.step (hnet : Network (h ++ [a])) (hok : SlotsOk h slots)
    (ht : Tracks (assemblyOf · h) slots) (hcap : (inReassembly h a).card ≤ rxSlots) :
    Tracks (assemblyOf · (h ++ [a])) (rxData a.now a.tag a.batch.seq (UInt8.ofNat a.idx)
      (UInt8.ofNat a.batch.total) (chunkAt a.batch.data a.idx) slots).1 ∧
    (insert a.idx (((assemblyOf a.key h).filter (Assembly.alive a.now)).getD ⟨a.now, ∅⟩).got =
        Finset.range a.batch.total →
      (rxData a.now a.tag a.batch.seq (UInt8.ofNat a.idx) (UInt8.ofNat a.batch.total)
        (chunkAt a.batch.data a.idx) slots).2 = some a.batch.data) := by
  obtain ⟨hadm, hidx⟩ := hnet.wf_last
  have htotal := hadm.total_le
  have hte := ht.expire a.now
  obtain ⟨i, s, b, old, hold, -, hbatch, hholds, hhit, hslot, hdata⟩ := rxData_cases hnet hok
  obtain ⟨huse, hkey⟩ := RxSlot.hit_iff.mp hhit
  have hstotal : s.total.toNat = a.batch.total := by
    rw [hholds.total, hbatch, hadm.toNat_total]
  -- the reassembly of the key before this fragment, and the slots beside `i`
  obtain ⟨x, hx, hmatch, holdkey, honly⟩ : ∃ x,
      ((assemblyOf a.key h).filter (Assembly.alive a.now)).getD ⟨a.now, ∅⟩ = x ∧ s.Matches x ∧
      (old.inUse = true → old.key = a.key) ∧
      ∀ (j : Nat) (t : RxSlot), (slots.map (RxSlot.expire a.now))[j]? = some t →
        t.inUse = true → t.key = a.key → j = i := by
    -- a slot that has the key already, or a new one for a key no slot has
    rcases hslot with rfl | ⟨rfl, hmiss, hfull⟩
    · obtain ⟨x, hx, hmatch⟩ := hte.matched i s hold huse
      have hx' : (assemblyOf a.key h).filter (Assembly.alive a.now) = some x := by
        rw [← hx, hkey]
        rfl
      refine ⟨x, by rw [hx', Option.getD_some], hmatch, fun _ => hkey, ?_⟩
      intro j t hj htuse htkey
      exact hte.distinct j i t s hj hold htuse huse (htkey.trans hkey.symm)
    · have hnone : (assemblyOf a.key h).filter (Assembly.alive a.now) = none := by
        cases hf : (assemblyOf a.key h).filter (Assembly.alive a.now) with
        | none => rfl
        | some x =>
          obtain ⟨j, t, hj, htuse, htkey⟩ := hte.found a.key x hf
          have hthit := RxSlot.hit_iff.mpr ⟨htuse, htkey⟩
          rw [hmiss t (List.mem_of_getElem? hj)] at hthit
          cases hthit
      refine ⟨⟨a.now, ∅⟩, by rw [hnone, Option.getD_none], ⟨rfl, ?_⟩, ?_, ?_⟩
      · intro j
        simp [RxSlot.has, RxSlot.opened]
      · intro holduse
        exact absurd (hfull holduse) (ht.exists_free hok.length hcap hmiss)
      · intro j t hj htuse htkey
        have hthit := RxSlot.hit_iff.mpr ⟨htuse, htkey⟩
        rw [hmiss t (List.mem_of_getElem? hj)] at hthit
        cases hthit
  rw [hx]
  have hput : ∀ j, j ∈ insert a.idx x.got ↔
      j < a.batch.total ∧ (s.put a.idx (chunkAt a.batch.data a.idx)).has j := by
    intro j
    rw [Finset.mem_insert, hmatch.2, hstotal]
    constructor
    · rintro (rfl | ⟨hj, hhas⟩)
      · exact ⟨hidx, (s.has_put _ (by omega)).mpr (.inr rfl)⟩
      · exact ⟨hj, (s.has_put _ (by omega)).mpr (.inl hhas)⟩
    · rintro ⟨hj, hhas⟩
      rcases (s.has_put _ (by omega)).mp hhas with h | h
      · exact .inr ⟨hj, h⟩
      · exact .inl h
  have hfull : (∀ j, j < a.batch.total →
      (s.put a.idx (chunkAt a.batch.data a.idx)).haveMask.testBit j = true) ↔
        insert a.idx x.got = Finset.range a.batch.total := by
    constructor
    · intro hall
      ext j
      rw [hput, Finset.mem_range]
      exact ⟨fun hj => hj.1, fun hj => ⟨hj, hall j hj⟩⟩
    · intro heq j hj
      have hmem : j ∈ insert a.idx x.got := by rw [heq, Finset.mem_range]; exact hj
      exact ((hput j).mp hmem).2
  -- the unlimited reassembly takes the same fragment, and no other key is touched
  have hasm : assemblyOf a.key (h ++ [a]) = if insert a.idx x.got = Finset.range a.batch.total
      then none else some { x with got := insert a.idx x.got } := by
    rw [assemblyOf_concat, assemblyStep, if_pos rfl, hx]
  have hother : ∀ k, k ≠ a.key → assemblyOf k (h ++ [a]) =
      (assemblyOf k h).filter (Assembly.alive a.now) := by
    intro k hk
    rw [assemblyOf_concat, assemblyStep, if_neg (Ne.symm hk)]
  rw [hdata]
  -- the packet is complete and the slot is freed, or it waits for the rest
  by_cases hdone : insert a.idx x.got = Finset.range a.batch.total
  · rw [if_pos (hfull.mpr hdone)]
    rw [if_pos hdone] at hasm
    refine ⟨hte.set hold holdkey hother honly ?_ ?_, fun _ => rfl⟩
    · intro hoff
      cases hoff
    · intro y hy
      rw [hasm] at hy
      cases hy
  · rw [if_neg fun hall => hdone (hfull.mp hall)]
    rw [if_neg hdone] at hasm
    refine ⟨hte.set hold holdkey hother honly ?_ fun _ _ => huse, fun heq => absurd heq hdone⟩
    intro _
    refine ⟨hkey, _, hasm, hmatch.1, ?_⟩
    intro j
    show j ∈ insert a.idx x.got ↔ j < s.total.toNat ∧ _
    rw [hstotal]
    exact hput j

end Capacity

theorem WithinSlots.front {h : List Arrival} {a : Arrival} (hcap : WithinSlots (h ++ [a])) :
    WithinSlots h ∧ (inReassembly h a).card ≤ rxSlots :=
  ⟨fun pre b hpre => hcap pre b (hpre.trans (List.prefix_append _ _)),
    hcap h a (List.prefix_refl _)⟩

/-- Along every run within the slots, the receiver follows the unlimited reassembly. -/
theorem rxAfter_tracks (srcTag : Bytes 4) {h : List Arrival} (hnet : Network h)
    (hcap : WithinSlots h) (hother : ∀ a ∈ h, a.tag ≠ srcTag) :
    Tracks (assemblyOf · h) (rxAfter (Receiver.init srcTag) h).slots := by
  induction h using List.reverseRecOn with
  | nil =>
    have hfree : ∀ (i : Nat) (s : RxSlot),
        (Receiver.init srcTag).slots[i]? = some s → s.inUse = false := by
      intro i s hs
      rw [List.eq_of_mem_replicate (List.mem_of_getElem? hs)]
    constructor
    · intro i s hs huse
      rw [hfree i s hs] at huse
      cases huse
    · intro key x hx
      cases hx
    · intro i j s t hs _ huse
      rw [hfree i s hs] at huse
      cases huse
  | append_singleton h a ih =>
    obtain ⟨hcap', hcard⟩ := hcap.front
    have ht := ih hnet.front hcap' fun b hb => hother b (List.mem_append_left _ hb)
    obtain ⟨htag, hok⟩ := rxAfter_slotsOk srcTag hnet.front
    have hne : a.tag ≠ (rxAfter (Receiver.init srcTag) h).srcTag := by
      rw [htag]
      exact hother a (List.mem_append_right _ (List.mem_singleton.mpr rfl))
    obtain ⟨outbox, hframe⟩ := (rxFrame_arrival _ hnet.wf_last).2 hne
    rw [rxAfter_concat, hframe]
    exact (ht.step hnet hok hcard).1

/-! ## The last missing fragment -/

/-- A slot that is still there at a later time was there in between. -/
theorem timedOut_mono {s c a : UInt64} (hsc : s ≤ c) (hca : c ≤ a)
    (h : timedOut a s = false) : timedOut c s = false := by
  have hsc' := UInt64.le_iff_toNat_le.mp hsc
  have hca' := UInt64.le_iff_toNat_le.mp hca
  unfold timedOut at h ⊢
  rw [decide_eq_false_iff_not, UInt64.not_lt, UInt64.le_iff_toNat_le] at h ⊢
  rw [UInt64.toNat_sub_of_le _ _ (UInt64.le_trans hsc hca)] at h
  rw [UInt64.toNat_sub_of_le _ _ hsc]
  omega

/-- `a` brings the one fragment of its packet that is still missing: every other one has arrived,
and no fragment of the packet arrived longer than the timeout ago. -/
structure LastMissing (h : List Arrival) (a : Arrival) : Prop where
  first : ∀ b ∈ h, b.tag = a.tag → b.batch = a.batch → b.idx ≠ a.idx
  others : ∀ i, i < a.batch.total → i ≠ a.idx →
    ∃ b ∈ h, b.tag = a.tag ∧ b.batch = a.batch ∧ b.idx = i
  inTime : ∀ b ∈ h, b.tag = a.tag → b.batch = a.batch → timedOut a.now b.now = false

/-- Fragment `i` of `a`'s packet is among the arrivals. -/
def Arrived (h : List Arrival) (a : Arrival) (i : Nat) : Prop :=
  ∃ b ∈ h, b.tag = a.tag ∧ b.batch = a.batch ∧ b.idx = i

theorem arrived_concat {h : List Arrival} {a c : Arrival} {i : Nat} :
    Arrived (h ++ [c]) a i ↔
      Arrived h a i ∨ (c.tag = a.tag ∧ c.batch = a.batch ∧ c.idx = i) := by
  unfold Arrived
  constructor
  · rintro ⟨b, hb, hfrag⟩
    rcases List.mem_append.mp hb with hb | hb
    · exact .inl ⟨b, hb, hfrag⟩
    · rw [List.mem_singleton.mp hb] at hfrag
      exact .inr hfrag
  · rintro (⟨b, hb, hfrag⟩ | hfrag)
    · exact ⟨b, List.mem_append_left _ hb, hfrag⟩
    · exact ⟨c, List.mem_append_right _ (List.mem_singleton.mpr rfl), hfrag⟩

section Collect

variable {h : List Arrival} {a c : Arrival} (hnet : Network (h ++ [c] ++ [a]))
include hnet

theorem Network.skip : Network (h ++ [a]) := by
  refine hnet.sublist ?_
  rw [List.append_assoc]
  exact (List.Sublist.refl h).append (List.sublist_append_right [c] [a])

theorem Network.mid_le_last : c.now ≤ a.now :=
  hnet.le_last (List.mem_append_right _ (List.mem_singleton.mpr rfl))

/-- A frame of another key only lets time pass. -/
theorem collected_other (hkey : c.key ≠ a.key) :
    (assemblyOf a.key (h ++ [c])).filter (Assembly.alive a.now) =
      (assemblyOf a.key h).filter (Assembly.alive a.now) := by
  rw [assemblyOf_concat, assemblyStep, if_neg hkey]
  cases hx : assemblyOf a.key h with
  | none => rfl
  | some x =>
    obtain ⟨b, hb, -, hstart⟩ := assemblyOf_started hx
    by_cases halive : x.alive a.now = true
    · have hmid : x.alive c.now = true := by
        unfold Assembly.alive at halive ⊢
        rw [Bool.not_eq_true'] at halive ⊢
        rw [hstart] at halive ⊢
        exact timedOut_mono (hnet.front.le_last hb) hnet.mid_le_last halive
      rw [Option.filter_some_pos hmid]
    · by_cases hmid : x.alive c.now = true
      · rw [Option.filter_some_pos hmid]
      · rw [Option.filter_some_neg (Bool.not_eq_true _ ▸ hmid), Option.filter_none,
          Option.filter_some_neg (Bool.not_eq_true _ ▸ halive)]

/-- A frame of another packet with the same key lies outside the packet's time. -/
theorem collected_reused (hkey : c.key = a.key) (hbatch : c.batch ≠ a.batch)
    (htime : ∀ b ∈ h, b.tag = a.tag → b.batch = a.batch → timedOut a.now b.now = false) :
    (assemblyOf a.key (h ++ [c])).filter (Assembly.alive a.now) = none ∧
      ∀ i, ¬ Arrived h a i := by
  have hnone : ∀ b ∈ h, b.tag = a.tag → b.batch ≠ a.batch := by
    intro b hb htag hbb
    have hbc : b.key = c.key := by rw [hkey, Arrival.key, Arrival.key, htag, hbb]
    have hout := hnet.front.timedOut_last hb hbc (hbb.trans_ne (Ne.symm hbatch))
    have hin := timedOut_mono (hnet.front.le_last hb) hnet.mid_le_last (htime b hb htag hbb)
    rw [hout] at hin
    cases hin
  refine ⟨?_, fun i => fun ⟨b, hb, htag, hbb, _⟩ => hnone b hb htag hbb⟩
  rw [Option.filter_eq_none_iff]
  intro x hx
  obtain ⟨b, hb, hbkey, hstart⟩ := assemblyOf_started hx
  have hne : b.batch ≠ a.batch := by
    rcases List.mem_append.mp hb with hb | hb
    · exact hnone b hb (congrArg Prod.fst hbkey)
    · rwa [List.mem_singleton.mp hb]
  unfold Assembly.alive
  rw [hstart, hnet.timedOut_last hb hbkey hne]
  decide

/-- A frame of the packet itself joins what was collected. -/
theorem collected_same (htag : c.tag = a.tag) (hbatch : c.batch = a.batch)
    (hidx : c.idx ≠ a.idx) (hnew : ¬ Arrived h a a.idx)
    (htime : ∀ b ∈ h ++ [c], b.tag = a.tag → b.batch = a.batch → timedOut a.now b.now = false)
    (ih : ∀ i, i ∈ (((assemblyOf a.key h).filter (Assembly.alive a.now)).getD ⟨a.now, ∅⟩).got ↔
      Arrived h a i) (i : Nat) :
    i ∈ (((assemblyOf a.key (h ++ [c])).filter (Assembly.alive a.now)).getD ⟨a.now, ∅⟩).got ↔
      Arrived h a i ∨ c.idx = i := by
  have hkey : c.key = a.key := by rw [Arrival.key, Arrival.key, htag, hbatch]
  have hctime := htime c (List.mem_append_right _ (List.mem_singleton.mpr rfl)) htag hbatch
  -- what was open when `c` arrived is what is open for `a`
  obtain ⟨x, hx, halive, hgot⟩ : ∃ x,
      ((assemblyOf a.key h).filter (Assembly.alive c.now)).getD ⟨c.now, ∅⟩ = x ∧
      x.alive a.now = true ∧ ∀ j, j ∈ x.got ↔ Arrived h a j := by
    cases hasm : assemblyOf a.key h with
    | none =>
      rw [hasm] at ih
      exact ⟨_, rfl, by rw [Option.filter_none, Option.getD_none, Assembly.alive, hctime]; rfl, ih⟩
    | some y =>
      rw [hasm] at ih
      obtain ⟨b, hb, hbkey, hstart⟩ := assemblyOf_started hasm
      by_cases hbb : b.batch = a.batch
      · have hbtime := htime b (List.mem_append_left _ hb) (congrArg Prod.fst hbkey) hbb
        have halive : y.alive a.now = true := by rw [Assembly.alive, hstart, hbtime]; rfl
        have hmid : y.alive c.now = true := by
          rw [Assembly.alive, hstart,
            timedOut_mono (hnet.front.le_last hb) hnet.mid_le_last hbtime]
          rfl
        rw [Option.filter_some_pos halive, Option.getD_some] at ih
        rw [Option.filter_some_pos hmid, Option.getD_some]
        exact ⟨y, rfl, halive, ih⟩
      · have hdead : y.alive a.now = false := by
          rw [Assembly.alive, hstart, hnet.skip.timedOut_last hb hbkey hbb]
          rfl
        have hmid : y.alive c.now = false := by
          rw [Assembly.alive, hstart, hnet.front.timedOut_last hb (hbkey.trans hkey.symm)
            (hbatch ▸ hbb)]
          rfl
        rw [Option.filter_some_neg hdead] at ih
        rw [Option.filter_some_neg hmid]
        exact ⟨_, rfl, by rw [Option.getD_none, Assembly.alive, hctime]; rfl, ih⟩
  -- it is not whole yet: `a`'s fragment is missing
  have hmissing : insert c.idx x.got ≠ Finset.range c.batch.total := by
    intro heq
    have hmem : a.idx ∈ insert c.idx x.got := by
      rw [heq, Finset.mem_range, hbatch]
      exact hnet.wf_last.2
    rcases Finset.mem_insert.mp hmem with h | h
    · exact hidx h.symm
    · exact hnew ((hgot a.idx).mp h)
  have halive' : Assembly.alive a.now { x with got := insert c.idx x.got } = true := halive
  rw [assemblyOf_concat, assemblyStep, if_pos hkey, hx, if_neg hmissing,
    Option.filter_some_pos halive', Option.getD_some, Finset.mem_insert, hgot]
  constructor
  · rintro (h | h)
    · exact .inr h.symm
    · exact .inl h
  · rintro (h | h)
    · exact .inr h
    · exact .inl h.symm

end Collect

/-- Up to the last missing fragment, the reassembly has collected exactly what arrived. The
induction is on the arrivals from the back; what a frame does to the reassembly depends on whether
it is of this packet, of another packet with the same key, or of another key. -/
theorem assemblyOf_collected {h : List Arrival} {a : Arrival} (hnet : Network (h ++ [a]))
    (hfirst : ∀ b ∈ h, b.tag = a.tag → b.batch = a.batch → b.idx ≠ a.idx)
    (htime : ∀ b ∈ h, b.tag = a.tag → b.batch = a.batch → timedOut a.now b.now = false) (i : Nat) :
    i ∈ (((assemblyOf a.key h).filter (Assembly.alive a.now)).getD ⟨a.now, ∅⟩).got ↔
      Arrived h a i := by
  induction h using List.reverseRecOn generalizing i with
  | nil =>
    constructor
    · intro hi
      exact absurd hi (Finset.notMem_empty i)
    · rintro ⟨b, hb, -⟩
      cases hb
  | append_singleton h c ih =>
    specialize ih hnet.skip (fun b hb => hfirst b (List.mem_append_left _ hb))
      (fun b hb => htime b (List.mem_append_left _ hb))
    have hfirstc := hfirst c (List.mem_append_right _ (List.mem_singleton.mpr rfl))
    have hnew : ¬ Arrived h a a.idx := by
      rintro ⟨b, hb, htag, hbatch, hidx⟩
      exact hfirst b (List.mem_append_left _ hb) htag hbatch hidx
    rw [arrived_concat]
    by_cases hkey : c.key = a.key
    · have htag : c.tag = a.tag := congrArg Prod.fst hkey
      by_cases hbatch : c.batch = a.batch
      · rw [collected_same hnet htag hbatch (hfirstc htag hbatch) hnew htime ih i]
        simp only [htag, hbatch, true_and]
      · -- an older packet with the same key has timed out by now
        obtain ⟨hnone, hno⟩ := collected_reused hnet hkey hbatch
          fun b hb => htime b (List.mem_append_left _ hb)
        rw [hnone]
        constructor
        · intro hi
          exact absurd hi (Finset.notMem_empty i)
        · rintro (harr | ⟨-, hb, -⟩)
          · exact absurd harr (hno i)
          · exact absurd hb hbatch
    · rw [collected_other hnet hkey, ih]
      constructor
      · exact .inl
      · rintro (harr | ⟨ht, hb, -⟩)
        · exact harr
        · exact absurd (by rw [Arrival.key, Arrival.key, ht, hb]) hkey

/-- **What a receiver gets from the trunk.** Whatever frames are lost, repeated or reordered, a
packet that `rx_frame` passes on is the queued packet of the frame that completed it, byte for
byte; and with no more packets in reassembly than slots, the last missing fragment, if it comes
within the timeout, completes it. -/
theorem rx_delivers_sent (srcTag : Bytes 4) (h : List Arrival) (a : Arrival)
    (hnet : Network (h ++ [a])) :
    (∀ packet, (rxFrame a.now (rxAfter (Receiver.init srcTag) h) a.frame.data).2 = some packet →
      packet = a.batch.data) ∧
    ((∀ b ∈ h ++ [a], b.tag ≠ srcTag) → WithinSlots (h ++ [a]) → LastMissing h a →
      (rxFrame a.now (rxAfter (Receiver.init srcTag) h) a.frame.data).2 = some a.batch.data) := by
  obtain ⟨htag, hok⟩ := rxAfter_slotsOk srcTag hnet.front
  obtain ⟨hown, hother⟩ := rxFrame_arrival (rxAfter (Receiver.init srcTag) h) hnet.wf_last
  constructor
  · intro packet hout
    by_cases htag' : a.tag = (rxAfter (Receiver.init srcTag) h).srcTag
    · rw [hown htag'] at hout
      cases hout
    · obtain ⟨outbox, hframe⟩ := hother htag'
      rw [hframe] at hout
      exact (rxData_ok hnet hok).2 packet hout
  · intro htags hcap hlast
    obtain ⟨hcap', hcard⟩ := hcap.front
    have ht := rxAfter_tracks srcTag hnet.front hcap'
      fun b hb => htags b (List.mem_append_left _ hb)
    have hne : a.tag ≠ (rxAfter (Receiver.init srcTag) h).srcTag := by
      rw [htag]
      exact htags a (List.mem_append_right _ (List.mem_singleton.mpr rfl))
    obtain ⟨outbox, hframe⟩ := hother hne
    rw [hframe]
    apply (ht.step hnet hok hcard).2
    -- all but this fragment have been collected
    have hgot := assemblyOf_collected hnet hlast.first hlast.inTime
    ext i
    rw [Finset.mem_insert, Finset.mem_range, hgot]
    constructor
    · rintro (rfl | ⟨b, hb, -, hbatch, rfl⟩)
      · exact hnet.wf_last.2
      · rw [← hbatch]
        exact (hnet.front.wf b hb).2
    · intro hi
      by_cases hia : i = a.idx
      · exact .inl hia
      · exact .inr (hlast.others i hi hia)

/-- A packet of two fragments. -/
def twoFragments : LoraBatch := ⟨1, 2, true, List.replicate 121 7⟩

/-- One of its fragments arrives. -/
def twoFragmentsAt (now : UInt64) (idx : Nat) : Arrival :=
  ⟨now, ⟨[1, 2, 3, 4], rfl⟩, twoFragments, idx⟩

/-- The two frames the sender makes of it arrive in the wrong order, five seconds apart. -/
theorem rx_delivers_sent_reversed :
    batchNextFrame (twoFragmentsAt 0 1).tag twoFragments 1 = some ((twoFragmentsAt 0 1).frame, 2) ∧
      batchNextFrame (twoFragmentsAt 5000 0).tag twoFragments 0 =
        some ((twoFragmentsAt 5000 0).frame, 1) ∧
      (rxFrame 5000 (rxAfter (Receiver.init (zeros 4)) [twoFragmentsAt 0 1])
        (twoFragmentsAt 5000 0).frame.data).2 = some (List.replicate 121 7) := by
  refine ⟨?_, ?_, ?_⟩
  · exact batchNextFrame_arrival (a := twoFragmentsAt 0 1) (by decide)
  · exact batchNextFrame_arrival (a := twoFragmentsAt 5000 0) (by decide)
  have hlen : twoFragments.data.length = 121 := List.length_replicate
  have hadm : twoFragments.Admitted := by
    refine ⟨?_, ?_, ?_⟩
    · rw [hlen]
      decide
    · rw [hlen]
      decide
    · rw [hlen]
      rfl
  have hnet : Network ([twoFragmentsAt 0 1] ++ [twoFragmentsAt 5000 0]) := by
    refine ⟨?_, ?_, ?_⟩
    · intro b hb
      simp only [List.cons_append, List.nil_append, List.mem_cons, List.not_mem_nil, or_false] at hb
      rcases hb with rfl | rfl
      · exact ⟨hadm, by decide⟩
      · exact ⟨hadm, by decide⟩
    · refine List.pairwise_pair.mpr ?_
      decide
    · refine List.pairwise_pair.mpr ?_
      intro _ hne
      exact absurd rfl hne
  refine (rx_delivers_sent (zeros 4) _ _ hnet).2 ?_ ?_ ⟨?_, ?_, ?_⟩
  · intro b hb
    simp only [List.cons_append, List.nil_append, List.mem_cons, List.not_mem_nil, or_false] at hb
    rcases hb with rfl | rfl <;> decide
  · intro pre x hpre
    have hlen := hpre.length_le
    refine (Finset.card_filter_le _ _).trans ((List.toFinset_card_le _).trans ?_)
    rw [List.length_map]
    exact hlen
  · intro b hb _ _
    rw [List.mem_singleton.mp hb]
    decide
  · intro i hi hne
    have hi2 : i < 2 := hi
    have hne0 : i ≠ 0 := hne
    exact ⟨_, List.mem_singleton.mpr rfl, rfl, rfl, by show 1 = i; omega⟩
  · intro b hb _ _
    rw [List.mem_singleton.mp hb]
    decide

end Bitle
