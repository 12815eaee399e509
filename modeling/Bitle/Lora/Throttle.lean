import Bitle.Lora.Governor
import Mathlib.Data.List.Nodup
import Mathlib.Data.List.Perm.Subperm

/-!
# Bitle — the announce throttle (`main/bitle_lora.c`)

`announce_throttled` keeps the last announce of a sender in one of eight slots and gives the slot
with the oldest stamp away when it needs one. So a sender can be forgotten within the interval,
but only when eight others and a ninth announced in it: the oldest stamp is then no older than the
interval, and all nine stamps lie in one window (`Remembers.evict`).

A refusal for lack of credit comes before the throttle and leaves no stamp, whatever arithmetic the
credit is kept in. With an exact credit it leaves no trace at all: the refill it made is made up by
the next call (`admissions_after_refusal`). In doubles it can leave one: the refill is rounded twice
instead of once, and an announce that the one step covers can miss the two
(`refusal_delays_announce`).
-/

namespace Bitle

open Wire Run

/-! ## The slots -/

/-- Slot `i` of the table. -/
def throttleSlot (slots : List Throttle) (i : Nat) : Throttle := slots.getD i {}

theorem throttleSlot_set {slots : List Throttle} {i : Nat} (hi : i < slots.length) (s : Throttle)
    (j : Nat) : throttleSlot (slots.set i s) j = if i = j then s else throttleSlot slots j := by
  rw [throttleSlot, throttleSlot, List.getD_eq_getElem?_getD, List.getD_eq_getElem?_getD,
    List.getElem?_set]
  by_cases hij : i = j
  · rw [if_pos hij, if_pos hij, if_pos hi]
    rfl
  · rw [if_neg hij, if_neg hij]

/-- Slot `i` holds the sender. -/
def Holds (slots : List Throttle) (sender : Bytes 8) (i : Nat) : Prop :=
  (throttleSlot slots i).inUse = true ∧ (throttleSlot slots i).tag = sender

/-- What the search of `announce_throttled` has found in the first `k` slots. -/
structure Scanned (slots : List Throttle) (sender : Bytes 8) (k : Nat)
    (r : Option Nat × Option Nat × Nat) : Prop where
  found : ∀ i, r.1 = some i → i < k ∧ Holds slots sender i
  absent : r.1 = none → ∀ i < k, ¬ Holds slots sender i
  free : ∀ i, r.2.1 = some i → i < k ∧ (throttleSlot slots i).inUse = false
  full : r.2.1 = none → ∀ i < k, (throttleSlot slots i).inUse = true
  oldest_lt : r.2.2 < k ∨ r.2.2 = 0
  oldest : ∀ i < k, (throttleSlot slots r.2.2).lastMs ≤ (throttleSlot slots i).lastMs

/-- One more slot. -/
theorem Scanned.next {slots : List Throttle} {sender : Bytes 8} {k : Nat}
    {r : Option Nat × Option Nat × Nat} (h : Scanned slots sender k r) :
    Scanned slots sender (k + 1)
      (let t := throttleSlot slots k
       let hit := t.inUse && t.tag == sender
       (if hit then some k else r.1, if !hit && !t.inUse && r.2.1.isNone then some k else r.2.1,
        if t.lastMs < (throttleSlot slots r.2.2).lastMs then k else r.2.2)) := by
  have hhit : ((throttleSlot slots k).inUse && (throttleSlot slots k).tag == sender) = true ↔
      Holds slots sender k := by
    rw [Holds, Bool.and_eq_true, beq_iff_eq]
  dsimp only
  constructor
  · intro i hi
    dsimp only at hi
    split at hi
    · next hk =>
        cases hi
        exact ⟨Nat.lt_succ_self k, hhit.mp hk⟩
    · have := h.found i hi
      exact ⟨by omega, this.2⟩
  · intro hnone i hi
    dsimp only at hnone
    split at hnone
    · cases hnone
    · next hk =>
        rcases Nat.lt_succ_iff_lt_or_eq.mp hi with hlt | rfl
        · exact h.absent hnone i hlt
        · exact fun hh => hk (hhit.mpr hh)
  · intro i hi
    dsimp only at hi
    split at hi
    · next hk =>
        cases hi
        rw [Bool.and_eq_true, Bool.and_eq_true, Bool.not_eq_true', Bool.not_eq_true'] at hk
        exact ⟨Nat.lt_succ_self k, hk.1.2⟩
    · have := h.free i hi
      exact ⟨by omega, this.2⟩
  · intro hnone i hi
    dsimp only at hnone
    split at hnone
    · cases hnone
    · next hk =>
        rcases Nat.lt_succ_iff_lt_or_eq.mp hi with hlt | rfl
        · exact h.full hnone i hlt
        · -- not free, or it would have been taken
          by_contra hfree
          rw [Bool.not_eq_true] at hfree
          rw [hnone, hfree] at hk
          exact hk rfl
  · dsimp only
    split
    · exact .inl (Nat.lt_succ_self k)
    · rcases h.oldest_lt with hlt | hzero
      · exact .inl (by omega)
      · exact .inr hzero
  · intro i hi
    dsimp only
    split
    · next hlt =>
        rcases Nat.lt_succ_iff_lt_or_eq.mp hi with hik | rfl
        · exact UInt64.le_of_lt (Std.lt_of_lt_of_le hlt (h.oldest i hik))
        · exact UInt64.le_refl _
    · next hge =>
        rcases Nat.lt_succ_iff_lt_or_eq.mp hi with hik | rfl
        · exact h.oldest i hik
        · exact UInt64.not_lt.mp hge

/-- The search as a whole. -/
theorem scanned_throttleScan (slots : List Throttle) (sender : Bytes 8) :
    Scanned slots sender slots.length (throttleScan slots sender) := by
  rw [throttleScan]
  generalize slots.length = n
  induction n with
  | zero =>
    refine ⟨(fun _ h => nomatch h), ?_, (fun _ h => nomatch h), ?_, .inr rfl, ?_⟩
    · exact fun _ i hi => absurd hi (Nat.not_lt_zero i)
    · exact fun _ i hi => absurd hi (Nat.not_lt_zero i)
    · exact fun i hi => absurd hi (Nat.not_lt_zero i)
  | succ n ih =>
    rw [List.range_succ, List.foldl_append]
    exact ih.next

/-- What `announce_throttled` does: refuse a sender seen within the interval, renew the stamp of one
seen before it, or give a newcomer a free slot or else the oldest. -/
inductive ThrottleOutcome (slots : List Throttle) (sender : Bytes 8) (now : UInt64) :
    Bool → List Throttle → Prop where
  | refused (i : Nat) (hi : i < slots.length) (hown : Holds slots sender i)
      (hsoon : now - (throttleSlot slots i).lastMs < announceMinIntervalMs) :
      ThrottleOutcome slots sender now true slots
  | renewed (i : Nat) (hi : i < slots.length) (hown : Holds slots sender i)
      (hlate : announceMinIntervalMs ≤ now - (throttleSlot slots i).lastMs) :
      ThrottleOutcome slots sender now false
        (slots.set i { throttleSlot slots i with lastMs := now })
  | taken (i : Nat) (hi : i < slots.length) (hnone : ∀ j < slots.length, ¬ Holds slots sender j)
      (hwhich : (throttleSlot slots i).inUse = false ∨
        ∀ j < slots.length, (throttleSlot slots j).inUse = true ∧
          (throttleSlot slots i).lastMs ≤ (throttleSlot slots j).lastMs) :
      ThrottleOutcome slots sender now false
        (slots.set i { inUse := true, tag := sender, lastMs := now })

theorem throttle_outcome {slots : List Throttle} (hslots : 0 < slots.length) (sender : Bytes 8)
    (now : UInt64) :
    ThrottleOutcome slots sender now (announceThrottled slots sender now).1
      (announceThrottled slots sender now).2 := by
  have hscan := scanned_throttleScan slots sender
  rw [announceThrottled]
  generalize throttleScan slots sender = r at hscan
  obtain ⟨slot, free, oldest⟩ := r
  cases slot with
  | some i =>
    obtain ⟨hi, hown⟩ := hscan.found i rfl
    dsimp only
    split
    · next hsoon => exact .refused i hi hown hsoon
    · next hlate => exact .renewed i hi hown (UInt64.not_lt.mp hlate)
  | none =>
    have hnone := hscan.absent rfl
    cases free with
    | some i =>
      obtain ⟨hi, hfree⟩ := hscan.free i rfl
      exact .taken i hi hnone (.inl hfree)
    | none =>
      have hlt : oldest < slots.length := by
        rcases hscan.oldest_lt with hlt | hzero
        · exact hlt
        · change oldest = 0 at hzero
          omega
      exact .taken oldest hlt hnone (.inr fun j hj => ⟨hscan.full rfl j hj, hscan.oldest j hj⟩)

/-! ## What the slots remember -/

/-- The call is an identity announce that was admitted. -/
def Admission.Announced (e : Admission) : Prop :=
  e.admitted = true ∧ identityAnnounce e.call.type = true

/-- The slots are the last announces of senders, and whoever announced and has no slot did so an
interval ago. -/
structure Remembers (slots : List Throttle) (log : List Admission) (now : UInt64) : Prop where
  length : slots.length = throttleSlots
  distinct : ∀ i < throttleSlots, ∀ j < throttleSlots, (throttleSlot slots i).inUse = true →
    Holds slots (throttleSlot slots i).tag j → i = j
  logged : ∀ i < throttleSlots, (throttleSlot slots i).inUse = true → ∃ e ∈ log, e.Announced ∧
    e.call.sender = (throttleSlot slots i).tag ∧ e.call.now = (throttleSlot slots i).lastMs
  le_now : ∀ e ∈ log, e.call.now ≤ now
  kept : ∀ e ∈ log, e.Announced →
    (∃ i < throttleSlots, Holds slots e.call.sender i ∧
      e.call.now ≤ (throttleSlot slots i).lastMs) ∨
    e.call.now.toNat + announceMinIntervalMs.toNat ≤ now.toNat

/-- No window of one interval has admitted identity announces of more than eight senders. -/
def AtMostEight (sender : AdmitCall → Bytes 8) (log : List Admission) : Prop :=
  ∀ (w : Nat) (l : List (Bytes 8)), l.Nodup →
    (∀ x ∈ l, ∃ e ∈ log, e.Announced ∧ sender e.call = x ∧ w ≤ e.call.now.toNat ∧
      e.call.now.toNat < w + announceMinIntervalMs.toNat) → l.length ≤ throttleSlots

/-- The later call comes an interval after the earlier one, if both are admitted announces of one
sender. -/
def Spaced (sender : AdmitCall → Bytes 8) (e e' : Admission) : Prop :=
  e.Announced → e'.Announced → sender e.call = sender e'.call →
    e.call.now.toNat + announceMinIntervalMs.toNat ≤ e'.call.now.toNat

theorem AtMostEight.of_subset {sender sender' : AdmitCall → Bytes 8} {log log' : List Admission}
    (h : AtMostEight sender log') (hsub : log ⊆ log')
    (hsame : ∀ e ∈ log, sender' e.call = sender e.call) : AtMostEight sender' log := by
  intro w l hl hall
  apply h w l hl
  intro x hx
  obtain ⟨e, he, hann, hsender, hin⟩ := hall x hx
  exact ⟨e, hsub he, hann, hsame e he ▸ hsender, hin⟩

section Step

variable {slots : List Throttle} {log : List Admission} {last : UInt64} {e : Admission}

theorem Remembers.stamp_le (h : Remembers slots log last) {i : Nat} (hi : i < throttleSlots)
    (huse : (throttleSlot slots i).inUse = true) : (throttleSlot slots i).lastMs ≤ last := by
  obtain ⟨e, he, -, -, hnow⟩ := h.logged i hi huse
  exact hnow ▸ h.le_now e he

/-- A call that stamps nothing. -/
theorem Remembers.skip (h : Remembers slots log last) (hle : last ≤ e.call.now) (he : ¬ e.Announced) :
    Remembers slots (log ++ [e]) e.call.now := by
  have hle' := UInt64.le_iff_toNat_le.mp hle
  refine ⟨h.length, h.distinct, ?_, ?_, ?_⟩
  · intro i hi huse
    obtain ⟨e', he', hrest⟩ := h.logged i hi huse
    exact ⟨e', List.mem_append_left _ he', hrest⟩
  · intro e' he'
    rcases List.mem_append.mp he' with he' | he'
    · exact UInt64.le_trans (h.le_now e' he') hle
    · rw [List.mem_singleton.mp he']
      exact UInt64.le_refl _
  · intro e' he' hann
    rcases List.mem_append.mp he' with he' | he'
    · rcases h.kept e' he' hann with hslot | hold
      · exact .inl hslot
      · exact .inr (by omega)
    · rw [List.mem_singleton.mp he'] at hann
      exact absurd hann he

/-- A sender still remembered is not within the interval when its announce passes. -/
theorem Remembers.gap_of_kept (h : Remembers slots log last) (hle : last ≤ e.call.now)
    (hfree : ∀ i < throttleSlots, Holds slots e.call.sender i →
      (throttleSlot slots i).lastMs.toNat + announceMinIntervalMs.toNat ≤ e.call.now.toNat)
    {e' : Admission} (he' : e' ∈ log) (hann : e'.Announced)
    (hsender : e'.call.sender = e.call.sender) :
    e'.call.now.toNat + announceMinIntervalMs.toNat ≤ e.call.now.toNat := by
  have hle' := UInt64.le_iff_toNat_le.mp hle
  rcases h.kept e' he' hann with ⟨i, hi, hown, hstamp⟩ | hold
  · have hstamp' := UInt64.le_iff_toNat_le.mp hstamp
    rw [hsender] at hown
    have := hfree i hi hown
    omega
  · omega

/-- **Eviction**: with all slots in use and the sender in none, the oldest stamp is an interval old,
or nine senders would have announced within one. -/
theorem Remembers.evict (h : Remembers slots log last) (hle : last ≤ e.call.now) (hann : e.Announced)
    (height : AtMostEight AdmitCall.sender (log ++ [e]))
    (hnone : ∀ j < throttleSlots, ¬ Holds slots e.call.sender j) {i : Nat}
    (hi : i < throttleSlots)
    (hfull : ∀ j < throttleSlots, (throttleSlot slots j).inUse = true ∧
      (throttleSlot slots i).lastMs ≤ (throttleSlot slots j).lastMs) :
    (throttleSlot slots i).lastMs.toNat + announceMinIntervalMs.toNat ≤ e.call.now.toNat := by
  by_contra hyoung
  have hstamp := fun j hj => UInt64.le_iff_toNat_le.mp (h.stamp_le hj (hfull j hj).1)
  have hle' := UInt64.le_iff_toNat_le.mp hle
  have holdest := fun j hj => UInt64.le_iff_toNat_le.mp (hfull j hj).2
  -- the newcomer and the eight in the table
  have hnine := height (throttleSlot slots i).lastMs.toNat
    (e.call.sender :: (List.range throttleSlots).map fun j => (throttleSlot slots j).tag) ?_ ?_
  · rw [List.length_cons, List.length_map, List.length_range] at hnine
    omega
  · apply List.nodup_cons.mpr
    constructor
    · intro hmem
      obtain ⟨j, hj, htag⟩ := List.mem_map.mp hmem
      rw [List.mem_range] at hj
      exact hnone j hj ⟨(hfull j hj).1, htag⟩
    · apply List.nodup_range.map_on
      intro j hj k hk heq
      rw [List.mem_range] at hj hk
      exact h.distinct j hj k hk (hfull j hj).1 ⟨(hfull k hk).1, heq.symm⟩
  · intro x hx
    rcases List.mem_cons.mp hx with rfl | hx
    · refine ⟨e, List.mem_append_right _ (List.mem_singleton_self e), hann, rfl, ?_, by omega⟩
      have := hstamp i hi
      omega
    · obtain ⟨j, hj, rfl⟩ := List.mem_map.mp hx
      rw [List.mem_range] at hj
      obtain ⟨e', he', hann', hsender, hnow⟩ := h.logged j hj (hfull j hj).1
      refine ⟨e', List.mem_append_left _ he', hann', hsender, ?_, ?_⟩
      · rw [hnow]
        exact holdest j hj
      · rw [hnow]
        have := hstamp j hj
        omega

/-- A slot gets the stamp of an admitted announce: its own sender's slot, or one whose sender is
forgotten in time. -/
theorem Remembers.stamp (h : Remembers slots log last) (hle : last ≤ e.call.now) (hann : e.Announced)
    {i : Nat} (hi : i < throttleSlots)
    (hothers : ∀ j < throttleSlots, j ≠ i → ¬ Holds slots e.call.sender j)
    (hold : (throttleSlot slots i).inUse = true → (throttleSlot slots i).tag ≠ e.call.sender →
      (throttleSlot slots i).lastMs.toNat + announceMinIntervalMs.toNat ≤ e.call.now.toNat)
    {s : Throttle} (huse : s.inUse = true) (htag : s.tag = e.call.sender)
    (hlast : s.lastMs = e.call.now) : Remembers (slots.set i s) (log ++ [e]) e.call.now := by
  have hlen : i < slots.length := by
    rw [h.length]
    exact hi
  have hset := throttleSlot_set hlen s
  have hle' := UInt64.le_iff_toNat_le.mp hle
  refine ⟨by rw [List.length_set]; exact h.length, ?_, ?_, ?_, ?_⟩
  · -- distinct: the stamped slot is the only one of its sender
    intro j hj k hk hjuse hholds
    rw [Holds, hset, hset] at hholds
    rw [hset] at hjuse
    by_cases hij : i = j
    · by_cases hik : i = k
      · exact hij.symm.trans hik
      · rw [if_neg hik, if_pos hij, htag] at hholds
        exact absurd hholds (hothers k hk (Ne.symm hik))
    · rw [if_neg hij] at hholds hjuse
      by_cases hik : i = k
      · rw [if_pos hik, htag] at hholds
        exact absurd ⟨hjuse, hholds.2.symm⟩ (hothers j hj (Ne.symm hij))
      · rw [if_neg hik] at hholds
        exact h.distinct j hj k hk hjuse hholds
  · -- logged: the new stamp is the new announce's
    intro j hj hjuse
    rw [hset] at hjuse ⊢
    by_cases hij : i = j
    · rw [if_pos hij]
      exact ⟨e, List.mem_append_right _ (List.mem_singleton_self e), hann, htag.symm, hlast.symm⟩
    · rw [if_neg hij] at hjuse ⊢
      obtain ⟨e', he', hrest⟩ := h.logged j hj hjuse
      exact ⟨e', List.mem_append_left _ he', hrest⟩
  · intro e' he'
    rcases List.mem_append.mp he' with he' | he'
    · exact UInt64.le_trans (h.le_now e' he') hle
    · rw [List.mem_singleton.mp he']
      exact UInt64.le_refl _
  · intro e' he' hann'
    have hnew : ∀ e'' : Admission, e''.call.sender = e.call.sender → e''.call.now ≤ e.call.now →
        ∃ j < throttleSlots, Holds (slots.set i s) e''.call.sender j ∧
          e''.call.now ≤ (throttleSlot (slots.set i s) j).lastMs := by
      intro e'' hsender hnow
      refine ⟨i, hi, ?_, ?_⟩
      · rw [Holds, hset, if_pos rfl, hsender]
        exact ⟨huse, htag⟩
      · rw [hset, if_pos rfl, hlast]
        exact hnow
    rcases List.mem_append.mp he' with he' | he'
    · rcases h.kept e' he' hann' with ⟨j, hj, hown, hstamp⟩ | hpast
      · by_cases hij : i = j
        · subst hij
          by_cases hsame : (throttleSlot slots i).tag = e.call.sender
          · -- the renewed slot
            exact .inl (hnew e' (hown.2.symm.trans hsame)
              (UInt64.le_trans (h.le_now e' he') hle))
          · right
            have := hold hown.1 hsame
            have hstamp' := UInt64.le_iff_toNat_le.mp hstamp
            omega
        · refine .inl ⟨j, hj, ?_, ?_⟩
          · rw [Holds, hset, if_neg hij]
            exact hown
          · rw [hset, if_neg hij]
            exact hstamp
      · exact .inr (by omega)
    · rw [List.mem_singleton.mp he']
      exact .inl (hnew e rfl (UInt64.le_refl _))

/-- **An announce that passes** is an interval after every earlier one of its sender, and the slots
go on remembering. -/
theorem Remembers.announce {slots' : List Throttle} (h : Remembers slots log last)
    (hle : last ≤ e.call.now) (hann : e.Announced) (height : AtMostEight AdmitCall.sender (log ++ [e]))
    (hout : ThrottleOutcome slots e.call.sender e.call.now false slots') :
    Remembers slots' (log ++ [e]) e.call.now ∧ ∀ e' ∈ log, Spaced AdmitCall.sender e' e := by
  have hlen := h.length
  have hle' := UInt64.le_iff_toNat_le.mp hle
  cases hout with
  | renewed i hi hown hlate =>
    rw [hlen] at hi
    -- the sender has one slot, whose stamp is an interval old
    have honly : ∀ j < throttleSlots, Holds slots e.call.sender j → i = j := by
      intro j hj hholds
      apply h.distinct i hi j hj hown.1
      rw [hown.2]
      exact hholds
    have hgap : (throttleSlot slots i).lastMs.toNat + announceMinIntervalMs.toNat ≤
        e.call.now.toNat := by
      have hstamp := h.stamp_le hi hown.1
      have hlate' := UInt64.le_iff_toNat_le.mp hlate
      rw [UInt64.toNat_sub_of_le _ _ (UInt64.le_trans hstamp hle)] at hlate'
      have := UInt64.le_iff_toNat_le.mp hstamp
      omega
    constructor
    · apply h.stamp hle hann hi
      · exact fun j hj hne hholds => hne (honly j hj hholds).symm
      · exact fun _ hne => absurd hown.2 hne
      · exact hown.1
      · exact hown.2
      · rfl
    · intro e' he' hann' _ hsender
      apply h.gap_of_kept hle _ he' hann' hsender
      intro j hj hholds
      rw [← honly j hj hholds]
      exact hgap
  | taken i hi hnone hwhich =>
    -- the sender has no slot: every announce of it that still counts would be in one
    rw [hlen] at hi hnone hwhich
    constructor
    · apply h.stamp hle hann hi
      · exact fun j hj _ => hnone j hj
      · intro huse _
        rcases hwhich with hfree | hfull
        · rw [hfree] at huse
          cases huse
        · exact h.evict hle hann height hnone hi hfull
      · rfl
      · rfl
      · rfl
    · intro e' he' hann' _ hsender
      apply h.gap_of_kept hle _ he' hann' hsender
      exact fun j hj hholds => absurd hholds (hnone j hj)

end Step

/-! ## Runs -/

section Runs

variable {K : Type} [NatCast K] [Add K] [Sub K] [Mul K] [Neg K] [LT K] [DecidableLT K]
  {airtime : Nat → Nat} {g : Governor K} {log : List Admission} {last : UInt64}
  {cs : List AdmitCall}

/-- **One call on the throttle.** -/
theorem remembers_admit (h : Remembers g.throttle log last) {c : AdmitCall} (hle : last ≤ c.now)
    {ok : Bool} {g' : Governor K} (hout : AdmitOutcome airtime g c ok g')
    (height : AtMostEight AdmitCall.sender (log ++ [⟨c, ok⟩])) :
    Remembers g'.throttle (log ++ [⟨c, ok⟩]) c.now ∧
      ∀ e' ∈ log, Spaced AdmitCall.sender e' ⟨c, ok⟩ := by
  have hslots : 0 < g.throttle.length := by
    rw [h.length]
    decide
  have hthrottle := throttle_outcome hslots c.sender c.now
  have hrefused : ¬ (⟨c, false⟩ : Admission).Announced := fun hann => nomatch hann.1
  cases hout with
  | ignored | noCredit =>
    exact ⟨h.skip hle hrefused, fun _ _ _ hann => absurd hann hrefused⟩
  | throttled _ _ _ hdrop =>
    -- a drop leaves the slots alone
    rw [hdrop] at hthrottle
    dsimp only
    generalize (announceThrottled g.throttle c.sender c.now).2 = slots' at hthrottle
    cases hthrottle
    exact ⟨h.skip hle hrefused, fun _ _ _ hann => absurd hann hrefused⟩
  | passed _ _ hpass =>
    cases hidentity : identityAnnounce c.type with
    | true =>
      rw [hpass hidentity] at hthrottle
      exact h.announce hle ⟨rfl, hidentity⟩ height hthrottle
    | false =>
      have hother : ¬ (⟨c, true⟩ : Admission).Announced := by
        intro hann
        rw [hann.2] at hidentity
        cases hidentity
      exact ⟨h.skip hle hother, fun _ _ _ hann => absurd hann hother⟩

variable (airtime) in
/-- Along a run without crowds, announces of one sender stay an interval apart. -/
theorem spaced_run (h : Remembers g.throttle log last) (hclock : Clocked last cs)
    (height : AtMostEight AdmitCall.sender (log ++ admissions airtime g cs))
    (hlog : log.Pairwise (Spaced AdmitCall.sender)) :
    (log ++ admissions airtime g cs).Pairwise (Spaced AdmitCall.sender) := by
  induction cs generalizing g log last with
  | nil => rwa [admissions, List.append_nil]
  | cons c cs ih =>
    rw [admissions] at height ⊢
    have hsplit : ∀ (e : Admission) (es : List Admission), log ++ e :: es = log ++ [e] ++ es := by
      intro e es
      rw [List.append_assoc, List.singleton_append]
    rw [hsplit] at height ⊢
    obtain ⟨hremembers, hspaced⟩ := remembers_admit h hclock.1 (admit_outcome airtime g c)
      (height.of_subset (List.subset_append_left _ _) (fun _ _ => rfl))
    apply ih hremembers hclock.2 height
    apply List.pairwise_append.mpr
    refine ⟨hlog, List.pairwise_singleton _ _, ?_⟩
    intro e' he' e he
    rw [List.mem_singleton.mp he]
    exact hspaced e' he'

/-- Before the first call all slots are free. -/
theorem remembers_init (K : Type) [NatCast K] [Div K] (dutyPct : Nat) (boot : UInt64) :
    Remembers (Governor.init (K := K) dutyPct boot).throttle [] boot := by
  have hfree : ∀ i,
      (throttleSlot (Governor.init (K := K) dutyPct boot).throttle i).inUse = false := by
    intro i
    show ((List.replicate throttleSlots ({} : Throttle)).getD i {}).inUse = false
    rw [List.getD_eq_getElem?_getD, List.getElem?_replicate]
    split
    · rfl
    · rfl
  refine ⟨rfl, ?_, ?_, (fun _ he => nomatch he), (fun _ he => nomatch he)⟩
  · intro i _ j _ huse
    rw [hfree i] at huse
    cases huse
  · intro i _ huse
    rw [hfree i] at huse
    cases huse

end Runs

/-! ## A refusal for credit -/

section Refusal

variable {K : Type} [NatCast K] [Add K] [Sub K] [Mul K] [Neg K] [LT K] [DecidableLT K]
  {airtime : Nat → Nat} {g : Governor K} {c : AdmitCall} {cs : List AdmitCall}

/-- The call is an announce the credit does not cover. -/
def RefusedForCredit (airtime : Nat → Nat) (g : Governor K) (c : AdmitCall) : Prop :=
  c.ignored = false ∧ trunkAnnounce c.type = true ∧ (g.refill c.now).creditMs < c.cost airtime

/-- **A refusal for credit stamps nothing**: the governor is refilled, and its slots are as they
were. -/
theorem admit_refused (href : RefusedForCredit airtime g c) :
    (trunkAdmit airtime c.otaOverTrunk c.now g c.data).1 = false ∧
      admitStep airtime g c = { g.refill c.now with throttle := g.throttle } := by
  obtain ⟨hread, hann, hlow⟩ := href
  have hout := admit_outcome airtime g c
  generalize admitStep airtime g c = g', (trunkAdmit airtime c.otaOverTrunk c.now g c.data).1 = ok
    at hout
  cases hout with
  | ignored hskip => rw [hread] at hskip; cases hskip
  | noCredit => exact ⟨rfl, rfl⟩
  | throttled _ _ hcredit => exact absurd hlow hcredit
  | passed _ hcredit => exact absurd hlow (hcredit hann)

end Refusal

section Exact

variable {airtime : Nat → Nat} {g g' : Governor Rat} {cs : List AdmitCall}

/-- A refill on the way to a later one makes no difference. -/
theorem refill_refill {m now : UInt64} (hfrac : 0 ≤ g.refillFrac) (hlast : g.lastMs ≤ m)
    (hle : m ≤ now) : (g.refill m).refill now = g.refill now := by
  have hflow : ((now - g.lastMs).toNat : Rat) = (m - g.lastMs).toNat + (now - m).toNat := by
    have hl := UInt64.le_iff_toNat_le.mp hlast
    have hm := UInt64.le_iff_toNat_le.mp hle
    rw [UInt64.toNat_sub_of_le _ _ hlast, UInt64.toNat_sub_of_le _ _ hle,
      UInt64.toNat_sub_of_le _ _ (UInt64.le_trans hlast hle)]
    exact_mod_cast (by omega : now.toNat - g.lastMs.toNat =
      m.toNat - g.lastMs.toNat + (now.toNat - m.toNat))
  have hin : 0 ≤ ((now - m).toNat : Rat) * g.refillFrac := mul_nonneg (Nat.cast_nonneg _) hfrac
  have hcredit : ((g.refill m).refill now).creditMs = (g.refill now).creditMs := by
    rw [refill_creditMs, refill_creditMs, Governor.flowed, Governor.flowed, refill_creditMs]
    show min (min (g.creditMs + ((m - g.lastMs).toNat : Rat) * g.refillFrac) govBurstMs +
      ((now - m).toNat : Rat) * g.refillFrac) govBurstMs = _
    rw [hflow, add_mul, ← add_assoc]
    rcases le_total (g.creditMs + ((m - g.lastMs).toNat : Rat) * g.refillFrac) govBurstMs
      with hunder | hover
    · rw [min_eq_left hunder]
    · -- full at `m`, and full again
      rw [min_eq_right hover, min_eq_right (by linarith), min_eq_right (by linarith)]
  exact congrArg (fun credit => ({ g with creditMs := credit, lastMs := now } : Governor Rat)) hcredit

/-- Two governors that refill alike admit alike. -/
theorem admissions_congr {m : UInt64} (hsame : ∀ now, m ≤ now → g.refill now = g'.refill now)
    (hclock : Clocked m cs) : admissions airtime g cs = admissions airtime g' cs := by
  induction cs generalizing m with
  | nil => rfl
  | cons c cs ih =>
    have hnow := hsame c.now hclock.1
    have hthrottle : (g.refill c.now).throttle = (g'.refill c.now).throttle := by rw [hnow]
    change g.throttle = g'.throttle at hthrottle
    rw [admissions, admissions]
    cases hread : c.ignored with
    | true =>
      rw [(admit_ignored hread).1, (admit_ignored hread).2, (admit_ignored hread).1,
        (admit_ignored hread).2, ih hsame (hclock.2.earlier hclock.1)]
    | false =>
      have hequal : trunkAdmit airtime c.otaOverTrunk c.now g c.data =
          trunkAdmit airtime c.otaOverTrunk c.now g' c.data := by
        have hread' : ¬ c.data.length < pktMinLen ∧
            ¬ (otaType c.type && !c.otaOverTrunk) = true := by
          rw [AdmitCall.ignored, Bool.or_eq_false_iff, decide_eq_false_iff_not] at hread
          exact ⟨hread.1, by rw [hread.2]; decide⟩
        rw [trunkAdmit_eq, trunkAdmit_eq, if_neg hread'.1, if_neg hread'.2, if_neg hread'.1,
          if_neg hread'.2, hnow, throttleVerdict, throttleVerdict, hthrottle]
      rw [admitStep, admitStep, hequal]

/-- **With an exact credit a refusal leaves no trace**: the later calls come to the same with and
without it. -/
theorem admissions_after_refusal (hfrac : 0 ≤ g.refillFrac) {c : AdmitCall}
    (hclock : Clocked g.lastMs (c :: cs)) (href : RefusedForCredit airtime g c) :
    admissions airtime g (c :: cs) = ⟨c, false⟩ :: admissions airtime g cs := by
  rw [admissions, (admit_refused href).1, (admit_refused href).2]
  congr 1
  exact admissions_congr (fun now hnow => refill_refill hfrac hclock.1 hnow) hclock.2

end Exact

/-! ## The guarantee -/

/-- The sender ID of the packet, as the decoder finds it. -/
def AdmitCall.origin (c : AdmitCall) : Bytes 8 := copyAt 8 c.data (headerEnd (byteAt c.data 0))

/-- In a version 1 packet the throttle looks at the sender ID. -/
theorem sender_eq_origin {c : AdmitCall} (hv : byteAt c.data 0 = 1) : c.sender = c.origin := by
  rw [AdmitCall.sender, AdmitCall.origin, headerEnd, if_pos hv]
  rfl

section Guarantee

variable {K : Type} [NatCast K] [Add K] [Sub K] [Mul K] [Neg K] [LT K] [DecidableLT K]

theorem mem_of_mem_admissions {airtime : Nat → Nat} {g : Governor K} {cs : List AdmitCall}
    {e : Admission} (he : e ∈ admissions airtime g cs) : e.call ∈ cs := by
  induction cs generalizing g with
  | nil => exact nomatch he
  | cons c cs ih =>
    rw [admissions] at he
    rcases List.mem_cons.mp he with rfl | he
    · exact List.mem_cons_self ..
    · exact List.mem_cons_of_mem _ (ih he)

theorem admissions_append (airtime : Nat → Nat) (g : Governor K) (pre post : List AdmitCall) :
    admissions airtime g (pre ++ post) =
      admissions airtime g pre ++ admissions airtime (final (admitStep airtime) g pre) post := by
  induction pre generalizing g with
  | nil => rfl
  | cons c pre ih =>
    rw [List.cons_append, admissions, ih]
    rfl

/-- After the first calls of an ordered run, the rest is one from there. -/
theorem clocked_final (airtime : Nat → Nat) {g : Governor Rat} {pre post : List AdmitCall}
    (hfrac : 0 ≤ g.refillFrac) (h : g.Within) (hclock : Clocked g.lastMs (pre ++ post)) :
    0 ≤ (final (admitStep airtime) g pre).refillFrac ∧
      Clocked (final (admitStep airtime) g pre).lastMs post := by
  induction pre generalizing g with
  | nil => exact ⟨hfrac, hclock⟩
  | cons c pre ih =>
    obtain ⟨hwithin, hfrac', hclock'⟩ := admitStep_keeps airtime hfrac h hclock
    exact ih (hfrac' ▸ hfrac) hwithin hclock'

/-- **The announce throttle.** For every arithmetic of the credit and every run of calls on version 1
packets and a clock that does not go back, in which no window of 30 s has admitted identity
announces of more than eight senders: admitted identity announces of one sender are 30 s apart, and
an announce refused for lack of credit leaves the slots as they were. Where the credit is exact it
also delays nothing, as all later calls come to what they come to without it. -/
theorem announce_interval [Div K] (airtime : Nat → Nat) (dutyPct : Nat) {boot : UInt64}
    {cs : List AdmitCall} (hclock : Clocked boot cs) (hv : ∀ c ∈ cs, byteAt c.data 0 = 1)
    (hcrowd : AtMostEight AdmitCall.origin
      (admissions airtime (.init dutyPct boot : Governor K) cs)) :
    (admissions airtime (.init dutyPct boot : Governor K) cs).Pairwise
      (Spaced AdmitCall.origin) ∧
    (∀ pre c post, cs = pre ++ c :: post →
      let g := final (admitStep airtime) (.init dutyPct boot : Governor K) pre
      RefusedForCredit airtime g c →
        admitStep airtime g c = { g.refill c.now with throttle := g.throttle }) ∧
    ∀ pre c post, cs = pre ++ c :: post →
      let g := final (admitStep airtime) (.init dutyPct boot : Governor Rat) pre
      RefusedForCredit airtime g c →
        admissions airtime (.init dutyPct boot : Governor Rat) cs =
          admissions airtime (.init dutyPct boot : Governor Rat) pre ++
            ⟨c, false⟩ :: admissions airtime g post := by
  have hsame : ∀ e ∈ admissions airtime (.init dutyPct boot : Governor K) cs,
      e.call.sender = e.call.origin :=
    fun e he => sender_eq_origin (hv e.call (mem_of_mem_admissions he))
  refine ⟨?_, fun pre c post _ href => (admit_refused href).2, ?_⟩
  · have hspaced := spaced_run airtime (remembers_init K dutyPct boot) hclock
      (hcrowd.of_subset (List.Subset.refl _) hsame) List.Pairwise.nil
    apply hspaced.imp_of_mem
    intro e e' he he' hsp hann hann' horigin
    apply hsp hann hann'
    rw [hsame e he, hsame e' he']
    exact horigin
  · rintro pre c post rfl g href
    obtain ⟨hfrac, hclock'⟩ := clocked_final airtime
      (refillFrac_init_nonneg dutyPct boot) (within_init dutyPct boot) hclock
    rw [admissions_append, admissions_after_refusal hfrac hclock' href]

end Guarantee

/-- Up to eight calls make no crowd. -/
theorem atMostEight_of_length {sender : AdmitCall → Bytes 8} {log : List Admission}
    (h : log.length ≤ throttleSlots) : AtMostEight sender log := by
  intro w l hl hall
  have hsub : l ⊆ log.map fun e => sender e.call := by
    intro x hx
    obtain ⟨e, he, -, hsender, -⟩ := hall x hx
    exact List.mem_map.mpr ⟨e, he, hsender⟩
  have hle := (hl.subperm hsub).length_le
  rw [List.length_map] at hle
  exact hle.trans h

/-- Three announces of one sender, ten and thirty seconds after the first. -/
def threeAnnounces : List AdmitCall :=
  [⟨1000, false, typedFrame bitchatMsgAnnounce⟩, ⟨11000, false, typedFrame bitchatMsgAnnounce⟩,
    ⟨31000, false, typedFrame bitchatMsgAnnounce⟩]

/-- In doubles: the second is dropped, the third passes. -/
theorem announce_interval_three :
    (admissions (fun _ => 900) (.init 25 1000 : Governor Float) threeAnnounces).map
        Admission.admitted = [true, false, true] ∧
      (admissions (fun _ => 900) (.init 25 1000 : Governor Float) threeAnnounces).Pairwise
        (Spaced AdmitCall.origin) :=
  have hclock : Clocked 1000 threeAnnounces := ⟨by decide, by decide, by decide, trivial⟩
  ⟨by decide +kernel, (announce_interval (K := Float) (fun _ => 900) 25 hclock
    (by unfold threeAnnounces; decide) (atMostEight_of_length (by decide))).1⟩

/-! ## Doubles -/

/-- A version 1 frame with `n` zero bytes of payload. -/
def paddedFrame (type : UInt8) (n : Nat) : List UInt8 :=
  [1, type, 7] ++ List.replicate 9 0 ++ beBytes 2 n ++ [1, 2, 3, 4, 5, 6, 7, 8] ++
    List.replicate n 0

/-- Two messages of 400 bytes right after boot. -/
def twoMessages : List AdmitCall :=
  List.replicate 2 ⟨1000, false, paddedFrame bitchatMsgMessage 378⟩

/-- An announce of 100 bytes. -/
def announceAt (now : UInt64) : AdmitCall := ⟨now, false, paddedFrame bitchatMsgAnnounce 78⟩

/-- **A refusal that delays the next announce.** At a duty of 10 % and the node's radio settings two
messages leave a credit of -4192 ms, and an announce takes 1149 ms. 53.41 s of refill in one step
cover it exactly; with the same sender's announce refused after 41.127 s they are two steps, whose
rounded sum is below 1149. -/
theorem refusal_delays_announce :
    let airtime := loraAirtimeMs 10 125000 5
    let start : Governor Float := .init 10 1000
    let early := announceAt 42127
    let late := announceAt 54410
    (Clocked 1000 (twoMessages ++ [early, late]) ∧
      (∀ c ∈ twoMessages ++ [early, late], byteAt c.data 0 = 1) ∧
      AtMostEight AdmitCall.origin (admissions airtime start (twoMessages ++ [early, late]))) ∧
    RefusedForCredit airtime (final (admitStep airtime) start twoMessages) early ∧
    late.origin = early.origin ∧
    (admissions airtime start (twoMessages ++ [late])).map Admission.admitted =
      [true, true, true] ∧
    (admissions airtime start (twoMessages ++ [early, late])).map Admission.admitted =
      [true, true, false, false] := by
  refine ⟨⟨?_, ?_, atMostEight_of_length (by decide)⟩, ⟨by decide, by decide, ?_⟩, rfl, ?_, ?_⟩
  · exact ⟨by decide, by decide, by decide, by decide, trivial⟩
  · decide
  · decide +kernel
  · decide +kernel
  · decide +kernel

end Bitle
