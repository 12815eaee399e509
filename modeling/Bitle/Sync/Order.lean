import Bitle.Sync.Quota

/-!
# Bitle — what the sync store keeps (`main/bitle_sync.c`)

No id is stored twice, an owner has one record of each owned type, and a record is given up
only to a newer one of its owner, or, when every slot is used and fresh, as the longest stored
of its class. The timestamps of the packets have no say in that last choice
(`evictFor_restamp`): `evict_for` goes by `ingest_seq`, which counts the records stored.
-/

namespace Bitle

open Wire Run Slots

/-! ## One ingest -/

/-- What the scan has checked when it does not return early. -/
theorem ingestScan_passed {type : UInt8} {id : Bytes 16} {owner : Bytes 8} {ts : UInt64}
    {slots : List SyncSlot} {i : Nat} {target result : Option Nat}
    (h : ingestScan type id owner ts slots i target = some result) :
    ∀ s ∈ slots, s.inUse = true → s.id ≠ id ∧
      (ownedType type = true → s.type = type → s.owner = owner → s.timestampMs < ts) := by
  induction slots generalizing i target with
  | nil => exact fun s hs => absurd hs List.not_mem_nil
  | cons s slots ih =>
    rw [ingestScan] at h
    split at h
    · next hfree =>
        refine List.forall_mem_cons.mpr ⟨fun hu => ?_, ih h⟩
        rw [hu] at hfree
        exact absurd hfree (by decide)
    · split at h
      · cases h
      · next hid =>
          split at h
          · split at h
            · cases h
            · next hts =>
                exact List.forall_mem_cons.mpr
                  ⟨fun _ => ⟨hid, fun _ _ _ => UInt64.not_le.mp hts⟩, ih h⟩
          · next hown =>
              refine List.forall_mem_cons.mpr ⟨fun _ => ⟨hid, fun ho ht hw => ?_⟩, ih h⟩
              exact absurd (by rw [Bool.and_eq_true, Bool.and_eq_true, beq_iff_eq, beq_iff_eq]
                               exact ⟨⟨ho, ht⟩, hw⟩) hown

/-- A scan that ends without a target met no record of the owner. -/
theorem ingestScan_none {type : UInt8} {id : Bytes 16} {owner : Bytes 8} {ts : UInt64}
    {slots : List SyncSlot} {i : Nat} {target : Option Nat}
    (h : ingestScan type id owner ts slots i target = some none) :
    target = none ∧ ∀ s ∈ slots, s.inUse = true → ownedType type = true → s.type = type →
      s.owner ≠ owner := by
  induction slots generalizing i target with
  | nil => exact ⟨Option.some.inj h, fun s hs => absurd hs List.not_mem_nil⟩
  | cons s slots ih =>
    rw [ingestScan] at h
    split at h
    · next hfree =>
        refine ⟨(ih h).1, List.forall_mem_cons.mpr ⟨fun hu => ?_, (ih h).2⟩⟩
        rw [hu] at hfree
        exact absurd hfree (by decide)
    · split at h
      · cases h
      · split at h
        · split at h
          · cases h
          · exact absurd (ih h).1 (by simp)
        · next hown =>
            refine ⟨(ih h).1, List.forall_mem_cons.mpr ⟨fun _ ho ht hw => ?_, (ih h).2⟩⟩
            exact absurd (by rw [Bool.and_eq_true, Bool.and_eq_true, beq_iff_eq, beq_iff_eq]
                             exact ⟨⟨ho, ht⟩, hw⟩) hown

/-- The slot `j` of the store is the oldest of the class of `type`, and no slot is free or
expired. -/
def OldestOfClass (slots : List SyncSlot) (type : UInt8) (nowMs : UInt64) (old : SyncSlot) :
    Prop :=
  (∀ s ∈ slots, s.inUse = true ∧ slotFresh s nowMs = true) ∧ sameClass type old = true ∧
    ∀ s ∈ slots, sameClass type s = true → old.ingestSeq.toNat ≤ s.ingestSeq.toNat

theorem mem_of_firstReusable {slots : List SyncSlot} {nowMs : UInt64} {j : Nat}
    (h : firstReusable slots nowMs = some j) :
    ∃ s, slots[j]? = some s ∧ (s.inUse = true → slotFresh s nowMs = false) := by
  obtain ⟨hj, hp, -⟩ := List.findIdx?_eq_some_iff_getElem.mp h
  refine ⟨slots[j], List.getElem?_eq_getElem hj, fun hu => ?_⟩
  rwa [hu, Bool.not_true, Bool.false_or, Bool.not_eq_true'] at hp

/-- `evict_for` gives up a slot that is free or expired, or else the oldest of the class. -/
theorem evictFor_oldest {slots : List SyncSlot} {type : UInt8} {nowMs : UInt64} {j : Nat}
    (h : evictFor slots type nowMs = some j) :
    ∃ s, slots[j]? = some s ∧
      ((s.inUse = true → slotFresh s nowMs = false) ∨ OldestOfClass slots type nowMs s) := by
  rw [evictFor] at h
  cases hf : firstReusable slots nowMs with
  | some k =>
    rw [hf] at h
    obtain rfl : k = j := Option.some.inj h
    obtain ⟨s, hs, hused⟩ := mem_of_firstReusable hf
    exact ⟨s, hs, .inl hused⟩
  | none =>
    rw [hf] at h
    obtain ⟨⟨k, s⟩, hm, rfl⟩ := Option.map_eq_some_iff.mp h
    rcases minScan_spec hm with hb | ⟨n, hn, hs, hp⟩
    · cases hb
    · obtain rfl : k = n := by omega
      refine ⟨s, hs, .inr ⟨fun t ht => ?_, hp, (minScan_le hm).1⟩⟩
      have hall := List.findIdx?_eq_none_iff.mp hf t ht
      rwa [Bool.or_eq_false_iff, Bool.not_eq_false', Bool.not_eq_false'] at hall

/-- The slot for a packet that replaces none. -/
theorem newTarget_oldest {slots : List SyncSlot} {type : UInt8} {nowMs : UInt64} {j : Nat}
    (h : newTarget slots type nowMs = some j) :
    ∃ s, slots[j]? = some s ∧
      ((s.inUse = true → slotFresh s nowMs = false) ∨ OldestOfClass slots type nowMs s) := by
  rw [newTarget_eq] at h
  split at h
  · exact evictFor_oldest h
  · split at h
    · -- a free slot
      next k hk =>
        obtain rfl : k = j := Option.some.inj h
        obtain ⟨hj, hp, -⟩ := List.findIdx?_eq_some_iff_getElem.mp hk
        refine ⟨slots[k], List.getElem?_eq_getElem hj, .inl fun hu => ?_⟩
        rw [hu] at hp
        cases hp
    · exact evictFor_oldest h

/-- The timestamps of the stored packets have no say in the choice of `evict_for`, as long as
they leave every record fresh. -/
theorem evictFor_restamp {slots : List SyncSlot} {type : UInt8} {nowMs : UInt64}
    (stamp : SyncSlot → UInt64)
    (hfresh : ∀ s ∈ slots, s.inUse = true ∧ slotFresh s nowMs = true ∧
      slotFresh { s with timestampMs := stamp s } nowMs = true) :
    evictFor (slots.map fun s => { s with timestampMs := stamp s }) type nowMs =
      evictFor slots type nowMs := by
  have hscan : ∀ (l : List SyncSlot) (i : Nat) (best : Option (Nat × SyncSlot)),
      minScan (sameClass type) (fun s => s.ingestSeq.toNat)
          (l.map fun s => { s with timestampMs := stamp s }) i
          (best.map fun b => (b.1, { b.2 with timestampMs := stamp b.2 })) =
        (minScan (sameClass type) (fun s => s.ingestSeq.toNat) l i best).map
          fun b => (b.1, { b.2 with timestampMs := stamp b.2 }) := by
    intro l
    induction l with
    | nil => exact fun _ _ => rfl
    | cons s l ih =>
      intro i best
      rw [List.map_cons, minScan, minScan, ← ih]
      congr 1
      -- the scan compares the class and the receive order, which the stamp leaves alone
      have hbetter : better (fun s => s.ingestSeq.toNat) { s with timestampMs := stamp s }
          (best.map fun b => (b.1, { b.2 with timestampMs := stamp b.2 })) =
          better (fun s => s.ingestSeq.toNat) s best := by cases best <;> rfl
      rw [hbetter]
      show (if (sameClass type s && _) = true then _ else _) = _
      split <;> rfl
  have hnone : ∀ l : List SyncSlot, (∀ s ∈ l, s.inUse = true ∧ slotFresh s nowMs = true) →
      firstReusable l nowMs = none := by
    intro l hl
    apply List.findIdx?_eq_none_iff.mpr
    intro s hs
    rw [(hl s hs).1, (hl s hs).2]
    rfl
  rw [evictFor, evictFor, hnone slots fun s hs => ⟨(hfresh s hs).1, (hfresh s hs).2.1⟩, hnone]
  · have hslots := hscan slots 0 none
    rw [Option.map_none] at hslots
    dsimp only
    rw [hslots, Option.map_map]
    rfl
  · intro t ht
    obtain ⟨s, hs, rfl⟩ := List.mem_map.mp ht
    exact ⟨(hfresh s hs).1, (hfresh s hs).2.2⟩

/-! ## What an overwrite means -/

section Run

variable (sha256 : List UInt8 → Bytes 32)

/-- The slot holds the packet of an ingest. -/
structure Records (s : SyncSlot) (i : IngestInput) : Prop where
  inUse : s.inUse = true
  type : s.type = i.packet.type
  id : s.id = packetId sha256 i.packet
  owner : deriveOwner sha256 i.packet = some s.owner
  timestampMs : s.timestampMs = i.packet.timestampMs
  frame : s.frame = i.raw

/-- The packet and the record are of one owned type and one owner. -/
def SameOwner (old : SyncSlot) (next : IngestInput) : Prop :=
  ownedType next.packet.type = true ∧ old.type = next.packet.type ∧
    deriveOwner sha256 next.packet = some old.owner

/-- A fresh record given up to another owner's packet: no slot is free or expired, it was stored
before every other record of its class, and any timestamps that leave the records fresh lead to
the same choice. -/
structure Evicted (st : SyncStore) (next : IngestInput) (j : Nat) (old : SyncSlot) : Prop where
  full : ∀ s ∈ st.slots, s.inUse = true ∧ slotFresh s next.nowMs = true
  sameClass : sameClass next.packet.type old = true
  oldest : ∀ k s, k ≠ j → st.slots[k]? = some s → Bitle.sameClass next.packet.type s = true →
    old.ingestSeq.toNat < s.ingestSeq.toNat
  restamp : ∀ stamp : SyncSlot → UInt64,
    (∀ s ∈ st.slots, slotFresh { s with timestampMs := stamp s } next.nowMs = true) →
    evictFor (st.slots.map fun s => { s with timestampMs := stamp s }) next.packet.type
      next.nowMs = some j

/-- What it takes to overwrite a used slot. -/
def Overwrites (st : SyncStore) (next : IngestInput) (j : Nat) (old new : SyncSlot) : Prop :=
  Records sha256 new next ∧
    (SameOwner sha256 old next → old.timestampMs < new.timestampMs) ∧
    (¬ SameOwner sha256 old next → slotFresh old next.nowMs = true → Evicted st next j old)

/-! ## The invariant -/

/-- Used slots related by `R` are the same slot. -/
def UniqueBy (R : SyncSlot → SyncSlot → Prop) (slots : List SyncSlot) : Prop :=
  ∀ (i j : Nat) (s t : SyncSlot), slots[i]? = some s → slots[j]? = some t → s.inUse = true →
    t.inUse = true → R s t → i = j

theorem UniqueBy.set {R : SyncSlot → SyncSlot → Prop} {slots : List SyncSlot}
    (h : UniqueBy R slots) (hsymm : ∀ s t, R s t → R t s) {n : Nat} {new : SyncSlot}
    (hnew : ∀ (k : Nat) (s : SyncSlot), k ≠ n → slots[k]? = some s → s.inUse = true → ¬ R s new) :
    UniqueBy R (slots.set n new) := by
  intro i j s t hs ht hus hut hR
  rw [List.getElem?_set] at hs ht
  split at hs
  · next hni =>
      split at ht
      · next hnj => omega
      · next hnj =>
          split at hs
          · obtain rfl := Option.some.inj hs
            exact absurd (hsymm _ _ hR) (hnew j t (Ne.symm hnj) ht hut)
          · cases hs
  · next hni =>
      split at ht
      · split at ht
        · obtain rfl := Option.some.inj ht
          exact absurd hR (hnew i s (Ne.symm hni) hs hus)
        · cases ht
      · exact h i j s t hs ht hus hut hR

/-- Ids, owners and receive numbers are unique; every used slot records one of the packets seen;
no receive number is above the counter, nor the counter above the number of calls. -/
structure SyncInv (st : SyncStore) (past : List IngestInput) : Prop where
  ids : UniqueBy (fun s t => s.id = t.id) st.slots
  owners : UniqueBy (fun s t => ownedType s.type = true ∧ s.type = t.type ∧ s.owner = t.owner)
    st.slots
  seqs : UniqueBy (fun s t => s.ingestSeq = t.ingestSeq) st.slots
  records : ∀ s ∈ st.slots, s.inUse = true → ∃ i ∈ past, Records sha256 s i
  seq_le : ∀ s ∈ st.slots, s.inUse = true → s.ingestSeq.toNat ≤ st.ingestSeq.toNat
  counter_le : st.ingestSeq.toNat ≤ past.length

theorem SyncInv.init : SyncInv sha256 SyncStore.init [] := by
  have hfree : ∀ s ∈ SyncStore.init.slots, s.inUse = false := by
    intro s hs
    rw [List.eq_of_mem_replicate hs]
  have hunique : ∀ R, UniqueBy R SyncStore.init.slots := by
    intro R i j s t hs _ hu
    rw [hfree s (List.mem_of_getElem? hs)] at hu
    cases hu
  refine ⟨hunique _, hunique _, hunique _, ?_, ?_, Nat.le_refl _⟩
  all_goals
    intro s hs hu
    rw [hfree s hs] at hu
    cases hu

variable {sha256} {st : SyncStore} {past : List IngestInput} {next : IngestInput}

variable (sha256) in
/-- An ingest leaves the store alone, replaces the record of the owner, or takes a slot for a new
record. -/
theorem ingestStep_cases (st : SyncStore) (next : IngestInput) :
    ingestStep sha256 st next = st ∨
    ∃ j owner target, deriveOwner sha256 next.packet = some owner ∧
      ingestScan next.packet.type (packetId sha256 next.packet) owner next.packet.timestampMs
        st.slots 0 none = some target ∧
      (target = some j ∨ target = none ∧ newTarget st.slots next.packet.type next.nowMs = some j) ∧
      ingestStep sha256 st next =
        st.store j next.packet (packetId sha256 next.packet) owner next.raw := by
  simp only [ingestStep, bitleSyncIngest]
  cases hacc : ingestAcceptable next.nowMs next.packet next.raw with
  | false => exact .inl rfl
  | true =>
    cases hown : deriveOwner sha256 next.packet with
    | none => exact .inl rfl
    | some owner =>
      cases hscan : ingestScan next.packet.type (packetId sha256 next.packet) owner
          next.packet.timestampMs st.slots 0 none with
      | none => exact .inl (by simp [hscan])
      | some target =>
        cases target with
        | some j => exact .inr ⟨j, owner, some j, rfl, hscan, .inl rfl, by simp [hscan]⟩
        | none =>
          cases htarget : newTarget st.slots next.packet.type next.nowMs with
          | none => exact .inl (by simp [hscan])
          | some j =>
            exact .inr ⟨j, owner, none, rfl, hscan, .inr ⟨rfl, rfl⟩, by simp [hscan]⟩

/-- The record of an ingest, as it is written. -/
def recordOf (sha256 : List UInt8 → Bytes 32) (st : SyncStore) (next : IngestInput)
    (owner : Bytes 8) : SyncSlot :=
  { inUse := true, type := next.packet.type, id := packetId sha256 next.packet
    timestampMs := next.packet.timestampMs, ingestSeq := st.ingestSeq + 1, owner := owner
    frame := next.raw }

theorem records_recordOf {owner : Bytes 8} (h : deriveOwner sha256 next.packet = some owner) :
    Records sha256 (recordOf sha256 st next owner) next :=
  ⟨rfl, rfl, rfl, h, rfl, rfl⟩

/-- The other records of the owner: there are none besides the one replaced. -/
theorem SyncInv.no_other_owner (hinv : SyncInv sha256 st past) {j : Nat} {owner : Bytes 8}
    {target : Option Nat}
    (hscan : ingestScan next.packet.type (packetId sha256 next.packet) owner
      next.packet.timestampMs st.slots 0 none = some target)
    (htarget : target = some j ∨ target = none) {k : Nat} {s : SyncSlot} (hk : k ≠ j)
    (hs : st.slots[k]? = some s) (hu : s.inUse = true) (howned : ownedType s.type = true)
    (htype : s.type = next.packet.type) : s.owner ≠ owner := by
  rcases htarget with rfl | rfl
  · rcases ingestScan_target hscan with h0 | ⟨n, t, hn, ht, hut, ho, htt, htw⟩
    · cases h0
    · obtain rfl : j = n := by omega
      intro hw
      exact hk (hinv.owners k j s t hs ht hu hut ⟨howned, htype.trans htt.symm, hw.trans htw.symm⟩)
  · exact (ingestScan_none hscan).2 s (List.mem_of_getElem? hs) hu (htype ▸ howned) htype

/-- **Step.** -/
theorem SyncInv.ingest (hinv : SyncInv sha256 st past) (hlen : (past ++ [next]).length < 2 ^ 32) :
    SyncInv sha256 (ingestStep sha256 st next) (past ++ [next]) := by
  rw [List.length_append, List.length_singleton] at hlen
  have hcount := hinv.counter_le
  have hrecords : ∀ s ∈ st.slots, s.inUse = true → ∃ i ∈ past ++ [next], Records sha256 s i := by
    intro s hs hu
    obtain ⟨i, hi, hrec⟩ := hinv.records s hs hu
    exact ⟨i, List.mem_append_left _ hi, hrec⟩
  rcases ingestStep_cases sha256 st next with heq |
    ⟨j, owner, target, hown, hscan, htarget, heq⟩
  · rw [heq]
    refine ⟨hinv.ids, hinv.owners, hinv.seqs, hrecords, hinv.seq_le, ?_⟩
    rw [List.length_append]
    omega
  · -- the counter does not wrap
    have hseq : (st.ingestSeq + 1).toNat = st.ingestSeq.toNat + 1 := by
      rw [UInt32.toNat_add]
      show (st.ingestSeq.toNat + 1) % 2 ^ 32 = _
      omega
    have hslots : (ingestStep sha256 st next).slots =
        st.slots.set j (recordOf sha256 st next owner) := by rw [heq]; rfl
    have hcounter : (ingestStep sha256 st next).ingestSeq = st.ingestSeq + 1 := by rw [heq]; rfl
    have hnone : target = some j ∨ target = none := htarget.imp_right And.left
    refine ⟨?_, ?_, ?_, ?_, ?_, ?_⟩
    · rw [hslots]
      apply hinv.ids.set fun s t h => h.symm
      intro k s _ hs hu
      exact (ingestScan_passed hscan s (List.mem_of_getElem? hs) hu).1
    · rw [hslots]
      apply hinv.owners.set
      · rintro s t ⟨ho, ht, hw⟩
        exact ⟨ht ▸ ho, ht.symm, hw.symm⟩
      · rintro k s hk hs hu ⟨ho, ht, hw⟩
        exact hinv.no_other_owner hscan hnone hk hs hu ho ht hw
    · rw [hslots]
      apply hinv.seqs.set fun s t h => h.symm
      intro k s _ hs hu hsame
      have hle := hinv.seq_le s (List.mem_of_getElem? hs) hu
      have hnat := congrArg UInt32.toNat hsame
      have : (recordOf sha256 st next owner).ingestSeq = st.ingestSeq + 1 := rfl
      rw [this, hseq] at hnat
      omega
    · intro s hs hu
      rw [hslots] at hs
      rcases List.mem_or_eq_of_mem_set hs with hs | rfl
      · exact hrecords s hs hu
      · exact ⟨next, List.mem_append_right _ (List.mem_singleton_self _), records_recordOf hown⟩
    · intro s hs hu
      rw [hcounter, hseq]
      rw [hslots] at hs
      rcases List.mem_or_eq_of_mem_set hs with hs | rfl
      · have := hinv.seq_le s hs hu
        omega
      · exact hseq.le
    · rw [hcounter, hseq, List.length_append, List.length_singleton]
      omega

/-- **Run.** -/
theorem SyncInv.final (hinv : SyncInv sha256 st past) (ins : List IngestInput)
    (hlen : (past ++ ins).length < 2 ^ 32) :
    SyncInv sha256 (final (ingestStep sha256) st ins) (past ++ ins) := by
  induction ins generalizing st past with
  | nil => simpa using hinv
  | cons i ins ih =>
    have hsplit : past ++ i :: ins = (past ++ [i]) ++ ins := by simp
    rw [final_cons, hsplit]
    rw [hsplit] at hlen
    apply ih _ hlen
    apply hinv.ingest
    rw [List.length_append] at hlen
    omega

/-- What the next ingest overwrites. -/
theorem SyncInv.overwrites (hinv : SyncInv sha256 st past) (next : IngestInput) {j : Nat}
    {old new : SyncSlot} (hold : st.slots[j]? = some old)
    (hnew : (ingestStep sha256 st next).slots[j]? = some new) (hu : old.inUse = true)
    (hne : new ≠ old) : Overwrites sha256 st next j old new := by
  rcases ingestStep_cases sha256 st next with heq |
    ⟨n, owner, target, hown, hscan, htarget, heq⟩
  · rw [heq] at hnew
    exact absurd (Option.some.inj (hnew.symm.trans hold)) hne
  · have hslots : (ingestStep sha256 st next).slots =
        st.slots.set n (recordOf sha256 st next owner) := by rw [heq]; rfl
    rw [hslots] at hnew
    have hjn : n = j := by
      by_contra hnj
      rw [List.getElem?_set_ne hnj] at hnew
      exact hne (Option.some.inj (hnew.symm.trans hold))
    subst hjn
    obtain ⟨hlt, -⟩ := List.getElem?_eq_some_iff.mp hold
    rw [List.getElem?_set_self hlt] at hnew
    obtain rfl := Option.some.inj hnew
    refine ⟨records_recordOf hown, ?_, ?_⟩
    · rintro ⟨howned, htype, hwner⟩
      exact (ingestScan_passed hscan old (List.mem_of_getElem? hold) hu).2 howned htype
        (Option.some.inj (hwner.symm.trans hown))
    · intro hother hfresh
      -- the scan found no record of the owner, so `evict_for` chose the slot
      have htarget' : newTarget st.slots next.packet.type next.nowMs = some n := by
        rcases htarget with rfl | ⟨-, htarget⟩
        · rcases ingestScan_target hscan with h0 | ⟨k, t, hk, ht, -, ho, htt, htw⟩
          · cases h0
          · obtain rfl : n = k := by omega
            obtain rfl : old = t := Option.some.inj (hold.symm.trans ht)
            exact absurd ⟨ho, htt, hown.trans (congrArg some htw.symm)⟩ hother
        · exact htarget
      obtain ⟨s, hs, hcase⟩ := newTarget_oldest htarget'
      obtain rfl : old = s := Option.some.inj (hold.symm.trans hs)
      rcases hcase with hexp | ⟨hfull, hclass, hmin⟩
      · rw [hexp hu] at hfresh
        cases hfresh
      · refine ⟨hfull, hclass, ?_, ?_⟩
        · intro k t hk ht htc
          have hle := hmin t (List.mem_of_getElem? ht) htc
          have hneq : old.ingestSeq.toNat ≠ t.ingestSeq.toNat := by
            intro hsame
            have hut := (hfull t (List.mem_of_getElem? ht)).1
            exact hk (hinv.seqs k n t old ht hold hut hu (UInt32.toNat_inj.mp hsame.symm))
          omega
        · intro stamp hstamp
          have hevict : evictFor st.slots next.packet.type next.nowMs = some n := by
            rw [newTarget_eq] at htarget'
            have hnofree : st.slots.findIdx? (fun s => !s.inUse) = none := by
              apply List.findIdx?_eq_none_iff.mpr
              intro t ht
              rw [(hfull t ht).1]
              rfl
            rw [hnofree] at htarget'
            split at htarget' <;> exact htarget'
          rw [evictFor_restamp stamp fun t ht => ⟨(hfull t ht).1, (hfull t ht).2, hstamp t ht⟩]
          exact hevict

end Run

/-- **What the store keeps.** After fewer than `2^32` ingests: used slots have distinct ids; every
used slot records one of the packets; two slots that record packets of one owned type and one
owner (the sender of an announce or a node capability, the key of a prekey bundle) are the same;
and whatever a further ingest overwrites, it overwrites as `Overwrites` says. -/
theorem sync_store_keeps (sha256 : List UInt8 → Bytes 32) (ins : List IngestInput)
    (hlen : ins.length < 2 ^ 32) :
    let st := final (ingestStep sha256) SyncStore.init ins
    UniqueBy (fun s t => s.id = t.id) st.slots ∧
      (∀ s ∈ st.slots, s.inUse = true → ∃ i ∈ ins, Records sha256 s i) ∧
      (∀ (i j : Nat) (s t : SyncSlot) (a b : IngestInput), st.slots[i]? = some s →
        st.slots[j]? = some t → Records sha256 s a → Records sha256 t b →
        ownedType a.packet.type = true → a.packet.type = b.packet.type →
        deriveOwner sha256 a.packet = deriveOwner sha256 b.packet → i = j) ∧
      (∀ next j old new, st.slots[j]? = some old →
        (ingestStep sha256 st next).slots[j]? = some new → old.inUse = true → new ≠ old →
        Overwrites sha256 st next j old new) := by
  intro st
  have hinv : SyncInv sha256 st ins := (SyncInv.init sha256).final ins hlen
  refine ⟨hinv.ids, hinv.records, ?_, fun next j old new => hinv.overwrites next⟩
  intro i j s t a b hs ht hsa htb howned htype howner
  have hsame : s.type = t.type := by rw [hsa.type, htb.type, htype]
  refine hinv.owners i j s t hs ht hsa.inUse htb.inUse ⟨?_, hsame, ?_⟩
  · rw [hsa.type]
    exact howned
  · exact Option.some.inj (hsa.owner.symm.trans (howner.trans htb.owner))

/-- Eighty messages fill the store; the next one takes the slot of the first. -/
theorem sync_store_keeps_flood :
    ∃ old new, messageFlood.slots[0]? = some old ∧
      (ingestStep headDigest messageFlood (floodPacket bitchatMsgMessage 80)).slots[0]? = some new ∧
      new ≠ old ∧
      Overwrites headDigest messageFlood (floodPacket bitchatMsgMessage 80) 0 old new := by
  have hget : ∀ st : SyncStore, st.slots[0]? = some (st.slots.getD 0 {}) := by
    intro st
    have hlt : 0 < st.slots.length := by
      rw [st.length_slots]
      decide
    rw [List.getD_eq_getElem?_getD, List.getElem?_eq_getElem hlt]
    rfl
  have hflood : (messageFlood.slots.getD 0 {}).inUse = true ∧
      (ingestStep headDigest messageFlood (floodPacket bitchatMsgMessage 80)).slots.getD 0 {} ≠
        messageFlood.slots.getD 0 {} := by
    decide +kernel
  refine ⟨_, _, hget _, hget _, hflood.2, ?_⟩
  exact (sync_store_keeps headDigest ((List.range 80).map (floodPacket bitchatMsgMessage))
    (by rw [List.length_map, List.length_range]; decide)).2.2.2 _ 0 _ _ (hget _) (hget _)
    hflood.1 hflood.2

end Bitle
