import Bitle.Sync.Store

/-!
# Bitle — the class quotas of the sync store

What one ingest does to the number of slots of each class, and from it what whole runs do.
The one way past a quota is the first branch of `evict_for`: a new packet of a class at its
quota takes the first free or expired slot. `QuotaStep` is the condition that this slot, if
there is one, already belongs to the packet's class.
-/

namespace Bitle

open Wire Run Slots

/-- The used slots of a class. -/
def classCount (slots : List SyncSlot) (c : SyncClass) : Nat :=
  slots.countP fun s => s.inUse && syncClass s.type = c

/-- No class is above its quota. -/
def WithinQuotas (st : SyncStore) : Prop := ∀ c, classCount st.slots c ≤ c.quota

/-! ## The counts the code takes -/

theorem typeCount_eq (slots : List SyncSlot) (type : UInt8) :
    (if isAnnounceType type then (bitleSyncQuotaAnnounce, typeCount slots true false)
      else if type = bitchatMsgPrekeyBundle then
        (bitleSyncQuotaPrekey, typeCount slots false true)
      else (bitleSyncQuotaMessage, typeCount slots false false)) =
      ((syncClass type).quota, classCount slots (syncClass type)) := by
  have hpt : ∀ s : SyncSlot, isAnnounceType s.type = true → (s.type == bitchatMsgPrekeyBundle) = false := by
    intro s h
    simp only [isAnnounceType, Bool.or_eq_true, beq_iff_eq] at h
    rcases h with h | h <;> rw [h] <;> rfl
  unfold typeCount classCount syncClass
  split
  · refine Prod.ext rfl (List.countP_congr fun s _ => ?_)
    cases h : isAnnounceType s.type with
    | true => simp
    | false => by_cases hp : s.type = bitchatMsgPrekeyBundle <;> simp [hp]
  · split
    · refine Prod.ext rfl (List.countP_congr fun s _ => ?_)
      cases h : isAnnounceType s.type with
      | true => simp [hpt s h]
      | false => by_cases hp : s.type = bitchatMsgPrekeyBundle <;> simp [hp]
    · refine Prod.ext rfl (List.countP_congr fun s _ => ?_)
      cases h : isAnnounceType s.type with
      | true => simp
      | false => by_cases hp : s.type = bitchatMsgPrekeyBundle <;> simp [hp]

/-- The target of a new packet, by the count of its class. -/
theorem newTarget_eq (slots : List SyncSlot) (type : UInt8) (nowMs : UInt64) :
    newTarget slots type nowMs =
      if classCount slots (syncClass type) ≥ (syncClass type).quota then evictFor slots type nowMs
      else
        match slots.findIdx? fun s => !s.inUse with
        | some i => some i
        | none => evictFor slots type nowMs := by
  have hcount := typeCount_eq slots type
  unfold newTarget
  exact hcount ▸ rfl

/-- The used slots are the used slots of the three classes. -/
theorem countP_inUse_eq (slots : List SyncSlot) :
    slots.countP SyncSlot.inUse =
      classCount slots .announce + classCount slots .message + classCount slots .prekey := by
  induction slots with
  | nil => rfl
  | cons s slots ih =>
    simp only [classCount, List.countP_cons] at ih ⊢
    cases hu : s.inUse with
    | false => simp only [Bool.false_and]; simpa using ih
    | true =>
      cases hc : syncClass s.type <;> simp <;> omega

/-- With every class within its quota and one below it, a slot is free: the quotas add up to
the number of slots. -/
theorem exists_free_of_below {st : SyncStore} (hq : WithinQuotas st) {c : SyncClass}
    (hc : classCount st.slots c < c.quota) :
    ∃ i s, st.slots.findIdx? (fun s => !s.inUse) = some i ∧ st.slots[i]? = some s ∧
      s.inUse = false := by
  apply exists_findIdx?_not
  rw [countP_inUse_eq, st.length_slots]
  have ha := hq .announce
  have hm := hq .message
  have hp := hq .prekey
  simp only [SyncClass.quota, bitleSyncQuotaAnnounce, bitleSyncQuotaMessage, bitleSyncQuotaPrekey,
    bitleSyncSlots] at *
  cases c <;> simp only at hc <;> omega

/-! ## What the scans return -/

/-- The types with one record an owner. -/
def ownedType (type : UInt8) : Bool := isAnnounceType type || type == bitchatMsgPrekeyBundle

/-- The slot to replace is used and holds the record of the packet's owner. -/
theorem ingestScan_target {type : UInt8} {id : Bytes 16} {owner : Bytes 8} {ts : UInt64}
    {slots : List SyncSlot} {i j : Nat} {target : Option Nat}
    (h : ingestScan type id owner ts slots i target = some (some j)) :
    target = some j ∨ ∃ k s, j = i + k ∧ slots[k]? = some s ∧ s.inUse = true ∧
      ownedType type = true ∧ s.type = type ∧ s.owner = owner := by
  induction slots generalizing i target with
  | nil => exact Or.inl (by simpa [ingestScan] using h)
  | cons s slots ih =>
    have lift : (∃ k t, j = i + 1 + k ∧ slots[k]? = some t ∧ t.inUse = true ∧
          ownedType type = true ∧ t.type = type ∧ t.owner = owner) →
        ∃ k t, j = i + k ∧ (s :: slots)[k]? = some t ∧ t.inUse = true ∧
          ownedType type = true ∧ t.type = type ∧ t.owner = owner := by
      rintro ⟨k, t, hk, ht, hrest⟩
      exact ⟨k + 1, t, by omega, by simpa using ht, hrest⟩
    unfold ingestScan at h
    split at h
    · exact (ih h).imp_right lift
    · next hu =>
      split at h
      · simp at h
      · split at h
        · next hown =>
          split at h
          · simp at h
          · rcases ih h with ht | ht
            · simp only [Option.some.injEq] at ht
              rw [Bool.and_eq_true, Bool.and_eq_true, beq_iff_eq, beq_iff_eq] at hown
              exact Or.inr ⟨0, s, by omega, rfl, by simpa using hu, hown.1.1, hown.1.2, hown.2⟩
            · exact Or.inr (lift ht)
        · exact (ih h).imp_right lift

/-- A slot `evict_for` finds past its first branch is of the packet's own class. -/
theorem sameClass_syncClass {type : UInt8} {s : SyncSlot} (h : sameClass type s = true) :
    syncClass s.type = syncClass type := by
  unfold sameClass at h
  rw [Bool.or_eq_true] at h
  rcases h with h | h
  · rw [beq_iff_eq.mp h]
  · simp only [Bool.and_eq_true, Bool.not_eq_true', bne_iff_ne, ne_eq] at h
    obtain ⟨⟨⟨h1, h2⟩, h3⟩, h4⟩ := h
    simp [syncClass, h1, h2, h3, h4]

/-- What `evict_for` returns: the first free or expired slot, or else a used, fresh slot of the
packet's class. -/
theorem evictFor_cases {slots : List SyncSlot} {type : UInt8} {nowMs : UInt64} {i : Nat}
    (h : evictFor slots type nowMs = some i) :
    firstReusable slots nowMs = some i ∨
      firstReusable slots nowMs = none ∧ ∃ s, slots[i]? = some s ∧ s.inUse = true ∧
        syncClass s.type = syncClass type := by
  unfold evictFor at h
  cases hf : firstReusable slots nowMs with
  | some j =>
    rw [hf] at h
    exact Or.inl h
  | none =>
    rw [hf] at h
    obtain ⟨⟨j, s⟩, hm, rfl⟩ := Option.map_eq_some_iff.mp h
    rcases minScan_spec hm with hb | ⟨k, hk, hs, hp⟩
    · simp at hb
    · have hk : j = k := by omega
      subst hk
      have hused : s.inUse = true := by
        have := List.findIdx?_eq_none_iff.mp hf s (List.mem_of_getElem? hs)
        simp only [Bool.or_eq_false_iff, Bool.not_eq_false'] at this
        exact this.1
      exact Or.inr ⟨rfl, s, hs, hused, sameClass_syncClass hp⟩

/-! ## One ingest -/

/-- The arguments of one `bitle_sync_ingest` call, with the clock it reads. -/
structure IngestInput where
  nowMs : UInt64
  packet : BitchatPacket
  raw : List UInt8

section Ingest

variable (sha256 : List UInt8 → Bytes 32)

/-- One call as a step of the store. -/
def ingestStep (st : SyncStore) (i : IngestInput) : SyncStore :=
  bitleSyncIngest sha256 st i.nowMs i.packet i.raw

/-- The packet passes every check and is neither stored already nor a newer record of an owner
that has one. -/
def IsNew (st : SyncStore) (i : IngestInput) : Prop :=
  ingestAcceptable i.nowMs i.packet i.raw = true ∧
    ∃ owner, deriveOwner sha256 i.packet = some owner ∧
      ingestScan i.packet.type (packetId sha256 i.packet) owner i.packet.timestampMs st.slots 0
        none = some none

/-- The packet passes every check, is not stored yet and is newer than what its owner has
stored. -/
def IsFresh (st : SyncStore) (i : IngestInput) : Prop :=
  ingestAcceptable i.nowMs i.packet i.raw = true ∧
    ∃ owner, deriveOwner sha256 i.packet = some owner ∧
      ingestScan i.packet.type (packetId sha256 i.packet) owner i.packet.timestampMs st.slots 0
        none ≠ none

/-- The packet is in the store, with its frame. -/
def IsStored (st : SyncStore) (i : IngestInput) : Prop :=
  ∃ s ∈ st.slots, s.inUse = true ∧ s.type = i.packet.type ∧ s.id = packetId sha256 i.packet ∧
    s.timestampMs = i.packet.timestampMs ∧ s.frame = i.raw

/-- When a new packet's class is at its quota, the first free or expired slot, if there is one,
is a used slot of that class. -/
def QuotaStep (st : SyncStore) (i : IngestInput) : Prop :=
  IsNew sha256 st i → (syncClass i.packet.type).quota ≤ classCount st.slots (syncClass i.packet.type) →
    ∀ j s, firstReusable st.slots i.nowMs = some j → st.slots[j]? = some s →
      s.inUse = true ∧ syncClass s.type = syncClass i.packet.type

variable {sha256}

/-- How storing a packet changes the counts. -/
theorem classCount_store {st : SyncStore} {j : Nat} {old : SyncSlot} (packet : BitchatPacket)
    (id : Bytes 16) (owner : Bytes 8) (raw : List UInt8) (h : st.slots[j]? = some old)
    (c : SyncClass) :
    classCount (st.store j packet id owner raw).slots c +
        (if old.inUse = true ∧ syncClass old.type = c then 1 else 0) =
      classCount st.slots c + (if syncClass packet.type = c then 1 else 0) := by
  have := countP_set_add (p := fun s : SyncSlot => s.inUse && syncClass s.type = c)
    { inUse := true, type := packet.type, id := id, timestampMs := packet.timestampMs,
      ingestSeq := st.ingestSeq + 1, owner := owner, frame := raw } h
  simpa [classCount, SyncStore.store] using this

/-- Overwriting a slot of the packet's own class leaves the counts as they are. -/
theorem WithinQuotas.store_sameClass {st : SyncStore} (hq : WithinQuotas st) {j : Nat}
    {old : SyncSlot} {packet : BitchatPacket} (id : Bytes 16) (owner : Bytes 8)
    (raw : List UInt8) (h : st.slots[j]? = some old) (hu : old.inUse = true)
    (hc : syncClass old.type = syncClass packet.type) :
    WithinQuotas (st.store j packet id owner raw) := by
  intro c
  have := classCount_store packet id owner raw h c
  simp only [hu, hc, true_and] at this
  have := hq c
  omega

/-- A packet of a class below its quota may take any slot. -/
theorem WithinQuotas.store_below {st : SyncStore} (hq : WithinQuotas st) {j : Nat}
    {old : SyncSlot} {packet : BitchatPacket} (id : Bytes 16) (owner : Bytes 8)
    (raw : List UInt8) (h : st.slots[j]? = some old)
    (hc : classCount st.slots (syncClass packet.type) < (syncClass packet.type).quota) :
    WithinQuotas (st.store j packet id owner raw) := by
  intro c
  have := classCount_store packet id owner raw h c
  have := hq c
  by_cases hcc : syncClass packet.type = c
  · subst hcc
    simp only [if_true] at *
    omega
  · simp only [hcc, if_false] at *
    omega

/-- A packet of a class at its quota that takes a slot outside the class breaks the quota. -/
theorem not_withinQuotas_store {st : SyncStore} {j : Nat} {old : SyncSlot}
    {packet : BitchatPacket} (id : Bytes 16) (owner : Bytes 8) (raw : List UInt8)
    (h : st.slots[j]? = some old)
    (hc : (syncClass packet.type).quota ≤ classCount st.slots (syncClass packet.type))
    (hold : ¬ (old.inUse = true ∧ syncClass old.type = syncClass packet.type)) :
    ¬ WithinQuotas (st.store j packet id owner raw) := by
  intro hw
  have h1 := classCount_store packet id owner raw h (syncClass packet.type)
  have h2 := hw (syncClass packet.type)
  rw [if_neg hold, if_pos rfl] at h1
  omega

/-- A new packet of a class below its quota goes to the first unused slot. -/
theorem ingestStep_below {st : SyncStore} (hq : WithinQuotas st) {i : IngestInput}
    (hnew : IsNew sha256 st i)
    (hc : classCount st.slots (syncClass i.packet.type) < (syncClass i.packet.type).quota) :
    ∃ j s owner, st.slots[j]? = some s ∧
      ingestStep sha256 st i = st.store j i.packet (packetId sha256 i.packet) owner i.raw := by
  obtain ⟨hacc, owner, hown, hscan⟩ := hnew
  obtain ⟨j, s, hj, hs, -⟩ := exists_free_of_below hq hc
  refine ⟨j, s, owner, hs, ?_⟩
  simp [ingestStep, bitleSyncIngest, hacc, hown, hscan, newTarget_eq, Nat.not_le.mpr hc, hj]

/-- A new packet of a class at its quota goes where `evict_for` says. -/
theorem ingestStep_full {st : SyncStore} {i : IngestInput} (hnew : IsNew sha256 st i)
    (hc : (syncClass i.packet.type).quota ≤ classCount st.slots (syncClass i.packet.type)) :
    ∃ owner, ingestStep sha256 st i =
      match evictFor st.slots i.packet.type i.nowMs with
      | none => st
      | some j => st.store j i.packet (packetId sha256 i.packet) owner i.raw := by
  obtain ⟨hacc, owner, hown, hscan⟩ := hnew
  refine ⟨owner, ?_⟩
  cases hev : evictFor st.slots i.packet.type i.nowMs with
  | none =>
    simp only [ingestStep, bitleSyncIngest, hacc, hown, hscan, newTarget_eq, hc, if_true,
      Bool.not_true, Bool.false_eq_true, if_false, hev]
  | some j =>
    simp only [ingestStep, bitleSyncIngest, hacc, hown, hscan, newTarget_eq, hc, if_true,
      Bool.not_true, Bool.false_eq_true, if_false, hev]

/-- A new packet with no slot to go to is dropped. -/
theorem ingestStep_no_target {st : SyncStore} {i : IngestInput} {owner : Bytes 8}
    (hacc : ingestAcceptable i.nowMs i.packet i.raw = true)
    (hown : deriveOwner sha256 i.packet = some owner)
    (hscan : ingestScan i.packet.type (packetId sha256 i.packet) owner i.packet.timestampMs
      st.slots 0 none = some none)
    (ht : newTarget st.slots i.packet.type i.nowMs = none) : ingestStep sha256 st i = st := by
  simp [ingestStep, bitleSyncIngest, hacc, hown, hscan, ht]

/-- A packet that is fresh but not new replaces a record of its own type. -/
theorem ingestStep_replaces {st : SyncStore} {i : IngestInput} (hf : IsFresh sha256 st i)
    (h : ¬ IsNew sha256 st i) :
    ∃ j s owner, st.slots[j]? = some s ∧ (s.inUse = true ∧ s.type = i.packet.type) ∧
      ingestStep sha256 st i = st.store j i.packet (packetId sha256 i.packet) owner i.raw := by
  obtain ⟨hacc, owner, hown, hscan⟩ := hf
  obtain ⟨target, ht⟩ := Option.ne_none_iff_exists'.mp hscan
  cases target with
  | none => exact absurd ⟨hacc, owner, hown, ht⟩ h
  | some j =>
    rcases ingestScan_target ht with h0 | ⟨k, s, hk, hs, hu, -, hty, -⟩
    · simp at h0
    · obtain rfl : j = k := by omega
      exact ⟨j, s, owner, hs, ⟨hu, hty⟩, by simp [ingestStep, bitleSyncIngest, hacc, hown, ht]⟩

/-- A packet that is not fresh is ignored. -/
theorem ingestStep_not_isFresh {st : SyncStore} {i : IngestInput} (h : ¬ IsFresh sha256 st i) :
    ingestStep sha256 st i = st := by
  unfold ingestStep bitleSyncIngest
  cases hacc : ingestAcceptable i.nowMs i.packet i.raw with
  | false => rfl
  | true =>
    cases hown : deriveOwner sha256 i.packet with
    | none => rfl
    | some owner =>
      have hscan : ingestScan i.packet.type (packetId sha256 i.packet) owner
          i.packet.timestampMs st.slots 0 none = none := by
        by_contra hne
        exact h ⟨hacc, owner, hown, hne⟩
      simp [hscan]

/-- **One ingest.** From a state within the quotas, the next state is within them exactly when
the step meets `QuotaStep`. -/
theorem quotaStep_iff {st : SyncStore} (hq : WithinQuotas st) (i : IngestInput) :
    QuotaStep sha256 st i ↔ WithinQuotas (ingestStep sha256 st i) := by
  by_cases hnew : IsNew sha256 st i
  · by_cases hc : (syncClass i.packet.type).quota ≤ classCount st.slots (syncClass i.packet.type)
    · -- the class is at its quota: what is evicted decides
      obtain ⟨owner, hstep⟩ := ingestStep_full hnew hc
      rw [hstep]
      constructor
      · intro hqs
        cases hev : evictFor st.slots i.packet.type i.nowMs with
        | none => exact hq
        | some j =>
          rcases evictFor_cases hev with hf | ⟨-, s, hs, hu, hsc⟩
          · obtain ⟨hj, -, -⟩ := List.findIdx?_eq_some_iff_getElem.mp hf
            have hs := List.getElem?_eq_getElem hj
            obtain ⟨hu, hsc⟩ := hqs hnew hc j _ hf hs
            exact hq.store_sameClass _ _ _ hs hu hsc
          · exact hq.store_sameClass _ _ _ hs hu hsc
      · intro hw _ _ j s hf hs
        have hev : evictFor st.slots i.packet.type i.nowMs = some j := by
          unfold evictFor
          rw [hf]
        rw [hev] at hw
        by_contra hold
        exact not_withinQuotas_store _ _ _ hs hc hold hw
    · -- below its quota a class may grow by one
      refine iff_of_true (fun _ h => absurd h hc) ?_
      obtain ⟨j, s, owner, hs, hstep⟩ := ingestStep_below hq hnew (by omega)
      rw [hstep]
      exact hq.store_below _ _ _ hs (by omega)
  · -- a record of the same owner is replaced, or nothing is stored
    refine iff_of_true (fun h => absurd h hnew) ?_
    by_cases hf : IsFresh sha256 st i
    · obtain ⟨j, s, owner, hs, ⟨hu, hty⟩, h⟩ := ingestStep_replaces hf hnew
      rw [h]
      exact hq.store_sameClass _ _ _ hs hu (by rw [hty])
    · rw [ingestStep_not_isFresh hf]
      exact hq

/-! ## Runs -/

theorem withinQuotas_init : WithinQuotas SyncStore.init := by
  intro c
  have : classCount SyncStore.init.slots c = 0 := by
    simp [classCount, SyncStore.init, List.countP_replicate]
  omega

/-- What storing a packet leaves in the store. -/
theorem isStored_store {st : SyncStore} {i : IngestInput} {j : Nat} {s : SyncSlot}
    (owner : Bytes 8) (h : st.slots[j]? = some s) :
    IsStored sha256 (st.store j i.packet (packetId sha256 i.packet) owner i.raw) i := by
  obtain ⟨hj, -⟩ := List.getElem?_eq_some_iff.mp h
  exact ⟨_, List.mem_set hj _, rfl, rfl, rfl, rfl, rfl⟩

/-- **The quotas along a run.** Every state of a run from boot is within the quotas exactly when
every ingest of it meets `QuotaStep`; and after such a run a new acceptable packet of a class
below its quota is stored. -/
theorem sync_quotas (sha256 : List UInt8 → Bytes 32) (ins : List IngestInput) :
    (Along (ingestStep sha256) (QuotaStep sha256) SyncStore.init ins ↔
      ∀ pre, pre <+: ins → WithinQuotas (final (ingestStep sha256) SyncStore.init pre)) ∧
    (Along (ingestStep sha256) (QuotaStep sha256) SyncStore.init ins → ∀ i,
      IsFresh sha256 (final (ingestStep sha256) SyncStore.init ins) i →
      classCount (final (ingestStep sha256) SyncStore.init ins).slots (syncClass i.packet.type) <
        (syncClass i.packet.type).quota →
      IsStored sha256 (ingestStep sha256 (final (ingestStep sha256) SyncStore.init ins) i) i) := by
  have hiff : Along (ingestStep sha256) (QuotaStep sha256) SyncStore.init ins ↔
      ∀ pre, pre <+: ins → WithinQuotas (final (ingestStep sha256) SyncStore.init pre) :=
    along_iff_invariant WithinQuotas (fun _ i h => quotaStep_iff h i) withinQuotas_init
  refine ⟨hiff, fun hrun i hfresh hc => ?_⟩
  have hq := hiff.mp hrun ins (List.prefix_refl ins)
  by_cases hnew : IsNew sha256 (final (ingestStep sha256) SyncStore.init ins) i
  · obtain ⟨j, s, owner, hs, hstep⟩ := ingestStep_below hq hnew hc
    rw [hstep]
    exact isStored_store owner hs
  · obtain ⟨j, s, owner, hs, -, hstep⟩ := ingestStep_replaces hfresh hnew
    rw [hstep]
    exact isStored_store owner hs

end Ingest

/-- The `n`-th packet of a flood: sender `n`, one byte of payload, a signature. -/
def floodPacket (type : UInt8) (n : Nat) : IngestInput :=
  { nowMs := 0
    packet :=
      { version := 1, type := type, ttl := 7, timestampMs := 1, senderId := copyAt 8 [n.toUInt8] 0,
        recipientId := zeros 8, hasRecipient := false, isCompressed := false, isRsr := false,
        opaqueOnly := false, payload := ⟨[0x2A], by decide⟩, signature := zeros 64,
        hasSignature := true }
    raw := [0x01, type, 7] ++ beBytes 8 1 ++ [0x02, 0, 1] ++ [n.toUInt8, 0, 0, 0, 0, 0, 0, 0] ++
      [0x2A] ++ List.replicate 64 0 }

/-- The digest used in the floods below keeps the first 32 bytes of what it hashes, so the
packets there have distinct ids, as under SHA-256. -/
def headDigest (l : List UInt8) : Bytes 32 := copyAt 32 l 0

/-- Eighty messages, one after the other. -/
def messageFlood : SyncStore :=
  final (ingestStep headDigest) SyncStore.init
    ((List.range 80).map (floodPacket bitchatMsgMessage))

/-- Twenty-five announces exceed the announce quota; and after eighty messages, an announce is
fresh, its class is empty, and it is dropped. -/
theorem announce_flood_exceeds_quota :
    ¬ WithinQuotas (final (ingestStep headDigest) SyncStore.init
        ((List.range 25).map (floodPacket bitchatMsgAnnounce))) ∧
    IsFresh headDigest messageFlood (floodPacket bitchatMsgAnnounce 0) ∧
    classCount messageFlood.slots .announce = 0 ∧
    ¬ IsStored headDigest (ingestStep headDigest messageFlood (floodPacket bitchatMsgAnnounce 0))
      (floodPacket bitchatMsgAnnounce 0) := by
  have hflood : ingestScan bitchatMsgAnnounce
        (packetId headDigest (floodPacket bitchatMsgAnnounce 0).packet) (zeros 8) 1
        messageFlood.slots 0 none = some none ∧
      newTarget messageFlood.slots bitchatMsgAnnounce 0 = none ∧
      classCount messageFlood.slots .announce = 0 ∧
      messageFlood.slots.all (fun s => s.type == bitchatMsgMessage) := by
    decide +kernel
  obtain ⟨hscan, htarget, hcount, htypes⟩ := hflood
  refine ⟨fun h => absurd (h .announce) (by decide +kernel), ⟨by decide, zeros 8, by decide, ?_⟩,
    hcount, ?_⟩
  · exact fun h => absurd (hscan.symm.trans h) (by decide)
  · have hsame : ingestStep headDigest messageFlood (floodPacket bitchatMsgAnnounce 0) =
        messageFlood :=
      ingestStep_no_target (by decide) (by decide) hscan htarget
    rw [hsame]
    rintro ⟨s, hs, -, hty, -⟩
    have := List.all_eq_true.mp htypes s hs
    rw [hty] at this
    exact absurd this (by decide)

end Bitle
