import Mathlib.Data.Finset.Card
import Bitle.Store.Ring

/-!
# Bitle — `bitle_store_put` on a flash without faults

The two loops of a put end, and end with room: the quota loop because a full index has records
in three sectors at least, one of which can be reclaimed (`reclaimOldestSector_eq`), and because
each round frees a sector; the loop that finds room because a sector just opened takes any
record. `Ring.put` then says what the whole call does to the bindings.
-/

namespace Bitle

open Wire Flash Slots

variable {crc32 : UInt32 → List UInt8 → UInt32} {now : UInt32} {st : StoreState}
  {S : Nat → Option LogSector} {h : Nat}

theorem mem_sectorBases {base : Nat} : base ∈ sectorBases ↔ ∃ i, i < 96 ∧ base = i * 4096 := by
  simp [sectorBases, storePartSize, storeSectorSize, eq_comm]

/-! ## Reclaiming -/

/-- What `reclaim_oldest_sector` asks of a sector. -/
def Reclaimable (st : StoreState) (base : Nat) : Prop :=
  (readSectorHdr st.mem base).magic = storeSectorMagic ∧
    (readSectorHdr st.mem base).seq < 0xFFFFFFFF ∧ base ≠ sectorBase st.writeOff

theorem readOk_good {off n : Nat} (h : off + n ≤ 0x60000) :
    espPartitionReadOk .good off n = true := by
  unfold espPartitionReadOk storePartSize
  simpa [FlashEnv.good] using h

/-- The scan picks a reclaimable sector, or what it had. -/
theorem oldestScan_some {env : FlashEnv} {bases : List Nat} {acc : UInt32 × Option Nat}
    {base : Nat} (hacc : acc.1 ≤ 0xFFFFFFFF)
    (hs : (bases.foldl (oldestStep env st) acc).2 = some base) :
    acc.2 = some base ∨ base ∈ bases ∧ Reclaimable st base := by
  induction bases generalizing acc with
  | nil => exact .inl hs
  | cons b bases ih =>
    rw [List.foldl_cons] at hs
    unfold oldestStep at hs
    dsimp only at hs
    split at hs
    · rename_i hc
      simp only [Bool.and_eq_true, beq_iff_eq, decide_eq_true_eq, bne_iff_ne] at hc
      obtain ⟨⟨⟨-, hmagic⟩, hlt⟩, hne⟩ := hc
      have hlt' := Std.lt_of_lt_of_le hlt hacc
      rcases ih (Std.le_of_lt hlt') hs with hb | ⟨hb, hrec⟩
      · obtain rfl : b = base := by simpa using hb
        exact .inr ⟨List.mem_cons_self, hmagic, hlt', hne⟩
      · exact .inr ⟨List.mem_cons_of_mem _ hb, hrec⟩
    · exact (ih hacc hs).imp_right fun hb => ⟨List.mem_cons_of_mem _ hb.1, hb.2⟩

variable (st) in
theorem oldestScan_isSome (bases : List Nat) (acc : UInt32 × Option Nat)
    (hacc : acc.2.isSome = true) :
    (bases.foldl (oldestStep .good st) acc).2.isSome = true := by
  induction bases generalizing acc with
  | nil => exact hacc
  | cons b bases ih =>
    refine ih _ ?_
    unfold oldestStep
    dsimp only
    split
    · rfl
    · exact hacc

/-- The scan comes back empty-handed only if no sector is reclaimable. -/
theorem oldestScan_none {bases : List Nat} (hb : ∀ b ∈ bases, b + 8 ≤ 0x60000)
    (hs : (bases.foldl (oldestStep .good st) (0xFFFFFFFF, none)).2 = none) :
    ∀ b ∈ bases, ¬ Reclaimable st b := by
  induction bases with
  | nil => simp
  | cons b bases ih =>
    rw [List.foldl_cons] at hs
    by_cases hrec : Reclaimable st b
    · -- once a sector is picked the scan keeps one
      have hpick : oldestStep .good st (0xFFFFFFFF, none) b =
          ((readSectorHdr st.mem b).seq, some b) := by
        refine if_pos ?_
        have hok := readOk_good (hb b List.mem_cons_self)
        simp [storeSectorHdrSize, hok, hrec.1, hrec.2.1, hrec.2.2]
      rw [hpick] at hs
      have hsome := oldestScan_isSome st bases ((readSectorHdr st.mem b).seq, some b) rfl
      simp [hs] at hsome
    · have hskip : oldestStep .good st (0xFFFFFFFF, none) b = (0xFFFFFFFF, none) := by
        refine if_neg fun hc => hrec ?_
        simp only [Bool.and_eq_true, beq_iff_eq, decide_eq_true_eq, bne_iff_ne] at hc
        exact ⟨hc.1.1.2, hc.1.2, hc.2⟩
      rw [hskip] at hs
      intro x hx
      rcases List.mem_cons.mp hx with rfl | hx
      · exact hrec
      · exact ih (fun y hy => hb y (List.mem_cons_of_mem _ hy)) hs x hx

/-- Nothing reclaimable is older than what the scan picks. -/
theorem oldestScan_le {bases : List Nat} (hb : ∀ b ∈ bases, b + 8 ≤ 0x60000)
    (acc : UInt32 × Option Nat) :
    (bases.foldl (oldestStep .good st) acc).1 ≤ acc.1 ∧
      ∀ b ∈ bases, Reclaimable st b →
        (bases.foldl (oldestStep .good st) acc).1 ≤ (readSectorHdr st.mem b).seq := by
  induction bases generalizing acc with
  | nil => exact ⟨Std.le_refl _, by simp⟩
  | cons b bases ih =>
    have hstep : (oldestStep .good st acc b).1 ≤ acc.1 ∧
        (Reclaimable st b → (oldestStep .good st acc b).1 ≤ (readSectorHdr st.mem b).seq) := by
      have hok := readOk_good (hb b List.mem_cons_self)
      unfold oldestStep
      dsimp only
      split
      · rename_i hc
        simp only [Bool.and_eq_true, decide_eq_true_eq] at hc
        exact ⟨Std.le_of_lt hc.1.2, fun _ => Std.le_refl _⟩
      · rename_i hc
        refine ⟨Std.le_refl _, fun hrec => Std.not_lt.mp fun hlt => hc ?_⟩
        simp [storeSectorHdrSize, hok, hrec.1, hlt, hrec.2.2]
    obtain ⟨hle, hmin⟩ := ih (fun x hx => hb x (List.mem_cons_of_mem _ hx))
      (oldestStep .good st acc b)
    refine ⟨Std.le_trans hle hstep.1, fun x hx hrec => ?_⟩
    rcases List.mem_cons.mp hx with rfl | hx
    · exact Std.le_trans hle (hstep.2 hrec)
    · exact hmin x hx hrec

/-- The number the scan keeps is that of the sector it picks. -/
theorem oldestScan_seq {env : FlashEnv} (bases : List Nat) {acc : UInt32 × Option Nat}
    (hacc : ∀ b, acc.2 = some b → acc.1 = (readSectorHdr st.mem b).seq) (b : Nat)
    (hs : (bases.foldl (oldestStep env st) acc).2 = some b) :
    (bases.foldl (oldestStep env st) acc).1 = (readSectorHdr st.mem b).seq := by
  induction bases generalizing acc with
  | nil => exact hacc b hs
  | cons x bases ih =>
    refine ih (fun y hy => ?_) hs
    unfold oldestStep at hy ⊢
    dsimp only at hy ⊢
    split at hy
    · rename_i hc
      rw [if_pos hc]
      obtain rfl : x = y := Option.some.inj hy
      rfl
    · rename_i hc
      rw [if_neg hc]
      exact hacc y hy

/-- At most one sector has the highest number there is. -/
def OneTop (S : Nat → Option LogSector) : Prop :=
  ∀ i j, i < 96 → j < 96 → ∀ s s', S i = some s → S j = some s' → s.seq = 0xFFFFFFFF →
    s'.seq = 0xFFFFFFFF → i = j

theorem Ring.oneTop (hr : Ring crc32 now st S h) : OneTop S := by
  intro i j hi hj s s' hs hs' hm hm'
  have h1 := (hr.wrap i hi s hs hm).2
  have h2 := (hr.wrap j hj s' hs' hm').2
  omega

theorem OneTop.update_none (htop : OneTop S) (j : Nat) : OneTop (Function.update S j none) := by
  have hold : ∀ {i : Nat} {s : LogSector}, Function.update S j none i = some s → S i = some s := by
    intro i s hs
    by_cases hij : i = j
    · rw [hij, Function.update_self] at hs
      cases hs
    · rwa [Function.update_of_ne hij] at hs
  intro i k hi hk s s' hs hs'
  exact htop i k hi hk s s' (hold hs) (hold hs')

namespace LogRing

/-- The index has at most 123 entries in one sector. -/
theorem countP_sector_le (hr : LogRing crc32 st S h) (i : Nat) :
    st.index.countP (fun e => sectorBase e.offset == i * 4096) ≤ 123 := by
  rw [List.countP_eq_length_filter]
  by_cases hused : ∃ s, i < 96 ∧ S i = some s
  · obtain ⟨s, hi, hs⟩ := hused
    have hat := hr.log.used i hi s hs
    -- its entries have distinct offsets, all of them of records of the sector
    have hnd : ((st.index.filter fun e => sectorBase e.offset == i * 4096).map (·.offset)).Nodup := by
      refine List.Nodup.map_on (fun e he e' he' hoff => ?_)
        ((List.Nodup.of_map _ hr.index.nodup).filter _)
      obtain ⟨seq, r, hr1, -, rfl⟩ := hr.index.sound e (List.mem_filter.mp he).1
      obtain ⟨seq', r', hr2, -, rfl⟩ := hr.index.sound e' (List.mem_filter.mp he').1
      obtain ⟨rfl, rfl⟩ := hr.log.stored_off hr1 hr2 hoff
      rfl
    have hsub : ((st.index.filter fun e => sectorBase e.offset == i * 4096).map (·.offset)) ⊆
        s.recs.map (·.off) := by
      intro off hoff
      obtain ⟨e, he, rfl⟩ := List.mem_map.mp hoff
      obtain ⟨he, hb⟩ := List.mem_filter.mp he
      obtain ⟨seq, r, ⟨j, hj, s', hs', -, hmem⟩, -, rfl⟩ := hr.index.sound e he
      have hbase := (hr.log.sectorBase_off hj hs' hmem).symm.trans (beq_iff_eq.mp hb)
      obtain rfl : j = i := by omega
      rw [hs, Option.some.injEq] at hs'
      subst hs'
      exact List.mem_map_of_mem hmem
    have hle := (hnd.subperm hsub).length_le
    rw [List.length_map, List.length_map] at hle
    exact Nat.le_trans hle hat.length_le
  · -- a sector that is not in use has no entries
    have hnil : st.index.filter (fun e => sectorBase e.offset == i * 4096) = [] := by
      refine List.filter_eq_nil_iff.mpr fun e he hb => ?_
      obtain ⟨seq, r, ⟨j, hj, s, hs', -, hmem⟩, -, rfl⟩ := hr.index.sound e he
      have hbase := (hr.log.sectorBase_off hj hs' hmem).symm.trans (beq_iff_eq.mp hb)
      obtain rfl : j = i := by omega
      exact hused ⟨s, hj, hs'⟩
    simp [hnil]

/-- Where nothing is reclaimable, all entries are in two sectors. -/
theorem entries_in_two (hr : LogRing crc32 st S h) (htop : OneTop S)
    (hno : ∀ b ∈ sectorBases, ¬ Reclaimable st b) :
    ∃ y, ∀ e ∈ st.index,
      sectorBase e.offset = st.writeOff / 4096 * 4096 ∨ sectorBase e.offset = y * 4096 := by
  have hw : sectorBase st.writeOff = st.writeOff / 4096 * 4096 := by
    unfold sectorBase storeSectorSize
    omega
  -- a sector is spared as the head or for the largest sequence number, which one sector has
  have hcase : ∀ i, i < 96 → ∀ s, S i = some s →
      i * 4096 = st.writeOff / 4096 * 4096 ∨ s.seq = 0xFFFFFFFF := by
    intro i hi s hs
    by_cases hb : i * 4096 = st.writeOff / 4096 * 4096
    · exact .inl hb
    · right
      by_contra hmax
      have hhdr := (hr.log.used i hi s hs).hdr
      refine hno _ (mem_sectorBases.mpr ⟨i, hi, rfl⟩) ⟨by rw [hhdr], ?_, by rwa [hw]⟩
      rw [hhdr, UInt32.lt_iff_toNat_lt]
      have hlt := s.seq.toNat_lt
      have hne : s.seq.toNat ≠ 0xFFFFFFFF := fun heq => hmax (UInt32.toNat_inj.mp heq)
      show s.seq.toNat < 0xFFFFFFFF
      omega
  have hentry : ∀ e ∈ st.index, ∃ i, i < 96 ∧ ∃ s, S i = some s ∧ sectorBase e.offset = i * 4096 := by
    intro e he
    obtain ⟨seq, r, ⟨i, hi, s, hs, -, hmem⟩, -, rfl⟩ := hr.index.sound e he
    exact ⟨i, hi, s, hs, hr.log.sectorBase_off hi hs hmem⟩
  by_cases hmax : ∃ y, y < 96 ∧ ∃ s, S y = some s ∧ s.seq = 0xFFFFFFFF
  · obtain ⟨y, hy, sy, hsy, hmy⟩ := hmax
    refine ⟨y, fun e he => ?_⟩
    obtain ⟨i, hi, s, hs, hbase⟩ := hentry e he
    rcases hcase i hi s hs with hb | hm
    · exact .inl (hbase.trans hb)
    · exact .inr (htop i y hi hy s sy hs hsy hm hmy ▸ hbase)
  · refine ⟨0, fun e he => ?_⟩
    obtain ⟨i, hi, s, hs, hbase⟩ := hentry e he
    rcases hcase i hi s hs with hb | hm
    · exact .inl (hbase.trans hb)
    · exact absurd ⟨i, hi, s, hs, hm⟩ hmax

/-- **A full index can be reduced.** Its 256 entries do not fit into the head and the one sector
with the highest number, which are the only ones that are not reclaimed. -/
theorem exists_reclaimable (hr : LogRing crc32 st S h) (htop : OneTop S)
    (hfull : 256 ≤ st.index.length) : ∃ b ∈ sectorBases, Reclaimable st b := by
  by_contra hno
  obtain ⟨y, htwo⟩ := hr.entries_in_two htop fun b hb hrec => hno ⟨b, hb, hrec⟩
  have hx := hr.countP_sector_le (st.writeOff / 4096)
  have hy := hr.countP_sector_le y
  have hsum := List.length_eq_countP_add_countP
    (fun e : StoreIndexEntry => sectorBase e.offset == st.writeOff / 4096 * 4096) (l := st.index)
  have hrest : st.index.countP
      (fun e => ¬ (sectorBase e.offset == st.writeOff / 4096 * 4096) = true) ≤
      st.index.countP (fun e => sectorBase e.offset == y * 4096) := by
    refine List.countP_mono_left fun e he hne => ?_
    rw [beq_iff_eq]
    exact (htwo e he).resolve_left (by simpa using hne)
  omega

end LogRing

/-- The store behind the reclaim of sector `j`. -/
def StoreState.reclaimed (st : StoreState) (j : Nat) : StoreState :=
  eraseSector { st with index := dropSector st.index (j * 4096) } (j * 4096)

/-- The sector that is reclaimed: one in use, and of all but the one that `sector_base` names for
the write offset the oldest. -/
structure Reclaimed (st : StoreState) (S : Nat → Option LogSector) (j : Nat) : Prop where
  lt : j < 96
  used : (S j).isSome = true
  not_head : j * 4096 ≠ sectorBase st.writeOff
  oldest : ∀ i, i < 96 → i * 4096 ≠ sectorBase st.writeOff → ∀ s s', S i = some s →
    S j = some s' → s'.seq ≤ s.seq

/-- What `reclaim_oldest_sector` does when the index is full. -/
theorem LogRing.reclaimOldestSector_eq (hr : LogRing crc32 st S h) (htop : OneTop S)
    (hfull : 256 ≤ st.index.length) :
    ∃ j, Reclaimed st S j ∧ reclaimOldestSector .good st = some (st.reclaimed j) := by
  have hbound : ∀ b ∈ sectorBases, b + 8 ≤ 0x60000 := by
    intro b hb
    obtain ⟨i, hi, rfl⟩ := mem_sectorBases.mp hb
    omega
  cases hscan : (sectorBases.foldl (oldestStep .good st) (0xFFFFFFFF, none)).2 with
  | none =>
    obtain ⟨b, hb, hrec⟩ := hr.exists_reclaimable htop hfull
    exact absurd hrec (oldestScan_none hbound hscan b hb)
  | some base =>
    rcases oldestScan_some (Std.le_refl _) hscan with hb | ⟨hb, hmagic, -, hne⟩
    · simp at hb
    · obtain ⟨j, hj, rfl⟩ := mem_sectorBases.mp hb
      have hseq := oldestScan_seq sectorBases (by simp) _ hscan
      have hmin : ∀ b ∈ sectorBases, Reclaimable st b → _ :=
        (oldestScan_le hbound (0xFFFFFFFF, none)).2
      refine ⟨j, ⟨hj, ?_, hne, fun i hi hni s s' hs hs' => ?_⟩, ?_⟩
      · cases hs : S j with
        | none => exact absurd hmagic (hr.log.unused j hj hs)
        | some s => rfl
      · have hhdr := (hr.log.used i hi s hs).hdr
        have hhdr' := (hr.log.used j hj s' hs').hdr
        rw [hseq, hhdr'] at hmin
        by_cases htop' : s.seq = 0xFFFFFFFF
        · -- nothing is above the highest number
          rw [htop', UInt32.le_iff_toNat_le]
          exact Nat.le_of_lt_succ s'.seq.toNat_lt
        · have hlt : s.seq < 0xFFFFFFFF := by
            have h1 := s.seq.toNat_lt
            have h2 : s.seq.toNat ≠ 0xFFFFFFFF := fun heq => htop' (UInt32.toNat_inj.mp heq)
            rw [UInt32.lt_iff_toNat_lt]
            show s.seq.toNat < 0xFFFFFFFF
            omega
          have hle := hmin (i * 4096) (mem_sectorBases.mpr ⟨i, hi, rfl⟩)
            ⟨by rw [hhdr], by rw [hhdr]; exact hlt, hni⟩
          rwa [hhdr] at hle
      · rw [reclaimOldestSector, hscan]
        rfl

/-! ## The two loops -/

/-- The sectors in use. -/
def usedSectors (S : Nat → Option LogSector) : Finset Nat :=
  (Finset.range 96).filter fun i => (S i).isSome = true

theorem card_usedSectors_update {j : Nat} (hj : j < 96) (hs : (S j).isSome = true) :
    (usedSectors (Function.update S j none)).card < (usedSectors S).card := by
  apply Finset.card_lt_card
  rw [Finset.ssubset_iff_of_subset]
  · exact ⟨j, by simp [usedSectors, hj, hs], by simp [usedSectors]⟩
  · intro i hi
    simp only [usedSectors, Finset.mem_filter] at hi ⊢
    refine ⟨hi.1, ?_⟩
    by_cases hij : i = j
    · rwa [hij]
    · simpa [Function.update_of_ne hij] using hi.2

theorem card_usedSectors_le (S : Nat → Option LogSector) : (usedSectors S).card ≤ 96 :=
  (Finset.card_filter_le _ _).trans (by simp)

/-- The rounds of the quota loop: what they lead to, and the sectors they reclaim. -/
inductive Rounds : StoreState → (Nat → Option LogSector) → StoreState →
    (Nat → Option LogSector) → List Nat → Prop where
  | done (st : StoreState) (S : Nat → Option LogSector) (room : st.index.length < 256) :
      Rounds st S st S []
  | round {st st' : StoreState} {S S' : Nat → Option LogSector} {j : Nat} {bases : List Nat}
      (full : 256 ≤ st.index.length) (hj : Reclaimed st S j)
      (rest : Rounds (st.reclaimed j) (Function.update S j none) st' S' bases) :
      Rounds st S st' S' (j * 4096 :: bases)

/-- The quota loop ends with a free slot in the index. -/
theorem LogRing.evict (hr : LogRing crc32 st S h) (htop : OneTop S) {fuel : Nat}
    (hfuel : (usedSectors S).card < fuel) :
    ∃ st' S' bases, evictLoop .good fuel st = .ok (.ok, st') ∧ Rounds st S st' S' bases := by
  induction fuel generalizing st S with
  | zero => omega
  | succ fuel ih =>
    rw [evictLoop]
    by_cases hfull : st.index.length ≥ bitleStoreMaxRecords
    · obtain ⟨j, hj, heq⟩ := hr.reclaimOldestSector_eq htop hfull
      have hcard := card_usedSectors_update hj.lt hj.used
      obtain ⟨st', S', bases, hloop, hrounds⟩ :=
        ih (hr.reclaim hj.not_head) (htop.update_none j) (by omega)
      rw [if_pos hfull, heq]
      exact ⟨st', S', _, hloop, .round hfull hj hrounds⟩
    · rw [if_neg hfull]
      exact ⟨st, S, [], rfl, .done st S (Nat.not_le.mp hfull)⟩

namespace Rounds

variable {st' : StoreState} {S' : Nat → Option LogSector} {bases : List Nat}

theorem room (h : Rounds st S st' S' bases) : st'.index.length < 256 := by
  induction h with
  | done _ _ room => exact room
  | round _ _ _ ih => exact ih

theorem writeOff (h : Rounds st S st' S' bases) : st'.writeOff = st.writeOff := by
  induction h with
  | done => rfl
  | round _ _ _ ih => exact ih

/-- The rounds keep the invariant. -/
theorem ring {h : Nat} (hx : Rounds st S st' S' bases) (hr : Ring crc32 now st S h) :
    Ring crc32 now st' S' h ∧ Trim st S st' S' bases := by
  induction hx with
  | done => exact ⟨hr, Trim.refl _ _⟩
  | round _ hj _ ih =>
    obtain ⟨hr', htrim⟩ := hr.reclaim hj.not_head
    obtain ⟨hr'', htrim'⟩ := ih hr'
    exact ⟨hr'', htrim.trans htrim'⟩

end Rounds

/-- The head sector has room for `need` bytes behind its last record. -/
def Ready (st : StoreState) (S : Nat → Option LogSector) (h need : Nat) : Prop :=
  ∃ s, S h = some s ∧ s.seq = st.headSeq ∧ st.writeOff = s.stop (h * 4096) ∧
    Fresh st.mem st.writeOff (h * 4096 + 4096) ∧ st.writeOff + need ≤ h * 4096 + 4096

theorem fits_iff {writeOff need : Nat} :
    fits writeOff need = true ↔ writeOff % 4096 ≠ 0 ∧ writeOff % 4096 + need ≤ 4096 := by
  unfold fits sectorBase storeSectorSize
  simp only [Bool.and_eq_true, bne_iff_ne, decide_eq_true_eq]
  omega

theorem roomLoop_of_fits {env : FlashEnv} {need fuel : Nat} (hw : st.writeOff < 0x60000)
    (hfits : fits st.writeOff need = true) :
    roomLoop env need (fuel + 1) st = .ok (.ok, st) := by
  have hpart : ¬ st.writeOff ≥ storePartSize := Nat.not_le.mpr hw
  simp only [roomLoop, if_neg hpart, roomRound, hfits]
  rfl

namespace LogRing

/-- Where a record fits, the head has room for it. -/
theorem ready (hr : LogRing crc32 st S h) {need : Nat} (hneed : 33 ≤ need)
    (hfits : fits st.writeOff need = true) : Ready st S h need ∧ st.writeOff < 0x60000 := by
  have hlo := hr.head_lo
  have hhi := hr.head_hi
  have hh := hr.head_lt
  obtain ⟨hne, hle⟩ := fits_iff.mp hfits
  rcases hr.head_open with hw | ⟨s, hs, hseq, hf | hf⟩
  · omega
  · exact ⟨⟨s, hs, hseq, hf.1, hf.2, by omega⟩, by omega⟩
  · omega

/-- Where none fits, the sector behind the head is opened. -/
theorem nextSector_eq (hr : LogRing crc32 st S h) (hw : st.writeOff < 0x60000) :
    nextSector st.writeOff = (h + 1) % 96 * 4096 := by
  have hlo := hr.head_lo
  have hhi := hr.head_hi
  have hh := hr.head_lt
  unfold nextSector sectorBase storeSectorSize storePartSize
  dsimp only
  by_cases hb : st.writeOff = st.writeOff - st.writeOff % 4096
  · rw [if_pos hb]
    split <;> omega
  · rw [if_neg hb]
    split <;> omega

/-- **The loop ends with room.** Either the record fits where the head is, or the sector behind
it is opened and takes it. -/
theorem room (hr : LogRing crc32 st S h) {need : Nat} (h2 : need ≤ 552) :
    roomLoop .good need 3 st =
      .ok (.ok, if fits st.writeOff need then st else st.opened ((h + 1) % 96)) := by
  have hh := hr.head_lt
  by_cases hfits : fits st.writeOff need = true
  · rw [if_pos hfits]
    refine roomLoop_of_fits ?_ hfits
    have hhi := hr.head_hi
    have hne := (fits_iff.mp hfits).1
    omega
  · rw [if_neg hfits]
    have hopen : openSector .good st ((h + 1) % 96 * 4096) = _ :=
      openSector_good (Nat.mod_lt _ (by decide))
    have hw' : (st.opened ((h + 1) % 96)).writeOff = (h + 1) % 96 * 4096 + 8 := rfl
    have hfits' : fits (st.opened ((h + 1) % 96)).writeOff need = true :=
      fits_iff.mpr (by omega)
    have hlt : (st.opened ((h + 1) % 96)).writeOff < 0x60000 := by omega
    rw [roomLoop]
    by_cases hw : st.writeOff ≥ storePartSize
    · -- on the end of the partition: the first sector is the one behind the head
      have hlast : (h + 1) % 96 * 4096 = 0 := by
        have hhi := hr.head_hi
        unfold storePartSize at hw
        omega
      rw [hlast] at hopen
      simp only [if_pos hw, hopen, roomRound, hfits']
      rfl
    · have hround : roomRound .good need st = (some .ok, st.opened ((h + 1) % 96)) := by
        unfold storePartSize at hw
        rw [roomRound, if_neg hfits, hr.nextSector_eq (Nat.not_le.mp hw), hopen]
      simp only [if_neg hw, hround]
      exact roomLoop_of_fits hlt hfits'

end LogRing

/-- Room, with the bindings that are left. -/
theorem Ring.room (hr : Ring crc32 now st S h) (need : Nat) (h1 : 33 ≤ need)
    (h2 : need ≤ 552) :
    ∃ st' S' h' bases, roomLoop .good need 3 st = .ok (.ok, st') ∧ Ring crc32 now st' S' h' ∧
      Trim st S st' S' bases ∧ Ready st' S' h' need ∧
      st'.writeOff % 4096 = if fits st.writeOff need then st.writeOff % 4096 else 8 := by
  have hroom := hr.logRing.room h2
  by_cases hfits : fits st.writeOff need = true
  · rw [if_pos hfits] at hroom ⊢
    exact ⟨st, S, h, [], hroom, hr, Trim.refl st S, (hr.logRing.ready h1 hfits).1, rfl⟩
  · rw [if_neg hfits] at hroom ⊢
    obtain ⟨st', S', hopen, hr', htrim, hw'⟩ := hr.openNext rfl
    have hfits' : fits st'.writeOff need = true := fits_iff.mpr (by omega)
    rw [openSector_good (Nat.mod_lt _ (by decide))] at hopen
    obtain ⟨-, rfl⟩ := Prod.mk.inj hopen
    exact ⟨_, S', _, _, hroom, hr', htrim, (hr'.logRing.ready h1 hfits').1, by omega⟩

/-! ## The record -/

theorem indexFind_eq_none {index : List StoreIndexEntry} {key : StoreKey} :
    indexFind index key = none ↔ ∀ e ∈ index, e.key ≠ key := by
  simp only [indexFind, List.findIdx?_eq_none_iff, beq_eq_false_iff_ne]

theorem indexFind_eq_some {index : List StoreIndexEntry} {key : StoreKey} {i : Nat}
    (hf : indexFind index key = some i) : ∃ e, index[i]? = some e ∧ e.key = key := by
  obtain ⟨hi, hk, -⟩ := List.findIdx?_eq_some_iff_getElem.mp hf
  exact ⟨index[i], List.getElem?_eq_getElem hi, beq_iff_eq.mp hk⟩

/-- The state from which `bitle_store_put` writes its record of `n` payload bytes. -/
structure Prepared (crc32 : UInt32 → List UInt8 → UInt32) (now : UInt32) (st : StoreState)
    (S : Nat → Option LogSector) (key : StoreKey) (n : Nat) (st' : StoreState)
    (S' : Nat → Option LogSector) (h' : Nat) (bases : List Nat) : Prop where
  ring : Ring crc32 now st' S' h'
  ready : Ready st' S' h' (32 + n)
  room : st'.index.length < 256
  erased : st'.erased = st.erased ++ bases
  bound : ∀ k r, Bound st' S' k r ↔ Bound st S k r ∧ k ≠ key ∧ sectorBase r.off ∉ bases
  part : st'.part = st.part
  lock : st'.lock = st.lock
  offset : st'.writeOff % 4096 = if fits st.writeOff (32 + n) then st.writeOff % 4096 else 8

/-- The older copy of a key is gone after its tombstone. -/
theorem Ring.unbind (hr : Ring crc32 now st S h) (key : StoreKey) :
    ∃ st' S', unbindKey .good st key = st' ∧ Ring crc32 now st' S' h ∧
      (HeadOpen st S h → HeadOpen st' S' h) ∧ st'.erased = st.erased ∧ st'.part = st.part ∧
      st'.lock = st.lock ∧ st'.writeOff = st.writeOff ∧
      ∀ k r, Bound st' S' k r ↔ Bound st S k r ∧ k ≠ key := by
  unfold unbindKey
  cases hf : indexFind st.index key with
  | none =>
    refine ⟨st, S, rfl, hr, id, rfl, rfl, rfl, rfl, fun k r => ⟨fun hb => ⟨hb, ?_⟩, And.left⟩⟩
    rintro rfl
    obtain ⟨hk, seq, -, he⟩ := hb
    exact indexFind_eq_none.mp hf _ he hk
  | some i =>
    obtain ⟨e, he, rfl⟩ := indexFind_eq_some hf
    obtain ⟨hr', hopen, hbound⟩ := hr.tombstone he
    refine ⟨tombstoneEntry .good st i, _, rfl, hr', hopen, ?_, ?_, ?_, ?_, hbound⟩ <;>
      rw [tombstoneEntry_eq .good he] <;> rfl

theorem Ring.prepare (hr : Ring crc32 now st S h) (key : StoreKey) {n : Nat} (h1 : 1 ≤ n)
    (h2 : n ≤ 520) :
    ∃ st' S' h' bases, putPrepare .good st key n = .ok (.ok, st') ∧
      Prepared crc32 now st S key n st' S' h' bases := by
  obtain ⟨st1, S1, hst1, hr1, -, her1, hp1, hl1, hw1, hb1⟩ := hr.unbind key
  have hcard : (usedSectors S1).card < storePartSize / storeSectorSize + 1 :=
    Nat.lt_succ_of_le (card_usedSectors_le S1)
  obtain ⟨st2, S2, bases2, heq2, hrounds⟩ := hr1.logRing.evict hr1.oneTop hcard
  obtain ⟨hr2, htrim2⟩ := hrounds.ring hr1
  have hw2 := hrounds.writeOff
  obtain ⟨st3, S3, h3, bases3, heq3, hr3, htrim3, hready, hoff⟩ :=
    hr2.room (32 + n) (by omega) (by omega)
  have htrim := htrim2.trans htrim3
  refine ⟨st3, S3, h3, bases2 ++ bases3, ?_, ⟨hr3, hready, ?_, ?_, fun k r => ?_, ?_, ?_, ?_⟩⟩
  · unfold putPrepare
    rw [hst1, heq2]
    exact heq3
  · exact Nat.lt_of_le_of_lt htrim3.length_le hrounds.room
  · rw [htrim.erased, her1]
  · rw [htrim.bound, hb1, and_assoc]
  · rw [htrim.part, hp1]
  · rw [htrim.lock, hl1]
  · rw [hoff, hw2, hw1]

/-- The records of a log with one more. -/
theorem stored_append {s : LogSector} (hh : h < 96) (hs : S h = some s) (r : LogRecord)
    {seq : UInt32} {x : LogRecord} :
    Stored (Function.update S h (some ⟨s.seq, s.recs ++ [r]⟩)) seq x ↔
      Stored S seq x ∨ (x = r ∧ seq = s.seq) := by
  constructor
  · rintro ⟨i, hi, si, hsi, rfl, hx⟩
    by_cases hih : i = h
    · subst hih
      rw [Function.update_self, Option.some.injEq] at hsi
      subst hsi
      rcases List.mem_append.mp hx with hx | hx
      · exact .inl ⟨i, hi, s, hs, rfl, hx⟩
      · exact .inr ⟨List.mem_singleton.mp hx, rfl⟩
    · rw [Function.update_of_ne hih] at hsi
      exact .inl ⟨i, hi, si, hsi, rfl, hx⟩
  · rintro (⟨i, hi, si, hsi, rfl, hx⟩ | ⟨rfl, rfl⟩)
    · by_cases hih : i = h
      · subst hih
        rw [hs, Option.some.injEq] at hsi
        subst hsi
        exact ⟨i, hi, _, Function.update_self _ _ _, rfl, List.mem_append_left _ hx⟩
      · exact ⟨i, hi, si, by rw [Function.update_of_ne hih, hsi], rfl, hx⟩
    · exact ⟨h, hh, _, Function.update_self _ _ _, rfl, by simp⟩

/-- The state with a record written at its offset, and an index. -/
def StoreState.written (crc32 : UInt32 → List UInt8 → UInt32) (st : StoreState) (r : LogRecord)
    (index : List StoreIndexEntry) : StoreState :=
  { st with mem := program st.mem r.off (r.bytes crc32), writeOff := r.off + r.size, index }

/-- **A record is written where the head has room.** The ring goes on with any index that fits
the longer log. -/
theorem LogRing.written (hr : LogRing crc32 st S h) {r : LogRecord} {s : LogSector}
    (hs : S h = some s) (hseq : s.seq = st.headSeq) (hw : st.writeOff = s.stop (h * 4096))
    (hfresh : Fresh st.mem st.writeOff (h * 4096 + 4096)) (hoff : r.off = st.writeOff)
    (hfit : r.off + r.size ≤ h * 4096 + 4096) (h1 : 1 ≤ r.payload.length)
    (h2 : r.payload.length ≤ 520) {index : List StoreIndexEntry}
    (hidx : IndexSound (Function.update S h (some ⟨s.seq, s.recs ++ [r]⟩)) index) :
    LogRing crc32 (st.written crc32 r index)
        (Function.update S h (some ⟨s.seq, s.recs ++ [r]⟩)) h ∧
      HeadOpen (st.written crc32 r index)
        (Function.update S h (some ⟨s.seq, s.recs ++ [r]⟩)) h := by
  have hlo := hr.head_lo
  have hblen := r.length_bytes crc32
  have hat := hr.log.used h hr.head_lt s hs
  have hlog : LogAt crc32 (program st.mem r.off (r.bytes crc32))
      (Function.update S h (some ⟨s.seq, s.recs ++ [r]⟩)) := by
    refine hr.log.update (fun a ha => (program_outside (by omega)).symm) (fun x hx => ?_) (by simp)
    rw [Option.some.injEq] at hx
    subst hx
    refine hat.append ?_ (hoff.trans hw) h1 h2 hfit
    rw [← hw]
    exact hfresh
  have hopen : HeadOpen (st.written crc32 r index)
      (Function.update S h (some ⟨s.seq, s.recs ++ [r]⟩)) h := by
    refine ⟨_, Function.update_self _ _ _, hseq, .inl ⟨?_, ?_⟩⟩
    · simp only [StoreState.written, LogSector.stop, extent_append, extent_cons, extent_nil]
      unfold LogSector.stop at hw
      omega
    · rw [← hoff] at hfresh
      exact hfresh.fresh_program h1
  refine ⟨⟨hlog, hidx, hr.head_lt, ?_, hfit, .inr hopen⟩, hopen⟩
  simp only [StoreState.written]
  omega

/-- The same with a complete index. -/
theorem Ring.written (hr : Ring crc32 now st S h) {r : LogRecord} {s : LogSector}
    (hs : S h = some s) (hseq : s.seq = st.headSeq) (hw : st.writeOff = s.stop (h * 4096))
    (hfresh : Fresh st.mem st.writeOff (h * 4096 + 4096)) (hoff : r.off = st.writeOff)
    (hfit : r.off + r.size ≤ h * 4096 + 4096) (h1 : 1 ≤ r.payload.length)
    (h2 : r.payload.length ≤ 520) {index : List StoreIndexEntry}
    (hidx : Indexed now (Function.update S h (some ⟨s.seq, s.recs ++ [r]⟩)) index) :
    Ring crc32 now (st.written crc32 r index)
        (Function.update S h (some ⟨s.seq, s.recs ++ [r]⟩)) h ∧
      HeadOpen (st.written crc32 r index)
        (Function.update S h (some ⟨s.seq, s.recs ++ [r]⟩)) h := by
  obtain ⟨hlr, hopen⟩ := hr.logRing.written hs hseq hw hfresh hoff hfit h1 h2 hidx.toSound
  refine ⟨of_logRing hlr hidx.complete fun i hi si hsi hmax => ?_, hopen⟩
  by_cases hih : i = h
  · subst hih
    rw [Function.update_self, Option.some.injEq] at hsi
    subst hsi
    exact hr.wrap i hi s hs hmax
  · rw [Function.update_of_ne hih] at hsi
    exact hr.wrap i hi si hsi hmax

/-- The state after the record is written and indexed. -/
def StoreState.append (crc32 : UInt32 → List UInt8 → UInt32) (st : StoreState) (r : LogRecord) :
    StoreState :=
  st.written crc32 r (st.index ++ [r.entry st.headSeq])

/-- The index with the entry of a new record whose key it does not have. -/
theorem LogRing.sound_append (hr : LogRing crc32 st S h) {r : LogRecord} {s : LogSector}
    (hs : S h = some s) (hseq : s.seq = st.headSeq) (hlen : st.index.length < 256)
    (halive : r.alive = true) (hkey : ∀ e ∈ st.index, e.key ≠ r.key) :
    IndexSound (Function.update S h (some ⟨s.seq, s.recs ++ [r]⟩))
      (st.index ++ [r.entry st.headSeq]) := by
  refine ⟨?_, ?_, fun e he => ?_⟩
  · rw [List.map_append]
    refine List.nodup_append.mpr ⟨hr.index.nodup, by simp, ?_⟩
    intro a ha b hb hab
    obtain ⟨e, he, rfl⟩ := List.mem_map.mp ha
    rw [List.map_singleton, List.mem_singleton] at hb
    exact hkey e he (hab.trans hb)
  · rw [List.length_append, List.length_singleton]
    omega
  · rcases List.mem_append.mp he with he | he
    · obtain ⟨seq, x, hx, hal, rfl⟩ := hr.index.sound e he
      exact ⟨seq, x, (stored_append hr.head_lt hs r).mpr (.inl hx), hal, rfl⟩
    · exact ⟨s.seq, r, (stored_append hr.head_lt hs r).mpr (.inr ⟨rfl, rfl⟩), halive, by
        rw [List.mem_singleton.mp he, hseq]⟩

/-- The index with the entry of a new record whose key is not bound. -/
theorem Ring.indexed_append (hr : Ring crc32 now st S h) {r : LogRecord} {s : LogSector}
    (hs : S h = some s) (hseq : s.seq = st.headSeq) (hlen : st.index.length < 256)
    (halive : r.alive = true) (hkey : ∀ x, ¬ Bound st S r.key x) :
    Indexed now (Function.update S h (some ⟨s.seq, s.recs ++ [r]⟩))
      (st.index ++ [r.entry st.headSeq]) := by
  refine .of_sound (hr.logRing.sound_append hs hseq hlen halive fun e he hk => ?_)
    fun seq x hx hl => ?_
  · obtain ⟨x, hx, -⟩ := hr.indexed.bound he
    exact hkey x (hk ▸ hx)
  · rcases (stored_append hr.head_lt hs r).mp hx with hx | ⟨rfl, rfl⟩
    · exact List.mem_append_left _ (hr.indexed.complete seq x hx hl)
    · exact List.mem_append_right _ (by rw [hseq]; exact List.mem_singleton_self _)

/-- **The record is appended.** -/
theorem Ring.append (hr : Ring crc32 now st S h) {r : LogRecord} (hready : Ready st S h r.size)
    (hlen : st.index.length < 256) (hoff : r.off = st.writeOff) (halive : r.alive = true)
    (h1 : 1 ≤ r.payload.length) (h2 : r.payload.length ≤ 520)
    (hkey : ∀ x, ¬ Bound st S r.key x) :
    ∃ S', Ring crc32 now (st.append crc32 r) S' h ∧ HeadOpen (st.append crc32 r) S' h ∧
      ∀ k x, Bound (st.append crc32 r) S' k x ↔ Bound st S k x ∨ (k = r.key ∧ x = r) := by
  obtain ⟨s, hs, hseq, hw, hfresh, hfit⟩ := hready
  obtain ⟨hring, hopen⟩ := hr.written hs hseq hw hfresh hoff (by omega) h1 h2
    (hr.indexed_append hs hseq hlen halive hkey)
  refine ⟨_, hring, hopen, fun k x => ⟨?_, ?_⟩⟩
  · rintro ⟨rfl, seq, hx, he⟩
    rcases List.mem_append.mp he with he | he
    · rcases (stored_append hr.head_lt hs _).mp hx with hx | ⟨rfl, -⟩
      · exact .inl ⟨rfl, seq, hx, he⟩
      · exact .inr ⟨rfl, rfl⟩
    · -- its entry is the new one, so the record is the new one
      have hxoff : x.off = r.off := congrArg StoreIndexEntry.offset (List.mem_singleton.mp he)
      have hnew := (stored_append hr.head_lt hs r).mpr (.inr ⟨rfl, rfl⟩)
      obtain rfl := (hring.log.stored_off hx hnew hxoff).1
      exact .inr ⟨rfl, rfl⟩
  · rintro (⟨hk, seq, hx, he⟩ | ⟨rfl, rfl⟩)
    · exact ⟨hk, seq, (stored_append hr.head_lt hs r).mpr (.inl hx), List.mem_append_left _ he⟩
    · refine ⟨rfl, s.seq, (stored_append hr.head_lt hs _).mpr (.inr ⟨rfl, rfl⟩),
        List.mem_append_right _ ?_⟩
      rw [hseq]
      exact List.mem_singleton_self _

/-! ## The call -/

theorem Ring.setLock (hr : Ring crc32 now st S h) (lock : StoreLock) :
    Ring crc32 now { st with lock } S h :=
  ⟨hr.log, hr.indexed, hr.head_lt, hr.head_lo, hr.head_hi, hr.head_open, hr.wrap⟩

theorem takeLock_free (hl : st.lock = .free) : takeLock st = .ok { st with lock := .held } := by
  rw [takeLock, hl]

theorem putRejects_of_valid (hpart : st.part = true) {n : Nat} (h1 : 1 ≤ n) (h2 : n ≤ 520) :
    putRejects st n = false := by
  unfold putRejects bitleStorePayloadMax
  simp only [hpart, Bool.not_true, Bool.false_or, Bool.or_eq_false_iff, beq_eq_false_iff_ne,
    decide_eq_false_iff_not]
  omega

theorem putRejects_of_invalid (st : StoreState) {n : Nat} (hn : ¬ (1 ≤ n ∧ n ≤ 520)) :
    putRejects st n = true := by
  unfold putRejects bitleStorePayloadMax
  simp only [Bool.or_eq_true, beq_iff_eq, decide_eq_true_eq]
  omega

/-- The record `bitle_store_put` appends to `st`. -/
def putLogRecord (st : StoreState) (key : StoreKey) (expiryUnixS : UInt32) (flags : UInt8)
    (payload : List UInt8) : LogRecord :=
  ⟨st.writeOff, true, key, expiryUnixS, flags, payload⟩

theorem putRecord_good (key : StoreKey) (expiryUnixS : UInt32) (flags : UInt8)
    (payload : List UInt8) :
    putRecord .good crc32 st key expiryUnixS flags payload =
      (.ok, st.append crc32 (putLogRecord st key expiryUnixS flags payload)) := by
  have hprog := program_append st.mem st.writeOff
    (putHdr crc32 key expiryUnixS flags payload).bytes payload
  rw [StoreRecordHdr.length_bytes] at hprog
  have hwrite : writeRecord .good st.mem st.writeOff (putHdr crc32 key expiryUnixS flags payload)
      payload = (.ok, program st.mem st.writeOff
        ((putLogRecord st key expiryUnixS flags payload).bytes crc32)) :=
    congrArg (Prod.mk EspErr.ok) hprog
  rw [putRecord, hwrite]
  rfl

/-- **`bitle_store_put`** binds the key to the new record and keeps every other binding, except
those whose records lie in a sector it has erased. -/
theorem StoreInv.put (hi : StoreInv crc32 now st S h) (key : StoreKey) (expiryUnixS : UInt32)
    (flags : UInt8) {payload : List UInt8} (h1 : 1 ≤ payload.length) (h2 : payload.length ≤ 520) :
    ∃ st' S' h' bases r,
      bitleStorePut .good crc32 st key expiryUnixS flags payload = .ok (.ok, st') ∧
      StoreInv crc32 now st' S' h' ∧ st'.erased = st.erased ++ bases ∧
      (r.key = key ∧ r.expiryUnixS = expiryUnixS ∧ r.flags = flags ∧ r.payload = payload) ∧
      ∀ k x, Bound st' S' k x ↔
        (Bound st S k x ∧ k ≠ key ∧ sectorBase x.off ∉ bases) ∨ (k = key ∧ x = r) := by
  obtain ⟨st1, S1, h', bases, hprep, hp⟩ := (hi.toRing.setLock .held).prepare key h1 h2
  obtain ⟨S', hr', hopen, hbound⟩ := hp.ring.append
    (r := putLogRecord st1 key expiryUnixS flags payload) hp.ready hp.room rfl rfl h1 h2
    (fun x hx => ((hp.bound _ _).mp hx).2.1 rfl)
  refine ⟨giveLock (st1.append crc32 (putLogRecord st1 key expiryUnixS flags payload)), S', h',
    bases, putLogRecord st1 key expiryUnixS flags payload, ?_,
    ⟨hr'.setLock .free, hopen, ?_, rfl⟩, hp.erased, ⟨rfl, rfl, rfl, rfl⟩, fun k x => ?_⟩
  · unfold bitleStorePut
    rw [putRejects_of_valid hi.part h1 h2, takeLock_free hi.lock]
    simp only [Bool.false_eq_true, if_false, bind, Except.bind, pure, Except.pure, hprep,
      putRecord_good]
    rfl
  · exact hp.part.trans hi.part
  · exact (hbound k x).trans (or_congr_left (hp.bound k x))

/-- A payload of a length out of range changes nothing. -/
theorem bitleStorePut_invalid {env : FlashEnv} {key : StoreKey} {expiryUnixS : UInt32}
    {flags : UInt8} {payload : List UInt8} (hlen : ¬ (1 ≤ payload.length ∧ payload.length ≤ 520)) :
    bitleStorePut env crc32 st key expiryUnixS flags payload = .ok (.invalidArg, st) := by
  unfold bitleStorePut
  rw [putRejects_of_invalid st hlen]
  rfl

/-- **`bitle_store_delete`** unbinds the key. -/
theorem StoreInv.delete (hi : StoreInv crc32 now st S h) (key : StoreKey) :
    ∃ st' S', bitleStoreDelete .good st key = .ok st' ∧ StoreInv crc32 now st' S' h ∧
      st'.erased = st.erased ∧ ∀ k r, Bound st' S' k r ↔ Bound st S k r ∧ k ≠ key := by
  obtain ⟨st1, S1, heq, hr, hopen, her, hpart, -, -, hbound⟩ :=
    (hi.toRing.setLock .held).unbind key
  refine ⟨giveLock st1, S1, ?_, ⟨hr.setLock .free, hopen hi.head, hpart.trans hi.part, rfl⟩, her,
    hbound⟩
  unfold bitleStoreDelete
  rw [if_neg (by simp [hi.part]), takeLock_free hi.lock, ← heq]
  rfl

end Bitle
