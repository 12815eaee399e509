import Bitle.Store.Order
import Mathlib.Order.Interval.Finset.Nat

/-!
# Bitle — which records a put gives up

The index has 256 slots and the partition 96 sectors. A put that finds all slots taken reclaims
whole sectors, the one with the lowest number first; one that finds no room in the head opens the
next sector of the ring, which is the one with the lowest number of all (`RingOrder.oldest`).

`reclaim_oldest_sector` leaves out the sector that `sector_base` names for the write offset. That
is the head, unless the head is full to its last byte: then it is the sector behind it, the oldest
of the ring. `LogInv.oldestFirst_iff` says that this is the only case in which a younger record is
given up for an older one, and `Filling` is a run that comes to it.
-/

namespace Bitle

open Wire Flash Slots

variable {crc32 : UInt32 → List UInt8 → UInt32} {env : FlashEnv} {st st' : StoreState}
  {S S' : Nat → Option LogSector} {h : Nat}

/-! ## Runs whose numbers do not start again -/

/-- No state of a run has a head with number zero. The first sector has number 1, so that is the
number that comes after the highest one. -/
def Numbered (crc32 : UInt32 → List UInt8 → UInt32) :
    StoreState → List (UInt32 × StoreOp) → Prop
  | st, [] => st.headSeq ≠ 0
  | st, (now, op) :: rest =>
    st.headSeq ≠ 0 ∧ ∀ out st', storeStep crc32 now st op = .ok (out, st') → Numbered crc32 st' rest

theorem Numbered.headSeq {ops : List (UInt32 × StoreOp)} (hn : Numbered crc32 st ops) :
    st.headSeq ≠ 0 := by
  cases ops with
  | nil => exact hn
  | cons x ops => exact hn.1

/-- The invariant of such runs. -/
def Ordered (crc32 : UInt32 → List UInt8 → UInt32) (st : StoreState) : Prop :=
  ∃ S h, LogInv crc32 st S h ∧ RingOrder st S h

theorem SameRam.ordered (hs : SameRam st st') (hi : LogInv crc32 st' S' h)
    (hin : LogWithin S' S) (ho : RingOrder st S h) : Ordered crc32 st' :=
  ⟨S', h, hi, ho.within hin hs.nextSeq hs.headSeq⟩

theorem Ordered.put (ho : Ordered crc32 st) {a : PutArgs} (h1 : 1 ≤ a.payload.length)
    (h2 : a.payload.length ≤ 520) (henv : OnlyTombstones env st)
    (hput : bitleStorePut env crc32 st a.key a.expiryUnixS a.flags a.payload = .ok (.ok, st'))
    (hnum : st'.headSeq ≠ 0) : Ordered crc32 st' := by
  obtain ⟨S, h, hi, ho⟩ := ho
  obtain ⟨S1, st2, S2, bases, st3, S3, h3, s, hu, hx, heq, hs, -, -, hi'⟩ := hi.put henv h1 h2
  rw [hput, Except.ok.injEq, Prod.mk.injEq] at heq
  obtain ⟨-, rfl⟩ := heq
  have ho1 := ho.within hu.within hu.ram.nextSeq hu.ram.headSeq
  exact ⟨_, h3, hi', (hx.order ho1 hnum).append hs _ rfl rfl⟩

/-- **One call** keeps the order. -/
theorem Ordered.step (ho : Ordered crc32 st) {now : UInt32} {op : StoreOp} {out : StoreOut}
    (hstep : storeStep crc32 now st op = .ok (out, st')) (hnum : st'.headSeq ≠ 0) :
    Ordered crc32 st' := by
  cases op with
  | put key expiryUnixS flags payload =>
    -- a put of a length out of bounds returns at once
    by_cases hlen : 1 ≤ payload.length ∧ payload.length ≤ 520
    · refine ho.put (a := ⟨key, expiryUnixS, flags, payload⟩) hlen.1 hlen.2 (onlyTombstones_good st)
        ?_ hnum
      obtain ⟨S, h, hi, -⟩ := ho
      obtain ⟨_, _, _, _, st3, _, _, _, -, -, heq, -⟩ :=
        hi.put (a := ⟨key, expiryUnixS, flags, payload⟩) (onlyTombstones_good st) hlen.1 hlen.2
      dsimp only at heq ⊢
      rw [storeStep, heq] at hstep
      cases hstep
      exact heq
    · rw [storeStep, bitleStorePut_invalid hlen] at hstep
      cases hstep
      exact ho
  -- the other calls open no sector, so the sectors stay in their order
  | delete key =>
    obtain ⟨S, h, hi, ho⟩ := ho
    cases hd : bitleStoreDelete .good st key with
    | error e =>
      rw [storeStep, hd] at hstep
      cases hstep
    | ok x =>
      rw [storeStep, hd] at hstep
      cases hstep
      obtain ⟨S', hi', hin, hs⟩ := hi.delete key hd
      exact hs.ordered hi' hin ho
  | iterate keep =>
    obtain ⟨S, h, hi, ho⟩ := ho
    cases hd : bitleStoreIterate .good now (collect keep) st [] with
    | error e =>
      rw [storeStep, hd] at hstep
      cases hstep
    | ok x =>
      rw [storeStep, hd] at hstep
      cases hstep
      obtain ⟨S', hi', hin, hs⟩ := hi.iterate hd
      exact hs.ordered hi' hin ho
  | contains key =>
    obtain ⟨S, h, hi, ho⟩ := ho
    cases hd : bitleStoreContains st key with
    | error e =>
      rw [storeStep, hd] at hstep
      cases hstep
    | ok x =>
      rw [storeStep, hd] at hstep
      cases hstep
      obtain ⟨hi', hs⟩ := hi.contains hd
      exact hs.ordered hi' (LogWithin.refl S) ho
  | reboot =>
    obtain ⟨S, h, hi, ho⟩ := ho
    obtain ⟨st1, h1, heq, hb, hi1⟩ := hi.reboot now
    rw [storeStep, heq] at hstep
    cases hstep
    exact ⟨S, h1, hi1, (ho.booted hi.head_lt hi.head hb).2.2⟩

/-- **A run** keeps the order. -/
theorem Ordered.run (ho : Ordered crc32 st) {ops : List (UInt32 × StoreOp)}
    (hnum : Numbered crc32 st ops) (hrun : storeRun crc32 st ops = .ok st') :
    Ordered crc32 st' := by
  induction ops generalizing st with
  | nil =>
    cases hrun
    exact ho
  | cons x ops ih =>
    obtain ⟨now, op⟩ := x
    cases hs : storeStep crc32 now st op with
    | error e =>
      rw [storeRun, hs] at hrun
      cases hrun
    | ok y =>
      obtain ⟨out, st1⟩ := y
      rw [storeRun, hs] at hrun
      have hnum1 := hnum.2 out st1 hs
      exact ih (ho.step hs hnum1.headSeq) hnum1 hrun

/-- A run from the first boot. -/
theorem ordered_of_boot {t : UInt32} {st0 : StoreState} {ops : List (UInt32 × StoreOp)}
    (hboot : bitleStoreInit .good crc32 t (powerOn blankFlash []) = (.ok, st0))
    (hnum : Numbered crc32 st0 ops) (hrun : storeRun crc32 st0 ops = .ok st) :
    Ordered crc32 st := by
  obtain ⟨st1, S, heq, hi, ho, -⟩ := logInv_firstBoot crc32 t
  rw [hboot, Prod.mk.injEq] at heq
  obtain ⟨-, rfl⟩ := heq
  exact Ordered.run ⟨S, 0, hi, ho⟩ hnum hrun

/-! ## What is given up -/

/-- The sector at `base` has a header. -/
def SectorInUse (m : Mem) (base : Nat) : Prop :=
  (readSectorHdr m base).magic = storeSectorMagic

/-- **The oldest goes first**, over the two loops of a put: from `st1`, where the older copy of
the key is gone, by the quota loop to `st2` and by the advance of the ring to `st3`. -/
structure OldestFirst (st1 st2 st3 : StoreState) : Prop where
  records : ∀ e ∈ st1.index, e ∉ st3.index → ∀ e' ∈ st2.index, ¬ e'.seq < e.seq
  sectors : ∀ bases, st3.erased = st2.erased ++ bases → ∀ b ∈ bases, SectorInUse st2.mem b →
    ∀ b' ∈ sectorBases, SectorInUse st2.mem b' →
      ¬ (readSectorHdr st2.mem b').seq < (readSectorHdr st2.mem b).seq

/-- Every slot is taken and none of them by the key, the write offset is on the boundary of a
sector, and there are live records in the sector that starts there. -/
structure OnBoundary (st : StoreState) (key : StoreKey) : Prop where
  full : bitleStoreMaxRecords ≤ st.index.length
  fresh : indexFind st.index key = none
  boundary : st.writeOff % storeSectorSize = 0
  live : ∃ e ∈ st.index, sectorBase e.offset = st.writeOff

/-- Where an entry is. -/
theorem LogRing.entry_sector (hr : LogRing crc32 st S h) {e : StoreIndexEntry}
    (he : e ∈ st.index) :
    ∃ i s, i < 96 ∧ S i = some s ∧ sectorBase e.offset = i * 4096 ∧ e.seq = s.seq := by
  obtain ⟨seq, r, ⟨i, hi, s, hs, hseq, hmem⟩, -, rfl⟩ := hr.index.sound e he
  exact ⟨i, s, hi, hs, hr.log.sectorBase_off hi hs hmem, hseq.symm⟩

theorem LogAt.sectorInUse {m : Mem} (hlog : LogAt crc32 m S) {i : Nat} (hi : i < 96)
    (hu : SectorInUse m (i * 4096)) :
    ∃ s, S i = some s ∧ (readSectorHdr m (i * 4096)).seq = s.seq := by
  cases hs : S i with
  | none => exact absurd hu (hlog.unused i hi hs)
  | some s => exact ⟨s, rfl, by rw [(hlog.used i hi s hs).hdr]⟩

/-- When the index is still full behind the removal of the key, the key was not there. -/
theorem LogRing.unbind_full (hr : LogRing crc32 st S h) {key : StoreKey}
    (hfull : 256 ≤ (unbindKey env st key).index.length) :
    indexFind st.index key = none ∧ unbindKey env st key = st := by
  unfold unbindKey at hfull ⊢
  cases hf : indexFind st.index key with
  | none => exact ⟨rfl, rfl⟩
  | some i =>
    obtain ⟨e, he, rfl⟩ := indexFind_eq_some hf
    rw [hf] at hfull
    dsimp only at hfull
    rw [tombstoneEntry_eq env he] at hfull
    have hperm := hr.index.remove_perm he
    have hlt : (st.index.filter fun x => x.key != e.key).length < st.index.length := by
      rw [List.length_filter_lt_length_iff_exists]
      exact ⟨e, List.mem_of_getElem? he, by simp⟩
    have hlen := hr.index.length_le
    have heq : (swapRemove st.index i).length = _ := hperm.length_eq
    change 256 ≤ (swapRemove st.index i).length at hfull
    omega

namespace Rounds

variable {bases : List Nat}

/-- The sector that `sector_base` names for the write offset stays. -/
theorem writeOff_not_mem (hx : Rounds st S st' S' bases) : sectorBase st.writeOff ∉ bases := by
  induction hx with
  | done => simp
  | round _ hj _ ih =>
    rw [List.mem_cons, not_or]
    exact ⟨hj.not_head.symm, ih⟩

/-- What a round drops is not younger than what is left outside that sector. -/
theorem older (hx : Rounds st S st' S' bases) (hr : LogRing crc32 st S h)
    {e e' : StoreIndexEntry} (he : e ∈ st.index) (hgone : e ∉ st'.index) (he' : e' ∈ st'.index)
    (hne : sectorBase e'.offset ≠ sectorBase st.writeOff) : e.seq ≤ e'.seq := by
  induction hx with
  | done => exact absurd he hgone
  | @round st st' S S' j bases full hj rest ih =>
    have hall := Rounds.round full hj rest
    obtain ⟨hin', hbase'⟩ := (hall.mem e').mp he'
    by_cases hbase : sectorBase e.offset = j * 4096
    · -- the sector of this round: it has the lowest number
      obtain ⟨i, s, hi, hs, hi', hseq⟩ := hr.entry_sector he
      obtain ⟨k, s', hk, hs', hk', hseq'⟩ := hr.entry_sector hin'
      obtain rfl : i = j := by omega
      rw [hseq, hseq']
      exact hj.oldest k hk (hk' ▸ hne) s' s hs' hs
    · exact ih (hr.reclaim hj.not_head) (StoreState.mem_reclaimed.mpr ⟨he, hbase⟩) hgone he' hne

end Rounds

/-! ## The condition -/

section Phases

variable {S1 S2 S3 : Nat → Option LogSector} {st1 st2 st3 : StoreState} {bases : List Nat}
  {h3 n : Nat}

/-- A full head ends where the oldest sector of the ring starts. -/
theorem LogRing.boundary_oldest (hr : LogRing crc32 st S h) (ho : RingOrder st S h)
    (hb : st.writeOff % 4096 = 0) {e e' : StoreIndexEntry} (he : e ∈ st.index)
    (he' : e' ∈ st.index) (hat' : sectorBase e'.offset = st.writeOff)
    (hne : sectorBase e.offset ≠ st.writeOff) : e'.seq < e.seq := by
  obtain ⟨i, s, hi, hs, hbase, hseq⟩ := hr.entry_sector he
  obtain ⟨k, s', hk, hs', hbase', hseq'⟩ := hr.entry_sector he'
  have hlo := hr.head_lo
  have hhi := hr.head_hi
  obtain rfl : k = (h + 1) % 96 := by omega
  have hle := ho.oldest hr.head_lt hs' hi hs
  have hsne : s'.seq ≠ s.seq := fun heq => by
    have := ho.eq_of_seq hk hi hs' hs heq
    omega
  rw [hseq, hseq', UInt32.lt_iff_toNat_lt]
  rw [UInt32.le_iff_toNat_le] at hle
  exact Nat.lt_of_le_of_ne hle fun heq => hsne (UInt32.toNat_inj.mp heq)

/-- A round of the quota loop drops an entry at least. -/
theorem Rounds.exists_dropped (hx : Rounds st1 S1 st2 S2 bases)
    (hr : LogRing crc32 st1 S1 h) (hfull : 256 ≤ st1.index.length) :
    ∃ e ∈ st1.index, e ∉ st2.index := by
  by_contra hall
  push Not at hall
  have hle := ((List.Nodup.of_map _ hr.index.nodup).subperm hall).length_le
  have hroom := hx.room
  omega

/-- What is dropped by the advance of the ring is not younger than what was left to drop. -/
theorem Roomed.opened_oldest (hx : Roomed crc32 n st1 S1 h st2 S2 bases st3 S3 h3)
    (ho : RingOrder st2 S2 h) {e e' : StoreIndexEntry} (he : e ∈ st2.index)
    (hgone : e ∉ st3.index) (he' : e' ∈ st2.index) : e.seq ≤ e'.seq := by
  have hr := hx.evicted
  have hdrop : fits st2.writeOff (32 + n) = false ∧ sectorBase e.offset = h3 * 4096 := by
    by_contra hno
    rw [not_and] at hno
    exact hgone ((hx.mem e).mpr ⟨he, hno⟩)
  obtain ⟨i, s, hi, hs, hbase, hseq⟩ := hr.entry_sector he
  obtain ⟨k, s', hk, hs', -, hseq'⟩ := hr.entry_sector he'
  rcases hx.next with ⟨hfits, -⟩ | ⟨-, heq, -⟩
  · rw [hdrop.1] at hfits
    cases hfits
  · obtain rfl : i = (h + 1) % 96 := by omega
    rw [hseq, hseq']
    exact ho.oldest hr.head_lt hs hk hs'

/-- The sectors that the advance of the ring erases. -/
theorem Roomed.opened_sectors (hx : Roomed crc32 n st1 S1 h st2 S2 bases st3 S3 h3)
    (ho : RingOrder st2 S2 h) {bs : List Nat} (hbs : st3.erased = st2.erased ++ bs) {b b' : Nat}
    (hb : b ∈ bs) (hub : SectorInUse st2.mem b) (hb' : b' ∈ sectorBases)
    (hub' : SectorInUse st2.mem b') :
    ¬ (readSectorHdr st2.mem b').seq < (readSectorHdr st2.mem b).seq := by
  have hr := hx.evicted
  rcases hx.next with ⟨-, rfl, -⟩ | ⟨-, rfl, rfl, -⟩
  · rw [List.self_eq_append_right] at hbs
    rw [hbs] at hb
    cases hb
  · rw [StoreState.opened_erased, List.append_cancel_left_eq] at hbs
    rw [← hbs, List.mem_singleton] at hb
    subst hb
    obtain ⟨j, hj, rfl⟩ := mem_sectorBases.mp hb'
    obtain ⟨s, hs, hseq⟩ := hr.log.sectorInUse (Nat.mod_lt _ (by decide)) hub
    obtain ⟨s', hs', hseq'⟩ := hr.log.sectorInUse hj hub'
    rw [hseq, hseq']
    exact Std.not_lt.mpr (ho.oldest hr.head_lt hs hj hs')

/-- **When a put gives up the oldest first.** -/
theorem LogInv.oldestFirst_iff (hi : LogInv crc32 st S h) (ho : RingOrder st S h) {key : StoreKey}
    (hst1 : unbindKey .good { st with lock := .held } key = st1)
    (hu : Unbound crc32 { st with lock := .held } S h st1 S1)
    (hx : Roomed crc32 n st1 S1 h st2 S2 bases st3 S3 h3) :
    OldestFirst st1 st2 st3 ↔ ¬ OnBoundary st key := by
  have hr := hi.toLogRing.setLock .held
  have ho1 : RingOrder st1 S1 h := ho.within hu.within hu.ram.nextSeq hu.ram.headSeq
  have ho2 : RingOrder st2 S2 h := by
    obtain ⟨hnext, hhead, -⟩ := hx.rounds.ram
    exact ho1.within hx.rounds.within hnext hhead
  have hw1 : st1.writeOff = st.writeOff := hu.ram.writeOff
  constructor
  · intro hold hb
    -- the sector that starts at the write offset stays, but another one goes
    obtain ⟨hfull, hfresh, hbound, e', he', hat'⟩ := hb
    rw [unbindKey, hfresh] at hst1
    have hin' : e' ∈ st1.index := hst1 ▸ he'
    have hbase : sectorBase st1.writeOff = sectorBase e'.offset := by
      rw [hat', hw1, sectorBase, hbound, Nat.sub_zero]
    have hstay : e' ∈ st2.index :=
      (hx.rounds.mem e').mpr ⟨hin', hbase ▸ hx.rounds.writeOff_not_mem⟩
    obtain ⟨e, he, hgone⟩ := hx.rounds.exists_dropped hu.ring (hst1 ▸ hfull)
    refine hold.records e he (fun h3 => hgone ((hx.mem e).mp h3).1) e' hstay ?_
    refine hu.ring.boundary_oldest ho1 (hw1 ▸ hbound) he hin' (hat'.trans hw1.symm) fun heq => ?_
    refine hgone ((hx.rounds.mem e).mpr ⟨he, ?_⟩)
    rw [heq, hw1, ← hat']
    exact hbase ▸ hx.rounds.writeOff_not_mem
  · intro hnb
    refine ⟨fun e he hgone e' he' => Std.not_lt.mpr ?_,
      fun bs hbs b hb hub b' hb' hub' => hx.opened_sectors ho2 hbs hb hub hb' hub'⟩
    by_cases he2 : e ∈ st2.index
    · exact hx.opened_oldest ho2 he2 hgone he'
    by_cases hne : sectorBase e'.offset = sectorBase st1.writeOff
    · -- a round was made, so the slots were all taken and the key is new
      have hfull : 256 ≤ st1.index.length := by
        by_contra hroom
        obtain ⟨rfl, -⟩ := hx.rounds.eq_of_room (Nat.not_le.mp hroom)
        exact he2 he
      obtain ⟨hfresh, hsame⟩ := hr.unbind_full (hst1 ▸ hfull)
      obtain rfl : { st with lock := .held } = st1 := hsame.symm.trans hst1
      have hin' := ((hx.rounds.mem e').mp he').1
      obtain ⟨i, s, hi', hs, -, hseq⟩ := hu.ring.entry_sector he
      obtain ⟨k, s', hk, hs', hbase', hseq'⟩ := hu.ring.entry_sector hin'
      by_cases hw : st.writeOff = h * 4096 + 4096
      · refine absurd ⟨hfull, hfresh, by unfold storeSectorSize; omega, e', hin', ?_⟩ hnb
        rw [hne, sectorBase, hw]
        unfold storeSectorSize
        omega
      · -- inside the head its number is the highest
        obtain rfl : k = h := by
          have := hr.sectorBase_writeOff hw
          omega
        obtain ⟨s0, hs0, hs0', -⟩ := hu.head hi.head
        rw [hs', Option.some.injEq] at hs0
        rw [hseq, hseq', hs0, hs0']
        exact ho1.le_head hi' hs
    · exact hx.rounds.older hu.ring he he2 he' hne

end Phases

/-! ## The run -/

/-- The phases of a put: the older copy of the key is removed, the quota loop, the advance of the
ring, the record. -/
structure PutPhases (crc32 : UInt32 → List UInt8 → UInt32) (st : StoreState) (a : PutArgs)
    (st1 st2 st3 st' : StoreState) : Prop where
  unbound : unbindKey .good { st with lock := .held } a.key = st1
  evicted : evictLoop .good (storePartSize / storeSectorSize + 1) st1 = .ok (.ok, st2)
  roomed : roomLoop .good (storeRecordHdrSize + a.payload.length) 3 st2 = .ok (.ok, st3)
  put : bitleStorePut .good crc32 st a.key a.expiryUnixS a.flags a.payload = .ok (.ok, st')
  index : ∃ e, e.key = a.key ∧ st'.index = st3.index ++ [e]
  erased : st'.erased = st3.erased

theorem Ordered.phases (ho : Ordered crc32 st) {a : PutArgs} (h1 : 1 ≤ a.payload.length)
    (h2 : a.payload.length ≤ 520) :
    ∃ st1 st2 st3 st', PutPhases crc32 st a st1 st2 st3 st' ∧
      (OldestFirst st1 st2 st3 ↔ ¬ OnBoundary st a.key) := by
  obtain ⟨S, h, hi, ho⟩ := ho
  obtain ⟨S1, st2, S2, bases, st3, S3, h3, s, hu, hx, hput, -⟩ :=
    hi.put (onlyTombstones_good st) h1 h2
  exact ⟨_, st2, st3, _, ⟨rfl, hx.evict, hx.room, hput, ⟨_, rfl, rfl⟩, rfl⟩,
    hi.oldestFirst_iff ho rfl hu hx⟩

/-! ## A run to a boundary -/

/-- A key for every number. -/
def numKey (n : Nat) : StoreKey := ⟨leBytes 16 n, length_leBytes 16 n⟩

theorem numKey_inj {n n' : Nat} (hn : n < 776) (hn' : n' < 776) (heq : numKey n = numKey n') :
    n = n' := by
  have hbytes : leBytes 16 n = leBytes 16 n' := congrArg Subtype.val heq
  have hlt : 776 < 256 ^ 16 := by decide
  rw [← leNat_leBytes (n := 16) (by omega : n < 256 ^ 16), hbytes,
    leNat_leBytes (by omega : n' < 256 ^ 16)]

/-- The numbers of the keys of the run: all slots but one are filled with new keys, then one key
is refreshed until the ring is full. -/
def fillKey (i : Nat) : Nat := if 8 ≤ i ∧ i < 263 then i else 0

/-- A record of 511 bytes; eight of them fill a sector to its last byte. -/
def fillPut (i : Nat) : PutArgs := ⟨numKey (fillKey i), 0, 0, List.replicate 479 0⟩

theorem length_fillPut (i : Nat) : (fillPut i).payload.length = 479 := List.length_replicate

/-- The puts of the run from the `i`-th on. -/
def fillOps (i n : Nat) : List (UInt32 × StoreOp) :=
  (List.range' i n).map fun i =>
    (0, .put (fillPut i).key (fillPut i).expiryUnixS (fillPut i).flags (fillPut i).payload)

/-- The store after `i` puts of the run: the records of the first eight keys are in sector 1. -/
structure Filling (crc32 : UInt32 → List UInt8 → UInt32) (i : Nat) (st : StoreState)
    (S : Nat → Option LogSector) (h : Nat) : Prop where
  inv : LogInv crc32 st S h
  order : RingOrder st S h
  head : h = (i - 1) / 8 % 96
  seq : st.headSeq.toNat = (i - 1) / 8 + 1
  writeOff : st.writeOff = h * 4096 + 8 + if i = 0 then 0 else ((i - 1) % 8 + 1) * 511
  placed : ∀ e ∈ st.index, ∃ n, n < i ∧ e.key = numKey (fillKey n) ∧
    sectorBase e.offset = n / 8 % 96 * 4096 ∧ (263 < i → 8 ≤ n)
  kept : ∀ n, 8 ≤ n → n < 263 → n < i → ∃ e ∈ st.index, e.key = numKey n ∧
    sectorBase e.offset = n / 8 * 4096
  zero : 0 < i → ∃ e ∈ st.index, e.key = numKey 0

theorem fillKey_lt {i : Nat} (hi : i < 776) : fillKey i < 776 := by
  unfold fillKey
  split <;> omega

/-- The numbers that are used. -/
def fillNums : Finset Nat := insert 0 (Finset.Ico 8 263)

theorem fillKey_mem (i : Nat) : fillKey i ∈ fillNums := by
  unfold fillKey fillNums
  split <;> simp_all

theorem card_fillKeys : (fillNums.image numKey).card = 256 := by
  rw [Finset.card_image_of_injOn, fillNums, Finset.card_insert_of_notMem (by simp), Nat.card_Ico]
  intro n hn n' hn' heq
  simp only [fillNums, Finset.coe_insert, Finset.coe_Ico, Set.mem_insert_iff, Set.mem_Ico] at hn hn'
  exact numKey_inj (by omega) (by omega) heq

namespace Filling

variable {i : Nat}

theorem headSeq_ne (hf : Filling crc32 i st S h) : st.headSeq ≠ 0 := by
  intro h0
  have h1 := congrArg UInt32.toNat h0
  have h2 := hf.seq
  have h3 : (0 : UInt32).toNat = 0 := rfl
  omega

/-- There is a slot for every put. -/
theorem room (hf : Filling crc32 i st S h) :
    (unbindKey .good { st with lock := .held } (fillPut i).key).index.length < 256 := by
  have hr := hf.inv.toLogRing.setLock .held
  obtain ⟨S1, hu⟩ := hr.unbind .good (fillPut i).key
  have hnd := hu.ring.index.nodup
  rw [← List.length_map StoreIndexEntry.key, ← List.toFinset_card_of_nodup hnd]
  have hsub : ((unbindKey .good { st with lock := .held } (fillPut i).key).index.map
      StoreIndexEntry.key).toFinset ⊆ (fillNums.image numKey).erase (numKey (fillKey i)) := by
    intro k hk
    obtain ⟨e, he, rfl⟩ := List.mem_map.mp (List.mem_toFinset.mp hk)
    obtain ⟨hin, hne⟩ := (hr.mem_unbind .good _ e).mp he
    obtain ⟨n, -, hkey, -⟩ := hf.placed e hin
    refine Finset.mem_erase.mpr ⟨hne, ?_⟩
    rw [hkey]
    exact Finset.mem_image_of_mem _ (fillKey_mem n)
  refine Nat.lt_of_le_of_lt (Finset.card_le_card hsub) ?_
  rw [Finset.card_erase_of_mem (Finset.mem_image_of_mem _ (fillKey_mem i)), card_fillKeys]
  decide

/-- Where a put of the run writes its record. -/
theorem roomed (hf : Filling crc32 i st S h) {S1 S2 S3 : Nat → Option LogSector}
    {st1 st2 st3 : StoreState} {bases : List Nat} {h3 : Nat} (hlt : i < 776)
    (hram : SameRam st st2) (hx : Roomed crc32 479 st1 S1 h st2 S2 bases st3 S3 h3) :
    st3.headSeq.toNat = i / 8 + 1 ∧ h3 = i / 8 % 96 ∧
      st3.writeOff = h3 * 4096 + 8 + i % 8 * 511 ∧
      (fits st2.writeOff (32 + 479) = false → i % 8 = 0 ∧ 8 ≤ i) := by
  have hhead := hf.head
  have hseq := hf.seq
  have hw := hf.writeOff
  have hfits : fits st2.writeOff (32 + 479) = true ↔ _ := fits_iff
  rw [hram.writeOff] at hfits
  -- the record fits until the sector has eight of them
  have hmod : (fits st.writeOff (32 + 479) = false → i % 8 = 0 ∧ 8 ≤ i) ∧
      (fits st.writeOff (32 + 479) = true → i = 0 ∨ (i - 1) % 8 < 7) := by
    rcases Nat.eq_zero_or_pos i with rfl | hpos
    · rw [if_pos rfl] at hw
      refine ⟨fun hfit => ?_, fun _ => .inl rfl⟩
      refine absurd (hfits.mpr ?_) (by simp [hfit])
      omega
    · rw [if_neg (Nat.ne_of_gt hpos)] at hw
      rcases (by omega : (i - 1) % 8 < 7 ∨ (i - 1) % 8 = 7) with hlast | hlast
      · refine ⟨fun hfit => ?_, fun _ => .inr hlast⟩
        refine absurd (hfits.mpr ?_) (by simp [hfit])
        have hin : st.writeOff % 4096 = 8 + ((i - 1) % 8 + 1) * 511 := by omega
        omega
      · refine ⟨fun _ => by omega, fun hfit => ?_⟩
        have hin := (hfits.mp hfit).1
        omega
  rw [hram.writeOff]
  rcases hx.next with ⟨hfit, rfl, -, rfl⟩ | ⟨hfit, hh3, rfl, -⟩
  · rw [hram.writeOff] at hfit
    rw [hram.headSeq, hram.writeOff]
    have hin := hmod.2 hfit
    refine ⟨by omega, by omega, ?_, hmod.1⟩
    rw [hw]
    split <;> omega
  · rw [hram.writeOff] at hfit
    obtain ⟨h8, hle⟩ := hmod.1 hfit
    have hnext : st.nextSeq.toNat = st.headSeq.toNat + 1 := by
      rw [hf.order.next, UInt32.toNat_add]
      have h1 : (1 : UInt32).toNat = 1 := rfl
      omega
    rw [StoreState.opened_headSeq, StoreState.opened_writeOff, hram.nextSeq]
    exact ⟨by omega, by omega, by omega, hmod.1⟩

/-- **One put of the run.** -/
theorem step (hf : Filling crc32 i st S h) (hlt : i < 776) (now : UInt32) :
    ∃ st' S' h', storeStep crc32 now st
        (.put (fillPut i).key (fillPut i).expiryUnixS (fillPut i).flags (fillPut i).payload) =
          .ok (.err .ok, st') ∧ Filling crc32 (i + 1) st' S' h' := by
  have hr := hf.inv.toLogRing.setLock .held
  obtain ⟨S1, st2, S2, bases, st3, S3, h3, s, hu, hx, hput, hs, hseq, hw, hi'⟩ :=
    hf.inv.put (a := fillPut i) (onlyTombstones_good st) (by rw [length_fillPut]; omega)
      (by rw [length_fillPut]; omega)
  rw [length_fillPut] at hx
  obtain ⟨hst2, -⟩ := hx.rounds.eq_of_room hf.room
  have hram : SameRam st st2 := by
    rw [hst2]
    exact ⟨hu.ram.writeOff, hu.ram.nextSeq, hu.ram.headSeq, hu.ram.erased, hu.ram.part⟩
  obtain ⟨hnum, hh3, hoff, hopen⟩ := hf.roomed hlt hram hx
  have hne : st3.headSeq ≠ 0 := by
    intro h0
    have := congrArg UInt32.toNat h0
    have h1 : (0 : UInt32).toNat = 0 := rfl
    omega
  have ho1 := hf.order.within hu.within hu.ram.nextSeq hu.ram.headSeq
  -- the entries that are left, and the new one
  have hmem : ∀ e, e ∈ (st3.putDone crc32 (fillPut i)).index ↔
      ((e ∈ st.index ∧ e.key ≠ numKey (fillKey i)) ∧
        (fits st2.writeOff (32 + 479) = false → sectorBase e.offset ≠ h3 * 4096)) ∨
      e = ((fillPut i).record st3.writeOff).entry st3.headSeq := by
    intro e
    show e ∈ st3.index ++ [_] ↔ _
    rw [List.mem_append, List.mem_singleton, hx.mem, hst2, hr.mem_unbind]
    rfl
  have hnew : sectorBase st3.writeOff = i / 8 % 96 * 4096 := by
    unfold sectorBase storeSectorSize
    omega
  refine ⟨_, _, h3, ?_, hi', (hx.order ho1 hne).append hs _ rfl rfl, by simpa using hh3, hnum, ?_,
    fun e he => ?_, fun n h1 h2 h3 => ?_, fun _ => ?_⟩
  · rw [storeStep, hput]
    rfl
  · show st3.writeOff + (32 + (fillPut i).payload.length) = _
    rw [length_fillPut, if_neg (Nat.succ_ne_zero i)]
    omega
  · rcases (hmem e).mp he with ⟨⟨hin, hkey⟩, -⟩ | rfl
    · obtain ⟨n, hn, hk, hbase, -⟩ := hf.placed e hin
      refine ⟨n, by omega, hk, hbase, fun hi => ?_⟩
      -- from here on every put refreshes the first key
      have hki : fillKey i = 0 := if_neg (by omega)
      rw [hk, hki] at hkey
      have hkn : fillKey n ≠ 0 := fun h0 => hkey (by rw [h0])
      unfold fillKey at hkn
      split at hkn
      · omega
      · exact absurd rfl hkn
    · exact ⟨i, by omega, rfl, hnew, by omega⟩
  · -- the records of the keys from 1 on stay, and the new one joins them
    rcases Nat.lt_succ_iff_lt_or_eq.mp h3 with hlt' | rfl
    · obtain ⟨e, he, hk, hbase⟩ := hf.kept n h1 h2 hlt'
      have hkey : numKey n ≠ numKey (fillKey i) := by
        intro heq
        have := numKey_inj (by omega) (fillKey_lt (by omega)) heq
        unfold fillKey at this
        split at this <;> omega
      refine ⟨e, (hmem e).mpr (.inl ⟨⟨he, hk ▸ hkey⟩, fun hfit => ?_⟩), hk, hbase⟩
      have := hopen hfit
      omega
    · refine ⟨_, (hmem _).mpr (.inr rfl), ?_, hnew.trans (by omega)⟩
      show numKey (fillKey n) = _
      rw [fillKey, if_pos ⟨h1, h2⟩]
  · by_cases hi : 8 ≤ i ∧ i < 263
    · -- the record of the first key is in the first sector
      obtain ⟨e, he, hk⟩ := hf.zero (by omega)
      obtain ⟨n, hn, hkn, hbase, -⟩ := hf.placed e he
      have hn0 : 0 = fillKey n :=
        numKey_inj (by omega) (fillKey_lt (by omega)) (hk.symm.trans hkn)
      have hn8 : n < 8 := by
        unfold fillKey at hn0
        split at hn0 <;> omega
      have hkey : numKey 0 ≠ numKey (fillKey i) := by
        intro heq
        have h0 := numKey_inj (by omega) (fillKey_lt (by omega)) heq
        rw [fillKey, if_pos hi] at h0
        omega
      refine ⟨e, (hmem e).mpr (.inl ⟨⟨he, hk ▸ hkey⟩, fun hfit => ?_⟩), hk⟩
      have := hopen hfit
      omega
    · refine ⟨_, (hmem _).mpr (.inr rfl), ?_⟩
      show numKey (fillKey i) = _
      rw [fillKey, if_neg hi]

/-- **The puts from the `i`-th on.** -/
theorem run (hf : Filling crc32 i st S h) {n : Nat} (hle : i + n ≤ 776) :
    ∃ st' S' h', storeRun crc32 st (fillOps i n) = .ok st' ∧ Numbered crc32 st (fillOps i n) ∧
      Filling crc32 (i + n) st' S' h' := by
  induction n generalizing i st S h with
  | zero => exact ⟨st, S, h, rfl, hf.headSeq_ne, hf⟩
  | succ n ih =>
    obtain ⟨st1, S1, h1, hstep, hf1⟩ := hf.step (by omega) 0
    obtain ⟨st', S', h', hrun, hnum, hf'⟩ := ih hf1 (by omega)
    refine ⟨st', S', h', ?_, ⟨hf.headSeq_ne, fun out st2 hstep2 => ?_⟩, by rwa [Nat.add_right_comm] at hf'⟩
    · rw [fillOps, List.range'_succ, List.map_cons, storeRun, hstep]
      exact hrun
    · rw [hstep] at hstep2
      cases hstep2
      exact hnum

/-- Behind the last put the head, sector 0, is full, and sector 1 has the records of eight keys. -/
theorem onBoundary (hf : Filling crc32 776 st S h) : OnBoundary st (numKey 1) := by
  have hw := hf.writeOff
  have hhead := hf.head
  rw [if_neg (by decide)] at hw
  refine ⟨?_, ?_, ?_, ?_⟩
  · -- every key has its entry
    have hsub : fillNums.image numKey ⊆ (st.index.map StoreIndexEntry.key).toFinset := by
      intro k hk
      obtain ⟨n, hn, rfl⟩ := Finset.mem_image.mp hk
      have hentry : ∃ e ∈ st.index, e.key = numKey n := by
        rcases Finset.mem_insert.mp hn with rfl | hn
        · exact hf.zero (by decide)
        · obtain ⟨h8, h263⟩ := Finset.mem_Ico.mp hn
          obtain ⟨e, he, hk, -⟩ := hf.kept n h8 h263 (by omega)
          exact ⟨e, he, hk⟩
      obtain ⟨e, he, hk⟩ := hentry
      exact List.mem_toFinset.mpr (List.mem_map.mpr ⟨e, he, hk⟩)
    have hcard := Finset.card_le_card hsub
    rw [card_fillKeys, List.toFinset_card_of_nodup hf.inv.index.nodup, List.length_map] at hcard
    exact hcard
  · refine indexFind_eq_none.mpr fun e he hk => ?_
    obtain ⟨n, hn, hkn, -⟩ := hf.placed e he
    have h1 := numKey_inj (by omega) (fillKey_lt hn) (hk.symm.trans hkn)
    unfold fillKey at h1
    split at h1 <;> omega
  · rw [hw, hhead]
    rfl
  · obtain ⟨e, he, -, hbase⟩ := hf.kept 8 (by decide) (by decide) (by decide)
    refine ⟨e, he, ?_⟩
    rw [hbase, hw, hhead]

end Filling

variable (crc32) in
/-- The run starts with the first boot. -/
theorem filling_firstBoot (now : UInt32) :
    ∃ st S, bitleStoreInit .good crc32 now (powerOn blankFlash []) = (.ok, st) ∧
      Filling crc32 0 st S 0 := by
  obtain ⟨st, S, hboot, hi, ho, hseq, hw, hempty⟩ := logInv_firstBoot crc32 now
  refine ⟨st, S, hboot, hi, ho, rfl, by rw [hseq]; rfl, ?_, fun e he => ?_, fun n _ _ hn => ?_,
    fun hn => ?_⟩
  · rw [if_pos rfl, hw]
  · obtain ⟨q, r, hr, -⟩ := hi.index.sound e he
    exact absurd hr (hempty q r)
  · omega
  · omega

/-- **A put gives up the oldest records first**, from every state that calls and reboots at any
times lead to from an erased partition on a flash without faults while the sector numbers do not
start again, unless it finds the write offset on a boundary. -/
theorem put_drops_oldest_first (crc32 : UInt32 → List UInt8 → UInt32) (t : UInt32)
    (ops : List (UInt32 × StoreOp)) (st0 st : StoreState) (a : PutArgs)
    (hboot : bitleStoreInit .good crc32 t (powerOn blankFlash []) = (.ok, st0))
    (hnum : Numbered crc32 st0 ops) (hrun : storeRun crc32 st0 ops = .ok st) :
    (1 ≤ a.payload.length ∧ a.payload.length ≤ bitleStorePayloadMax →
      ∃ st1 st2 st3 st', PutPhases crc32 st a st1 st2 st3 st' ∧
        (OldestFirst st1 st2 st3 ↔ ¬ OnBoundary st a.key)) ∧
    (¬ (1 ≤ a.payload.length ∧ a.payload.length ≤ bitleStorePayloadMax) →
      bitleStorePut .good crc32 st a.key a.expiryUnixS a.flags a.payload =
        .ok (.invalidArg, st)) :=
  ⟨fun hlen => (ordered_of_boot hboot hnum hrun).phases hlen.1 hlen.2,
    fun hlen => bitleStorePut_invalid hlen⟩

/-- The put of a new key behind the run. -/
theorem put_drops_oldest_first_boundary :
    ∃ st0 st st1 st2 st3 st',
      bitleStoreInit .good espCrc32Le 0 (powerOn blankFlash []) = (.ok, st0) ∧
      Numbered espCrc32Le st0 (fillOps 0 776) ∧
      storeRun espCrc32Le st0 (fillOps 0 776) = .ok st ∧
      PutPhases espCrc32Le st ⟨numKey 1, 0, 0, [7]⟩ st1 st2 st3 st' ∧
      (OldestFirst st1 st2 st3 ↔ ¬ OnBoundary st (numKey 1)) := by
  obtain ⟨st0, S0, hboot, hf0⟩ := filling_firstBoot espCrc32Le 0
  obtain ⟨st, S, h, hrun, hnum, -⟩ := hf0.run (n := 776) (by decide)
  obtain ⟨st1, st2, st3, st', hphases, hiff⟩ :=
    (put_drops_oldest_first espCrc32Le 0 (fillOps 0 776) st0 st ⟨numKey 1, 0, 0, [7]⟩ hboot hnum
      hrun).1 (by decide)
  exact ⟨st0, st, st1, st2, st3, st', hboot, hnum, hrun, hphases, hiff⟩

/-- That put reclaims sector 2 and keeps the older records of sector 1. -/
theorem put_keeps_oldest_on_boundary :
    ∃ st0 st st1 st2 st3 st',
      bitleStoreInit .good espCrc32Le 0 (powerOn blankFlash []) = (.ok, st0) ∧
      Numbered espCrc32Le st0 (fillOps 0 776) ∧
      storeRun espCrc32Le st0 (fillOps 0 776) = .ok st ∧
      PutPhases espCrc32Le st ⟨numKey 1, 0, 0, [7]⟩ st1 st2 st3 st' ∧
      ¬ OldestFirst st1 st2 st3 := by
  obtain ⟨st0, S0, hboot, hf0⟩ := filling_firstBoot espCrc32Le 0
  obtain ⟨st, S, h, hrun, hnum, hf⟩ := hf0.run (n := 776) (by decide)
  obtain ⟨st1, st2, st3, st', hphases, hiff⟩ :=
    (ordered_of_boot hboot hnum hrun).phases (a := ⟨numKey 1, 0, 0, [7]⟩) (by decide) (by decide)
  exact ⟨st0, st, st1, st2, st3, st', hboot, hnum, hrun, hphases, fun hold => hiff.mp hold hf.onBoundary⟩

end Bitle
