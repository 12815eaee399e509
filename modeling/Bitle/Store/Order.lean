import Bitle.Store.Dedup
import Bitle.Store.Tail

/-!
# Bitle — the mailbox under any clock, and the order of its sectors

`StoreInv` says that the index has every live record. That needs a clock that does not go back
and tombstones that do not fail. `LogInv` is what is left of it otherwise, and every call keeps it
(`LogInv.put`, `LogInv.delete`, `LogInv.iterate`, `LogInv.reboot`).

`RingOrder` is about the sector numbers as long as they do not wrap: the head has the highest
one, and the sectors behind it count down.
-/

namespace Bitle

open Wire Flash Slots

variable {crc32 : UInt32 → List UInt8 → UInt32} {env : FlashEnv} {st st' : StoreState}
  {S S' S'' : Nat → Option LogSector} {h i j : Nat}

/-! ## Less of a log -/

/-- The sectors and records of `S'` are some of those of `S`, tombstones aside. -/
def LogWithin (S' S : Nat → Option LogSector) : Prop :=
  ∀ i s', S' i = some s' → ∃ s, S i = some s ∧ s.seq = s'.seq ∧
    ∀ r' ∈ s'.recs, ∃ r ∈ s.recs, r.off = r'.off

theorem LogWithin.refl (S : Nat → Option LogSector) : LogWithin S S :=
  fun _ s hs => ⟨s, hs, rfl, fun r hr => ⟨r, hr, rfl⟩⟩

theorem LogWithin.trans (h : LogWithin S'' S') (h' : LogWithin S' S) : LogWithin S'' S := by
  intro i s'' hs''
  obtain ⟨s', hs', hseq', hrec'⟩ := h i s'' hs''
  obtain ⟨s, hs, hseq, hrec⟩ := h' i s' hs'
  refine ⟨s, hs, hseq.trans hseq', fun r'' hr'' => ?_⟩
  obtain ⟨r', hr', hoff'⟩ := hrec' r'' hr''
  obtain ⟨r, hr, hoff⟩ := hrec r' hr'
  exact ⟨r, hr, hoff.trans hoff'⟩

theorem within_killAt (off : Nat) (S : Nat → Option LogSector) : LogWithin (killAt off S) S := by
  intro i s' hs'
  by_cases hi : i = off / 4096
  · subst hi
    rw [killAt, Function.update_self, Option.map_eq_some_iff] at hs'
    obtain ⟨s, hs, rfl⟩ := hs'
    refine ⟨s, hs, rfl, fun r' hr' => ?_⟩
    obtain ⟨r, hr, rfl⟩ := List.mem_map.mp hr'
    refine ⟨r, hr, ?_⟩
    split <;> rfl
  · rw [killAt, Function.update_of_ne hi] at hs'
    exact LogWithin.refl S i s' hs'

theorem within_update_none (S : Nat → Option LogSector) (j : Nat) :
    LogWithin (Function.update S j none) S := by
  intro i s' hs'
  by_cases hij : i = j
  · rw [hij, Function.update_self] at hs'
    cases hs'
  · rw [Function.update_of_ne hij] at hs'
    exact LogWithin.refl S i s' hs'

theorem Rounds.within {bases : List Nat} (hx : Rounds st S st' S' bases) : LogWithin S' S := by
  induction hx with
  | done => exact LogWithin.refl _
  | round _ _ _ ih => exact ih.trans (within_update_none _ _)

/-! ## The sector with the highest number there is -/

/-- `Ring.wrap`: the head is as many sectors behind that sector as the next number says. -/
def WrapsAt (st : StoreState) (S : Nat → Option LogSector) (h : Nat) : Prop :=
  ∀ i, i < 96 → ∀ s, S i = some s → s.seq = 0xFFFFFFFF →
    st.nextSeq.toNat ≤ 95 ∧ h = (i + st.nextSeq.toNat) % 96

theorem WrapsAt.oneTop (hw : WrapsAt st S h) : OneTop S := by
  intro i j hi hj s s' hs hs' hm hm'
  have h1 := (hw i hi s hs hm).2
  have h2 := (hw j hj s' hs' hm').2
  omega

theorem WrapsAt.within (hw : WrapsAt st S h) (hin : LogWithin S' S)
    (hnext : st'.nextSeq = st.nextSeq) : WrapsAt st' S' h := by
  intro i hi s' hs' hmax
  obtain ⟨s, hs, hseq, -⟩ := hin i s' hs'
  rw [hnext]
  exact hw i hi s hs (hseq.trans hmax)

theorem WrapsAt.opened (hw : WrapsAt st S h) :
    WrapsAt (st.opened ((h + 1) % 96))
      (Function.update S ((h + 1) % 96) (some ⟨st.nextSeq, []⟩)) ((h + 1) % 96) := by
  intro i hi s hs hmax
  have hnext : (st.opened ((h + 1) % 96)).nextSeq.toNat = (st.nextSeq.toNat + 1) % 2 ^ 32 := by
    rw [StoreState.opened_nextSeq, UInt32.toNat_add]
    rfl
  by_cases hij : i = (h + 1) % 96
  · -- the new sector itself has the highest number: the next one is zero
    rw [hij, Function.update_self, Option.some.injEq] at hs
    subst hs
    have hmax' : st.nextSeq.toNat = 0xFFFFFFFF := congrArg UInt32.toNat hmax
    omega
  · rw [Function.update_of_ne hij] at hs
    obtain ⟨h1, h2⟩ := hw i hi s hs hmax
    omega

/-- After a boot the head is the sector with the highest number. -/
theorem WrapsAt.booted {now : UInt32} {m : Mem} {erased : List Nat}
    (hb : Booted crc32 now m erased S st h) (htop : OneTop S) : WrapsAt st S h := by
  intro i hi x hx hm
  obtain ⟨s, hs, hseq, -⟩ := hb.head
  have hle := hb.newest i hi x hx
  have hnewest : st.headSeq = 0xFFFFFFFF := by
    rw [hm, UInt32.le_iff_toNat_le] at hle
    have hlt := st.headSeq.toNat_lt
    exact UInt32.toNat_inj.mp (by
      have : (0xFFFFFFFF : UInt32).toNat = 4294967295 := rfl
      omega)
  obtain rfl := htop i h hi hb.head_lt x s hx hs hm (hseq.trans hnewest)
  have hnext : st.nextSeq.toNat = 0 := by
    rw [hb.next, hnewest]
    rfl
  have hlt := hb.head_lt
  omega

/-! ## The order of the sectors -/

/-- The head has the last number, and a sector that is `d` sectors behind it the one `d` before
that. -/
structure RingOrder (st : StoreState) (S : Nat → Option LogSector) (h : Nat) : Prop where
  next : st.nextSeq = st.headSeq + 1
  behind : ∀ i, i < 96 → ∀ s, S i = some s →
    s.seq.toNat + (h + 96 - i) % 96 = st.headSeq.toNat

namespace RingOrder

theorem within (ho : RingOrder st S h) (hin : LogWithin S' S) (hnext : st'.nextSeq = st.nextSeq)
    (hhead : st'.headSeq = st.headSeq) : RingOrder st' S' h := by
  refine ⟨by rw [hnext, hhead, ho.next], fun i hi s' hs' => ?_⟩
  obtain ⟨s, hs, hseq, -⟩ := hin i s' hs'
  rw [← hseq, hhead]
  exact ho.behind i hi s hs

/-- The next sector is opened, unless its number starts again at zero. -/
theorem opened (ho : RingOrder st S h) (hh : h < 96) (hwrap : st.nextSeq ≠ 0) :
    RingOrder (st.opened ((h + 1) % 96))
      (Function.update S ((h + 1) % 96) (some ⟨st.nextSeq, []⟩)) ((h + 1) % 96) := by
  have hnum : st.nextSeq.toNat = st.headSeq.toNat + 1 := by
    have hne : st.nextSeq.toNat ≠ 0 := fun h0 => hwrap (UInt32.toNat_inj.mp h0)
    have hlt := st.headSeq.toNat_lt
    rw [ho.next, UInt32.toNat_add] at hne ⊢
    have h1 : (1 : UInt32).toNat = 1 := rfl
    omega
  refine ⟨?_, fun i hi s hs => ?_⟩
  · rw [StoreState.opened_nextSeq, StoreState.opened_headSeq]
  · rw [StoreState.opened_headSeq]
    by_cases hij : i = (h + 1) % 96
    · subst hij
      rw [Function.update_self, Option.some.injEq] at hs
      subst hs
      dsimp only
      omega
    · rw [Function.update_of_ne hij] at hs
      have hb := ho.behind i hi s hs
      omega

theorem le_head (ho : RingOrder st S h) (hi : i < 96) {s : LogSector} (hs : S i = some s) :
    s.seq ≤ st.headSeq := by
  have hb := ho.behind i hi s hs
  rw [UInt32.le_iff_toNat_le]
  omega

/-- Sectors have different numbers. -/
theorem eq_of_seq (ho : RingOrder st S h) (hi : i < 96) (hj : j < 96) {s s' : LogSector}
    (hs : S i = some s) (hs' : S j = some s') (hseq : s.seq = s'.seq) : i = j := by
  have h1 := ho.behind i hi s hs
  have h2 := ho.behind j hj s' hs'
  rw [hseq] at h1
  omega

/-- The sector behind the end of the ring is the oldest. -/
theorem oldest (ho : RingOrder st S h) (hh : h < 96) {s s' : LogSector}
    (hs : S ((h + 1) % 96) = some s) (hj : j < 96) (hs' : S j = some s') : s.seq ≤ s'.seq := by
  have h1 := ho.behind _ (Nat.mod_lt _ (by decide)) s hs
  have h2 := ho.behind j hj s' hs'
  rw [UInt32.le_iff_toNat_le]
  omega

/-- A boot finds the head where it was. -/
theorem booted (ho : RingOrder st S h) (hh : h < 96) (hopen : HeadOpen st S h) {now : UInt32}
    {m : Mem} {erased : List Nat} {h' : Nat} (hb : Booted crc32 now m erased S st' h') :
    h' = h ∧ st'.headSeq = st.headSeq ∧ RingOrder st' S h' := by
  obtain ⟨s, hs, hseq, -⟩ := hopen
  obtain ⟨s', hs', hseq', -⟩ := hb.head
  have hle := hb.newest h hh s hs
  have hge := ho.le_head hb.head_lt hs'
  have hhead : st'.headSeq = st.headSeq := by
    rw [hseq] at hle
    rw [hseq'] at hge
    exact Std.le_antisymm hge hle
  have heq : h' = h := ho.eq_of_seq hb.head_lt hh hs' hs (by rw [hseq', hseq, hhead])
  refine ⟨heq, hhead, ⟨hb.next, fun i hi x hx => ?_⟩⟩
  rw [heq, hhead]
  exact ho.behind i hi x hx

end RingOrder

/-! ## The invariant -/

/-- The invariant between two calls, for any clock and whichever tombstones fail. -/
structure LogInv (crc32 : UInt32 → List UInt8 → UInt32) (st : StoreState)
    (S : Nat → Option LogSector) (h : Nat) : Prop extends LogRing crc32 st S h where
  head : HeadOpen st S h
  wrap : WrapsAt st S h
  part : st.part = true
  lock : st.lock = .free

/-- Everything in RAM but the index and the mutex. -/
structure SameRam (st st' : StoreState) : Prop where
  writeOff : st'.writeOff = st.writeOff
  nextSeq : st'.nextSeq = st.nextSeq
  headSeq : st'.headSeq = st.headSeq
  erased : st'.erased = st.erased
  part : st'.part = st.part

theorem SameRam.refl (st : StoreState) : SameRam st st := ⟨rfl, rfl, rfl, rfl, rfl⟩

theorem SameRam.trans {st'' : StoreState} (h : SameRam st st') (h' : SameRam st' st'') :
    SameRam st st'' :=
  ⟨h'.writeOff.trans h.writeOff, h'.nextSeq.trans h.nextSeq, h'.headSeq.trans h.headSeq,
    h'.erased.trans h.erased, h'.part.trans h.part⟩

theorem SameRam.giveLock {lock : StoreLock} (h : SameRam { st with lock } st') :
    SameRam st (giveLock st') := ⟨h.writeOff, h.nextSeq, h.headSeq, h.erased, h.part⟩

theorem LogRing.setLock (hr : LogRing crc32 st S h) (lock : StoreLock) :
    LogRing crc32 { st with lock } S h :=
  ⟨hr.log, hr.index, hr.head_lt, hr.head_lo, hr.head_hi, hr.head_open⟩

/-! ## Tombstones -/

/-- The byte of a tombstone is programmed or not. -/
theorem tombstoneAt_cases (env : FlashEnv) (st : StoreState) (off : Nat) :
    tombstoneAt env st off = st ∨
      tombstoneAt env st off =
        { st with mem := program st.mem (off + storeAliveOffset) [0x00] } := by
  unfold tombstoneAt espPartitionWrite
  cases env.writeCut (off + storeAliveOffset) with
  | none => exact .inr rfl
  | some k =>
    dsimp only
    cases k with
    | zero =>
      left
      have hsame : program st.mem (off + storeAliveOffset) [] = st.mem := by
        funext x
        exact program_outside (by simp; omega)
      rw [List.take_zero, hsame]
    | succ k =>
      right
      rw [List.take_of_length_le (by simp)]

/-- **What a removal from the index leaves**, with its tombstone programmed or not. -/
structure Unbound (crc32 : UInt32 → List UInt8 → UInt32) (st : StoreState)
    (S : Nat → Option LogSector) (h : Nat) (st' : StoreState) (S' : Nat → Option LogSector) :
    Prop where
  ring : LogRing crc32 st' S' h
  head : HeadOpen st S h → HeadOpen st' S' h
  within : LogWithin S' S
  ram : SameRam st st'
  lock : st'.lock = st.lock

theorem Unbound.refl (hr : LogRing crc32 st S h) : Unbound crc32 st S h st S :=
  ⟨hr, id, LogWithin.refl S, SameRam.refl st, rfl⟩

theorem Unbound.trans {st'' : StoreState} (h1 : Unbound crc32 st S h st' S')
    (h2 : Unbound crc32 st' S' h st'' S'') : Unbound crc32 st S h st'' S'' :=
  ⟨h2.ring, h2.head ∘ h1.head, h2.within.trans h1.within, h1.ram.trans h2.ram,
    h2.lock.trans h1.lock⟩

theorem LogRing.drop (hr : LogRing crc32 st S h) {e : StoreIndexEntry}
    (he : st.index[i]? = some e) : Unbound crc32 st S h (indexRemoveAt st i) S :=
  ⟨(hr.dropped he).1, (hr.dropped he).2, LogWithin.refl S, ⟨rfl, rfl, rfl, rfl, rfl⟩, rfl⟩

theorem LogRing.tombstone (hr : LogRing crc32 st S h) (env : FlashEnv) {e : StoreIndexEntry}
    (he : st.index[i]? = some e) :
    ∃ S', Unbound crc32 st S h (indexRemoveAt (tombstoneAt env st e.offset) i) S' := by
  rcases tombstoneAt_cases env st e.offset with heq | heq
  · rw [heq]
    exact ⟨S, hr.drop he⟩
  · rw [heq]
    obtain ⟨hlr, hopen⟩ := hr.tombstoned he
    exact ⟨killAt e.offset S, hlr, hopen, within_killAt _ _, ⟨rfl, rfl, rfl, rfl, rfl⟩, rfl⟩

/-- The entry of a key goes, and no other one. -/
theorem LogRing.mem_unbind (hr : LogRing crc32 st S h) (env : FlashEnv) (key : StoreKey)
    (e : StoreIndexEntry) :
    e ∈ (unbindKey env st key).index ↔ e ∈ st.index ∧ e.key ≠ key := by
  unfold unbindKey
  cases hf : indexFind st.index key with
  | none => exact ⟨fun he => ⟨he, indexFind_eq_none.mp hf e he⟩, And.left⟩
  | some i =>
    obtain ⟨x, hx, rfl⟩ := indexFind_eq_some hf
    have hperm := hr.index.remove_perm hx
    dsimp only
    rw [tombstoneEntry_eq env hx]
    show e ∈ swapRemove st.index i ↔ _
    rw [hperm.mem_iff, List.mem_filter, bne_iff_ne]

theorem LogRing.unbind (hr : LogRing crc32 st S h) (env : FlashEnv) (key : StoreKey) :
    ∃ S', Unbound crc32 st S h (unbindKey env st key) S' := by
  unfold unbindKey
  cases hf : indexFind st.index key with
  | none => exact ⟨S, .refl hr⟩
  | some i =>
    obtain ⟨e, he, -⟩ := indexFind_eq_some hf
    dsimp only
    rw [tombstoneEntry_eq env he]
    exact hr.tombstone env he

/-- Between two calls. -/
theorem LogInv.unbound (hi : LogInv crc32 st S h) {lock : StoreLock}
    (hu : Unbound crc32 { st with lock } S h st' S') : LogInv crc32 (giveLock st') S' h :=
  ⟨hu.ring.setLock .free, hu.head hi.head, hi.wrap.within hu.within hu.ram.nextSeq,
    hu.ram.part.trans hi.part, rfl⟩

/-! ## The calls without a record -/

/-- **`bitle_store_delete`.** -/
theorem LogInv.delete (hi : LogInv crc32 st S h) (key : StoreKey)
    (hcall : bitleStoreDelete env st key = .ok st') :
    ∃ S', LogInv crc32 st' S' h ∧ LogWithin S' S ∧ SameRam st st' := by
  obtain ⟨S', hu⟩ := (hi.toLogRing.setLock .held).unbind env key
  unfold bitleStoreDelete at hcall
  rw [if_neg (by simp [hi.part]), takeLock_free hi.lock] at hcall
  cases hcall
  exact ⟨S', hi.unbound hu, hu.within, hu.ram.giveLock⟩

/-- **`bitle_store_iterate`.** -/
theorem LogInv.iterate (hi : LogInv crc32 st S h) {now : UInt32}
    {keep : List (StoreKey × StoreValue) → Bool} {x : StoreState × List (StoreKey × StoreValue)}
    (hcall : bitleStoreIterate env now (collect keep) st [] = .ok x) :
    ∃ S', LogInv crc32 x.1 S' h ∧ LogWithin S' S ∧ SameRam st x.1 := by
  rcases bitleStoreIterate_cases hcall with heq | ⟨y, hy, heq⟩
  · rw [heq]
    exact ⟨S, hi, LogWithin.refl S, SameRam.refl st⟩
  · rw [takeLock_free hi.lock] at hy
    have hloop : iterateLoop env now (collect keep) st.index.length 0 { st with lock := .held } [] =
        .ok (y.1, y.2) := hy
    obtain ⟨S', hu⟩ := iterateLoop_rule
      (P := fun z => ∃ S', Unbound crc32 { st with lock := .held } S h z S')
      (fun z i e hz he => by
        obtain ⟨S', hu⟩ := hz
        obtain ⟨S'', hu'⟩ := hu.ring.tombstone env he
        exact ⟨S'', hu.trans hu'⟩)
      (fun z i e hz he => by
        obtain ⟨S', hu⟩ := hz
        exact ⟨S', hu.trans (hu.ring.drop he)⟩)
      hloop ⟨S, .refl (hi.toLogRing.setLock .held)⟩
    rw [heq]
    exact ⟨S', hi.unbound hu, hu.within, hu.ram.giveLock⟩

theorem LogInv.contains (hi : LogInv crc32 st S h) {key : StoreKey} {x : Bool × StoreState}
    (hcall : bitleStoreContains st key = .ok x) :
    LogInv crc32 x.2 S h ∧ SameRam st x.2 := by
  rcases bitleStoreContains_cases hcall with heq | heq
  · rw [heq]
    exact ⟨hi, SameRam.refl st⟩
  · rw [heq]
    exact ⟨⟨hi.toLogRing.setLock .free, hi.head, hi.wrap, hi.part, rfl⟩,
      ⟨rfl, rfl, rfl, rfl, rfl⟩⟩

/-- **A reboot** at any time. -/
theorem LogInv.reboot (hi : LogInv crc32 st S h) (now : UInt32) :
    ∃ st' h', bitleStoreReboot .good crc32 now st = (.ok, st') ∧
      Booted crc32 now st.mem st.erased S st' h' ∧ LogInv crc32 st' S h' := by
  obtain ⟨s, hs, -⟩ := hi.head
  obtain ⟨st', h', hb⟩ := hi.log.booted now ⟨h, hi.head_lt, by rw [hs]; rfl⟩ st.erased
  refine ⟨st', h', hb.init, hb, ⟨⟨hb.mem ▸ hi.log, ?_, hb.head_lt, hb.head_lo, hb.head_hi,
    .inr hb.head⟩, hb.head, WrapsAt.booted hb hi.wrap.oneTop, hb.part, hb.lock⟩⟩
  rw [hb.index]
  exact indexSound_bootIndex crc32 now S

/-! ## The rounds of the quota loop -/

theorem StoreState.mem_reclaimed {st : StoreState} {j : Nat} {e : StoreIndexEntry} :
    e ∈ (st.reclaimed j).index ↔ e ∈ st.index ∧ sectorBase e.offset ≠ j * 4096 := by
  have hperm := sweepAll_perm (fun e => sectorBase e.offset == j * 4096) st.index
  show e ∈ dropSector st.index (j * 4096) ↔ _
  rw [dropSector, hperm.mem_iff, List.mem_filter]
  simp

namespace Rounds

variable {bases : List Nat}

theorem ram (hx : Rounds st S st' S' bases) :
    st'.nextSeq = st.nextSeq ∧ st'.headSeq = st.headSeq ∧ st'.part = st.part ∧
      st'.lock = st.lock ∧ st'.erased = st.erased ++ bases := by
  induction hx with
  | done => simp
  | round _ _ _ ih =>
    obtain ⟨h1, h2, h3, h4, h5⟩ := ih
    refine ⟨h1, h2, h3, h4, ?_⟩
    rw [h5]
    simp [StoreState.reclaimed, eraseSector]

theorem logRing (hx : Rounds st S st' S' bases) (hr : LogRing crc32 st S h) :
    LogRing crc32 st' S' h := by
  induction hx with
  | done => exact hr
  | round _ hj _ ih => exact ih (hr.reclaim hj.not_head)

/-- The entries that are left are those of the other sectors. -/
theorem mem (hx : Rounds st S st' S' bases) (e : StoreIndexEntry) :
    e ∈ st'.index ↔ e ∈ st.index ∧ sectorBase e.offset ∉ bases := by
  induction hx with
  | done => simp
  | round _ _ _ ih => rw [ih, StoreState.mem_reclaimed, List.mem_cons, not_or, and_assoc]

/-- With a free slot there are none. -/
theorem eq_of_room (hx : Rounds st S st' S' bases) (hroom : st.index.length < 256) :
    st' = st ∧ bases = [] := by
  cases hx with
  | done => exact ⟨rfl, rfl⟩
  | round full => omega

end Rounds

/-! ## The put -/

/-- What a put goes through between the tombstone and its record of `n` payload bytes: the quota
loop, from `st1` to `st2`, and then a sector is opened where there is no room. -/
structure Roomed (crc32 : UInt32 → List UInt8 → UInt32) (n : Nat) (st1 : StoreState)
    (S1 : Nat → Option LogSector) (h : Nat) (st2 : StoreState) (S2 : Nat → Option LogSector)
    (bases : List Nat) (st3 : StoreState) (S3 : Nat → Option LogSector) (h3 : Nat) : Prop where
  evict : evictLoop .good (storePartSize / storeSectorSize + 1) st1 = .ok (.ok, st2)
  rounds : Rounds st1 S1 st2 S2 bases
  evicted : LogRing crc32 st2 S2 h
  room : roomLoop .good (storeRecordHdrSize + n) 3 st2 = .ok (.ok, st3)
  next : (fits st2.writeOff (32 + n) = true ∧ st3 = st2 ∧ S3 = S2 ∧ h3 = h) ∨
    (fits st2.writeOff (32 + n) = false ∧ h3 = (h + 1) % 96 ∧ st3 = st2.opened h3 ∧
      S3 = Function.update S2 h3 (some ⟨st2.nextSeq, []⟩))
  ring : LogRing crc32 st3 S3 h3
  ready : Ready st3 S3 h3 (32 + n)

theorem LogRing.roomed {st1 : StoreState} {S1 : Nat → Option LogSector}
    (hr : LogRing crc32 st1 S1 h) (htop : OneTop S1) {n : Nat} (h1 : 1 ≤ n) (h2 : n ≤ 520) :
    ∃ st2 S2 bases st3 S3 h3, Roomed crc32 n st1 S1 h st2 S2 bases st3 S3 h3 := by
  have hcard : (usedSectors S1).card < storePartSize / storeSectorSize + 1 :=
    Nat.lt_succ_of_le (card_usedSectors_le S1)
  obtain ⟨st2, S2, bases, hevict, hrounds⟩ := hr.evict htop hcard
  have hr2 := hrounds.logRing hr
  have hroom : roomLoop .good (32 + n) 3 st2 = _ := hr2.room (by omega)
  by_cases hfits : fits st2.writeOff (32 + n) = true
  · rw [if_pos hfits] at hroom
    exact ⟨st2, S2, bases, st2, S2, h, hevict, hrounds, hr2, hroom, .inl ⟨hfits, rfl, rfl, rfl⟩, hr2,
      (hr2.ready (by omega) hfits).1⟩
  · rw [if_neg hfits] at hroom
    have hlt : (h + 1) % 96 < 96 := Nat.mod_lt _ (by decide)
    obtain ⟨hr3, -⟩ := hr2.opened hlt
    have hfits3 : fits (st2.opened ((h + 1) % 96)).writeOff (32 + n) = true :=
      fits_iff.mpr (by rw [StoreState.opened_writeOff]; omega)
    exact ⟨st2, S2, bases, _, _, _, hevict, hrounds, hr2, hroom,
      .inr ⟨Bool.eq_false_iff.mpr hfits, rfl, rfl, rfl⟩, hr3, (hr3.ready (by omega) hfits3).1⟩

namespace Roomed

variable {n : Nat} {st1 st2 st3 : StoreState} {S1 S2 S3 : Nat → Option LogSector}
  {bases : List Nat} {h3 : Nat}

theorem part (hx : Roomed crc32 n st1 S1 h st2 S2 bases st3 S3 h3) : st3.part = st1.part := by
  obtain ⟨-, -, hpart, -⟩ := hx.rounds.ram
  rcases hx.next with ⟨-, rfl, -⟩ | ⟨-, -, rfl, -⟩
  · exact hpart
  · exact hpart

theorem length_lt (hx : Roomed crc32 n st1 S1 h st2 S2 bases st3 S3 h3) :
    st3.index.length < 256 := by
  have hroom := hx.rounds.room
  rcases hx.next with ⟨-, rfl, -⟩ | ⟨-, -, rfl, -⟩
  · exact hroom
  · have hperm := hx.evicted.openedIndex_perm hx.ring.head_lt
    rw [StoreState.opened_index, hperm.length_eq]
    exact Nat.lt_of_le_of_lt (List.length_filter_le _ _) hroom

/-- The entries that are left are those of the sectors that are neither reclaimed nor opened. -/
theorem mem (hx : Roomed crc32 n st1 S1 h st2 S2 bases st3 S3 h3) (e : StoreIndexEntry) :
    e ∈ st3.index ↔ e ∈ st2.index ∧
      (fits st2.writeOff (32 + n) = false → sectorBase e.offset ≠ h3 * 4096) := by
  rcases hx.next with ⟨hfits, rfl, -⟩ | ⟨hfits, -, rfl, -⟩
  · simp [hfits]
  · have hperm := hx.evicted.openedIndex_perm hx.ring.head_lt
    rw [StoreState.opened_index, hperm.mem_iff, List.mem_filter]
    simp [hfits]

/-- No record is there that was not. -/
theorem stored (hx : Roomed crc32 n st1 S1 h st2 S2 bases st3 S3 h3) {q : UInt32} {r : LogRecord}
    (hr : Stored S3 q r) : Stored S2 q r := by
  rcases hx.next with ⟨-, -, rfl, -⟩ | ⟨-, -, -, rfl⟩
  · exact hr
  · exact ((hx.evicted.log.stored_update _ (by simp)).mp hr).1

theorem wrap (hx : Roomed crc32 n st1 S1 h st2 S2 bases st3 S3 h3) (hw : WrapsAt st1 S1 h) :
    WrapsAt st3 S3 h3 := by
  have hw2 : WrapsAt st2 S2 h := hw.within hx.rounds.within hx.rounds.ram.1
  rcases hx.next with ⟨-, rfl, rfl, rfl⟩ | ⟨-, rfl, rfl, rfl⟩
  · exact hw2
  · exact hw2.opened

theorem order (hx : Roomed crc32 n st1 S1 h st2 S2 bases st3 S3 h3) (ho : RingOrder st1 S1 h)
    (hwrap : st3.headSeq ≠ 0) : RingOrder st3 S3 h3 := by
  obtain ⟨hnext, hhead, -⟩ := hx.rounds.ram
  have ho2 := ho.within hx.rounds.within hnext hhead
  rcases hx.next with ⟨-, rfl, rfl, rfl⟩ | ⟨-, rfl, rfl, rfl⟩
  · exact ho2
  · exact ho2.opened hx.evicted.head_lt hwrap

/-- The record is written and indexed. -/
theorem append (hx : Roomed crc32 n st1 S1 h st2 S2 bases st3 S3 h3) {r : LogRecord}
    (hsize : r.payload.length = n) (h1 : 1 ≤ n) (h2 : n ≤ 520) (hoff : r.off = st3.writeOff)
    (halive : r.alive = true) (hkey : ∀ e ∈ st3.index, e.key ≠ r.key) :
    ∃ s, S3 h3 = some s ∧ s.seq = st3.headSeq ∧ st3.writeOff = s.stop (h3 * 4096) ∧
      LogRing crc32 (st3.append crc32 r)
        (Function.update S3 h3 (some ⟨s.seq, s.recs ++ [r]⟩)) h3 ∧
      HeadOpen (st3.append crc32 r)
        (Function.update S3 h3 (some ⟨s.seq, s.recs ++ [r]⟩)) h3 := by
  obtain ⟨s, hs, hseq, hw, hfresh, hfit⟩ := hx.ready
  have hr : r.size = 32 + n := by rw [LogRecord.size, hsize]
  exact ⟨s, hs, hseq, hw, hx.ring.written hs hseq hw hfresh hoff (by omega) (by omega) (by omega)
    (hx.ring.sound_append hs hseq hx.length_lt halive hkey)⟩

end Roomed

/-! ## A flash on which only tombstones fail -/

/-- Of all flash calls only the programs of tombstones of indexed records may fail. -/
structure OnlyTombstones (env : FlashEnv) (st : StoreState) : Prop extends OnlyPrograms env where
  tombstone : ∀ off, env.writeCut off ≠ none → ∃ e ∈ st.index, off = e.offset + storeAliveOffset

theorem onlyTombstones_good (st : StoreState) : OnlyTombstones .good st :=
  ⟨⟨fun _ => rfl, fun _ => rfl⟩, fun _ hne => absurd rfl hne⟩

section Good

variable (henv : OnlyPrograms env)

include henv

theorem reclaimOldestSector_good (st : StoreState) :
    reclaimOldestSector env st = reclaimOldestSector .good st := by
  have hstep : oldestStep env st = oldestStep .good st := by
    funext acc base
    simp [oldestStep, espPartitionReadOk, henv.reads base, FlashEnv.good]
  simp only [reclaimOldestSector, hstep, henv.erases, FlashEnv.good]

theorem evictLoop_good (fuel : Nat) (st : StoreState) :
    evictLoop env fuel st = evictLoop .good fuel st := by
  induction fuel generalizing st with
  | zero => rfl
  | succ fuel ih => simp only [evictLoop, reclaimOldestSector_good henv, ih]

theorem openSector_good_of_uncut {base : Nat} (hcut : env.writeCut base = none) (st : StoreState) :
    openSector env st base = openSector .good st base := by
  simp only [openSector, espPartitionReadOk, espPartitionWrite, henv.reads base, henv.erases base,
    hcut, FlashEnv.good]
  rfl

theorem roomLoop_good (hcut : ∀ j, env.writeCut (j * 4096) = none) (need fuel : Nat)
    (st : StoreState) : roomLoop env need fuel st = roomLoop .good need fuel st := by
  have hopen : ∀ x : StoreState, openSector env x (nextSector x.writeOff) =
      openSector .good x (nextSector x.writeOff) := by
    intro x
    refine openSector_good_of_uncut henv ?_ x
    have hmul : nextSector x.writeOff = nextSector x.writeOff / 4096 * 4096 := by
      unfold nextSector sectorBase storeSectorSize storePartSize
      dsimp only
      split <;> split <;> omega
    rw [hmul]
    exact hcut _
  have hzero : ∀ x : StoreState, openSector env x 0 = openSector .good x 0 :=
    openSector_good_of_uncut henv (hcut 0)
  induction fuel generalizing st with
  | zero => rfl
  | succ fuel ih => simp only [roomLoop, roomRound, hopen, hzero, ih]

end Good

/-- The first record of a sector is at its start, every other one behind 33 bytes at least. -/
theorem LogSector.At.off_cases {m : Mem} {base : Nat} {s : LogSector} (hat : s.At crc32 m base)
    {r : LogRecord} (hr : r ∈ s.recs) : r.off = base + 8 ∨ base + 41 ≤ r.off := by
  have hlaid := hat.laid
  have hpos := hat.recs
  cases hrecs : s.recs with
  | nil =>
    rw [hrecs] at hr
    cases hr
  | cons x rs =>
    rw [hrecs] at hr hlaid hpos
    obtain ⟨hx, hrs⟩ := hlaid
    rcases List.mem_cons.mp hr with rfl | hr
    · exact .inl hx
    · have h1 := (hrs.bounds hr).1
      have h2 := (hpos x List.mem_cons_self).size_pos
      right
      omega

variable (crc32) in
/-- The state after a put, by where it comes to its record. -/
def StoreState.putDone (st3 : StoreState) (a : PutArgs) : StoreState :=
  giveLock (st3.append crc32 (a.record st3.writeOff))

/-- **`bitle_store_put`**, with its tombstone programmed or not. -/
theorem LogInv.put (hi : LogInv crc32 st S h) (henv : OnlyTombstones env st) {a : PutArgs}
    (h1 : 1 ≤ a.payload.length) (h2 : a.payload.length ≤ 520) :
    ∃ S1 st2 S2 bases st3 S3 h3 s,
      Unbound crc32 { st with lock := .held } S h
        (unbindKey env { st with lock := .held } a.key) S1 ∧
      Roomed crc32 a.payload.length (unbindKey env { st with lock := .held } a.key) S1 h st2 S2
        bases st3 S3 h3 ∧
      bitleStorePut env crc32 st a.key a.expiryUnixS a.flags a.payload =
        .ok (.ok, st3.putDone crc32 a) ∧
      S3 h3 = some s ∧ s.seq = st3.headSeq ∧ st3.writeOff = s.stop (h3 * 4096) ∧
      LogInv crc32 (st3.putDone crc32 a)
        (Function.update S3 h3 (some ⟨s.seq, s.recs ++ [a.record st3.writeOff]⟩)) h3 := by
  have hr := hi.toLogRing.setLock .held
  obtain ⟨S1, hu⟩ := hr.unbind env a.key
  have hw1 : WrapsAt (unbindKey env { st with lock := .held } a.key) S1 h :=
    hi.wrap.within hu.within hu.ram.nextSeq
  obtain ⟨st2, S2, bases, st3, S3, h3, hx⟩ := hu.ring.roomed hw1.oneTop h1 h2
  have hkey : ∀ e ∈ st3.index, e.key ≠ (a.record st3.writeOff).key := fun e he =>
    ((hr.mem_unbind env a.key e).mp ((hx.rounds.mem e).mp ((hx.mem e).mp he).1).1).2
  obtain ⟨s, hs, hseq, hw, hring, hopen⟩ := hx.append (r := a.record st3.writeOff) rfl h1 h2 rfl rfl
    hkey
  refine ⟨S1, st2, S2, bases, st3, S3, h3, s, hu, hx, ?_, hs, hseq, hw, hring.setLock .free, hopen,
    ?_, hx.part.trans (hu.ram.part.trans hi.part), rfl⟩
  · -- no program of the put is one of a tombstone
    have hapart : ∀ e ∈ st.index, ∀ x, x = st3.writeOff ∨ x = st3.writeOff + 32 ∨ x % 4096 = 0 →
        x ≠ e.offset + storeAliveOffset := by
      intro e he x hx' heq
      obtain ⟨q, r, ⟨i, hi', si, hsi, -, hmem⟩, -, rfl⟩ := hi.index.sound e he
      have hat := hi.log.used i hi' si hsi
      have hb := hat.bounds hmem
      have hin := hat.inside
      have hpos := (hat.recs r hmem).size_pos
      have hcases := hat.off_cases hmem
      have hlo := hx.ring.head_lo
      obtain ⟨-, -, -, -, -, hfit⟩ := hx.ready
      have hoff : (r.entry q).offset = r.off := rfl
      unfold storeAliveOffset at heq
      rw [hoff] at heq
      by_cases hih : i = h3
      · subst hih
        rcases hx.next with ⟨hfits, rfl, -, rfl⟩ | ⟨-, -, rfl, -⟩
        · -- in the sector of the head the record is in front of the write offset
          have hwo : st3.writeOff = st.writeOff := hx.rounds.writeOff.trans hu.ram.writeOff
          rw [hwo] at hfits hx'
          obtain ⟨⟨s', hs', -, hw', -⟩, -⟩ := hi.toLogRing.ready (by omega) hfits
          rw [hsi, Option.some.injEq] at hs'
          subst hs'
          omega
        · rw [StoreState.opened_writeOff] at hx'
          omega
      · omega
    have hcut : ∀ x, x = st3.writeOff ∨ x = st3.writeOff + 32 ∨ x % 4096 = 0 →
        env.writeCut x = none := by
      intro x hx'
      by_contra hne
      obtain ⟨e, he, heq⟩ := henv.tombstone x hne
      exact hapart e he x hx' heq
    have hroom := roomLoop_good henv.toOnlyPrograms (fun j => hcut _ (.inr (.inr (by omega))))
      (storeRecordHdrSize + a.payload.length) 3 st2
    have hrec : recordWritten env st3.writeOff = true := by
      rw [recordWritten, hcut _ (.inl rfl), hcut _ (.inr (.inl rfl))]
      rfl
    unfold bitleStorePut
    rw [putRejects_of_valid hi.part h1 h2, takeLock_free hi.lock]
    simp only [Bool.false_eq_true, if_false, bind, Except.bind, pure, Except.pure, putPrepare,
      evictLoop_good henv.toOnlyPrograms, hx.evict, ne_eq, not_true_eq_false, hroom, hx.room,
      putRecord_eq, hrec, if_true]
    rfl
  · have hw3 := hx.wrap hw1
    intro i hi' si hsi hmax
    by_cases hih : i = h3
    · rw [hih, Function.update_self, Option.some.injEq] at hsi
      subst hsi
      exact hih ▸ hw3 h3 hx.ring.head_lt s hs hmax
    · rw [Function.update_of_ne hih] at hsi
      exact hw3 i hi' si hsi hmax

/-- A sector gets another record. -/
theorem RingOrder.append (ho : RingOrder st S h) {s : LogSector} (hs : S h = some s)
    (rs : List LogRecord) (hnext : st'.nextSeq = st.nextSeq) (hhead : st'.headSeq = st.headSeq) :
    RingOrder st' (Function.update S h (some ⟨s.seq, rs⟩)) h := by
  refine ⟨by rw [hnext, hhead, ho.next], fun i hi x hx => ?_⟩
  rw [hhead]
  by_cases hih : i = h
  · rw [hih, Function.update_self, Option.some.injEq] at hx
    subst hx
    exact hih ▸ ho.behind h (hih ▸ hi) s hs
  · rw [Function.update_of_ne hih] at hx
    exact ho.behind i hi x hx

variable (crc32) in
/-- The first boot: sector 0 is open, with number 1. -/
theorem logInv_firstBoot (now : UInt32) :
    ∃ st S, bitleStoreInit .good crc32 now (powerOn blankFlash []) = (.ok, st) ∧
      LogInv crc32 st S 0 ∧ RingOrder st S 0 ∧ st.headSeq = 1 ∧ st.writeOff = 8 ∧
      ∀ q r, ¬ Stored S q r := by
  obtain ⟨hr, hopen⟩ := (logRing_unopened crc32).opened (j := 0) (by decide)
  have honly : ∀ (i : Nat) (s : LogSector),
      Function.update (fun _ => none) 0 (some ⟨unopened.nextSeq, []⟩) i = some s →
      i = 0 ∧ s = ⟨1, []⟩ := by
    intro i s hs
    by_cases hi : i = 0
    · rw [hi, Function.update_self, Option.some.injEq] at hs
      exact ⟨hi, hs.symm⟩
    · rw [Function.update_of_ne hi] at hs
      cases hs
  refine ⟨_, _, firstBoot_eq crc32 now, ⟨hr, hopen, fun i _ s hs hmax => ?_, rfl, rfl⟩,
    ⟨rfl, fun i _ s hs => ?_⟩, rfl, rfl, ?_⟩
  · obtain ⟨-, rfl⟩ := honly i s hs
    cases hmax
  · obtain ⟨rfl, rfl⟩ := honly i s hs
    rfl
  · rintro q r ⟨i, -, s, hs, -, hmem⟩
    obtain ⟨-, rfl⟩ := honly i s hs
    cases hmem

end Bitle
