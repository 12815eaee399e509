import Bitle.Store.Calls
import Bitle.Store.Torn

/-!
# Bitle — where the indexed records lie

`StoreInv` is the invariant of a mailbox on a flash without faults. `Placed` is what is left of
it when programs and erases may fail: every indexed record lies in a sector in use, apart from
the other indexed records and in front of the write offset. That is enough for one thing, that no
step of the module changes a record it does not drop from the index, its tombstone aside
(`RecordKept`).

`Shrinks` is what a step does to the index then: `unbindKey`, `reclaim_oldest_sector` and
`open_sector` each have one lemma, for every outcome of the flash calls they make
(`Reads`: only reads succeed always). `mem_shownRecords` says which records
`bitle_store_iterate` presents.
-/

namespace Bitle

open Wire Flash Slots

/-- No read fails. -/
def Reads (env : FlashEnv) : Prop := ∀ off, env.readOk off = true

/-! ## One record -/

/-- The end of the record at `off`, by the length in its header. -/
def recordEnd (m : Mem) (off : Nat) : Nat := off + (32 + (hdrAt m off).payloadLen.toNat)

/-- The record at `off` is the same in both contents, up to its tombstone. -/
def RecordKept (m m' : Mem) (off : Nat) : Prop :=
  ∀ a, off ≤ a → a < recordEnd m off → a ≠ off + storeAliveOffset → m a = m' a

/-- What `bitle_store_iterate` presents of the record at `off`. -/
def presented (m : Mem) (off : Nat) : Option StoreValue :=
  (readRecord .good m off).map fun x => ⟨x.1.expiryUnixS, x.1.flags, x.2⟩

theorem readRecord_of_reads {env : FlashEnv} (henv : Reads env) (m : Mem) (off : Nat) :
    readRecord env m off = readRecord .good m off := by
  have hok : ∀ off n, espPartitionReadOk env off n = espPartitionReadOk .good off n := by
    intro off n
    simp [espPartitionReadOk, henv off, FlashEnv.good]
  simp only [readRecord, hok]

theorem byteAt_read (m : Mem) (off : Nat) {i n : Nat} (hi : i < n) :
    byteAt (read m off n) i = m (off + i) := by
  rw [byteAt, List.getD_eq_getElem?_getD, getElem?_read hi, Option.getD_some]

namespace RecordKept

variable {m m' m'' : Mem} {off : Nat}

theorem refl (m : Mem) (off : Nat) : RecordKept m m off := fun _ _ _ _ => rfl

/-- Contents that agree on the record. -/
theorem of_agree (h : ∀ a, off ≤ a → a < recordEnd m off → m a = m' a) : RecordKept m m' off :=
  fun a h1 h2 _ => h a h1 h2

/-- The fields of the header that are not the tombstone. -/
theorem fields (h : RecordKept m m' off) :
    (hdrAt m' off).magic = (hdrAt m off).magic ∧
      (hdrAt m' off).payloadLen = (hdrAt m off).payloadLen ∧
      (hdrAt m' off).flags = (hdrAt m off).flags ∧
      (hdrAt m' off).expiryUnixS = (hdrAt m off).expiryUnixS := by
  have hslice : ∀ i n, i + n ≤ 4 ∨ 5 ≤ i ∧ i + n ≤ 32 →
      ((read m' off 32).drop i).take n = ((read m off 32).drop i).take n := by
    intro i n hin
    rw [drop_take_read, drop_take_read]
    refine read_congr fun a h1 h2 => (h a ?_ ?_ ?_).symm
    · omega
    · unfold recordEnd
      omega
    · unfold storeAliveOffset
      omega
  have hmagic := hslice 0 2 (by omega)
  rw [List.drop_zero, List.drop_zero] at hmagic
  have hflags : m' (off + 5) = m (off + 5) :=
    (h _ (by omega) (by unfold recordEnd; omega) (by unfold storeAliveOffset; omega)).symm
  simp only [hdrAt, StoreRecordHdr.ofBytes, hmagic, hslice 2 2 (by omega), hslice 8 4 (by omega),
    true_and, and_true]
  rw [byteAt_read _ _ (by decide), byteAt_read _ _ (by decide), hflags]

theorem recordEnd_eq (h : RecordKept m m' off) : recordEnd m' off = recordEnd m off := by
  rw [recordEnd, recordEnd, h.fields.2.1]

theorem trans (h : RecordKept m m' off) (h' : RecordKept m' m'' off) : RecordKept m m'' off := fun a h1 h2 h3 =>
  (h a h1 h2 h3).trans (h' a h1 (by rw [h.recordEnd_eq]; exact h2) h3)

/-- A record that is kept is presented as before. -/
theorem presented_eq (h : RecordKept m m' off) : presented m' off = presented m off := by
  obtain ⟨hmagic, hlen, hflags, hexp⟩ := h.fields
  have hpayload : read m' (off + 32) (hdrAt m off).payloadLen.toNat =
      read m (off + 32) (hdrAt m off).payloadLen.toNat := by
    refine read_congr fun a h1 h2 => (h a (by omega) ?_ ?_).symm
    · unfold recordEnd
      omega
    · unfold storeAliveOffset
      omega
  have hhdr : ∀ x : Mem, StoreRecordHdr.ofBytes (read x off storeRecordHdrSize) = hdrAt x off :=
    fun _ => rfl
  unfold presented readRecord
  simp only [hhdr, hmagic, hlen]
  split
  · rfl
  · simp only [Option.map_some, hflags, hexp, storeRecordHdrSize, hpayload]

end RecordKept

/-! ## The placement -/

/-- Sector `i` has a sector header. -/
def SectorUsed (m : Mem) (i : Nat) : Prop :=
  (readSectorHdr m (i * 4096)).magic = storeSectorMagic

theorem SectorUsed.congr {m m' : Mem} {i : Nat} (h : SectorUsed m i)
    (hm : ∀ a, i * 4096 ≤ a → a < i * 4096 + 8 → m a = m' a) : SectorUsed m' i := by
  have hread : readSectorHdr m' (i * 4096) = readSectorHdr m (i * 4096) :=
    congrArg _ (read_congr fun a h1 h2 => (hm a h1 h2).symm)
  rw [SectorUsed, hread]
  exact h

/-- The record at `off` lies in sector `i`, behind the sector header. -/
structure InSector (m : Mem) (i off : Nat) : Prop where
  lt : i < 96
  used : SectorUsed m i
  lo : i * 4096 + 8 ≤ off
  hi : recordEnd m off ≤ i * 4096 + 4096

/-- The write offset is at the start of a sector, or inside one in use and behind the indexed
records of it. -/
def HeadPlaced (st : StoreState) : Prop :=
  st.writeOff % 4096 = 0 ∨ ∃ i, i < 96 ∧ SectorUsed st.mem i ∧ i * 4096 + 8 ≤ st.writeOff ∧
    st.writeOff < i * 4096 + 4096 ∧
    ∀ e ∈ st.index, sectorBase e.offset = i * 4096 → recordEnd st.mem e.offset ≤ st.writeOff

/-- **Where the indexed records lie.** -/
structure Placed (st : StoreState) : Prop where
  nodup : (st.index.map (·.key)).Nodup
  inside : ∀ e ∈ st.index, ∃ i, InSector st.mem i e.offset
  apart : ∀ e ∈ st.index, ∀ e' ∈ st.index, e.offset = e'.offset ∨
    recordEnd st.mem e.offset ≤ e'.offset ∨ recordEnd st.mem e'.offset ≤ e.offset
  head : HeadPlaced st

theorem InSector.sectorBase_eq {m : Mem} {i off : Nat} (h : InSector m i off) :
    sectorBase off = i * 4096 := by
  have h1 := h.lo
  have h2 := h.hi
  unfold recordEnd at h2
  exact Bitle.sectorBase_eq (Nat.le_trans (Nat.le_add_right _ 8) h1) (by omega)

/-- A step leaves the index entries that are not `lost`, with their records. -/
structure Shrinks (st st' : StoreState) (lost : StoreIndexEntry → Prop) : Prop where
  placed : Placed st'
  mem : ∀ e, e ∈ st'.index ↔ e ∈ st.index ∧ ¬ lost e
  kept : ∀ e ∈ st'.index, RecordKept st.mem st'.mem e.offset
  part : st'.part = st.part
  lock : st'.lock = st.lock

namespace Shrinks

variable {st st' st'' : StoreState} {lost lost' : StoreIndexEntry → Prop}

theorem refl (hp : Placed st) : Shrinks st st fun _ => False :=
  ⟨hp, by simp, fun e _ => .refl _ _, rfl, rfl⟩

theorem trans (h : Shrinks st st' lost) (h' : Shrinks st' st'' lost') :
    Shrinks st st'' fun e => lost e ∨ lost' e := by
  refine ⟨h'.placed, fun e => ?_, fun e he => ?_, h'.part.trans h.part, h'.lock.trans h.lock⟩
  · rw [h'.mem, h.mem, not_or, and_assoc]
  · exact (h.kept e ((h'.mem e).mp he).1).trans (h'.kept e he)

theorem congr (h : Shrinks st st' lost) (hl : ∀ e ∈ st.index, lost e ↔ lost' e) :
    Shrinks st st' lost' := by
  refine ⟨h.placed, fun e => ?_, h.kept, h.part, h.lock⟩
  rw [h.mem]
  exact and_congr_right fun he => not_congr (hl e he)

end Shrinks

namespace Placed

variable {st st' : StoreState}

/-- A state whose index entries are old ones with the same records. -/
theorem restrict (hp : Placed st) (hnd : (st'.index.map (·.key)).Nodup)
    (hsub : ∀ e ∈ st'.index, e ∈ st.index ∧ RecordKept st.mem st'.mem e.offset)
    (hused : ∀ e ∈ st'.index, ∀ i, i < 96 → sectorBase e.offset = i * 4096 →
      SectorUsed st.mem i → SectorUsed st'.mem i)
    (hhead : HeadPlaced st') : Placed st' := by
  refine ⟨hnd, fun e he => ?_, fun e he e' he' => ?_, hhead⟩
  · obtain ⟨hmem, hkept⟩ := hsub e he
    obtain ⟨i, hin⟩ := hp.inside e hmem
    refine ⟨i, hin.lt, hused e he i hin.lt hin.sectorBase_eq hin.used, hin.lo, ?_⟩
    rw [hkept.recordEnd_eq]
    exact hin.hi
  · obtain ⟨hmem, hkept⟩ := hsub e he
    obtain ⟨hmem', hkept'⟩ := hsub e' he'
    rw [hkept.recordEnd_eq, hkept'.recordEnd_eq]
    exact hp.apart e hmem e' hmem'

theorem eq_of_key (hp : Placed st) {e e' : StoreIndexEntry} (he : e ∈ st.index)
    (he' : e' ∈ st.index) (hk : e.key = e'.key) : e = e' :=
  List.inj_on_of_nodup_map hp.nodup he he' hk

/-- An entry is the one found under its key. -/
theorem storeEntry_of_mem (hp : Placed st) {e : StoreIndexEntry} (he : e ∈ st.index) :
    storeEntry st e.key = some e := by
  cases hf : storeEntry st e.key with
  | none => exact absurd rfl (storeEntry_eq_none.mp hf e he)
  | some x =>
    obtain ⟨hx, hk⟩ := storeEntry_spec hf
    rw [hp.eq_of_key hx he hk]

theorem setLock (hp : Placed st) (lock : StoreLock) : Placed { st with lock } :=
  ⟨hp.nodup, hp.inside, hp.apart, hp.head⟩

end Placed

/-- The write offset where it was, the records in front of it as they were. -/
theorem HeadPlaced.restrict {st st' : StoreState} (h : HeadPlaced st)
    (hw : st'.writeOff = st.writeOff)
    (hsub : ∀ e ∈ st'.index, e ∈ st.index ∧ RecordKept st.mem st'.mem e.offset)
    (hused : ∀ i, i < 96 → sectorBase st.writeOff = i * 4096 → st.writeOff % 4096 ≠ 0 →
      SectorUsed st.mem i → SectorUsed st'.mem i) : HeadPlaced st' := by
  by_cases h0 : st.writeOff % 4096 = 0
  · exact .inl (hw ▸ h0)
  · obtain ⟨i, hi, hu, hlo, hhi, hrec⟩ := h.resolve_left h0
    have hbase : sectorBase st.writeOff = i * 4096 := 
      Bitle.sectorBase_eq (Nat.le_trans (Nat.le_add_right _ 8) hlo) hhi
    refine .inr ⟨i, hi, hused i hi hbase h0 hu, by omega, by omega, fun e he hb => ?_⟩
    obtain ⟨hmem, hkept⟩ := hsub e he
    rw [hkept.recordEnd_eq, hw]
    exact hrec e hmem hb

/-! ## Tombstones -/

/-- A tombstone, written or not, changes one byte at most. -/
theorem tombstoneAt_mem (env : FlashEnv) (st : StoreState) {off a : Nat}
    (h : a ≠ off + storeAliveOffset) : (tombstoneAt env st off).mem a = st.mem a := by
  have hcut : ∀ k, program st.mem (off + storeAliveOffset) (([0x00] : List UInt8).take k) a =
      st.mem a := by
    intro k
    refine program_outside ?_
    rw [List.length_take, List.length_singleton]
    omega
  unfold tombstoneAt espPartitionWrite
  dsimp only
  cases env.writeCut (off + storeAliveOffset) with
  | none => exact hcut 1
  | some k => exact hcut k

namespace Placed

variable {st : StoreState} {env : FlashEnv}

/-- The tombstone byte of an indexed record is in no other one and in no sector header. -/
theorem kept_tombstoneAt (hp : Placed st) (env : FlashEnv) {e e' : StoreIndexEntry}
    (he : e ∈ st.index) (he' : e' ∈ st.index) :
    RecordKept st.mem (tombstoneAt env st e.offset).mem e'.offset := by
  intro a h1 h2 h3
  refine (tombstoneAt_mem env st fun ha => ?_).symm
  rcases hp.apart e he e' he' with heq | hlt | hlt
  · exact h3 (heq ▸ ha)
  · unfold recordEnd at hlt
    unfold storeAliveOffset at ha
    omega
  · unfold storeAliveOffset at ha
    omega

theorem sectorUsed_tombstoneAt (hp : Placed st) (env : FlashEnv) {e : StoreIndexEntry}
    (he : e ∈ st.index) {i : Nat} (hu : SectorUsed st.mem i) :
    SectorUsed (tombstoneAt env st e.offset).mem i := by
  obtain ⟨j, hin⟩ := hp.inside e he
  have hlo := hin.lo
  have hhi := hin.hi
  unfold recordEnd at hhi
  refine hu.congr fun a h1 h2 => (tombstoneAt_mem env st ?_).symm
  unfold storeAliveOffset
  omega

/-- An entry is dropped; of its sector nothing is changed that another record or the sector
header needs. -/
theorem remove (hp : Placed st) {i : Nat} {e : StoreIndexEntry} (he : st.index[i]? = some e)
    {m : Mem} (hkept : ∀ x ∈ st.index, RecordKept st.mem m x.offset)
    (hused : ∀ i, SectorUsed st.mem i → SectorUsed m i) :
    Shrinks st (indexRemoveAt { st with mem := m } i) fun x => x.key = e.key := by
  have hperm := swapRemove_perm he
  have hnd := (hperm.map (·.key)).nodup_iff.mpr hp.nodup
  rw [List.map_cons, List.nodup_cons] at hnd
  have hiff : ∀ x, x ∈ swapRemove st.index i ↔ x ∈ st.index ∧ ¬ x.key = e.key := by
    intro x
    rw [← hperm.mem_iff, List.mem_cons]
    constructor
    · intro hx
      exact ⟨.inr hx, fun hk => hnd.1 (hk ▸ List.mem_map_of_mem hx)⟩
    · rintro ⟨rfl | hx, hk⟩
      · exact absurd rfl hk
      · exact hx
  have hsub : ∀ x ∈ swapRemove st.index i, x ∈ st.index ∧ RecordKept st.mem m x.offset :=
    fun x hx => ⟨((hiff x).mp hx).1, hkept x ((hiff x).mp hx).1⟩
  refine ⟨hp.restrict hnd.2 hsub ?_ ?_, hiff, fun x hx => (hsub x hx).2, rfl, rfl⟩
  · exact fun _ _ i _ _ hu => hused i hu
  · exact hp.head.restrict rfl hsub fun i _ _ _ hu => hused i hu

/-- An entry is tombstoned and dropped. -/
theorem tombstone (hp : Placed st) (env : FlashEnv) {i : Nat} {e : StoreIndexEntry}
    (he : st.index[i]? = some e) :
    Shrinks st (indexRemoveAt (tombstoneAt env st e.offset) i) fun x => x.key = e.key := by
  have hmem := List.mem_of_getElem? he
  exact hp.remove he (fun x hx => hp.kept_tombstoneAt env hmem hx)
    fun i hu => hp.sectorUsed_tombstoneAt env hmem hu

/-- An entry is dropped without a tombstone. -/
theorem drop (hp : Placed st) {i : Nat} {e : StoreIndexEntry} (he : st.index[i]? = some e) :
    Shrinks st (indexRemoveAt st i) fun x => x.key = e.key :=
  hp.remove he (fun _ _ => .refl _ _) fun _ hu => hu

/-- The older copy of a key goes, whatever becomes of its tombstone. -/
theorem unbind (hp : Placed st) (env : FlashEnv) (key : StoreKey) :
    Shrinks st (unbindKey env st key) fun x => x.key = key := by
  unfold unbindKey
  cases hf : indexFind st.index key with
  | none =>
    refine (Shrinks.refl hp).congr fun e he => ?_
    exact ⟨False.elim, fun hk => indexFind_eq_none.mp hf e he hk⟩
  | some i =>
    obtain ⟨e, he, rfl⟩ := indexFind_eq_some hf
    dsimp only
    rw [tombstoneEntry_eq env he]
    exact hp.tombstone env he

/-! ## Sectors -/

theorem nodup_dropSector (hp : Placed st) (base : Nat) :
    ((dropSector st.index base).map (·.key)).Nodup := by
  refine ((sweepAll_perm _ _).map _).nodup_iff.mpr ?_
  exact hp.nodup.sublist (List.filter_sublist.map _)

theorem mem_dropSector {index : List StoreIndexEntry} {base : Nat} {e : StoreIndexEntry} :
    e ∈ dropSector index base ↔ e ∈ index ∧ ¬ sectorBase e.offset = base := by
  rw [dropSector, (sweepAll_perm _ _).mem_iff, List.mem_filter]
  simp

/-- What a change inside one sector keeps: the records of the others. -/
theorem kept_outside (hp : Placed st) {m : Mem} {j : Nat}
    (hm : ∀ a, a < j * 4096 ∨ j * 4096 + 4096 ≤ a → m a = st.mem a) {e : StoreIndexEntry}
    (he : e ∈ st.index) (hne : ¬ sectorBase e.offset = j * 4096) : RecordKept st.mem m e.offset := by
  obtain ⟨i, hin⟩ := hp.inside e he
  have hlo := hin.lo
  have hhi := hin.hi
  rw [hin.sectorBase_eq] at hne
  exact .of_agree fun a h1 h2 => (hm a (by omega)).symm

/-- **A sector is given up**: its entries are dropped, its contents may be anything, and no other
sector is touched. The write offset is not inside it. -/
theorem giveUp (hp : Placed st) {st' : StoreState} {j : Nat}
    (hm : ∀ a, a < j * 4096 ∨ j * 4096 + 4096 ≤ a → st'.mem a = st.mem a)
    (hidx : ∀ e, e ∈ st'.index ↔ e ∈ st.index ∧ ¬ sectorBase e.offset = j * 4096)
    (hnd : (st'.index.map (·.key)).Nodup) (hw : st'.writeOff = st.writeOff)
    (hne : st.writeOff % 4096 = 0 ∨ sectorBase st.writeOff ≠ j * 4096)
    (hpart : st'.part = st.part) (hlock : st'.lock = st.lock) :
    Shrinks st st' fun x => sectorBase x.offset = j * 4096 := by
  have hused : ∀ i, i * 4096 ≠ j * 4096 → SectorUsed st.mem i → SectorUsed st'.mem i :=
    fun i hij hu => hu.congr fun a h1 h2 => (hm a (by omega)).symm
  have hsub : ∀ x ∈ st'.index, x ∈ st.index ∧ RecordKept st.mem st'.mem x.offset := by
    intro x hx
    obtain ⟨hx, hb⟩ := (hidx x).mp hx
    exact ⟨hx, hp.kept_outside hm hx hb⟩
  refine ⟨hp.restrict hnd hsub (fun x hx i _ hb hu => ?_) ?_, hidx, fun x hx => (hsub x hx).2,
    hpart, hlock⟩
  · exact hused i (fun hij => ((hidx x).mp hx).2 (hb.trans hij)) hu
  · refine hp.head.restrict hw hsub fun i _ hb h0 hu => hused i (fun hij => ?_) hu
    exact hne.resolve_left h0 (hb.trans hij)

/-- What `reclaim_oldest_sector` does: it gives up a sector in use that is not the head's. -/
theorem reclaim (hp : Placed st) {st' : StoreState} (h : reclaimOldestSector env st = some st') :
    ∃ j, j < 96 ∧ sectorBase st.writeOff ≠ j * 4096 ∧ st'.writeOff = st.writeOff ∧
      Shrinks st st' (fun x => sectorBase x.offset = j * 4096) ∧
      (∀ a, a < j * 4096 ∨ j * 4096 + 4096 ≤ a → st'.mem a = st.mem a) ∧
      (env.eraseOk (j * 4096) = true →
        ∀ a, j * 4096 ≤ a → a < j * 4096 + 4096 → st'.mem a = 0xFF) := by
  unfold reclaimOldestSector at h
  cases hs : (sectorBases.foldl (oldestStep env st) (0xFFFFFFFF, none)).2 with
  | none => simp [hs] at h
  | some base =>
    rw [hs] at h
    obtain ⟨hmem, -, -, hne⟩ :=
      (oldestScan_some (Std.le_refl _) hs).resolve_left (by simp)
    obtain ⟨j, hj, rfl⟩ := mem_sectorBases.mp hmem
    simp only [Option.some.injEq] at h
    subst h
    refine ⟨j, hj, hne.symm, by split <;> rfl, ?_⟩
    split
    · refine ⟨hp.giveUp (fun a ha => ?_) (fun e => mem_dropSector) (hp.nodup_dropSector _) rfl
        (.inr hne.symm) rfl rfl, fun a ha => erase_outside ha, fun _ a h1 h2 => erase_inside h1 h2⟩
      exact erase_outside ha
    · rename_i her
      exact ⟨hp.giveUp (fun a _ => rfl) (fun e => mem_dropSector) (hp.nodup_dropSector _) rfl
        (.inr hne.symm) rfl rfl, fun a _ => rfl, fun hok => absurd hok her⟩

/-- **What `open_sector` does**, whichever of its flash calls fails: it touches no other sector,
and the sector has no indexed record left. -/
theorem openSector_spec (hp : Placed st) {j : Nat} (hread : env.readOk (j * 4096) = true)
    (hj : j < 96) {err : EspErr} {st' : StoreState} (h : openSector env st (j * 4096) = (err, st')) :
    (∀ a, a < j * 4096 ∨ j * 4096 + 4096 ≤ a → st'.mem a = st.mem a) ∧
      (∀ e, e ∈ st'.index ↔ e ∈ st.index ∧ ¬ sectorBase e.offset = j * 4096) ∧
      (st'.index.map (·.key)).Nodup ∧ st'.part = st.part ∧ st'.lock = st.lock ∧
      (err = .ok → st'.writeOff = j * 4096 + 8 ∧ SectorUsed st'.mem j) ∧
      (err ≠ .ok → st'.writeOff = st.writeOff) ∧
      (env.eraseOk (j * 4096) = true →
        ∀ a, j * 4096 + 8 ≤ a → a < j * 4096 + 4096 → st'.mem a = 0xFF) := by
  have hok : espPartitionReadOk env (j * 4096) storeSectorHdrSize = true := by
    unfold espPartitionReadOk storeSectorHdrSize storePartSize
    simp only [hread, Bool.true_and, decide_eq_true_eq]
    omega
  have hlen := StoreSectorHdr.length_bytes ⟨storeSectorMagic, st.nextSeq⟩
  -- the entries of the sector are dropped, or it has none
  have hidx : (∀ e, e ∈ (if (readSectorHdr st.mem (j * 4096)).magic == storeSectorMagic then
        dropSector st.index (j * 4096) else st.index) ↔
          e ∈ st.index ∧ ¬ sectorBase e.offset = j * 4096) ∧
      ((if (readSectorHdr st.mem (j * 4096)).magic == storeSectorMagic then
        dropSector st.index (j * 4096) else st.index).map (·.key)).Nodup := by
    split
    · exact ⟨fun e => mem_dropSector, hp.nodup_dropSector _⟩
    · rename_i hmagic
      refine ⟨fun e => ⟨fun he => ⟨he, fun hb => hmagic ?_⟩, And.left⟩, hp.nodup⟩
      obtain ⟨i, hin⟩ := hp.inside e he
      obtain rfl : i = j := by
        have := hin.sectorBase_eq
        omega
      exact beq_iff_eq.mpr hin.used
  have hframe : ∀ (k : List UInt8) (a : Nat), k.length ≤ 8 →
      a < j * 4096 ∨ j * 4096 + 4096 ≤ a →
      program (eraseRange st.mem (j * 4096) storeSectorSize) (j * 4096) k a = st.mem a := by
    intro k a hk ha
    rw [program_outside (by omega), erase_outside ha]
  have hblank : ∀ (k : List UInt8) (a : Nat), k.length ≤ 8 → j * 4096 + 8 ≤ a →
      a < j * 4096 + 4096 →
      program (eraseRange st.mem (j * 4096) storeSectorSize) (j * 4096) k a = 0xFF := by
    intro k a hk h1 h2
    rw [program_outside (by omega), erase_inside (Nat.le_trans (Nat.le_add_right _ 8) h1) h2]
  unfold openSector at h
  rw [hok, Bool.true_and] at h
  generalize hix : (if (readSectorHdr st.mem (j * 4096)).magic == storeSectorMagic then
    dropSector st.index (j * 4096) else st.index) = ix at hidx
  have hst : (if (readSectorHdr st.mem (j * 4096)).magic == storeSectorMagic then
      { st with index := dropSector st.index (j * 4096) } else st) = { st with index := ix } := by
    rw [← hix]
    split <;> rfl
  rw [hst] at h
  by_cases her : env.eraseOk (j * 4096) = true
  · simp only [her, Bool.not_true, Bool.false_eq_true, if_false, espPartitionWrite,
      eraseSector] at h
    cases hcut : env.writeCut (j * 4096) with
    | none =>
      simp only [hcut, ne_eq, not_true_eq_false, if_false, Prod.mk.injEq] at h
      obtain ⟨rfl, rfl⟩ := h
      refine ⟨fun a ha => hframe _ a (by omega) ha, hidx.1, hidx.2, rfl, rfl, fun _ => ⟨rfl, ?_⟩,
        (fun hne => absurd rfl hne), fun _ a h1 h2 => hblank _ a (by omega) h1 h2⟩
      have hhdr := (LogSector.At.opened (fun c _ => c) st.mem (j * 4096) st.nextSeq).hdr
      show (readSectorHdr _ _).magic = _
      rw [hhdr]
    | some k =>
      simp only [hcut, ne_eq, reduceCtorEq, not_false_eq_true, if_true, Prod.mk.injEq] at h
      obtain ⟨rfl, rfl⟩ := h
      have hk : ((StoreSectorHdr.bytes ⟨storeSectorMagic, st.nextSeq⟩).take k).length ≤ 8 := by
        rw [List.length_take]
        omega
      exact ⟨fun a ha => hframe _ a hk ha, hidx.1, hidx.2, rfl, rfl, (fun hok => nomatch hok),
        fun _ => rfl, fun _ a h1 h2 => hblank _ a hk h1 h2⟩
  · simp only [her, Bool.not_false, if_true, Prod.mk.injEq] at h
    obtain ⟨rfl, rfl⟩ := h
    exact ⟨fun _ _ => rfl, hidx.1, hidx.2, rfl, rfl, (fun hok => nomatch hok), fun _ => rfl,
      fun hok => absurd hok her⟩

/-- A sector the write offset is not in is opened. -/
theorem openSector (hp : Placed st) {j : Nat} (hread : env.readOk (j * 4096) = true) (hj : j < 96)
    (hne : st.writeOff % 4096 = 0 ∨ sectorBase st.writeOff ≠ j * 4096) {err : EspErr}
    {st' : StoreState} (h : openSector env st (j * 4096) = (err, st')) :
    Shrinks st st' fun x => sectorBase x.offset = j * 4096 := by
  obtain ⟨hm, hidx, hnd, hpart, hlock, hok, hfail, -⟩ := hp.openSector_spec hread hj h
  by_cases herr : err = .ok
  · obtain ⟨hw, hu⟩ := hok herr
    -- with the write offset moved back it is a sector given up
    have hgive : Shrinks st { st' with writeOff := st.writeOff }
        fun x => sectorBase x.offset = j * 4096 := hp.giveUp hm hidx hnd rfl hne hpart hlock
    refine ⟨⟨hgive.placed.nodup, hgive.placed.inside, hgive.placed.apart, .inr ?_⟩, hidx,
      hgive.kept, hpart, hlock⟩
    refine ⟨j, hj, hu, Nat.le_of_eq hw.symm, by omega, fun e he hb => ?_⟩
    exact absurd hb ((hidx e).mp he).2
  · exact hp.giveUp hm hidx hnd (hfail herr) hne hpart hlock

end Placed

/-! ## The loops of `bitle_store_put` -/

section Loops

variable {env : FlashEnv} {P : StoreState → Prop} {st st' : StoreState} {err : EspErr}

/-- What every reclaimed sector keeps, the quota loop keeps. -/
theorem evictLoop_rule
    (hstep : ∀ x x', P x → reclaimOldestSector env x = some x' → P x') {fuel : Nat}
    (h : evictLoop env fuel st = .ok (err, st')) (hst : P st) :
    P st' ∧ (err = .ok → st'.index.length < bitleStoreMaxRecords) := by
  induction fuel generalizing st with
  | zero => cases h
  | succ fuel ih =>
    rw [evictLoop] at h
    by_cases hfull : st.index.length ≥ bitleStoreMaxRecords
    · rw [if_pos hfull] at h
      cases hr : reclaimOldestSector env st with
      | none =>
        rw [hr] at h
        cases h
        exact ⟨hst, fun hok => by cases hok⟩
      | some x =>
        rw [hr] at h
        exact ih h (hstep st x hst hr)
    · rw [if_neg hfull] at h
      cases h
      exact ⟨hst, fun _ => Nat.not_le.mp hfull⟩

/-- The sectors that may be opened: any but the one the write offset is in. -/
def MayOpen (st : StoreState) (j : Nat) : Prop :=
  j < 96 ∧ (st.writeOff % 4096 = 0 ∨ sectorBase st.writeOff ≠ j * 4096)

/-- The sector that `bitle_store_put` opens for a record that does not fit. -/
def roomSector (writeOff : Nat) : Nat :=
  if writeOff ≥ storePartSize then 0 else nextSector writeOff

/-- A record of `need` bytes goes where the write offset is. -/
def inRoom (writeOff need : Nat) : Bool := fits writeOff need && writeOff < storePartSize

theorem mayOpen_roomSector (st : StoreState) :
    ∃ j, roomSector st.writeOff = j * 4096 ∧ MayOpen st j := by
  unfold roomSector nextSector MayOpen sectorBase storeSectorSize storePartSize
  dsimp only
  by_cases hend : st.writeOff ≥ 393216
  · refine ⟨0, ?_, by omega, by omega⟩
    rw [if_pos hend]
  · rw [if_neg hend]
    by_cases h0 : st.writeOff % 4096 = 0
    · have hb : st.writeOff = st.writeOff - st.writeOff % 4096 := by omega
      refine ⟨st.writeOff / 4096, ?_, by omega, .inl h0⟩
      rw [if_pos hb, if_neg (by omega)]
      omega
    · have hb : ¬ st.writeOff = st.writeOff - st.writeOff % 4096 := by omega
      by_cases hlast : st.writeOff / 4096 = 95
      · refine ⟨0, ?_, by omega, .inr (by omega)⟩
        rw [if_neg hb, if_pos (by omega)]
      · refine ⟨st.writeOff / 4096 + 1, ?_, by omega, .inr (by omega)⟩
        rw [if_neg hb, if_neg (by omega)]
        omega

theorem openSector_writeOff {base : Nat} (h : openSector env st base = (.ok, st')) :
    st'.writeOff = base + storeSectorHdrSize := by
  unfold openSector at h
  dsimp only at h
  by_cases her : env.eraseOk base = true
  · simp only [her, Bool.not_true, Bool.false_eq_true, if_false, espPartitionWrite] at h
    cases hcut : env.writeCut base with
    | none =>
      simp only [hcut, ne_eq, not_true_eq_false, if_false, Prod.mk.injEq, true_and] at h
      rw [← h]
    | some k => simp [hcut] at h
  · simp [her] at h

/-- Behind the header of a sector there is room for any record. -/
theorem inRoom_opened {need : Nat} (hneed : need ≤ 4088)
    (h : openSector env st (roomSector st.writeOff) = (.ok, st')) :
    inRoom st'.writeOff need = true := by
  obtain ⟨j, hj, hlt, -⟩ := mayOpen_roomSector st
  have hw : st'.writeOff = j * 4096 + 8 := hj ▸ openSector_writeOff h
  unfold inRoom storePartSize
  rw [Bool.and_eq_true, decide_eq_true_eq, fits_iff]
  omega

/-- **The loop that finds room** does one of two things: nothing, where the record fits, or it
opens one sector. -/
theorem roomLoop_cases {need : Nat} (hneed : need ≤ 4088)
    (h : roomLoop env need 3 st = .ok (err, st')) :
    (inRoom st.writeOff need = true ∧ err = .ok ∧ st' = st) ∨
      (inRoom st.writeOff need = false ∧
        openSector env st (roomSector st.writeOff) = (err, st')) := by
  have hstay : ∀ {x : StoreState} {fuel : Nat}, inRoom x.writeOff need = true →
      roomLoop env need (fuel + 1) x = .ok (.ok, x) := by
    intro x fuel hx
    rw [inRoom, Bool.and_eq_true, decide_eq_true_eq] at hx
    exact roomLoop_of_fits hx.2 hx.1
  by_cases hroom : inRoom st.writeOff need = true
  · rw [hstay hroom] at h
    cases h
    exact .inl ⟨hroom, rfl, rfl⟩
  · refine .inr ⟨Bool.eq_false_iff.mpr hroom, ?_⟩
    generalize hopen : openSector env st (roomSector st.writeOff) = r
    obtain ⟨err1, st1⟩ := r
    have hfits1 : err1 = .ok → inRoom st1.writeOff need = true := by
      rintro rfl
      exact inRoom_opened hneed hopen
    unfold roomSector at hopen
    rw [roomLoop] at h
    by_cases hend : st.writeOff ≥ storePartSize
    · -- on the end of the partition the first sector is opened before the round
      rw [if_pos hend] at hopen h
      simp only [hopen] at h
      by_cases herr : err1 = .ok
      · have hf := hfits1 herr
        rw [inRoom, Bool.and_eq_true] at hf
        rw [if_neg (not_not_intro herr), roomRound, if_pos hf.1] at h
        cases h
        rw [herr]
      · rw [if_pos herr] at h
        cases h
        rfl
    · have hfits : ¬ fits st.writeOff need = true := by
        intro hf
        refine hroom ?_
        rw [inRoom, hf, Bool.true_and, decide_eq_true_eq]
        exact Nat.not_le.mp hend
      rw [if_neg hend] at hopen
      simp only [if_neg hend, roomRound, if_neg hfits, hopen] at h
      cases err1 with
      | ok =>
        simp only [ne_eq, not_true_eq_false, if_false, hstay (hfits1 rfl)] at h
        cases h
        rfl
      | fail | invalidArg | noMem | notFound =>
        simp only [ne_eq, not_true_eq_false, if_false] at h
        cases h
        rfl

/-- `putPrepare` ends in the quota loop or goes on to the loop that finds room. -/
theorem putPrepare_cases {key : StoreKey} {n : Nat}
    (h : putPrepare env st key n = .ok (err, st')) :
    ∃ err1 st1, evictLoop env (storePartSize / storeSectorSize + 1) (unbindKey env st key) =
        .ok (err1, st1) ∧
      ((err1 ≠ .ok ∧ err = err1 ∧ st' = st1) ∨
        (err1 = .ok ∧ roomLoop env (32 + n) 3 st1 = .ok (err, st'))) := by
  unfold putPrepare at h
  cases he : evictLoop env (storePartSize / storeSectorSize + 1) (unbindKey env st key) with
  | error f =>
    rw [he] at h
    cases h
  | ok r =>
    obtain ⟨err1, st1⟩ := r
    refine ⟨err1, st1, rfl, ?_⟩
    rw [he] at h
    simp only [bind, Except.bind, pure, Except.pure] at h
    by_cases herr : err1 = .ok
    · rw [if_neg (not_not_intro herr)] at h
      exact .inr ⟨herr, h⟩
    · rw [if_pos herr] at h
      cases h
      exact .inl ⟨herr, rfl, rfl⟩

/-- **What the steps of `bitle_store_put` keep, it keeps** up to the first write of the record:
the tombstone, every reclaimed and every opened sector. -/
theorem putPrepare_rule {key : StoreKey} {n : Nat} (hn : n ≤ 520)
    (hunbind : P (unbindKey env st key))
    (hreclaim : ∀ x x', P x → reclaimOldestSector env x = some x' → P x')
    (hopen : ∀ x j, P x → MayOpen x j → P (openSector env x (j * 4096)).2)
    (h : putPrepare env st key n = .ok (err, st')) :
    P st' ∧ (err = .ok → inRoom st'.writeOff (32 + n) = true) := by
  obtain ⟨err1, st1, hev, hcase⟩ := putPrepare_cases h
  obtain ⟨hst1, -⟩ := evictLoop_rule hreclaim hev hunbind
  rcases hcase with ⟨herr, rfl, rfl⟩ | ⟨-, hroom⟩
  · exact ⟨hst1, fun hok => absurd hok herr⟩
  · rcases roomLoop_cases (by omega) hroom with ⟨hin, -, rfl⟩ | ⟨-, hop⟩
    · exact ⟨hst1, fun _ => hin⟩
    · obtain ⟨j, hj, hmay⟩ := mayOpen_roomSector st1
      have hst' := hopen st1 j hst1 hmay
      rw [← hj, hop] at hst'
      refine ⟨hst', fun hok => ?_⟩
      rw [hok] at hop
      exact inRoom_opened (by omega) hop

end Loops

/-! ## The record -/

/-- How much of a record with `n` payload bytes at `off` gets programmed. -/
def programmedBytes (env : FlashEnv) (off n : Nat) : Nat :=
  match env.writeCut off, env.writeCut (off + 32) with
  | some k, _ => min k 32
  | none, some k => 32 + min k n
  | none, none => 32 + n

/-- Both programs of a record succeed. -/
def recordWritten (env : FlashEnv) (off : Nat) : Bool :=
  (env.writeCut off).isNone && (env.writeCut (off + 32)).isNone

/-- The two writes of a record are one, cut off where a program fails. -/
theorem writeRecord_eq (env : FlashEnv) (m : Mem) (off : Nat) (hdr : StoreRecordHdr)
    (payload : List UInt8) :
    writeRecord env m off hdr payload = (if recordWritten env off then .ok else .fail,
      program m off ((hdr.bytes ++ payload).take (programmedBytes env off payload.length))) := by
  have hlen := hdr.length_bytes
  have htwo : ∀ k, program (program m off hdr.bytes) (off + 32) (payload.take k) =
      program m off ((hdr.bytes ++ payload).take (32 + k)) := by
    intro k
    rw [← hlen, program_append, List.take_length_add_append]
  unfold writeRecord espPartitionWrite recordWritten programmedBytes storeRecordHdrSize
  cases h1 : env.writeCut off with
  | none =>
    cases h2 : env.writeCut (off + 32) with
    | none =>
      have hall := htwo payload.length
      rw [List.take_length] at hall
      simp [hall]
    | some k =>
      have htake : payload.take k = payload.take (min k payload.length) :=
        List.take_eq_take_min
      simp [htake, htwo]
  | some k =>
    have htake : (hdr.bytes ++ payload).take (min k 32) = hdr.bytes.take k := by
      rw [← hlen, List.take_append_of_le_length (Nat.min_le_right _ _), ← List.take_eq_take_min]
    simp [htake]

variable {env : FlashEnv} {crc32 : UInt32 → List UInt8 → UInt32} {st : StoreState}

/-- Programming clears bits, so the length that reads back is at most the one programmed. -/
theorem payloadLen_program_le (m : Mem) (off : Nat) (hdr : StoreRecordHdr) (payload : List UInt8) :
    (hdrAt (program m off (hdr.bytes ++ payload)) off).payloadLen.toNat ≤ hdr.payloadLen.toNat := by
  have hb : ∀ i, 2 ≤ i → i < 4 → (program m off (hdr.bytes ++ payload) (off + i)).toNat ≤
      (byteAt hdr.bytes i).toNat := by
    intro i h1 h2
    have hlen := hdr.length_bytes
    have hi : i < (hdr.bytes ++ payload).length := by
      rw [List.length_append]
      omega
    rw [program_inside hi, List.getElem_append_left (by omega), byteAt,
      List.getD_eq_getElem _ _ (by omega), UInt8.toNat_and]
    exact Nat.and_le_right
  have hself : hdr.payloadLen.toNat =
      (byteAt hdr.bytes 2).toNat + 256 * (byteAt hdr.bytes 3).toNat := by
    have hread := hdrAt_payloadLen (fun a => byteAt hdr.bytes a) 0
    have heq : read (fun a => byteAt hdr.bytes a) 0 32 = hdr.bytes := by
      rw [← hdr.length_bytes, read_eq_iff]
      intro i hi
      rw [Nat.zero_add, byteAt, List.getD_eq_getElem _ _ hi]
    rw [hdrAt, heq, StoreRecordHdr.ofBytes_bytes] at hread
    exact hread
  rw [hdrAt_payloadLen, hself]
  have h2 := hb 2 (by omega) (by omega)
  have h3 := hb 3 (by omega) (by omega)
  omega

/-- The bytes behind the write offset belong to no indexed record and no sector header. -/
theorem Placed.kept_behind (hp : Placed st) {need : Nat} (hfits : fits st.writeOff need = true)
    {m : Mem} (hm : ∀ a, a < st.writeOff ∨ st.writeOff + need ≤ a → m a = st.mem a) :
    (∀ e ∈ st.index, RecordKept st.mem m e.offset) ∧
      ∀ i, i < 96 → SectorUsed st.mem i → SectorUsed m i := by
  obtain ⟨h0, hroom⟩ := fits_iff.mp hfits
  obtain ⟨i, hi, hu, hlo, hhi, hrec⟩ := hp.head.resolve_left h0
  refine ⟨fun e he => ?_, fun j hj hu => ?_⟩
  · obtain ⟨j, hin⟩ := hp.inside e he
    have hjlo := hin.lo
    have hjhi := hin.hi
    refine .of_agree fun a h1 h2 => (hm a ?_).symm
    by_cases hij : j = i
    · have := hrec e he (hij ▸ hin.sectorBase_eq)
      omega
    · omega
  · exact hu.congr fun a h1 h2 => (hm a (by omega)).symm

/-- `putRecord`, with its two writes as one. -/
theorem putRecord_eq (env : FlashEnv) (crc32 : UInt32 → List UInt8 → UInt32) (st : StoreState)
    (a : PutArgs) :
    putRecord env crc32 st a.key a.expiryUnixS a.flags a.payload =
      if recordWritten env st.writeOff then
        (.ok, { st with
          mem := program st.mem st.writeOff (a.bytes crc32)
          writeOff := st.writeOff + (32 + a.payload.length)
          index := st.index ++ [⟨a.key, st.writeOff, a.expiryUnixS, st.headSeq⟩] })
      else
        (.fail, tornState crc32 st a (programmedBytes env st.writeOff a.payload.length)) := by
  unfold putRecord
  simp only [writeRecord_eq]
  by_cases hw : recordWritten env st.writeOff = true
  · have hall : programmedBytes env st.writeOff a.payload.length = 32 + a.payload.length := by
      simp only [recordWritten, Bool.and_eq_true, Option.isNone_iff_eq_none] at hw
      rw [programmedBytes, hw.1, hw.2]
    have htake : (a.bytes crc32).take (32 + a.payload.length) = a.bytes crc32 :=
      List.take_of_length_le (Nat.le_of_eq (a.length_bytes crc32))
    rw [if_pos hw, if_pos hw, hall]
    refine congrArg (Prod.mk EspErr.ok) ?_
    rw [← htake]
    rfl
  · rw [if_neg hw, if_neg hw]
    rfl

/-- `putRecord` writes the record and indexes it, or leaves part of it behind. -/
theorem putRecord_cases {a : PutArgs} {err : EspErr} {st' : StoreState}
    (h : putRecord env crc32 st a.key a.expiryUnixS a.flags a.payload = (err, st')) :
    (recordWritten env st.writeOff = true ∧ err = .ok ∧ st'.part = st.part ∧
        st'.mem = program st.mem st.writeOff (a.bytes crc32) ∧
        st'.writeOff = st.writeOff + (32 + a.payload.length) ∧
        st'.index = st.index ++ [⟨a.key, st.writeOff, a.expiryUnixS, st.headSeq⟩]) ∨
      (recordWritten env st.writeOff = false ∧ err = .fail ∧
        st' = tornState crc32 st a (programmedBytes env st.writeOff a.payload.length)) := by
  rw [putRecord_eq] at h
  by_cases hw : recordWritten env st.writeOff = true
  · rw [if_pos hw] at h
    cases h
    exact .inl ⟨hw, rfl, rfl, rfl, rfl, rfl⟩
  · rw [if_neg hw] at h
    cases h
    exact .inr ⟨Bool.eq_false_iff.mpr hw, rfl, rfl⟩

variable (crc32) in
/-- Part of a record changes nothing outside its place. -/
theorem tornState_mem (a : PutArgs) (n : Nat) {x : Nat}
    (hx : x < st.writeOff ∨ st.writeOff + (32 + a.payload.length) ≤ x) :
    (tornState crc32 st a n).mem x = st.mem x := by
  have hlen := a.length_bytes crc32
  refine program_outside ?_
  rw [List.length_take]
  omega

variable (crc32) in
/-- A record that is only programmed in part takes no other one away. -/
theorem Placed.torn (hp : Placed st) {a : PutArgs}
    (hfits : fits st.writeOff (32 + a.payload.length) = true) (n : Nat) :
    Shrinks st (tornState crc32 st a n) fun _ => False := by
  obtain ⟨hkept, hused⟩ := hp.kept_behind hfits fun x hx => tornState_mem crc32 a n hx
  have hsub : ∀ e ∈ st.index, e ∈ st.index ∧ RecordKept st.mem (tornState crc32 st a n).mem e.offset :=
    fun e he => ⟨he, hkept e he⟩
  refine ⟨hp.restrict hp.nodup hsub ?_ ?_, by simp [tornState], hkept, rfl, rfl⟩
  · exact fun _ _ i hi _ hu => hused i hi hu
  · exact hp.head.restrict rfl hsub fun i hi _ _ hu => hused i hi hu

/-- A record that is written takes no other one away and is apart from all of them. -/
theorem Placed.written (hp : Placed st) {a : PutArgs} (hlen : a.payload.length ≤ 520)
    (hfits : fits st.writeOff (32 + a.payload.length) = true)
    (hkey : ∀ e ∈ st.index, e.key ≠ a.key) {seq : UInt32} {st' : StoreState}
    (hmem : st'.mem = program st.mem st.writeOff (a.bytes crc32))
    (hw : st'.writeOff = st.writeOff + (32 + a.payload.length))
    (hidx : st'.index = st.index ++ [⟨a.key, st.writeOff, a.expiryUnixS, seq⟩]) :
    Placed st' ∧ ∀ e ∈ st.index, RecordKept st.mem st'.mem e.offset := by
  have hblen := a.length_bytes crc32
  obtain ⟨hkept, hused⟩ := hp.kept_behind (m := st'.mem) hfits fun x hx => by
    rw [hmem]
    exact program_outside (by omega)
  obtain ⟨h0, hroom⟩ := fits_iff.mp hfits
  obtain ⟨i, hi, hu, hlo, hhi, hrec⟩ := hp.head.resolve_left h0
  -- the length that reads back is at most the one of the payload
  have hend : recordEnd st'.mem st.writeOff ≤ st.writeOff + (32 + a.payload.length) := by
    have hle := payloadLen_program_le st.mem st.writeOff
      (putHdr crc32 a.key a.expiryUnixS a.flags a.payload) a.payload
    have hpl := LogRecord.payloadLen_toNat crc32 (r := a.record 0) hlen
    rw [recordEnd, hmem]
    exact Nat.add_le_add_left (Nat.add_le_add_left (Nat.le_trans hle (Nat.le_of_eq hpl)) _) _
  -- the records already there keep their sectors and lie beside the new one
  have hold : ∀ e ∈ st.index, (∃ j, InSector st'.mem j e.offset) ∧
      (recordEnd st'.mem e.offset ≤ st.writeOff ∨ st.writeOff + (32 + a.payload.length) ≤
        e.offset) := by
    intro e he
    obtain ⟨j, hin⟩ := hp.inside e he
    have hjlo := hin.lo
    have hjhi := hin.hi
    rw [(hkept e he).recordEnd_eq]
    refine ⟨⟨j, hin.lt, hused j hin.lt hin.used, hin.lo, ?_⟩, ?_⟩
    · rw [(hkept e he).recordEnd_eq]
      exact hin.hi
    · by_cases hij : j = i
      · exact .inl (hrec e he (hij ▸ hin.sectorBase_eq))
      · unfold recordEnd at hjhi ⊢
        omega
  refine ⟨⟨?_, ?_, ?_, ?_⟩, hkept⟩
  · rw [hidx, List.map_append, List.map_singleton]
    refine List.nodup_append.mpr ⟨hp.nodup, List.nodup_singleton _, fun k hk k' hk' => ?_⟩
    obtain ⟨e, he, rfl⟩ := List.mem_map.mp hk
    rw [List.mem_singleton.mp hk']
    exact hkey e he
  · rw [hidx]
    intro e he
    rcases List.mem_append.mp he with he | he
    · exact (hold e he).1
    · rw [List.mem_singleton.mp he]
      exact ⟨i, hi, hused i hi hu, hlo, by dsimp only; omega⟩
  · have hnew : ∀ e ∈ st.index, e.offset = st.writeOff ∨
        recordEnd st'.mem e.offset ≤ st.writeOff ∨ recordEnd st'.mem st.writeOff ≤ e.offset :=
      fun e he => .inr ((hold e he).2.imp_right (Nat.le_trans hend))
    rw [hidx]
    intro e he e' he'
    rcases List.mem_append.mp he with he | he <;> rcases List.mem_append.mp he' with he' | he'
    · rw [(hkept e he).recordEnd_eq, (hkept e' he').recordEnd_eq]
      exact hp.apart e he e' he'
    · rw [List.mem_singleton.mp he']
      exact hnew e he
    · rw [List.mem_singleton.mp he]
      rcases hnew e' he' with h | h | h
      · exact .inl h.symm
      · exact .inr (.inr h)
      · exact .inr (.inl h)
    · rw [List.mem_singleton.mp he, List.mem_singleton.mp he']
      exact .inl rfl
  · by_cases hfull : (st.writeOff + (32 + a.payload.length)) % 4096 = 0
    · exact .inl (hw ▸ hfull)
    · refine .inr ⟨i, hi, hused i hi hu, by omega, by omega, fun e he hb => ?_⟩
      rw [hidx] at he
      rw [hw]
      rcases List.mem_append.mp he with he | he
      · rw [(hkept e he).recordEnd_eq]
        exact Nat.le_trans (hrec e he hb) (Nat.le_add_right _ _)
      · rw [List.mem_singleton.mp he]
        exact hend

/-! ## What is presented -/

/-- What the removal of an entry keeps, with its tombstone or without, iterating keeps. -/
theorem iterateLoop_rule {σ : Type} {now : UInt32} {cb : StoreIterCb σ} {P : StoreState → Prop}
    (htomb : ∀ x i e, P x → x.index[i]? = some e →
      P (indexRemoveAt (tombstoneAt env x e.offset) i))
    (hdrop : ∀ x i e, P x → x.index[i]? = some e → P (indexRemoveAt x i)) {n i : Nat}
    {st' : StoreState} {s s' : σ} (h : iterateLoop env now cb n i st s = .ok (st', s'))
    (hst : P st) : P st' := by
  induction n generalizing i st s with
  | zero =>
    cases h
    exact hst
  | succ n ih =>
    rw [iterateLoop] at h
    cases he : st.index[i]? with
    | none =>
      rw [he] at h
      cases h
      exact hst
    | some e =>
      rw [he] at h
      dsimp only at h
      split at h
      · -- expired
        exact ih h (htomb st i e hst he)
      · split at h
        · -- not readable
          exact ih h (hdrop st i e hst he)
        · rename_i hdr payload _
          cases hcb : cb st e.key hdr.expiryUnixS hdr.flags payload s with
          | error f =>
            rw [hcb] at h
            cases h
          | ok r =>
            obtain ⟨go, s1⟩ := r
            rw [hcb] at h
            simp only [bind, Except.bind] at h
            split at h
            · exact ih h hst
            · cases h
              exact hst

namespace Placed

/-- **What a walk shows**: by induction on the entries left. -/
theorem iterateLoop_shows (hp : Placed st) (henv : Reads env) (now : UInt32) {n i : Nat}
    (hn : i + n = st.index.length) (seen : List (StoreKey × StoreValue)) :
    ∃ st' shown, iterateLoop env now (collect fun _ => true) n i st seen = .ok (st', seen ++ shown) ∧
      ∀ k v, (k, v) ∈ shown ↔ ∃ e ∈ st.index.drop i, e.key = k ∧
        storeExpired now e.expiryUnixS = false ∧ presented st.mem e.offset = some v := by
  induction n generalizing i st seen with
  | zero =>
    have hnil : st.index.drop i = [] := List.drop_eq_nil_of_le (by omega)
    refine ⟨st, [], ?_, fun k v => ?_⟩
    · rw [iterateLoop, List.append_nil]
    · simp [hnil]
  | succ n ih =>
    have hi : i < st.index.length := by omega
    have he := List.getElem?_eq_getElem hi
    have hlen := length_swapRemove hi
    have hdrop : st.index.drop i = st.index[i] :: st.index.drop (i + 1) :=
      (List.getElem_cons_drop hi).symm
    have hrest := drop_swapRemove_perm hi
    rw [iterateLoop, he]
    dsimp only
    by_cases hx : storeExpired now st.index[i].expiryUnixS = true
    · rw [if_pos hx]
      have hshrink := hp.tombstone env he
      obtain ⟨st', shown, heq, hshown⟩ := ih (i := i) hshrink.placed
        (by simp only [indexRemoveAt, tombstoneAt]; omega) seen
      refine ⟨st', shown, heq, fun k v => (hshown k v).trans ?_⟩
      rw [hdrop]
      -- the others are presented as before, the expired one is not
      constructor
      · rintro ⟨e, hmem, hk, hexp, hv⟩
        have hkept := hshrink.kept e (List.mem_of_mem_drop hmem)
        rw [hkept.presented_eq] at hv
        exact ⟨e, List.mem_cons_of_mem _ (hrest.mem_iff.mp hmem), hk, hexp, hv⟩
      · rintro ⟨e, hmem, hk, hexp, hv⟩
        rcases List.mem_cons.mp hmem with rfl | hmem
        · rw [hx] at hexp
          cases hexp
        · have hmem' := hrest.mem_iff.mpr hmem
          have hkept := hshrink.kept e (List.mem_of_mem_drop hmem')
          exact ⟨e, hmem', hk, hexp, hkept.presented_eq.trans hv⟩
    · rw [if_neg hx, readRecord_of_reads henv]
      cases hr : readRecord .good st.mem st.index[i].offset with
      | none =>
        -- a record that does not read back is dropped from the index and not shown
        have hnone : presented st.mem st.index[i].offset = none := by rw [presented, hr]; rfl
        obtain ⟨st', shown, heq, hshown⟩ := ih (i := i) (hp.drop he).placed
          (by simp only [indexRemoveAt]; omega) seen
        refine ⟨st', shown, heq, fun k v => (hshown k v).trans ?_⟩
        rw [hdrop]
        constructor
        · rintro ⟨e, hmem, h⟩
          exact ⟨e, List.mem_cons_of_mem _ (hrest.mem_iff.mp hmem), h⟩
        · rintro ⟨e, hmem, hk, hexp, hv⟩
          rcases List.mem_cons.mp hmem with rfl | hmem
          · rw [hnone] at hv
            cases hv
          · exact ⟨e, hrest.mem_iff.mpr hmem, hk, hexp, hv⟩
      | some x =>
        obtain ⟨hdr, payload⟩ := x
        -- a record that reads back is shown, and the walk goes on behind it
        have hsome : presented st.mem st.index[i].offset =
            some ⟨hdr.expiryUnixS, hdr.flags, payload⟩ := by rw [presented, hr]; rfl
        obtain ⟨st', shown, heq, hshown⟩ := ih hp (by omega : i + 1 + n = _)
          (seen ++ [(st.index[i].key, ⟨hdr.expiryUnixS, hdr.flags, payload⟩)])
        refine ⟨st', (st.index[i].key, ⟨hdr.expiryUnixS, hdr.flags, payload⟩) :: shown, ?_,
          fun k v => ?_⟩
        · rw [List.append_cons, ← heq]
          rfl
        · rw [hdrop, List.mem_cons, hshown]
          simp only [Prod.mk.injEq, List.mem_cons, exists_eq_or_imp, hsome, Option.some.injEq]
          have hx' := Bool.eq_false_iff.mpr hx
          simp only [hx', true_and, eq_comm]

/-- **The records `bitle_store_iterate` presents** are those of the entries that are not expired
and whose header reads as one. -/
theorem mem_shownRecords (hp : Placed st) (henv : Reads env) (hpart : st.part = true)
    (hlock : st.lock = .free) (now : UInt32) (k : StoreKey) (v : StoreValue) :
    (k, v) ∈ shownRecords env now st ↔ ∃ e ∈ st.index, e.key = k ∧
      storeExpired now e.expiryUnixS = false ∧ presented st.mem e.offset = some v := by
  obtain ⟨st', shown, heq, hshown⟩ :=
    (hp.setLock .held).iterateLoop_shows henv now (i := 0) (Nat.zero_add _) []
  have hall : shownRecords env now st = shown := by
    unfold shownRecords bitleStoreIterate
    rw [if_neg (by simp [hpart]), takeLock_free hlock]
    simp only [bind, Except.bind, heq]
    rfl
  rw [hall]
  exact hshown k v

end Placed

end Bitle
