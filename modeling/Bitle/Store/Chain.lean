import Bitle.Store.Faults

/-!
# Bitle — sectors as chains of records

`Chain` is the walk of `bitle_store_init` from header to header, and a sector is `Laid` when its
chain ends where the erased rest begins. The store is `Tidy` when every sector in use is laid, the
indexed records are links of their chains, and the write offset stands on the end of one.

Each step of the module has a lemma that says when it keeps this: tombstones and sectors always
do, whatever becomes of their programs; a record does when it is written whole
(`Tidy.written`), and the flash alone does when at least the length is programmed
(`Tidy.flash_torn`). A boot of a tidy flash is a tidy store (`FlashTidy.reboot`).
-/

namespace Bitle

open Wire Flash Slots

/-! ## Chains -/

/-- From header to header, inside a sector that ends at `stop`. -/
inductive Chain (m : Mem) (stop : Nat) : Nat → Nat → Prop where
  | nil (off : Nat) : Chain m stop off off
  | cons {off c : Nat} (hdr : hdrPlausible (hdrAt m off) = true) (fit : recordEnd m off ≤ stop)
      (rest : Chain m stop (recordEnd m off) c) : Chain m stop off c

/-- No header stands at `c`. -/
def Ended (m : Mem) (stop c : Nat) : Prop := c + 32 ≤ stop → hdrPlausible (hdrAt m c) = false

theorem add_le_recordEnd (m : Mem) (off : Nat) : off + 32 ≤ recordEnd m off := by
  unfold recordEnd
  omega

/-- A change that spares the header and the body of a record, its tombstone aside. -/
theorem RecordKept.hdrPlausible_eq {m m' : Mem} {off : Nat} (h : RecordKept m m' off) :
    hdrPlausible (hdrAt m' off) = hdrPlausible (hdrAt m off) := by
  obtain ⟨hmagic, hlen, -, -⟩ := h.fields
  rw [hdrPlausible, hdrPlausible, hmagic, hlen]

namespace Chain

variable {m m' : Mem} {stop a b c x y : Nat}

theorem le (h : Chain m stop a c) : a ≤ c := by
  induction h with
  | nil => exact Nat.le_refl _
  | cons _ _ _ ih =>
    refine Nat.le_trans ?_ ih
    exact Nat.le_trans (Nat.le_add_right _ 32) (add_le_recordEnd m _)

theorem trans (h : Chain m stop a b) (h' : Chain m stop b c) : Chain m stop a c := by
  induction h with
  | nil => exact h'
  | cons hdr fit _ ih => exact .cons hdr fit (ih h')

/-- A chain does not depend on what stands outside its records, nor on their tombstones. -/
theorem congr (h : Chain m stop a c)
    (hm : ∀ off, Chain m stop a off → hdrPlausible (hdrAt m off) = true →
      recordEnd m off ≤ stop → recordEnd m off ≤ c → RecordKept m m' off) :
    Chain m' stop a c := by
  induction h with
  | nil => exact .nil _
  | @cons off c hdr fit rest ih =>
    have hkept := hm off (.nil _) hdr fit rest.le
    refine .cons (hkept.hdrPlausible_eq.trans hdr) ?_ ?_
    · rw [hkept.recordEnd_eq]
      exact fit
    · rw [hkept.recordEnd_eq]
      exact ih fun off' h1 h2 h3 h4 => hm off' (.cons hdr fit h1) h2 h3 h4

theorem congr_agree (h : Chain m stop a c) (hm : ∀ i, a ≤ i → i < c → m i = m' i) :
    Chain m' stop a c :=
  h.congr fun _ hoff _ _ hend =>
    .of_agree fun i h1 h2 => hm i (Nat.le_trans hoff.le h1) (Nat.lt_of_lt_of_le h2 hend)

/-- One chain from `a`: of two of its points one is reached from the other. -/
theorem total (hx : Chain m stop a x) (hy : Chain m stop a y) :
    Chain m stop x y ∨ Chain m stop y x := by
  induction hx with
  | nil => exact .inl hy
  | cons hdr fit rest ih =>
    cases hy with
    | nil => exact .inr (.cons hdr fit rest)
    | cons _ _ rest' => exact ih rest'

/-- Nothing comes behind the end. -/
theorem eq_of_ended (h : Chain m stop a c) (he : Ended m stop a) : a = c := by
  cases h with
  | nil => rfl
  | cons hdr fit _ =>
    have hlt := add_le_recordEnd m a
    rw [he (by omega)] at hdr
    cases hdr

end Chain

/-! ## Sectors -/

/-- The records of the sector at `base` end at `c`, and the rest of it is erased. -/
structure Laid (m : Mem) (base c : Nat) : Prop where
  chain : Chain m (base + 4096) (base + 8) c
  le : c ≤ base + 4096
  blank : ∀ a, c ≤ a → a < base + 4096 → m a = 0xFF

/-- A record of the sector at `base`. -/
structure Link (m : Mem) (base off : Nat) : Prop where
  chain : Chain m (base + 4096) (base + 8) off
  hdr : hdrPlausible (hdrAt m off) = true
  fit : recordEnd m off ≤ base + 4096

section Laid

variable {m m' : Mem} {base c x y : Nat}

theorem Laid.ended (h : Laid m base c) : Ended m (base + 4096) c := fun hc =>
  hdrPlausible_eq_false_of_blank m c (h.blank _ (by omega) (by omega))

/-- A sector with nothing behind its header. -/
theorem Laid.empty (h : ∀ a, base + 8 ≤ a → a < base + 4096 → m a = 0xFF) :
    Laid m base (base + 8) := ⟨.nil _, Nat.add_le_add_left (by decide) _, h⟩

/-- The end is no link. -/
theorem Laid.not_link (h : Laid m base c) : ¬ Link m base c := by
  intro hc
  have hlt := add_le_recordEnd m c
  have hfit := hc.fit
  have hhdr := hc.hdr
  rw [h.ended (by omega)] at hhdr
  cases hhdr

/-- The links are in front of the end. -/
theorem Laid.link_le (h : Laid m base c) (hx : Link m base x) : recordEnd m x ≤ c := by
  rcases hx.chain.total h.chain with hc | hc
  · cases hc with
    | nil => exact absurd hx h.not_link
    | cons _ _ rest => exact rest.le
  · obtain rfl := hc.eq_of_ended h.ended
    exact absurd hx h.not_link

/-- Two links are the same or apart. -/
theorem Link.apart (hx : Link m base x) (hy : Link m base y) :
    x = y ∨ recordEnd m x ≤ y ∨ recordEnd m y ≤ x := by
  rcases hx.chain.total hy.chain with h | h
  · cases h with
    | nil => exact .inl rfl
    | cons _ _ rest => exact .inr (.inl rest.le)
  · cases h with
    | nil => exact .inl rfl
    | cons _ _ rest => exact .inr (.inr rest.le)

theorem Laid.congr (h : Laid m base c) (hm : ∀ a, base ≤ a → a < base + 4096 → m a = m' a) :
    Laid m' base c := by
  have hle := h.le
  have hlo := h.chain.le
  refine ⟨h.chain.congr_agree fun a h1 h2 => hm a (by omega) (by omega), h.le, fun a h1 h2 => ?_⟩
  rw [← hm a (by omega) h2]
  exact h.blank a h1 h2

theorem Link.congr (h : Link m base x) (hm : ∀ a, base ≤ a → a < recordEnd m x → m a = m' a) :
    Link m' base x := by
  have hlo := h.chain.le
  have hlt := add_le_recordEnd m x
  have hkept : RecordKept m m' x := .of_agree fun a h1 h2 => hm a (by omega) h2
  refine ⟨h.chain.congr_agree fun a h1 h2 => hm a (by omega) (by omega),
    hkept.hdrPlausible_eq.trans h.hdr, ?_⟩
  rw [hkept.recordEnd_eq]
  exact h.fit

/-- The tombstone of a link is in no other link. -/
theorem Link.kept (hx : Link m base x) (hy : Link m base y)
    (hm : ∀ a, a ≠ y + storeAliveOffset → m' a = m a) : RecordKept m m' x := by
  intro a h1 h2 h3
  refine (hm a fun ha => ?_).symm
  have hlt := add_le_recordEnd m y
  unfold storeAliveOffset at ha h3
  rcases hx.apart hy with heq | hend | hend
  · omega
  · omega
  · omega

theorem Laid.tombstone (h : Laid m base c) (hy : Link m base y)
    (hm : ∀ a, a ≠ y + storeAliveOffset → m' a = m a) : Laid m' base c := by
  refine ⟨h.chain.congr fun off h1 h2 h3 _ => Link.kept ⟨h1, h2, h3⟩ hy hm, h.le,
    fun a h1 h2 => ?_⟩
  have hend := h.link_le hy
  have hlt := add_le_recordEnd m y
  rw [hm a (by unfold storeAliveOffset; omega)]
  exact h.blank a h1 h2

theorem Link.tombstone (hx : Link m base x) (hy : Link m base y)
    (hm : ∀ a, a ≠ y + storeAliveOffset → m' a = m a) : Link m' base x := by
  have hkept := hx.kept hy hm
  refine ⟨hx.chain.congr fun off h1 h2 h3 _ => Link.kept ⟨h1, h2, h3⟩ hy hm,
    hkept.hdrPlausible_eq.trans hx.hdr, ?_⟩
  rw [hkept.recordEnd_eq]
  exact hx.fit

end Laid

/-! ## The store -/

/-- Every sector in use is laid. -/
def FlashTidy (m : Mem) : Prop := ∀ i, i < 96 → SectorUsed m i → ∃ c, Laid m (i * 4096) c

/-- The records of the index are links of sectors in use. -/
def IndexTidy (m : Mem) (index : List StoreIndexEntry) : Prop :=
  (index.map (·.key)).Nodup ∧
    ∀ e ∈ index, ∃ i, i < 96 ∧ SectorUsed m i ∧ Link m (i * 4096) e.offset

/-- The write offset is the start of a sector or the end of the records of one. -/
def HeadTidy (m : Mem) (writeOff : Nat) : Prop :=
  writeOff % 4096 = 0 ∨ ∃ i, i < 96 ∧ SectorUsed m i ∧ Laid m (i * 4096) writeOff ∧
    writeOff < i * 4096 + 4096

/-- Only programs fail. -/
structure OnlyPrograms (env : FlashEnv) : Prop where
  reads : Reads env
  erases : ∀ off, env.eraseOk off = true

/-- **The invariant.** -/
structure Tidy (st : StoreState) : Prop where
  flash : FlashTidy st.mem
  index : IndexTidy st.mem st.index
  head : HeadTidy st.mem st.writeOff

section Tidy

variable {env : FlashEnv} {crc32 : UInt32 → List UInt8 → UInt32} {st st' : StoreState}

theorem Link.inSector {m : Mem} {i off : Nat} (hi : i < 96) (hu : SectorUsed m i)
    (h : Link m (i * 4096) off) : InSector m i off := ⟨hi, hu, h.chain.le, h.fit⟩

theorem Tidy.placed (ht : Tidy st) : Placed st := by
  obtain ⟨hnd, hlink⟩ := ht.index
  refine ⟨hnd, fun e he => ?_, fun e he e' he' => ?_, ?_⟩
  · obtain ⟨i, hi, hu, hl⟩ := hlink e he
    exact ⟨i, hl.inSector hi hu⟩
  · obtain ⟨i, hi, hu, hl⟩ := hlink e he
    obtain ⟨i', hi', hu', hl'⟩ := hlink e' he'
    by_cases hii : i = i'
    · subst hii
      exact hl.apart hl'
    · -- in different sectors
      have h1 := hl.fit
      have h2 := hl.chain.le
      have h3 := hl'.fit
      have h4 := hl'.chain.le
      omega
  · rcases ht.head with h0 | ⟨i, hi, hu, hlaid, hlt⟩
    · exact .inl h0
    · refine .inr ⟨i, hi, hu, hlaid.chain.le, hlt, fun e he hb => ?_⟩
      obtain ⟨i', hi', hu', hl⟩ := hlink e he
      obtain rfl : i' = i := by
        have := (hl.inSector hi' hu').sectorBase_eq
        omega
      exact hlaid.link_le hl

theorem Tidy.setLock (ht : Tidy st) (lock : StoreLock) : Tidy { st with lock } :=
  ⟨ht.flash, ht.index, ht.head⟩

/-- RAM is lost. -/
theorem FlashTidy.powerOn {m : Mem} (h : FlashTidy m) (erased : List Nat) :
    Tidy (powerOn m erased) := ⟨h, ⟨List.nodup_nil, by simp [Bitle.powerOn]⟩, .inl rfl⟩

/-- A step that leaves sectors, links and ends as they are. -/
theorem Tidy.restrict (ht : Tidy st) {lost : StoreIndexEntry → Prop} (hs : Shrinks st st' lost)
    (hw : st'.writeOff = st.writeOff)
    (hused : ∀ i, i < 96 → (SectorUsed st'.mem i ↔ SectorUsed st.mem i))
    (hlaid : ∀ i c, i < 96 → SectorUsed st.mem i → Laid st.mem (i * 4096) c →
      Laid st'.mem (i * 4096) c)
    (hlink : ∀ i off, i < 96 → SectorUsed st.mem i → Link st.mem (i * 4096) off →
      Link st'.mem (i * 4096) off) : Tidy st' := by
  refine ⟨fun i hi hu => ?_, ⟨hs.placed.nodup, fun e he => ?_⟩, ?_⟩
  · have hu := (hused i hi).mp hu
    obtain ⟨c, hc⟩ := ht.flash i hi hu
    exact ⟨c, hlaid i c hi hu hc⟩
  · obtain ⟨i, hi, hu, hl⟩ := ht.index.2 e ((hs.mem e).mp he).1
    exact ⟨i, hi, (hused i hi).mpr hu, hlink i e.offset hi hu hl⟩
  · rw [HeadTidy, hw]
    rcases ht.head with h0 | ⟨i, hi, hu, hl, hlt⟩
    · exact .inl h0
    · exact .inr ⟨i, hi, (hused i hi).mpr hu, hlaid i _ hi hu hl, hlt⟩

/-- A tombstone, whole or not at all, and the removal of the entry. -/
theorem Tidy.tombstone (ht : Tidy st) (env : FlashEnv) {i : Nat} {e : StoreIndexEntry}
    (he : st.index[i]? = some e) : Tidy (indexRemoveAt (tombstoneAt env st e.offset) i) := by
  have hmem := List.mem_of_getElem? he
  have hm : ∀ a, a ≠ e.offset + storeAliveOffset →
      (tombstoneAt env st e.offset).mem a = st.mem a := fun a ha => tombstoneAt_mem env st ha
  obtain ⟨j, hj, hu, hy⟩ := ht.index.2 e hmem
  have hlo := hy.chain.le
  have hfit := hy.fit
  have hlt := add_le_recordEnd st.mem e.offset
  -- nothing changes outside sector `j`, nor in its header
  have hout : ∀ i a, i ≠ j → i * 4096 ≤ a → a < i * 4096 + 4096 →
      st.mem a = (tombstoneAt env st e.offset).mem a := by
    intro i a hij h1 h2
    refine (hm a ?_).symm
    unfold storeAliveOffset
    omega
  refine ht.restrict (ht.placed.tombstone env he) rfl (fun i hi => ⟨fun hu => ?_, fun hu => ?_⟩)
    (fun i c hi _ hl => ?_) (fun i off hi _ hl => ?_)
  · refine hu.congr fun a h1 h2 => hm a ?_
    unfold storeAliveOffset
    omega
  · refine hu.congr fun a h1 h2 => (hm a ?_).symm
    unfold storeAliveOffset
    omega
  · by_cases hij : i = j
    · subst hij
      exact hl.tombstone hy hm
    · exact hl.congr (hout i · hij)
  · by_cases hij : i = j
    · subst hij
      exact hl.tombstone hy hm
    · exact hl.congr fun a h1 h2 => hout i a hij h1 (Nat.lt_of_lt_of_le h2 hl.fit)

/-- An entry is dropped. -/
theorem Tidy.drop (ht : Tidy st) {i : Nat} {e : StoreIndexEntry} (he : st.index[i]? = some e) :
    Tidy (indexRemoveAt st i) :=
  ht.restrict (ht.placed.drop he) rfl (fun _ _ => Iff.rfl) (fun _ _ _ _ hl => hl)
    fun _ _ _ _ hl => hl

theorem Tidy.unbind (ht : Tidy st) (env : FlashEnv) (key : StoreKey) :
    Tidy (unbindKey env st key) := by
  unfold unbindKey
  cases hf : indexFind st.index key with
  | none => exact ht
  | some i =>
    obtain ⟨e, he, -⟩ := indexFind_eq_some hf
    dsimp only
    rw [tombstoneEntry_eq env he]
    exact ht.tombstone env he

/-- A sector whose entries are dropped is wiped: behind the room for its header everything is
erased. -/
theorem Tidy.wipe (ht : Tidy st) {j : Nat}
    (hs : Shrinks st st' fun x => sectorBase x.offset = j * 4096)
    (hm : ∀ a, a < j * 4096 ∨ j * 4096 + 4096 ≤ a → st'.mem a = st.mem a)
    (hblank : ∀ a, j * 4096 + 8 ≤ a → a < j * 4096 + 4096 → st'.mem a = 0xFF)
    (hhead : st'.writeOff = st.writeOff ∧
        (st.writeOff % 4096 = 0 ∨ sectorBase st.writeOff ≠ j * 4096) ∨
      st'.writeOff = j * 4096 + 8 ∧ j < 96 ∧ SectorUsed st'.mem j) : Tidy st' := by
  have hsame : ∀ i a, i ≠ j → i * 4096 ≤ a → a < i * 4096 + 4096 → st.mem a = st'.mem a :=
    fun i a hij h1 h2 => (hm a (by omega)).symm
  -- the other sectors read as before
  have hused : ∀ i, i ≠ j → (SectorUsed st'.mem i ↔ SectorUsed st.mem i) := by
    intro i hij
    have hhdr : ∀ a, i * 4096 ≤ a → a < i * 4096 + 8 → st.mem a = st'.mem a := by
      intro a h1 h2
      exact hsame i a hij h1 (Nat.lt_of_lt_of_le h2 (Nat.add_le_add_left (by decide) _))
    exact ⟨fun hu => hu.congr fun a h1 h2 => (hhdr a h1 h2).symm, fun hu => hu.congr hhdr⟩
  refine ⟨fun i hi hu => ?_, ⟨hs.placed.nodup, fun e he => ?_⟩, ?_⟩
  · by_cases hij : i = j
    · subst hij
      exact ⟨_, Laid.empty hblank⟩
    · obtain ⟨c, hc⟩ := ht.flash i hi ((hused i hij).mp hu)
      exact ⟨c, hc.congr (hsame i · hij)⟩
  · obtain ⟨hmem, hne⟩ := (hs.mem e).mp he
    obtain ⟨i, hi, hu, hl⟩ := ht.index.2 e hmem
    have hij : i ≠ j := by
      rintro rfl
      exact hne (hl.inSector hi hu).sectorBase_eq
    exact ⟨i, hi, (hused i hij).mpr hu,
      hl.congr fun a h1 h2 => hsame i a hij h1 (Nat.lt_of_lt_of_le h2 hl.fit)⟩
  · -- the write offset: where it was, outside the sector, or behind the new header
    rcases hhead with ⟨hw, hne⟩ | ⟨hw, hj, hu⟩
    · rw [HeadTidy, hw]
      by_cases h0 : st.writeOff % 4096 = 0
      · exact .inl h0
      · obtain ⟨i, hi, hu, hl, hlt⟩ := ht.head.resolve_left h0
        have hij : i ≠ j := by
          rintro rfl
          have hlo := hl.chain.le
          exact hne.resolve_left h0
            (Bitle.sectorBase_eq (Nat.le_trans (Nat.le_add_right _ 8) hlo) hlt)
        exact .inr ⟨i, hi, (hused i hij).mpr hu, hl.congr (hsame i · hij), hlt⟩
    · rw [HeadTidy, hw]
      exact .inr ⟨j, hj, hu, Laid.empty hblank, by omega⟩

theorem Tidy.reclaim (ht : Tidy st) (henv : OnlyPrograms env)
    (h : reclaimOldestSector env st = some st') : Tidy st' := by
  obtain ⟨j, -, hne, hw, hs, hm, hblank⟩ := ht.placed.reclaim h
  refine ht.wipe hs hm (fun a h1 h2 => ?_) (.inl ⟨hw, .inr hne⟩)
  exact hblank (henv.erases _) a (Nat.le_trans (Nat.le_add_right _ 8) h1) h2

theorem Tidy.openSector (ht : Tidy st) (henv : OnlyPrograms env) {j : Nat} (hmay : MayOpen st j) :
    Tidy (openSector env st (j * 4096)).2 := by
  generalize hr : Bitle.openSector env st (j * 4096) = r
  obtain ⟨err, st'⟩ := r
  obtain ⟨hm, -, -, -, -, hok, hfail, hblank⟩ :=
    ht.placed.openSector_spec (henv.reads _) hmay.1 hr
  refine ht.wipe (ht.placed.openSector (henv.reads _) hmay.1 hmay.2 hr) hm
    (hblank (henv.erases _)) ?_
  by_cases herr : err = .ok
  · exact .inr ⟨(hok herr).1, hmay.1, (hok herr).2⟩
  · exact .inl ⟨hfail herr, hmay.2⟩

/-- Up to the first write of the record. -/
theorem Tidy.prepare (ht : Tidy st) (henv : OnlyPrograms env) {key : StoreKey} {n : Nat}
    (hn : n ≤ 520) {err : EspErr} (h : putPrepare env st key n = .ok (err, st')) :
    Tidy st' ∧ (err = .ok → inRoom st'.writeOff (32 + n) = true) :=
  putPrepare_rule hn (ht.unbind env key) (fun _ _ hx hr => hx.reclaim henv hr)
    (fun _ _ hx hmay => hx.openSector henv hmay) h

/-- **Before a record is programmed** the rest of the sector is erased. -/
theorem Tidy.tail (ht : Tidy st) {need : Nat} (hin : inRoom st.writeOff need = true) :
    ∃ i, i < 96 ∧ SectorUsed st.mem i ∧ Laid st.mem (i * 4096) st.writeOff ∧
      st.writeOff + need ≤ i * 4096 + 4096 ∧ sectorBase st.writeOff = i * 4096 := by
  rw [inRoom, Bool.and_eq_true] at hin
  obtain ⟨h0, hroom⟩ := fits_iff.mp hin.1
  obtain ⟨i, hi, hu, hl, hlt⟩ := ht.head.resolve_left h0
  have hlo := hl.chain.le
  refine ⟨i, hi, hu, hl, by omega, ?_⟩
  exact Bitle.sectorBase_eq (Nat.le_trans (Nat.le_add_right _ 8) hlo) hlt

variable (crc32) in
/-- With its length programmed, a record is a link, complete or not. -/
theorem Laid.link_torn {m : Mem} {base c n : Nat} (h : Laid m base c) {a : PutArgs}
    (h1 : 1 ≤ a.payload.length) (h2 : a.payload.length ≤ 520)
    (hfit : c + (32 + a.payload.length) ≤ base + 4096) (hn : 4 ≤ n) :
    Link (program m c ((a.bytes crc32).take n)) base c ∧
      recordEnd (program m c ((a.bytes crc32).take n)) c = c + (32 + a.payload.length) ∧
      Laid (program m c ((a.bytes crc32).take n)) base (c + (32 + a.payload.length)) := by
  have hblen := a.length_bytes crc32
  have hread := (Fresh.of_blank h.blank).read_torn crc32 h1 h2 hfit hn
  rw [read_add] at hread
  have hhdr : hdrAt (program m c ((a.bytes crc32).take n)) c = a.tornHdr crc32 n := by
    rw [hdrAt, PutArgs.tornHdr, ← hread, List.take_left' (length_read _ _ _)]
  obtain ⟨hmagic, hplen, -, -⟩ := a.tornHdr_eq crc32 h2 hn
  have hlen : (a.tornHdr crc32 n).payloadLen.toNat = a.payload.length := by
    rw [hplen, UInt16.toNat_ofNat']
    exact Nat.mod_eq_of_lt (by omega)
  have hend : recordEnd (program m c ((a.bytes crc32).take n)) c =
      c + (32 + a.payload.length) := by
    rw [recordEnd, hhdr, hlen]
  have hplaus : hdrPlausible (hdrAt (program m c ((a.bytes crc32).take n)) c) = true := by
    rw [hhdr, hdrPlausible, hmagic, hlen]
    unfold bitleStorePayloadMax
    simp only [beq_self_eq_true, Bool.true_and, Bool.and_eq_true, bne_iff_ne, ne_eq,
      decide_eq_true_eq]
    omega
  have hchain : Chain (program m c ((a.bytes crc32).take n)) (base + 4096) (base + 8) c :=
    h.chain.congr_agree fun i _ hi => (program_outside (.inl hi)).symm
  refine ⟨⟨hchain, hplaus, by omega⟩, hend, ⟨hchain.trans (.cons hplaus (by omega) ?_), hfit, ?_⟩⟩
  · rw [hend]
    exact .nil _
  · intro i hi1 hi2
    rw [program_outside (by rw [List.length_take]; omega)]
    exact h.blank i (by omega) hi2

/-- A change between the write offset and the end of a record there. -/
theorem Tidy.flash_of_laid (ht : Tidy st) {i c : Nat} (hi : i < 96) (hu : SectorUsed st.mem i)
    (hl : Laid st.mem (i * 4096) st.writeOff) {m : Mem}
    (hm : ∀ x, x < st.writeOff ∨ i * 4096 + 4096 ≤ x → m x = st.mem x)
    (hl' : Laid m (i * 4096) c) :
    FlashTidy m ∧ SectorUsed m i ∧
      ∀ e ∈ st.index, ∃ j, j < 96 ∧ SectorUsed m j ∧ Link m (j * 4096) e.offset := by
  have hlo := hl.chain.le
  have hused : ∀ j, SectorUsed m j ↔ SectorUsed st.mem j := by
    intro j
    have hhdr : ∀ x, j * 4096 ≤ x → x < j * 4096 + 8 → m x = st.mem x :=
      fun x h1 h2 => hm x (by omega)
    exact ⟨fun h => h.congr hhdr, fun h => h.congr fun x h1 h2 => (hhdr x h1 h2).symm⟩
  refine ⟨fun j hj huj => ?_, (hused i).mpr hu, fun e he => ?_⟩
  · by_cases hij : j = i
    · subst hij
      exact ⟨c, hl'⟩
    · obtain ⟨c', hc'⟩ := ht.flash j hj ((hused j).mp huj)
      exact ⟨c', hc'.congr fun x h1 h2 => (hm x (by omega)).symm⟩
  · obtain ⟨j, hj, huj, hlink⟩ := ht.index.2 e he
    refine ⟨j, hj, (hused j).mpr huj, hlink.congr fun x h1 h2 => (hm x ?_).symm⟩
    by_cases hij : j = i
    · subst hij
      have hend := hl.link_le hlink
      omega
    · have hfit := hlink.fit
      omega

variable (crc32) in
/-- **A power loss in the middle of a record**: with nothing programmed, or with its length
programmed, the flash is as tidy as before. -/
theorem Tidy.flash_torn (ht : Tidy st) {a : PutArgs} (h1 : 1 ≤ a.payload.length)
    (h2 : a.payload.length ≤ 520) (hin : inRoom st.writeOff (32 + a.payload.length) = true)
    {n : Nat} (hn : n = 0 ∨ 4 ≤ n) : FlashTidy (tornState crc32 st a n).mem := by
  rcases hn with rfl | hn
  · have hsame : (tornState crc32 st a 0).mem = st.mem := by
      funext x
      refine program_outside ?_
      rw [List.take_zero, List.length_nil]
      omega
    rw [hsame]
    exact ht.flash
  · obtain ⟨i, hi, hu, hl, hfit, -⟩ := ht.tail hin
    obtain ⟨-, -, hl'⟩ := hl.link_torn crc32 h1 h2 hfit hn
    exact (ht.flash_of_laid hi hu hl (fun x hx => tornState_mem crc32 a n (by omega)) hl').1

/-- **A record is written**: it is the last link of its sector. -/
theorem Tidy.written (ht : Tidy st) {a : PutArgs} (h1 : 1 ≤ a.payload.length)
    (h2 : a.payload.length ≤ 520) (hin : inRoom st.writeOff (32 + a.payload.length) = true)
    (hkey : ∀ e ∈ st.index, e.key ≠ a.key) {seq : UInt32}
    (hmem : st'.mem = program st.mem st.writeOff (a.bytes crc32))
    (hw : st'.writeOff = st.writeOff + (32 + a.payload.length))
    (hidx : st'.index = st.index ++ [⟨a.key, st.writeOff, a.expiryUnixS, seq⟩]) :
    Tidy st' ∧ presented st'.mem st.writeOff = some ⟨a.expiryUnixS, a.flags, a.payload⟩ := by
  have hblen := a.length_bytes crc32
  obtain ⟨i, hi, hu, hl, hfit, -⟩ := ht.tail hin
  have htake : (a.bytes crc32).take (32 + a.payload.length) = a.bytes crc32 :=
    List.take_of_length_le (Nat.le_of_eq hblen)
  have hlink := hl.link_torn crc32 (n := 32 + a.payload.length) h1 h2 hfit (by omega)
  rw [htake, ← hmem] at hlink
  obtain ⟨hnew, -, hl'⟩ := hlink
  obtain ⟨hflash, hu', hold⟩ := ht.flash_of_laid hi hu hl (m := st'.mem)
    (fun x hx => by rw [hmem]; exact program_outside (by omega)) hl'
  refine ⟨⟨hflash, ⟨?_, ?_⟩, ?_⟩, ?_⟩
  · rw [hidx, List.map_append, List.map_singleton]
    refine List.nodup_append.mpr ⟨ht.index.1, List.nodup_singleton _, fun k hk k' hk' => ?_⟩
    obtain ⟨e, he, rfl⟩ := List.mem_map.mp hk
    rw [List.mem_singleton.mp hk']
    exact hkey e he
  · intro e he
    rw [hidx] at he
    rcases List.mem_append.mp he with he | he
    · exact hold e he
    · rw [List.mem_singleton.mp he]
      exact ⟨i, hi, hu', hnew⟩
  · rw [HeadTidy, hw]
    by_cases hfull : (st.writeOff + (32 + a.payload.length)) % 4096 = 0
    · exact .inl hfull
    · exact .inr ⟨i, hi, hu', hl', by omega⟩
  · -- nothing of it was cleared before, so it reads back
    have hat : (a.record st.writeOff).At crc32 st'.mem := by
      rw [hmem]
      exact Fresh.at_program (r := a.record st.writeOff) (.of_blank hl.blank) h1 h2 hfit
    have hend : (a.record st.writeOff).off + (a.record st.writeOff).size ≤ 0x60000 := by
      show st.writeOff + (32 + a.payload.length) ≤ _
      omega
    rw [presented, show st.writeOff = (a.record st.writeOff).off from rfl, hat.readRecord_eq hend]
    rfl

end Tidy

/-! ## Boot -/

section Boot

variable {env : FlashEnv} {crc32 : UInt32 → List UInt8 → UInt32} {m : Mem} {now seq : UInt32}
  {index : List StoreIndexEntry} {i c off : Nat}

theorem readOk_of_reads (henv : Reads env) {n : Nat} (h : off + n ≤ 0x60000) :
    espPartitionReadOk env off n = true := by
  unfold espPartitionReadOk storePartSize
  simpa [henv off] using h

/-- What the walk does with one record keeps the index tidy. -/
theorem IndexTidy.indexRecord (h : IndexTidy m index) (hi : i < 96) (hu : SectorUsed m i)
    (hlink : Link m (i * 4096) off) (hdr : StoreRecordHdr) :
    IndexTidy m (indexRecord now seq index off hdr) := by
  unfold Bitle.indexRecord
  split
  · cases hf : indexFind index hdr.key with
    | none =>
      refine ⟨?_, fun e he => ?_⟩
      · rw [List.map_append, List.map_singleton]
        refine List.nodup_append.mpr ⟨h.1, List.nodup_singleton _, fun k hk k' hk' => ?_⟩
        obtain ⟨e, he, rfl⟩ := List.mem_map.mp hk
        rw [List.mem_singleton.mp hk']
        exact indexFind_eq_none.mp hf e he
      · rcases List.mem_append.mp he with he | he
        · exact h.2 e he
        · rw [List.mem_singleton.mp he]
          exact ⟨i, hi, hu, hlink⟩
    | some dup =>
      obtain ⟨old, hold, hkey⟩ := indexFind_eq_some hf
      dsimp only
      rw [hold]
      dsimp only
      split
      · exact h
      · refine ⟨?_, fun e he => ?_⟩
        · -- the new entry has the key of the old one
          rw [List.map_set, ← hkey]
          have hget : (index.map (·.key))[dup]? = some old.key := by
            rw [List.getElem?_map, hold]
            rfl
          obtain ⟨hlt, hk⟩ := List.getElem?_eq_some_iff.mp hget
          rw [← hk, List.set_getElem_self]
          exact h.1
        · rcases List.mem_or_eq_of_mem_set he with he | rfl
          · exact h.2 e he
          · exact ⟨i, hi, hu, hlink⟩
  · exact h

/-- The index walk of a laid sector goes from link to link. -/
theorem Laid.indexWalk (hl : Laid m (i * 4096) c) (hi : i < 96) (hu : SectorUsed m i)
    {fuel : Nat} (hpre : Chain m (i * 4096 + 4096) (i * 4096 + 8) off)
    (hpost : Chain m (i * 4096 + 4096) off c) (h : IndexTidy m index) :
    IndexTidy m (indexWalk env crc32 m now seq (i * 4096 + 4096) fuel off index) := by
  induction fuel generalizing off index with
  | zero => exact h
  | succ fuel ih =>
    rw [Bitle.indexWalk]
    split
    · rename_i hc
      simp only [Bool.and_eq_true, decide_eq_true_eq] at hc
      obtain ⟨⟨⟨⟨hle, -⟩, hplaus⟩, -⟩, -⟩ := hc
      cases hpost with
      | nil =>
        rw [show hdrPlausible (StoreRecordHdr.ofBytes (read m c storeRecordHdrSize)) = false from
          hl.ended hle] at hplaus
        cases hplaus
      | cons hdr fit rest =>
        exact ih (hpre.trans (.cons hdr fit (.nil _))) rest (h.indexRecord hi hu ⟨hpre, hdr, fit⟩ _)
    · exact h

/-- The second walk ends where the chain does. -/
theorem Laid.resumeWalk (hl : Laid m (i * 4096) c) (hi : i < 96) (henv : Reads env)
    (fuel off : Nat) (hfuel : c ≤ off + fuel) (hpost : Chain m (i * 4096 + 4096) off c) :
    resumeWalk env m (i * 4096 + 4096) fuel off = c := by
  induction fuel generalizing off with
  | zero =>
    have := hpost.le
    rw [Bitle.resumeWalk]
    omega
  | succ fuel ih =>
    rw [Bitle.resumeWalk]
    cases hpost with
    | nil =>
      refine if_neg fun hc => ?_
      simp only [Bool.and_eq_true, decide_eq_true_eq] at hc
      rw [show hdrPlausible (StoreRecordHdr.ofBytes (read m c storeRecordHdrSize)) = false from
        hl.ended hc.1.1] at hc
      cases hc.2
    | cons hdr fit rest =>
      have hlt := add_le_recordEnd m off
      have hread : espPartitionReadOk env off storeRecordHdrSize = true :=
        readOk_of_reads henv (by unfold storeRecordHdrSize; omega)
      have hplaus : hdrPlausible (StoreRecordHdr.ofBytes (read m off storeRecordHdrSize)) = true :=
        hdr
      rw [if_pos]
      · exact ih _ (by show c ≤ recordEnd m off + fuel; omega) rest
      · rw [hread, hplaus]
        simp [storeRecordHdrSize]
        omega

variable (crc32 now) in
/-- The sector loop: the index is tidy, and the newest sector is one in use. -/
theorem FlashTidy.scan (hf : FlashTidy m) {bases : List Nat}
    (hb : ∀ b ∈ bases, b ∈ sectorBases) {scan : StoreScan} (hidx : IndexTidy m scan.index)
    (hnew : ∀ b, scan.newestBase = some b → ∃ i, i < 96 ∧ SectorUsed m i ∧ b = i * 4096) :
    IndexTidy m (bases.foldl (scanSector env crc32 m now) scan).index ∧
      ∀ b, (bases.foldl (scanSector env crc32 m now) scan).newestBase = some b →
        ∃ i, i < 96 ∧ SectorUsed m i ∧ b = i * 4096 := by
  induction bases generalizing scan with
  | nil => exact ⟨hidx, hnew⟩
  | cons b bases ih =>
    obtain ⟨i, hi, rfl⟩ := mem_sectorBases.mp (hb b List.mem_cons_self)
    rw [List.foldl_cons]
    refine ih (fun x hx => hb x (List.mem_cons_of_mem _ hx)) ?_ ?_
    · unfold scanSector
      dsimp only
      split
      · exact hidx
      · rename_i hc
        have hu : SectorUsed m i := by
          simp only [Bool.or_eq_true, Bool.not_eq_true', decide_eq_true_eq, not_or, not_not] at hc
          exact hc.2
        obtain ⟨c, hl⟩ := hf i hi hu
        split <;> exact hl.indexWalk hi hu (.nil _) hl.chain hidx
    · unfold scanSector
      dsimp only
      split
      · exact hnew
      · rename_i hc
        have hu : SectorUsed m i := by
          simp only [Bool.or_eq_true, Bool.not_eq_true', decide_eq_true_eq, not_or, not_not] at hc
          exact hc.2
        split
        · rintro x hx
          exact ⟨i, hi, hu, (Option.some.inj hx).symm⟩
        · exact hnew

/-- **A boot of a tidy flash.** -/
theorem FlashTidy.reboot {st : StoreState} (hf : FlashTidy st.mem) (henv : OnlyPrograms env) :
    Tidy (bitleStoreReboot env crc32 now st).2 := by
  have hoff := hf.powerOn st.erased
  unfold bitleStoreReboot bitleStoreInit
  split
  · exact ⟨hoff.flash, hoff.index, hoff.head⟩
  split
  · exact ⟨hoff.flash, hoff.index, hoff.head⟩
  have hempty : IndexTidy st.mem ({} : StoreScan).index := ⟨List.nodup_nil, by simp⟩
  obtain ⟨hidx, hnew⟩ := hf.scan crc32 now (fun _ hb => hb) hempty (by simp)
  dsimp only [Bitle.powerOn] at hidx ⊢
  generalize sectorBases.foldl (scanSector env crc32 st.mem now) {} = scan at hidx hnew ⊢
  cases hb : scan.newestBase with
  | none =>
    -- no sector is in use: the first one is opened
    have ht : Tidy
        { mem := st.mem, part := true, lock := .free, index := scan.index,
          nextSeq := scan.newestSeq + 1, erased := st.erased } := ⟨hf, hidx, .inl rfl⟩
    exact ht.openSector henv (j := 0) ⟨by decide, .inl rfl⟩
  | some base =>
    obtain ⟨i, hi, hu, rfl⟩ := hnew base hb
    obtain ⟨c, hl⟩ := hf i hi hu
    have hle := hl.le
    have hfuel : c ≤ i * 4096 + 8 + storeSectorSize := by
      refine Nat.le_trans hle ?_
      unfold storeSectorSize
      omega
    -- the head is walked to the end of its chain
    have hwalk : Bitle.resumeWalk env st.mem (i * 4096 + storeSectorSize) storeSectorSize
        (i * 4096 + storeSectorHdrSize) = c := hl.resumeWalk hi henv.reads _ _ hfuel hl.chain
    refine ⟨hf, hidx, ?_⟩
    dsimp only
    rw [hwalk]
    by_cases hfull : c % 4096 = 0
    · exact .inl hfull
    · exact .inr ⟨i, hi, hu, hl, by omega⟩

end Boot

end Bitle
