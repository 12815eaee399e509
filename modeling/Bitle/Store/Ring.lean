import Mathlib.Data.List.Nodup
import Mathlib.Logic.Function.Basic
import Bitle.Store.Layout

/-!
# Bitle — the ring of sectors behind the mailbox

`LogAt` is the partition as a whole: 96 sectors, each unused or a `LogSector`. `Ring` is the
invariant of the store between its flash operations: the index has exactly the records that are
alive, apart from expired ones; the write offset stands where the newest sector ends; and the
next sector to be opened is the one behind it.

Each step of `bitle_store_put` (a tombstone, a reclaimed sector, an opened sector, the record
itself) has one lemma that says it keeps `Ring` and which bindings it keeps (`Bound`).
-/

namespace Bitle

open Wire Flash Slots

variable {crc32 : UInt32 → List UInt8 → UInt32} {m m' : Mem} {S : Nat → Option LogSector}

/-! ## The partition -/

/-- The partition holds the sectors `S`, by number. -/
structure LogAt (crc32 : UInt32 → List UInt8 → UInt32) (m : Mem) (S : Nat → Option LogSector) :
    Prop where
  used : ∀ i, i < 96 → ∀ s, S i = some s → s.At crc32 m (i * 4096)
  unused : ∀ i, i < 96 → S i = none → (readSectorHdr m (i * 4096)).magic ≠ storeSectorMagic

/-- A record of the log, with the number of its sector. -/
def Stored (S : Nat → Option LogSector) (seq : UInt32) (r : LogRecord) : Prop :=
  ∃ i, i < 96 ∧ ∃ s, S i = some s ∧ s.seq = seq ∧ r ∈ s.recs

theorem sectorBase_eq {off i : Nat} (h1 : i * 4096 ≤ off) (h2 : off < i * 4096 + 4096) :
    sectorBase off = i * 4096 := by
  unfold sectorBase storeSectorSize
  omega

namespace LogAt

/-- A record lies in the sector it is stored in. -/
theorem sectorBase_off (h : LogAt crc32 m S) {i : Nat} (hi : i < 96) {s : LogSector}
    (hs : S i = some s) {r : LogRecord} (hr : r ∈ s.recs) : sectorBase r.off = i * 4096 := by
  have hat := h.used i hi s hs
  have hb := hat.bounds hr
  have hin := hat.inside
  have hpos := (hat.recs r hr).size_pos
  exact sectorBase_eq (by omega) (by omega)

/-- An offset belongs to one record. -/
theorem stored_off (h : LogAt crc32 m S) {seq seq' : UInt32} {r r' : LogRecord}
    (hr : Stored S seq r) (hr' : Stored S seq' r') (hoff : r.off = r'.off) :
    r = r' ∧ seq = seq' := by
  obtain ⟨i, hi, s, hs, rfl, hmem⟩ := hr
  obtain ⟨i', hi', s', hs', rfl, hmem'⟩ := hr'
  have hb := h.sectorBase_off hi hs hmem
  rw [hoff, h.sectorBase_off hi' hs' hmem'] at hb
  obtain rfl : i' = i := by omega
  rw [hs, Option.some.injEq] at hs'
  subst hs'
  exact ⟨(h.used i' hi s hs).eq_of_off hmem hmem' hoff, rfl⟩

theorem stored_at (h : LogAt crc32 m S) {seq : UInt32} {r : LogRecord} (hr : Stored S seq r) :
    r.At crc32 m := by
  obtain ⟨i, hi, s, hs, -, hmem⟩ := hr
  exact (h.used i hi s hs).recs r hmem

/-- The records of all sectors but one. -/
theorem stored_update (h : LogAt crc32 m S) {j : Nat} (o : Option LogSector)
    (ho : ∀ s, o = some s → s.recs = []) {seq : UInt32} {r : LogRecord} :
    Stored (Function.update S j o) seq r ↔ Stored S seq r ∧ sectorBase r.off ≠ j * 4096 := by
  constructor
  · rintro ⟨i, hi, s, hs, rfl, hmem⟩
    by_cases hij : i = j
    · subst hij
      rw [Function.update_self] at hs
      rw [ho s hs] at hmem
      simp at hmem
    · rw [Function.update_of_ne hij] at hs
      refine ⟨⟨i, hi, s, hs, rfl, hmem⟩, ?_⟩
      rw [h.sectorBase_off hi hs hmem]
      omega
  · rintro ⟨⟨i, hi, s, hs, rfl, hmem⟩, hne⟩
    rw [h.sectorBase_off hi hs hmem] at hne
    refine ⟨i, hi, s, ?_, rfl, hmem⟩
    rwa [Function.update_of_ne (by rintro rfl; exact hne rfl)]

/-- Changing the contents of one sector. -/
theorem update (h : LogAt crc32 m S) {j : Nat} {o : Option LogSector}
    (hframe : ∀ a, a < j * 4096 ∨ j * 4096 + 4096 ≤ a → m a = m' a)
    (hsome : ∀ s, o = some s → s.At crc32 m' (j * 4096))
    (hnone : o = none → (readSectorHdr m' (j * 4096)).magic ≠ storeSectorMagic) :
    LogAt crc32 m' (Function.update S j o) := by
  refine ⟨fun i hi s hs => ?_, fun i hi hs => ?_⟩
  · by_cases hij : i = j
    · subst hij
      rw [Function.update_self] at hs
      exact hsome s hs
    · rw [Function.update_of_ne hij] at hs
      exact (h.used i hi s hs).congr fun a h1 h2 => hframe a (by omega)
  · by_cases hij : i = j
    · subst hij
      rw [Function.update_self] at hs
      exact hnone hs
    · rw [Function.update_of_ne hij] at hs
      have hread : readSectorHdr m' (i * 4096) = readSectorHdr m (i * 4096) :=
        congrArg _ (read_congr fun a h1 h2 => (hframe a (by
          unfold storeSectorHdrSize at h2
          omega)).symm)
      rw [hread]
      exact h.unused i hi hs

end LogAt

/-- An erased sector has no sector header. -/
theorem magic_erased (m : Mem) (base : Nat) :
    (readSectorHdr (eraseRange m base storeSectorSize) base).magic ≠ storeSectorMagic := by
  have hread : read (eraseRange m base storeSectorSize) base storeSectorHdrSize =
      List.replicate 8 0xFF := by
    refine List.eq_replicate_iff.mpr ⟨length_read _ _ _, fun b hb => ?_⟩
    obtain ⟨i, hi, rfl⟩ := List.mem_map.mp hb
    rw [List.mem_range] at hi
    unfold storeSectorHdrSize at hi
    exact erase_inside (by omega) (by omega)
  rw [readSectorHdr, hread]
  decide

/-- Tombstones the record at `off`. -/
def killAt (off : Nat) (S : Nat → Option LogSector) : Nat → Option LogSector :=
  Function.update S (off / 4096) ((S (off / 4096)).map (LogSector.kill off))

namespace LogAt

theorem kill (h : LogAt crc32 m S) {seq : UInt32} {r : LogRecord} (hr : Stored S seq r) :
    LogAt crc32 (program m (r.off + storeAliveOffset) [0x00]) (killAt r.off S) := by
  obtain ⟨j, hj, s, hs, rfl, hmem⟩ := hr
  have hat := h.used j hj s hs
  have hb := hat.bounds hmem
  have hin := hat.inside
  have hpos := (hat.recs r hmem).size_pos
  obtain rfl : r.off / 4096 = j := by omega
  refine h.update (fun a ha => (program_outside ?_).symm) (fun x hx => ?_) (fun hx => ?_)
  · simp only [storeAliveOffset, List.length_singleton]
    omega
  · rw [hs, Option.map_some, Option.some.injEq] at hx
    subst hx
    exact hat.kill hmem
  · simp [hs] at hx

/-- A tombstone takes one record out of the log and leaves its dead copy. -/
theorem stored_kill (h : LogAt crc32 m S) {seq : UInt32} {r : LogRecord} (hr : Stored S seq r)
    {seq' : UInt32} {x : LogRecord} :
    Stored (killAt r.off S) seq' x ↔
      (Stored S seq' x ∧ x.off ≠ r.off) ∨ (x = r.kill ∧ seq' = seq) := by
  have hr0 := hr
  obtain ⟨j, hj, s, hs, rfl, hmem⟩ := hr0
  have hat := h.used j hj s hs
  have hb := hat.bounds hmem
  have hin := hat.inside
  have hpos := (hat.recs r hmem).size_pos
  have hdiv : r.off / 4096 = j := by omega
  -- only the sector of the record changes, and in it only the record
  have hself : killAt r.off S j = some (s.kill r.off) := by
    rw [killAt, hdiv, Function.update_self, hs, Option.map_some]
  have hother : ∀ i, i ≠ j → killAt r.off S i = S i := by
    intro i hij
    rw [killAt, hdiv, Function.update_of_ne hij]
  constructor
  · rintro ⟨i, hi, si, hsi, rfl, hx⟩
    by_cases hij : i = j
    · subst hij
      rw [hself, Option.some.injEq] at hsi
      subst hsi
      obtain ⟨y, hy, rfl⟩ := List.mem_map.mp hx
      by_cases hoff : y.off = r.off
      · rw [if_pos hoff, hat.eq_of_off hy hmem hoff]
        exact .inr ⟨rfl, rfl⟩
      · rw [if_neg hoff]
        exact .inl ⟨⟨i, hi, s, hs, rfl, hy⟩, hoff⟩
    · rw [hother i hij] at hsi
      refine .inl ⟨⟨i, hi, si, hsi, rfl, hx⟩, fun hoff => ?_⟩
      have h1 := h.sectorBase_off hi hsi hx
      rw [hoff, h.sectorBase_off hj hs hmem] at h1
      omega
  · rintro (⟨⟨i, hi, si, hsi, rfl, hx⟩, hoff⟩ | ⟨rfl, rfl⟩)
    · by_cases hij : i = j
      · subst hij
        rw [hs, Option.some.injEq] at hsi
        subst hsi
        exact ⟨i, hi, _, hself, rfl, List.mem_map.mpr ⟨x, hx, if_neg hoff⟩⟩
      · exact ⟨i, hi, si, by rw [hother i hij, hsi], rfl, hx⟩
    · exact ⟨j, hj, _, hself, rfl, List.mem_map.mpr ⟨r, hmem, if_pos rfl⟩⟩

end LogAt

/-- A tombstone changes neither the number nor the extent of a sector. -/
theorem killAt_eq_some {off i : Nat} {s' : LogSector} (h : killAt off S i = some s') :
    ∃ s, S i = some s ∧ s.seq = s'.seq ∧ ∀ base, s.stop base = s'.stop base := by
  by_cases hi : i = off / 4096
  · subst hi
    rw [killAt, Function.update_self, Option.map_eq_some_iff] at h
    obtain ⟨s, hs, rfl⟩ := h
    exact ⟨s, hs, rfl, fun base => (s.stop_kill off base).symm⟩
  · rw [killAt, Function.update_of_ne hi] at h
    exact ⟨s', h, rfl, fun _ => rfl⟩

theorem killAt_of_eq_some (off : Nat) {i : Nat} {s : LogSector} (h : S i = some s) :
    ∃ s', killAt off S i = some s' ∧ s'.seq = s.seq ∧ ∀ base, s'.stop base = s.stop base := by
  by_cases hi : i = off / 4096
  · subst hi
    rw [killAt, Function.update_self, h]
    exact ⟨_, rfl, rfl, fun base => s.stop_kill off base⟩
  · rw [killAt, Function.update_of_ne hi]
    exact ⟨s, h, rfl, fun _ => rfl⟩

/-! ## The index -/

/-- The index, complete or not: one entry a key, and every entry a live record of the log. -/
structure IndexSound (S : Nat → Option LogSector) (index : List StoreIndexEntry) : Prop where
  nodup : (index.map (·.key)).Nodup
  length_le : index.length ≤ 256
  sound : ∀ e ∈ index, ∃ seq r, Stored S seq r ∧ r.alive = true ∧ e = r.entry seq

namespace IndexSound

variable {index index' : List StoreIndexEntry} {S' : Nat → Option LogSector}

/-- Entries with one key are the same. -/
theorem eq_of_key (h : IndexSound S index) {e e' : StoreIndexEntry} (he : e ∈ index)
    (he' : e' ∈ index) (hk : e.key = e'.key) : e = e' :=
  List.inj_on_of_nodup_map h.nodup he he' hk

/-- Removing one entry is filtering out its key. -/
theorem remove_perm (h : IndexSound S index) {i : Nat} {e : StoreIndexEntry}
    (he : index[i]? = some e) :
    (swapRemove index i).Perm (index.filter fun x => x.key != e.key) := by
  have hperm := swapRemove_perm he
  have hnd := (hperm.map (·.key)).nodup_iff.mpr h.nodup
  rw [List.map_cons, List.nodup_cons] at hnd
  have hrest : (swapRemove index i).filter (fun x => x.key != e.key) = swapRemove index i := by
    refine List.filter_eq_self.mpr fun x hx => bne_iff_ne.mpr fun hk => hnd.1 ?_
    exact hk ▸ List.mem_map_of_mem hx
  have hfilter := hperm.filter fun x => x.key != e.key
  rwa [List.filter_cons_of_neg (by simp), hrest] at hfilter

/-- An index that loses some of its entries, from a log that keeps the records of the others. -/
theorem restrict (h : IndexSound S index) {p : StoreIndexEntry → Bool}
    (hperm : index'.Perm (index.filter p))
    (hS : ∀ e ∈ index, p e = true → ∀ seq r, Stored S seq r → e = r.entry seq → Stored S' seq r) :
    IndexSound S' index' := by
  have hsub : (index.filter p).Sublist index := List.filter_sublist
  refine ⟨?_, ?_, fun e he => ?_⟩
  · exact (hperm.map _).nodup_iff.mpr (h.nodup.sublist (hsub.map _))
  · exact Nat.le_trans (Nat.le_of_eq hperm.length_eq) (Nat.le_trans hsub.length_le h.length_le)
  · obtain ⟨hmem, hp⟩ := List.mem_filter.mp (hperm.mem_iff.mp he)
    obtain ⟨seq, r, hr, hal, rfl⟩ := h.sound e hmem
    exact ⟨seq, r, hS _ hmem hp seq r hr rfl, hal, rfl⟩

end IndexSound

/-- The index at time `now`: one entry a key, every entry a live record of the log, and every
live record an entry unless it is expired. -/
structure Indexed (now : UInt32) (S : Nat → Option LogSector) (index : List StoreIndexEntry) :
    Prop where
  nodup : (index.map (·.key)).Nodup
  length_le : index.length ≤ 256
  sound : ∀ e ∈ index, ∃ seq r, Stored S seq r ∧ r.alive = true ∧ e = r.entry seq
  complete : ∀ seq r, Stored S seq r → r.live now = true → r.entry seq ∈ index

theorem storeExpired_mono {now now' expiry : UInt32} (h : now ≤ now')
    (he : storeExpired now expiry = true) : storeExpired now' expiry = true := by
  simp only [storeExpired, Bool.and_eq_true, decide_eq_true_eq, gt_iff_lt] at he ⊢
  exact ⟨he.1, Std.lt_of_lt_of_le he.2 h⟩

theorem LogRecord.live_of_le {now now' : UInt32} {r : LogRecord} (h : now ≤ now')
    (hl : r.live now' = true) : r.live now = true := by
  simp only [LogRecord.live, Bool.and_eq_true, Bool.not_eq_true'] at hl ⊢
  refine ⟨hl.1, Bool.eq_false_iff.mpr fun he => ?_⟩
  rw [storeExpired_mono h he] at hl
  exact absurd hl.2 (by simp)

namespace Indexed

variable {now now' : UInt32} {index index' : List StoreIndexEntry} {S' : Nat → Option LogSector}

theorem mono (h : Indexed now S index) (hle : now ≤ now') : Indexed now' S index :=
  ⟨h.nodup, h.length_le, h.sound, fun seq r hr hl => h.complete seq r hr (r.live_of_le hle hl)⟩

theorem toSound (h : Indexed now S index) : IndexSound S index := ⟨h.nodup, h.length_le, h.sound⟩

/-- Entries with one key are the same. -/
theorem eq_of_key (h : Indexed now S index) {e e' : StoreIndexEntry} (he : e ∈ index)
    (he' : e' ∈ index) (hk : e.key = e'.key) : e = e' := h.toSound.eq_of_key he he' hk

/-- A sound index that has the live records. -/
theorem of_sound (h : IndexSound S index)
    (hc : ∀ seq r, Stored S seq r → r.live now = true → r.entry seq ∈ index) :
    Indexed now S index := ⟨h.nodup, h.length_le, h.sound, hc⟩

end Indexed

/-! ## Bindings -/

/-- The record `r` is the one the store holds under `key`. -/
def Bound (st : StoreState) (S : Nat → Option LogSector) (key : StoreKey) (r : LogRecord) : Prop :=
  r.key = key ∧ ∃ seq, Stored S seq r ∧ r.entry seq ∈ st.index

theorem Bound.unique {now : UInt32} {st : StoreState} (hidx : Indexed now S st.index)
    (hlog : LogAt crc32 m S) {key : StoreKey} {r r' : LogRecord} (h : Bound st S key r)
    (h' : Bound st S key r') : r = r' := by
  obtain ⟨hk, seq, hs, he⟩ := h
  obtain ⟨hk', seq', hs', he'⟩ := h'
  have heq := hidx.eq_of_key he he' (hk.trans hk'.symm)
  exact (hlog.stored_off hs hs' (congrArg StoreIndexEntry.offset heq)).1

/-- An index entry has its record. -/
theorem Indexed.bound {now : UInt32} {st : StoreState} (hidx : Indexed now S st.index)
    {e : StoreIndexEntry} (he : e ∈ st.index) :
    ∃ r, Bound st S e.key r ∧ r.alive = true ∧ r.off = e.offset ∧ r.expiryUnixS = e.expiryUnixS := by
  obtain ⟨seq, r, hr, hal, rfl⟩ := hidx.sound e he
  exact ⟨r, ⟨rfl, seq, hr, he⟩, hal, rfl, rfl⟩

/-- The entries of one sector go with it. -/
theorem IndexSound.drop_sector {index index' : List StoreIndexEntry} (h : IndexSound S index)
    (hlog : LogAt crc32 m S) {j : Nat} {o : Option LogSector} (ho : ∀ s, o = some s → s.recs = [])
    (hperm : index'.Perm (index.filter fun e => !(sectorBase e.offset == j * 4096))) :
    IndexSound (Function.update S j o) index' := by
  refine h.restrict hperm fun e _ hp seq r hr heq => ?_
  subst heq
  refine (hlog.stored_update o ho).mpr ⟨hr, ?_⟩
  simpa [LogRecord.entry] using hp

/-- So do the bindings in it. -/
theorem bound_drop_sector (st st' : StoreState) (hlog : LogAt crc32 m S) {j : Nat}
    {o : Option LogSector} (ho : ∀ s, o = some s → s.recs = [])
    (hperm : st'.index.Perm (st.index.filter fun e => !(sectorBase e.offset == j * 4096)))
    (key : StoreKey) (r : LogRecord) :
    Bound st' (Function.update S j o) key r ↔ Bound st S key r ∧ sectorBase r.off ∉ [j * 4096] := by
  have hkeep : ∀ e : StoreIndexEntry,
      (!(sectorBase e.offset == j * 4096)) = true ↔ sectorBase e.offset ≠ j * 4096 := by simp
  rw [List.mem_singleton]
  constructor
  · rintro ⟨hk, seq, hr, he⟩
    obtain ⟨hr, hne⟩ := (hlog.stored_update o ho).mp hr
    exact ⟨⟨hk, seq, hr, (List.mem_filter.mp (hperm.mem_iff.mp he)).1⟩, hne⟩
  · rintro ⟨⟨hk, seq, hr, he⟩, hne⟩
    refine ⟨hk, seq, (hlog.stored_update o ho).mpr ⟨hr, hne⟩, ?_⟩
    exact hperm.mem_iff.mpr (List.mem_filter.mpr ⟨he, (hkeep _).mpr hne⟩)

/-- No live record outside the sector is dropped. -/
theorem Indexed.drop_sector {now : UInt32} {index index' : List StoreIndexEntry}
    (h : Indexed now S index) (hlog : LogAt crc32 m S) {j : Nat} {o : Option LogSector}
    (ho : ∀ s, o = some s → s.recs = [])
    (hperm : index'.Perm (index.filter fun e => !(sectorBase e.offset == j * 4096))) :
    Indexed now (Function.update S j o) index' := by
  refine .of_sound (h.toSound.drop_sector hlog ho hperm) fun seq r hr hl => ?_
  obtain ⟨hr, hne⟩ := (hlog.stored_update o ho).mp hr
  refine hperm.mem_iff.mpr (List.mem_filter.mpr ⟨h.complete seq r hr hl, ?_⟩)
  simpa [LogRecord.entry] using hne

/-- From one state to a later one the sectors with base in `bases` were erased; the bindings
whose records lie in them are gone and all others stay. -/
structure Trim (st : StoreState) (S : Nat → Option LogSector) (st' : StoreState)
    (S' : Nat → Option LogSector) (bases : List Nat) : Prop where
  erased : st'.erased = st.erased ++ bases
  bound : ∀ key r, Bound st' S' key r ↔ Bound st S key r ∧ sectorBase r.off ∉ bases
  length_le : st'.index.length ≤ st.index.length
  part : st'.part = st.part
  lock : st'.lock = st.lock

namespace Trim

variable {st st' st'' : StoreState} {S' S'' : Nat → Option LogSector} {bases bases' : List Nat}

theorem refl (st : StoreState) (S : Nat → Option LogSector) : Trim st S st S [] :=
  ⟨by simp, by simp, Nat.le_refl _, rfl, rfl⟩

theorem trans (h : Trim st S st' S' bases) (h' : Trim st' S' st'' S'' bases') :
    Trim st S st'' S'' (bases ++ bases') := by
  refine ⟨by rw [h'.erased, h.erased, List.append_assoc], fun key r => ?_,
    Nat.le_trans h'.length_le h.length_le, h'.part.trans h.part, h'.lock.trans h.lock⟩
  rw [h'.bound, h.bound, List.mem_append, not_or, and_assoc]

end Trim

/-! ## The ring -/

/-- Sector `h` is the one `s_write_off` is in: behind its last record, or where no record
fits. -/
def HeadOpen (st : StoreState) (S : Nat → Option LogSector) (h : Nat) : Prop :=
  ∃ s, S h = some s ∧ s.seq = st.headSeq ∧
    ((st.writeOff = s.stop (h * 4096) ∧ Fresh st.mem st.writeOff (h * 4096 + 4096)) ∨
      h * 4096 + 4096 < st.writeOff + 33)

/-- What holds of the store whatever the clock does and whichever tombstones fail: the index may
lack live records of the log, and a key may have several of them. The head sector may have been
reclaimed when the write offset stands on its very end, because `sector_base` then names the
sector behind it. -/
structure LogRing (crc32 : UInt32 → List UInt8 → UInt32) (st : StoreState)
    (S : Nat → Option LogSector) (h : Nat) : Prop where
  log : LogAt crc32 st.mem S
  index : IndexSound S st.index
  head_lt : h < 96
  head_lo : h * 4096 + 8 ≤ st.writeOff
  head_hi : st.writeOff ≤ h * 4096 + 4096
  head_open : st.writeOff = h * 4096 + 4096 ∨ HeadOpen st S h

/-- **The invariant of the store**, with the sectors `S` and the head `h`. The head sector may
have been reclaimed when the write offset stands on its very end, because `sector_base` then
names the sector behind it. `wrap` is about the sector with the highest sequence number there
is, which `reclaim_oldest_sector` never picks: the numbers after it start again at zero, so the
head is as many sectors further as the next number says. -/
structure Ring (crc32 : UInt32 → List UInt8 → UInt32) (now : UInt32) (st : StoreState)
    (S : Nat → Option LogSector) (h : Nat) : Prop where
  log : LogAt crc32 st.mem S
  indexed : Indexed now S st.index
  head_lt : h < 96
  head_lo : h * 4096 + 8 ≤ st.writeOff
  head_hi : st.writeOff ≤ h * 4096 + 4096
  head_open : st.writeOff = h * 4096 + 4096 ∨ HeadOpen st S h
  wrap : ∀ i, i < 96 → ∀ s, S i = some s → s.seq = 0xFFFFFFFF →
    st.nextSeq.toNat ≤ 95 ∧ h = (i + st.nextSeq.toNat) % 96

/-- The invariant between two calls: the head is open and nobody holds the mutex. -/
structure StoreInv (crc32 : UInt32 → List UInt8 → UInt32) (now : UInt32) (st : StoreState)
    (S : Nat → Option LogSector) (h : Nat) : Prop extends Ring crc32 now st S h where
  head : HeadOpen st S h
  part : st.part = true
  lock : st.lock = .free

namespace Ring

variable {now now' : UInt32} {st : StoreState} {h : Nat}

theorem mono (hr : Ring crc32 now st S h) (hle : now ≤ now') : Ring crc32 now' st S h :=
  { hr with indexed := hr.indexed.mono hle }

end Ring

theorem tombstoneEntry_eq (env : FlashEnv) {st : StoreState} {i : Nat} {e : StoreIndexEntry}
    (he : st.index[i]? = some e) :
    tombstoneEntry env st i = indexRemoveAt (tombstoneAt env st e.offset) i := by
  rw [tombstoneEntry, he]

namespace LogRing

variable {st : StoreState} {h : Nat}

/-- A tombstone does not touch the head. -/
theorem headOpen_kill (hr : LogRing crc32 st S h) (ho : HeadOpen st S h) {seq : UInt32}
    {r : LogRecord} (hst : Stored S seq r) (index : List StoreIndexEntry) :
    HeadOpen { st with mem := program st.mem (r.off + storeAliveOffset) [0x00], index }
      (killAt r.off S) h := by
  obtain ⟨s, hs, hseq, hw⟩ := ho
  obtain ⟨s', hs', hseq', hstop⟩ := killAt_of_eq_some r.off hs
  refine ⟨s', hs', hseq'.trans hseq, hw.imp (fun hw => ⟨?_, ?_⟩) id⟩
  · rw [hstop]
    exact hw.1
  · -- it lies in front of the write offset or in another sector
    refine hw.2.congr fun a h1 h2 => (program_outside ?_).symm
    obtain ⟨j, hj, sj, hsj, -, hmemj⟩ := hst
    have hat := hr.log.used j hj sj hsj
    have hb := hat.bounds hmemj
    have hin := hat.inside
    have hpos := (hat.recs r hmemj).size_pos
    have hlo := hr.head_lo
    simp only [storeAliveOffset, List.length_singleton]
    by_cases hjh : j = h
    · subst hjh
      rw [hs, Option.some.injEq] at hsj
      subst hsj
      omega
    · omega

/-- The record of an entry that is dropped is tombstoned. -/
theorem tombstoned (hr : LogRing crc32 st S h) {i : Nat} {e : StoreIndexEntry}
    (he : st.index[i]? = some e) :
    LogRing crc32
        { st with mem := program st.mem (e.offset + storeAliveOffset) [0x00],
                  index := swapRemove st.index i } (killAt e.offset S) h ∧
      (HeadOpen st S h → HeadOpen
        { st with mem := program st.mem (e.offset + storeAliveOffset) [0x00],
                  index := swapRemove st.index i } (killAt e.offset S) h) := by
  have hmem := List.mem_of_getElem? he
  obtain ⟨seq, r, hst, -, rfl⟩ := hr.index.sound e hmem
  have hopen := fun ho : HeadOpen st S h => hr.headOpen_kill ho hst (swapRemove st.index i)
  refine ⟨⟨hr.log.kill hst, ?_, hr.head_lt, hr.head_lo, hr.head_hi, hr.head_open.imp id hopen⟩,
    hopen⟩
  refine hr.index.restrict (hr.index.remove_perm he) fun x hx hp seq' y hy hxy => ?_
  subst hxy
  refine (hr.log.stored_kill hst).mpr (.inl ⟨hy, fun hoff => bne_iff_ne.mp hp ?_⟩)
  exact (hr.log.stored_off hy hst hoff).1 ▸ rfl

/-- An entry is dropped, and its record stays as it is. -/
theorem dropped (hr : LogRing crc32 st S h) {i : Nat} {e : StoreIndexEntry}
    (he : st.index[i]? = some e) :
    LogRing crc32 (indexRemoveAt st i) S h ∧
      (HeadOpen st S h → HeadOpen (indexRemoveAt st i) S h) :=
  ⟨⟨hr.log, hr.index.restrict (hr.index.remove_perm he) fun _ _ _ _ _ hy _ => hy, hr.head_lt,
    hr.head_lo, hr.head_hi, hr.head_open⟩, id⟩

/-- The write offset is inside the head sector, or on its end. -/
theorem sectorBase_writeOff (hr : LogRing crc32 st S h) (hne : st.writeOff ≠ h * 4096 + 4096) :
    sectorBase st.writeOff = h * 4096 := by
  have h2 := Nat.lt_of_le_of_ne hr.head_hi hne
  exact sectorBase_eq (Nat.le_trans (Nat.le_add_right _ _) hr.head_lo) h2

/-- A sector is reclaimed: any but the one the write offset is in. -/
theorem reclaim (hr : LogRing crc32 st S h) {j : Nat} (hne : j * 4096 ≠ sectorBase st.writeOff) :
    LogRing crc32 (eraseSector { st with index := dropSector st.index (j * 4096) } (j * 4096))
      (Function.update S j none) h := by
  have hframe : ∀ a, a < j * 4096 ∨ j * 4096 + 4096 ≤ a →
      st.mem a = eraseRange st.mem (j * 4096) storeSectorSize a :=
    fun a ha => (erase_outside ha).symm
  refine ⟨hr.log.update hframe (by simp) (fun _ => magic_erased _ _),
    hr.index.drop_sector hr.log (by simp) (sweepAll_perm _ _), hr.head_lt, hr.head_lo, hr.head_hi,
    ?_⟩
  by_cases hw : st.writeOff = h * 4096 + 4096
  · exact .inl hw
  · rw [hr.sectorBase_writeOff hw] at hne
    obtain ⟨s, hs, hseq, hfresh⟩ := hr.head_open.resolve_left hw
    have hlo := hr.head_lo
    refine .inr ⟨s, by rwa [Function.update_of_ne (by rintro rfl; exact hne rfl)], hseq, ?_⟩
    exact hfresh.imp (fun hf => ⟨hf.1, hf.2.congr fun a h1 h2 => hframe a (by omega)⟩) id

end LogRing

namespace Ring

variable {now now' : UInt32} {st : StoreState} {h : Nat}

theorem logRing (hr : Ring crc32 now st S h) : LogRing crc32 st S h :=
  ⟨hr.log, hr.indexed.toSound, hr.head_lt, hr.head_lo, hr.head_hi, hr.head_open⟩

/-- With a complete index and one highest number. -/
theorem of_logRing (hr : LogRing crc32 st S h)
    (hc : ∀ seq r, Stored S seq r → r.live now = true → r.entry seq ∈ st.index)
    (hw : ∀ i, i < 96 → ∀ s, S i = some s → s.seq = 0xFFFFFFFF →
      st.nextSeq.toNat ≤ 95 ∧ h = (i + st.nextSeq.toNat) % 96) : Ring crc32 now st S h :=
  ⟨hr.log, .of_sound hr.index hc, hr.head_lt, hr.head_lo, hr.head_hi, hr.head_open, hw⟩

/-- The tombstone of an entry and its removal from the index. -/
theorem tombstone (hr : Ring crc32 now st S h) {i : Nat} {e : StoreIndexEntry}
    (he : st.index[i]? = some e) :
    Ring crc32 now (tombstoneEntry .good st i) (killAt e.offset S) h ∧
      (HeadOpen st S h → HeadOpen (tombstoneEntry .good st i) (killAt e.offset S) h) ∧
      ∀ key r, Bound (tombstoneEntry .good st i) (killAt e.offset S) key r ↔
        Bound st S key r ∧ key ≠ e.key := by
  have hmem := List.mem_of_getElem? he
  have hperm := hr.indexed.toSound.remove_perm he
  obtain ⟨hlr, hopen⟩ := hr.logRing.tombstoned he
  obtain ⟨seq, r, hst, hal, rfl⟩ := hr.indexed.sound e hmem
  have hst' : tombstoneEntry .good st i =
      { st with mem := program st.mem (r.off + storeAliveOffset) [0x00],
                index := swapRemove st.index i } := tombstoneEntry_eq .good he
  rw [hst']
  refine ⟨of_logRing hlr (fun seq' x hx hl => ?_) ?_, hopen, fun key x => ?_⟩
  · rcases (hr.log.stored_kill hst).mp hx with ⟨hx, hoff⟩ | ⟨rfl, -⟩
    · have hin := hr.indexed.complete seq' x hx hl
      refine hperm.mem_iff.mpr (List.mem_filter.mpr ⟨hin, bne_iff_ne.mpr fun hk => hoff ?_⟩)
      exact congrArg StoreIndexEntry.offset (hr.indexed.eq_of_key hin hmem hk)
    · simp [LogRecord.live, LogRecord.kill] at hl
  · intro j hj s' hs' hmax
    obtain ⟨s, hs, hseq, -⟩ := killAt_eq_some hs'
    exact hr.wrap j hj s hs (hseq.trans hmax)
  · constructor
    · rintro ⟨rfl, seq', hx, hxe⟩
      obtain ⟨hxe, hne⟩ := List.mem_filter.mp (hperm.mem_iff.mp hxe)
      rcases (hr.log.stored_kill hst).mp hx with ⟨hx, -⟩ | ⟨rfl, -⟩
      · exact ⟨⟨rfl, seq', hx, hxe⟩, bne_iff_ne.mp hne⟩
      · exact absurd rfl (bne_iff_ne.mp hne)
    · rintro ⟨⟨rfl, seq', hx, hxe⟩, hne⟩
      have hoff : x.off ≠ r.off := fun hoff => hne ((hr.log.stored_off hx hst hoff).1 ▸ rfl)
      refine ⟨rfl, seq', (hr.log.stored_kill hst).mpr (.inl ⟨hx, hoff⟩), ?_⟩
      exact hperm.mem_iff.mpr (List.mem_filter.mpr ⟨hxe, bne_iff_ne.mpr hne⟩)

/-- A sector is reclaimed: any but the one the write offset is in. -/
theorem reclaim (hr : Ring crc32 now st S h) {j : Nat} (hne : j * 4096 ≠ sectorBase st.writeOff) :
    Ring crc32 now
        (eraseSector { st with index := dropSector st.index (j * 4096) } (j * 4096))
        (Function.update S j none) h ∧
      Trim st S (eraseSector { st with index := dropSector st.index (j * 4096) } (j * 4096))
        (Function.update S j none) [j * 4096] := by
  have hperm := sweepAll_perm (fun e => sectorBase e.offset == j * 4096) st.index
  have hidx := hr.indexed.drop_sector (o := none) hr.log (by simp) hperm
  have hlen : (dropSector st.index (j * 4096)).length ≤ st.index.length :=
    Nat.le_trans (Nat.le_of_eq hperm.length_eq) (List.length_filter_le _ _)
  refine ⟨of_logRing (hr.logRing.reclaim hne) hidx.complete fun i hi s hs hmax => ?_, ⟨rfl,
    bound_drop_sector st _ hr.log (by simp) hperm, hlen, rfl, rfl⟩⟩
  by_cases hij : i = j
  · subst hij
    simp at hs
  · rw [Function.update_of_ne hij] at hs
    exact hr.wrap i hi s hs hmax

end Ring

/-! ## Opening a sector -/

/-- The index `open_sector` leaves. -/
def openedIndex (st : StoreState) (j : Nat) : List StoreIndexEntry :=
  if (readSectorHdr st.mem (j * 4096)).magic == storeSectorMagic then
    dropSector st.index (j * 4096) else st.index

/-- The store behind `open_sector`, when every flash call succeeds. -/
def StoreState.opened (st : StoreState) (j : Nat) : StoreState :=
  { st with
    index := openedIndex st j
    mem := program (eraseRange st.mem (j * 4096) storeSectorSize) (j * 4096)
      (StoreSectorHdr.bytes ⟨storeSectorMagic, st.nextSeq⟩)
    erased := st.erased ++ [j * 4096]
    nextSeq := st.nextSeq + 1
    headSeq := st.nextSeq
    writeOff := j * 4096 + 8 }

namespace StoreState

variable (st : StoreState) (j : Nat)

@[simp] theorem opened_index : (st.opened j).index = openedIndex st j := rfl
@[simp] theorem opened_mem : (st.opened j).mem =
    program (eraseRange st.mem (j * 4096) storeSectorSize) (j * 4096)
      (StoreSectorHdr.bytes ⟨storeSectorMagic, st.nextSeq⟩) := rfl
@[simp] theorem opened_erased : (st.opened j).erased = st.erased ++ [j * 4096] := rfl
@[simp] theorem opened_nextSeq : (st.opened j).nextSeq = st.nextSeq + 1 := rfl
@[simp] theorem opened_headSeq : (st.opened j).headSeq = st.nextSeq := rfl
@[simp] theorem opened_writeOff : (st.opened j).writeOff = j * 4096 + 8 := rfl
@[simp] theorem opened_part : (st.opened j).part = st.part := rfl
@[simp] theorem opened_lock : (st.opened j).lock = st.lock := rfl

end StoreState

theorem openSector_good {st : StoreState} {j : Nat} (hj : j < 96) :
    openSector .good st (j * 4096) = (.ok, st.opened j) := by
  have hok : espPartitionReadOk .good (j * 4096) storeSectorHdrSize = true := by
    unfold espPartitionReadOk storeSectorHdrSize storePartSize
    simp only [FlashEnv.good, Bool.true_and, decide_eq_true_eq]
    omega
  unfold openSector StoreState.opened openedIndex
  rw [hok, Bool.true_and]
  cases (readSectorHdr st.mem (j * 4096)).magic == storeSectorMagic <;> rfl

section Open

variable {now : UInt32} {st : StoreState} {h j : Nat}

/-- Whether or not the sector was in use, its entries are gone. -/
theorem LogRing.openedIndex_perm (hr : LogRing crc32 st S h) (hj : j < 96) :
    (openedIndex st j).Perm (st.index.filter fun e => !(sectorBase e.offset == j * 4096)) := by
  unfold openedIndex
  split
  · exact sweepAll_perm _ _
  · rename_i hmagic
    rw [List.filter_eq_self.mpr]
    intro e he
    obtain ⟨seq, r, ⟨i, hi, s, hs, -, hmem⟩, -, rfl⟩ := hr.index.sound e he
    have hbase := hr.log.sectorBase_off hi hs hmem
    simp only [Bool.not_eq_true', beq_eq_false_iff_ne, LogRecord.entry, hbase]
    intro hij
    obtain rfl : i = j := by omega
    rw [(hr.log.used i hi s hs).hdr] at hmagic
    simp at hmagic

/-- A sector is opened and becomes the head. -/
theorem LogRing.opened (hr : LogRing crc32 st S h) (hj : j < 96) :
    LogRing crc32 (st.opened j) (Function.update S j (some ⟨st.nextSeq, []⟩)) j ∧
      HeadOpen (st.opened j) (Function.update S j (some ⟨st.nextSeq, []⟩)) j := by
  have hat := LogSector.At.opened crc32 st.mem (j * 4096) st.nextSeq
  have hlen := StoreSectorHdr.length_bytes ⟨storeSectorMagic, st.nextSeq⟩
  have hframe : ∀ a, a < j * 4096 ∨ j * 4096 + 4096 ≤ a → st.mem a = (st.opened j).mem a := by
    intro a ha
    rw [StoreState.opened_mem, program_outside (by omega), erase_outside ha]
  have hblank : ∀ a, j * 4096 + 8 ≤ a → a < j * 4096 + 4096 → (st.opened j).mem a = 0xFF := by
    intro a h1 h2
    have h0 : j * 4096 ≤ a := Nat.le_trans (Nat.le_add_right _ _) h1
    rw [StoreState.opened_mem, program_outside (by omega), erase_inside h0 h2]
  have hw := st.opened_writeOff j
  have hopen : HeadOpen (st.opened j) (Function.update S j (some ⟨st.nextSeq, []⟩)) j := by
    refine ⟨_, Function.update_self _ _ _, (st.opened_headSeq j).symm, .inl ⟨?_, ?_⟩⟩
    · simp [LogSector.stop]
    · rw [hw]
      exact Fresh.of_blank hblank
  have hidx : IndexSound (Function.update S j (some ⟨st.nextSeq, []⟩)) (st.opened j).index := by
    rw [StoreState.opened_index]
    exact hr.index.drop_sector hr.log (by simp) (hr.openedIndex_perm hj)
  refine ⟨⟨?_, hidx, hj, Nat.le_of_eq hw.symm, by omega, .inr hopen⟩, hopen⟩
  refine hr.log.update hframe (fun s hs => ?_) (by simp)
  rw [Option.some.injEq] at hs
  subst hs
  rw [StoreState.opened_mem]
  exact hat

/-- The sector behind the head is opened and becomes the head. -/
theorem Ring.openNext (hr : Ring crc32 now st S h) (hj : j = (h + 1) % 96) :
    ∃ st' S', openSector .good st (j * 4096) = (.ok, st') ∧ Ring crc32 now st' S' j ∧
      Trim st S st' S' [j * 4096] ∧ st'.writeOff = j * 4096 + 8 := by
  have hj96 : j < 96 := by omega
  have hh := hr.head_lt
  have hperm := hr.logRing.openedIndex_perm hj96
  rw [← StoreState.opened_index] at hperm
  have hidx := hr.indexed.drop_sector (o := some ⟨st.nextSeq, []⟩) hr.log (by simp) hperm
  have hlen := Nat.le_trans (Nat.le_of_eq hperm.length_eq) (List.length_filter_le _ _)
  have htrim : Trim st S (st.opened j) (Function.update S j (some ⟨st.nextSeq, []⟩)) [j * 4096] :=
    ⟨st.opened_erased j, bound_drop_sector st (st.opened j) hr.log (by simp) hperm, hlen,
      st.opened_part j, st.opened_lock j⟩
  refine ⟨st.opened j, _, openSector_good hj96, ?_, htrim, st.opened_writeOff j⟩
  refine of_logRing (hr.logRing.opened hj96).1 hidx.complete fun i hi s hs hmax => ?_
  have hnext : (st.opened j).nextSeq.toNat = (st.nextSeq.toNat + 1) % 2 ^ 32 := by
    rw [StoreState.opened_nextSeq, UInt32.toNat_add]
    rfl
  by_cases hij : i = j
  · -- the new sector itself has the highest number: the next one is zero
    subst hij
    rw [Function.update_self, Option.some.injEq] at hs
    subst hs
    have hmax' : st.nextSeq.toNat = 0xFFFFFFFF := congrArg UInt32.toNat hmax
    omega
  · rw [Function.update_of_ne hij] at hs
    obtain ⟨h1, h2⟩ := hr.wrap i hi s hs hmax
    omega

end Open

end Bitle
