import Bitle.Lib.Newest
import Bitle.Store.Boot

/-!
# Bitle — which copy of a key `bitle_store_init` indexes

A key has several live records when a tombstone of it failed. The index walk is `Newest.keep`
over the live records in the order of their offsets, ranked by the numbers of their sectors
(`bootIndex_eq`), so `mem_bootIndex_iff` says exactly which copy is indexed: of those that the
walk comes to before the index is full, the first one in the sector with the highest number.
-/

namespace Bitle

open Wire Flash Slots

section Dedup

variable {crc32 : UInt32 → List UInt8 → UInt32} {m : Mem} {now : UInt32}
  {S : Nat → Option LogSector}

/-- What the index walk does with a record. -/
theorem indexRecord_keep (seq : UInt32) (index : List StoreIndexEntry) (r : LogRecord) :
    indexRecord now seq index r.off (r.hdr crc32) =
      if r.live now then
        Newest.keep StoreIndexEntry.key (fun e => e.seq.toNat) bitleStoreMaxRecords index
          (r.entry seq)
      else index := by
  have halive : ((r.hdr crc32).alive == 0xFF) = r.alive := by
    cases hr : r.alive <;> simp [LogRecord.hdr, hr]
  have hlive : ((r.hdr crc32).alive == 0xFF && !storeExpired now (r.hdr crc32).expiryUnixS) =
      r.live now := by
    rw [halive]
    rfl
  rw [indexRecord, hlive]
  cases hl : r.live now with
  | false => rfl
  | true =>
    simp only [Bool.true_and, decide_eq_true_eq, if_true, Newest.keep]
    by_cases hroom : index.length < bitleStoreMaxRecords
    · have hfind : indexFind index (r.hdr crc32).key =
          index.findIdx? fun y => decide (y.key = (r.entry seq).key) := by
        refine congrArg (List.findIdx? · index) (funext fun y => Bool.eq_iff_iff.mpr ?_)
        rw [beq_iff_eq, decide_eq_true_eq]
        rfl
      rw [if_pos hroom, if_pos hroom, hfind]
      cases index.findIdx? fun y => decide (y.key = (r.entry seq).key) with
      | none => rfl
      | some i =>
        dsimp only
        cases index[i]? with
        | none => rfl
        | some old => exact if_congr UInt32.le_iff_toNat_le rfl rfl
    · rw [if_neg hroom, if_neg hroom]

variable (now S) in
/-- The entries of the live records, in the order of the walk. -/
def liveEntries : List StoreIndexEntry := (liveRecs now S).map fun x => x.2.entry x.1

variable (crc32 now S) in
theorem bootIndex_eq :
    bootIndex crc32 now S = Newest.collect StoreIndexEntry.key (fun e => e.seq.toNat)
      bitleStoreMaxRecords (liveEntries now S) := by
  rw [bootIndex, liveEntries, liveRecs, Newest.collect, List.foldl_map, List.foldl_filter]
  simp only [indexRecord_keep]

theorem mem_liveEntries {e : StoreIndexEntry} :
    e ∈ liveEntries now S ↔
      ∃ seq r, Stored S seq r ∧ r.live now = true ∧ e = r.entry seq := by
  constructor
  · intro he
    obtain ⟨⟨seq, r⟩, hx, rfl⟩ := List.mem_map.mp he
    obtain ⟨hx, hl⟩ := List.mem_filter.mp hx
    exact ⟨seq, r, mem_allRecs.mp hx, hl, rfl⟩
  · rintro ⟨seq, r, hr, hl, rfl⟩
    exact List.mem_map.mpr ⟨(seq, r), List.mem_filter.mpr ⟨mem_allRecs.mpr hr, hl⟩, rfl⟩

theorem LogAt.pairwise_liveEntries (hlog : LogAt crc32 m S) :
    (liveEntries now S).Pairwise fun e e' => e.offset < e'.offset :=
  List.pairwise_map.mpr (hlog.pairwise_allRecs.filter _)

variable (crc32 now S) in
/-- The index of a boot is one of the log, whatever copies there are. -/
theorem indexSound_bootIndex : IndexSound S (bootIndex crc32 now S) := by
  have hc : Newest.Collected StoreIndexEntry.key (fun e => e.seq.toNat) bitleStoreMaxRecords
      (liveEntries now S) _ := Newest.collected_collect (liveEntries now S)
  rw [bootIndex_eq]
  refine ⟨hc.nodup, hc.length_le, fun e he => ?_⟩
  obtain ⟨seq, r, hr, hl, rfl⟩ := mem_liveEntries.mp ((hc.mem e).mp he).mem
  rw [LogRecord.live, Bool.and_eq_true] at hl
  exact ⟨seq, r, hr, hl.1, rfl⟩

/-! ## The copy that is indexed -/

variable (now S) in
/-- The keys that have a live record in front of `off`. -/
def keysBefore (off : Nat) : Finset StoreKey :=
  Newest.keys StoreIndexEntry.key ((liveEntries now S).filter fun e => e.offset < off)

/-- In a sequence sorted by offset, what stands in front of an entry. -/
theorem filter_offset_lt {pre post : List StoreIndexEntry} {e : StoreIndexEntry}
    (h : (pre ++ e :: post).Pairwise fun e e' => e.offset < e'.offset) :
    (pre ++ e :: post).filter (fun x => x.offset < e.offset) = pre := by
  rw [List.pairwise_append, List.pairwise_cons] at h
  obtain ⟨-, ⟨hpost, -⟩, hpre⟩ := h
  rw [List.filter_append, List.filter_cons_of_neg (by simp), List.filter_eq_self.mpr,
    List.filter_eq_nil_iff.mpr, List.append_nil]
  · intro x hx
    have := hpost x hx
    simp only [decide_eq_true_eq]
    omega
  · intro x hx
    simpa using hpre x hx e List.mem_cons_self

/-- **Which copy is indexed.** There was room when the walk came to it, and of the other copies
that the walk came to while there was room those in front of it are in sectors with lower
numbers, and none of those behind it is in a sector with a higher one. -/
theorem LogAt.mem_bootIndex_iff (hlog : LogAt crc32 m S) {seq : UInt32} {r : LogRecord}
    (hr : Stored S seq r) (hl : r.live now = true) :
    r.entry seq ∈ bootIndex crc32 now S ↔
      (keysBefore now S r.off).card < bitleStoreMaxRecords ∧
        ∀ seq' x, Stored S seq' x → x.live now = true → x.key = r.key → x ≠ r →
          (keysBefore now S x.off).card < bitleStoreMaxRecords →
          seq' < seq ∨ (seq' = seq ∧ r.off < x.off) := by
  have hsorted : (liveEntries now S).Pairwise fun e e' => e.offset < e'.offset :=
    hlog.pairwise_liveEntries
  obtain ⟨pre, post, hsplit⟩ := List.append_of_mem (mem_liveEntries.mpr ⟨seq, r, hr, hl, rfl⟩)
  have hplace : ∀ {a b : List StoreIndexEntry} {e : StoreIndexEntry},
      liveEntries now S = a ++ e :: b →
        keysBefore now S e.offset = Newest.keys StoreIndexEntry.key a := by
    intro a b e heq
    rw [keysBefore, heq, filter_offset_lt (heq ▸ hsorted)]
  have hpre : keysBefore now S r.off = Newest.keys StoreIndexEntry.key pre := hplace hsplit
  rw [bootIndex_eq, Newest.mem_collect]
  constructor
  · rintro ⟨pre', post', hsplit', hw⟩
    -- an offset stands in one place of the sequence
    obtain rfl : pre' = pre := by
      have h1 := filter_offset_lt (hsplit' ▸ hsorted)
      have h2 := filter_offset_lt (hsplit ▸ hsorted)
      rw [← hsplit'] at h1
      rw [← hsplit] at h2
      exact h1.symm.trans h2
    obtain rfl : post' = post := by
      have := hsplit'.symm.trans hsplit
      simpa using this
    refine ⟨hpre ▸ hw.place, fun seq' x hx hlx hk hne hroom => ?_⟩
    have hmem : x.entry seq' ∈ liveEntries now S := mem_liveEntries.mpr ⟨seq', x, hx, hlx, rfl⟩
    rw [hsplit] at hmem hsorted
    rw [List.pairwise_append, List.pairwise_cons] at hsorted
    rcases List.mem_append.mp hmem with hin | hin
    · left
      exact UInt32.lt_iff_toNat_lt.mpr (hw.front _ hin hk)
    rcases List.mem_cons.mp hin with heq | hin
    · exact absurd (hlog.stored_off hx hr (congrArg StoreIndexEntry.offset heq)).1 hne
    · obtain ⟨mid, rest, rfl⟩ := List.append_of_mem hin
      have hcard : keysBefore now S x.off =
          Newest.keys StoreIndexEntry.key (pre' ++ r.entry seq :: mid) :=
        hplace (e := x.entry seq') (b := rest) (by rw [hsplit]; simp)
      have hle := hw.behind mid _ rest rfl (hcard ▸ hroom) hk
      rcases Nat.lt_or_eq_of_le hle with hlt | heq
      · exact .inl (UInt32.lt_iff_toNat_lt.mpr hlt)
      · exact .inr ⟨UInt32.toNat_inj.mp heq, hsorted.2.1.1 _ hin⟩
  · -- such a record wins at its place in the walk
    rintro ⟨hroom, hall⟩
    refine ⟨pre, post, hsplit, hpre ▸ hroom, fun y hy hk => ?_,
      fun mid y rest hrest hplace' hk => ?_⟩
    · obtain ⟨seq', x, hx, hlx, rfl⟩ := mem_liveEntries.mp
        (show y ∈ liveEntries now S by rw [hsplit]; exact List.mem_append_left _ hy)
      rw [hsplit, List.pairwise_append] at hsorted
      have hlt : x.off < r.off := hsorted.2.2 _ hy _ List.mem_cons_self
      have hcard : (keysBefore now S x.off).card ≤ (keysBefore now S r.off).card := by
        obtain ⟨a, b, rfl⟩ := List.append_of_mem hy
        have hx' : keysBefore now S x.off = Newest.keys StoreIndexEntry.key a :=
          hplace (e := x.entry seq') (b := b ++ r.entry seq :: post) (by rw [hsplit]; simp)
        rw [hpre, hx']
        exact Newest.card_keys_le_of_initial ⟨x.entry seq' :: b, rfl⟩
      rcases hall seq' x hx hlx hk (by rintro rfl; omega) (by omega) with h1 | ⟨-, h2⟩
      · exact UInt32.lt_iff_toNat_lt.mp h1
      · omega
    · obtain ⟨seq', x, hx, hlx, rfl⟩ := mem_liveEntries.mp
        (show y ∈ liveEntries now S by rw [hsplit, hrest]; simp)
      have hcard : keysBefore now S x.off =
          Newest.keys StoreIndexEntry.key (pre ++ r.entry seq :: mid) :=
        hplace (e := x.entry seq') (b := rest) (by rw [hsplit, hrest]; simp)
      rw [hsplit, hrest, List.pairwise_append, List.pairwise_cons] at hsorted
      have hlt : r.off < x.off := hsorted.2.1.1 (x.entry seq') (by simp)
      rcases hall seq' x hx hlx hk (by rintro rfl; omega)
        (by rw [hcard]; exact hplace') with h1 | ⟨h1, -⟩
      · exact Nat.le_of_lt (UInt32.lt_iff_toNat_lt.mp h1)
      · exact Nat.le_of_eq (congrArg UInt32.toNat h1)

end Dedup

end Bitle
