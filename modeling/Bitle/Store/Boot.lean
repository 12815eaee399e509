import Bitle.Store.Put

/-!
# Bitle — `bitle_store_init` on a well-formed partition

The two walks over a sector, the scan over all sectors, and what they leave in RAM: the index
has exactly the records that are alive and not expired (`bitleStoreInit_eq`), and the write
offset is behind the last record of the sector with the highest number.
-/

namespace Bitle

open Wire Flash Slots

variable {crc32 : UInt32 → List UInt8 → UInt32} {m : Mem} {now : UInt32}
  {S : Nat → Option LogSector}

/-! ## The walks -/

/-- The walks read inside the partition. -/
theorem walkReadOk {off stop : Nat} (hstop : stop ≤ 0x60000) :
    (off + storeRecordHdrSize ≤ stop && espPartitionReadOk .good off storeRecordHdrSize) =
      decide (off + 32 ≤ stop) := by
  unfold storeRecordHdrSize
  by_cases h : off + 32 ≤ stop
  · simp [h, readOk_good (Nat.le_trans h hstop)]
  · simp [h]

/-- What the index walk does with the records of a sector. -/
def indexRecords (crc32 : UInt32 → List UInt8 → UInt32) (now : UInt32) (seq : UInt32)
    (index : List StoreIndexEntry) (rs : List LogRecord) : List StoreIndexEntry :=
  rs.foldl (fun index r => indexRecord now seq index r.off (r.hdr crc32)) index

/-- The index walk stops behind the last record. -/
theorem Tail.indexWalk_stops {c e : Nat} (h : Tail crc32 m c e) (he : e ≤ 0x60000) (seq : UInt32)
    (fuel : Nat) (index : List StoreIndexEntry) :
    indexWalk .good crc32 m now seq e fuel c index = index := by
  cases fuel with
  | zero => rfl
  | succ fuel =>
    rw [indexWalk]
    refine if_neg fun hc => ?_
    simp only [walkReadOk he] at hc
    simp only [Bool.and_eq_true, decide_eq_true_eq] at hc
    obtain ⟨⟨⟨hin, hpl⟩, -⟩, hcrc⟩ := hc
    rcases h with hf | hs
    · rw [show StoreRecordHdr.ofBytes (read m c storeRecordHdrSize) = hdrAt m c from rfl,
        hf.hdrPlausible_eq_false hin] at hpl
      simp at hpl
    · have hbad := hs.crc
      rw [crcHoldsAt] at hbad
      rw [show storeRecordHdrSize = 32 from rfl] at hcrc
      exact absurd hcrc (by rw [Bool.not_eq_true]; exact hbad)

variable (now) in
/-- **The index walk over a run of records.** -/
theorem indexWalk_eq {rs : List LogRecord} {off stop : Nat} (hlaid : Consecutive off rs)
    (hat : ∀ r ∈ rs, r.At crc32 m) (hin : off + extent rs ≤ stop) (hstop : stop ≤ 0x60000)
    (htail : Tail crc32 m (off + extent rs) stop) (seq : UInt32) (fuel : Nat)
    (hfuel : rs.length ≤ fuel) (index : List StoreIndexEntry) :
    indexWalk .good crc32 m now seq stop fuel off index = indexRecords crc32 now seq index rs := by
  induction rs generalizing off fuel index with
  | nil => exact htail.indexWalk_stops hstop seq fuel index
  | cons r rs ih =>
    obtain ⟨rfl, hrs⟩ := hlaid
    rw [extent_cons] at hin htail
    obtain ⟨fuel, rfl⟩ : ∃ k, fuel = k + 1 := ⟨fuel - 1, by simp at hfuel; omega⟩
    have hr := hat r List.mem_cons_self
    have hsize : r.size = 32 + r.payload.length := rfl
    have hlen := LogRecord.payloadLen_toNat crc32 hr.le
    have hhdr : StoreRecordHdr.ofBytes (read m r.off storeRecordHdrSize) = r.hdr crc32 := hr.ofBytes
    have hpay : read m (r.off + storeRecordHdrSize) (r.hdr crc32).payloadLen.toNat = r.payload := by
      rw [hlen]
      exact hr.payload
    have hok : espPartitionReadOk .good (r.off + storeRecordHdrSize) r.payload.length = true :=
      readOk_good (by unfold storeRecordHdrSize; omega)
    rw [indexWalk, hhdr, hpay, if_pos, hlen]
    · exact ih hrs (fun x hx => hat x (List.mem_cons_of_mem _ hx)) (by omega)
        (by rwa [Nat.add_assoc]) _ (by simpa using hfuel)
        (indexRecord now seq index r.off (r.hdr crc32))
    · rw [walkReadOk hstop, hr.hdrPlausible_hdr, hlen, hok, LogRecord.recordCrc_hdr]
      simp
      omega

/-- The second walk over a run of records. -/
theorem resumeWalk_add {rs : List LogRecord} {off stop : Nat} (hlaid : Consecutive off rs)
    (hat : ∀ r ∈ rs, r.At crc32 m) (hin : off + extent rs ≤ stop) (hstop : stop ≤ 0x60000)
    (fuel : Nat) :
    resumeWalk .good m stop (fuel + rs.length) off =
      resumeWalk .good m stop fuel (off + extent rs) := by
  induction rs generalizing off with
  | nil => rfl
  | cons r rs ih =>
    obtain ⟨rfl, hrs⟩ := hlaid
    rw [extent_cons] at hin
    have hr := hat r List.mem_cons_self
    have hsize : r.size = 32 + r.payload.length := rfl
    have hlen := LogRecord.payloadLen_toNat crc32 hr.le
    have hhdr : StoreRecordHdr.ofBytes (read m r.off storeRecordHdrSize) = r.hdr crc32 := hr.ofBytes
    rw [List.length_cons, ← Nat.add_assoc, resumeWalk, hhdr, walkReadOk hstop, hr.hdrPlausible_hdr, hlen,
      if_pos (by simp; omega), extent_cons, ← Nat.add_assoc r.off r.size]
    exact ih hrs (fun x hx => hat x (List.mem_cons_of_mem _ hx)) (by
      rw [hsize] at hin
      unfold storeRecordHdrSize
      omega)

/-- Where appending resumes: behind the last record, or where no record fits. -/
theorem LogSector.At.resume {base : Nat} {s : LogSector} (h : s.At crc32 m base)
    (hbase : base + 4096 ≤ 0x60000) :
    ∃ w, resumeWalk .good m (base + 4096) storeSectorSize (base + 8) = w ∧ base + 8 ≤ w ∧
      w ≤ base + 4096 ∧ ((w = s.stop base ∧ Fresh m w (base + 4096)) ∨ base + 4096 < w + 33) := by
  have hlen := h.length_le
  have hin := h.inside
  have hstop : s.stop base = base + 8 + extent s.recs := rfl
  obtain ⟨fuel, hfuel⟩ : ∃ fuel, storeSectorSize = fuel + 2 + s.recs.length :=
    ⟨storeSectorSize - s.recs.length - 2, by unfold storeSectorSize; omega⟩
  rw [hfuel, resumeWalk_add h.laid h.recs hin hbase, ← hstop, resumeWalk, walkReadOk hbase,
    show StoreRecordHdr.ofBytes (read m (s.stop base) storeRecordHdrSize) = hdrAt m (s.stop base)
      from rfl]
  rcases h.tail with hf | hs
  · rw [if_neg]
    · exact ⟨_, rfl, by omega, hin, .inl ⟨rfl, hf⟩⟩
    · intro hc
      rw [Bool.and_eq_true, decide_eq_true_eq] at hc
      rw [hf.hdrPlausible_eq_false hc.1] at hc
      simp at hc
  · -- the walk goes over the record with the bad CRC and stops behind it
    have hinside := hs.inside
    have hfull := hs.full
    rw [if_pos (by simp [hs.hdr_ok]; omega), resumeWalk, walkReadOk hbase, if_neg]
    · unfold storeRecordHdrSize
      exact ⟨_, rfl, by omega, by omega, .inr (by omega)⟩
    · intro hc
      rw [Bool.and_eq_true, decide_eq_true_eq] at hc
      have hblank := hdrPlausible_eq_false_of_blank m
        (s.stop base + (storeRecordHdrSize + (hdrAt m (s.stop base)).payloadLen.toNat))
        (hs.blank _ (by unfold storeRecordHdrSize; omega) (by omega))
      exact absurd hc.2 (by rw [Bool.not_eq_true]; exact hblank)

/-! ## The index -/

/-- What the index walk does with a record whose key is not there yet. -/
theorem indexRecord_hdr {seq : UInt32} {index : List StoreIndexEntry} {r : LogRecord}
    (hroom : r.live now = true → index.length < 256 ∧ ∀ e ∈ index, e.key ≠ r.key) :
    indexRecord now seq index r.off (r.hdr crc32) =
      if r.live now then index ++ [r.entry seq] else index := by
  have halive : ((r.hdr crc32).alive == 0xFF) = r.alive := by
    cases hr : r.alive <;> simp [LogRecord.hdr, hr]
  have hlive : ((r.hdr crc32).alive == 0xFF && !storeExpired now (r.hdr crc32).expiryUnixS) =
      r.live now := by
    rw [halive]
    rfl
  rw [indexRecord, hlive]
  by_cases hl : r.live now = true
  · obtain ⟨hlen, hkey⟩ := hroom hl
    rw [if_pos hl, if_pos (by rw [hl, Bool.true_and]; exact decide_eq_true hlen),
      show indexFind index (r.hdr crc32).key = none from indexFind_eq_none.mpr hkey]
    rfl
  · rw [if_neg hl, if_neg (by simp [hl])]

/-- All records of the partition in the order of the scan, with the numbers of their sectors. -/
def allRecs (S : Nat → Option LogSector) : List (UInt32 × LogRecord) :=
  (List.range 96).flatMap fun i => (S i).elim [] fun s => s.recs.map fun r => (s.seq, r)

theorem mem_allRecs {seq : UInt32} {r : LogRecord} : (seq, r) ∈ allRecs S ↔ Stored S seq r := by
  constructor
  · intro h
    obtain ⟨i, hi, hx⟩ := List.mem_flatMap.mp h
    cases hs : S i with
    | none => simp [hs] at hx
    | some s =>
      rw [hs, Option.elim_some, List.mem_map] at hx
      obtain ⟨x, hx, heq⟩ := hx
      rw [Prod.mk.injEq] at heq
      exact ⟨i, List.mem_range.mp hi, s, hs, heq.1, heq.2 ▸ hx⟩
  · rintro ⟨i, hi, s, hs, rfl, hx⟩
    refine List.mem_flatMap.mpr ⟨i, List.mem_range.mpr hi, ?_⟩
    rw [hs]
    exact List.mem_map_of_mem hx

/-- The scan meets the records in the order of their offsets. -/
theorem LogAt.pairwise_allRecs (h : LogAt crc32 m S) :
    (allRecs S).Pairwise fun x y => x.2.off < y.2.off := by
  refine List.pairwise_flatMap.mpr ⟨fun i hi => ?_, List.pairwise_lt_range.imp_of_mem ?_⟩
  · cases hs : S i with
    | none => simp
    | some s =>
      have hat := h.used i (List.mem_range.mp hi) s hs
      rw [Option.elim_some, List.pairwise_map]
      refine hat.laid.pairwise.imp_of_mem fun {x y} hx _ hxy => ?_
      have := (hat.recs x hx).size_pos
      dsimp only
      omega
  · intro i j hi hj hij x hx y hy
    obtain ⟨seq, r⟩ := x
    obtain ⟨seq', r'⟩ := y
    cases hs : S i with
    | none => simp [hs] at hx
    | some s =>
      cases hs' : S j with
      | none => simp [hs'] at hy
      | some s' =>
        simp only [hs, hs', Option.elim_some, List.mem_map, Prod.mk.injEq] at hx hy
        obtain ⟨_, hx, -, rfl⟩ := hx
        obtain ⟨_, hy, -, rfl⟩ := hy
        have hat := h.used i (List.mem_range.mp hi) s hs
        have hat' := h.used j (List.mem_range.mp hj) s' hs'
        have hb := hat.bounds hx
        have hb' := hat'.bounds hy
        have hin := hat.inside
        have hp := (hat.recs _ hx).size_pos
        dsimp only
        omega

/-- The records the index is to have. -/
def liveRecs (now : UInt32) (S : Nat → Option LogSector) : List (UInt32 × LogRecord) :=
  (allRecs S).filter fun x => x.2.live now

/-- Their keys are distinct and there are not too many of them, as some index shows. -/
theorem Indexed.live_bounded (hlog : LogAt crc32 m S) {index : List StoreIndexEntry}
    (h : Indexed now S index) :
    ((liveRecs now S).map fun x => x.2.key).Nodup ∧ (liveRecs now S).length ≤ 256 := by
  have hmem : ∀ x ∈ liveRecs now S, x.2.entry x.1 ∈ index := by
    intro x hx
    obtain ⟨hx, hl⟩ := List.mem_filter.mp hx
    exact h.complete x.1 x.2 (mem_allRecs.mp hx) hl
  have hnd : ((liveRecs now S).map fun x => x.2.key).Nodup := by
    have hpw := (hlog.pairwise_allRecs.filter fun x => x.2.live now)
    rw [List.nodup_iff_pairwise_ne, List.pairwise_map]
    refine hpw.imp_of_mem fun {x y} hx hy hlt hk => ?_
    have := h.eq_of_key (hmem x hx) (hmem y hy) hk
    have hoff : x.2.off = y.2.off := congrArg StoreIndexEntry.offset this
    omega
  refine ⟨hnd, ?_⟩
  have hsub : ((liveRecs now S).map fun x => x.2.key) ⊆ index.map (·.key) := by
    intro k hk
    obtain ⟨x, hx, rfl⟩ := List.mem_map.mp hk
    exact List.mem_map.mpr ⟨_, hmem x hx, rfl⟩
  have hle := (hnd.subperm hsub).length_le
  rw [List.length_map, List.length_map] at hle
  exact Nat.le_trans hle h.length_le

/-- The walks over all sectors collect the live records. -/
theorem foldl_indexRecord (xs : List (UInt32 × LogRecord)) (index : List StoreIndexEntry)
    (hlen : index.length + (xs.filter fun x => x.2.live now).length ≤ 256)
    (hnd : (index.map (·.key) ++ (xs.filter fun x => x.2.live now).map fun x => x.2.key).Nodup) :
    xs.foldl (fun index x => indexRecord now x.1 index x.2.off (x.2.hdr crc32)) index =
      index ++ (xs.filter fun x => x.2.live now).map fun x => x.2.entry x.1 := by
  induction xs generalizing index with
  | nil => simp
  | cons x xs ih =>
    rw [List.foldl_cons]
    by_cases hl : x.2.live now = true
    · rw [List.filter_cons_of_pos (by exact hl)] at hlen hnd ⊢
      rw [List.length_cons] at hlen
      rw [List.map_cons] at hnd
      rw [indexRecord_hdr fun _ => ⟨by omega, fun e he hk => ?_⟩, if_pos hl, ih]
      · simp
      · simp only [List.length_append, List.length_singleton]
        omega
      · simpa [LogRecord.entry] using hnd
      · -- a key that is there already would occur twice
        exact (List.nodup_append.mp hnd).2.2 _ (List.mem_map_of_mem he) _ List.mem_cons_self hk
    · rw [List.filter_cons_of_neg (by exact hl)] at hlen hnd ⊢
      rw [indexRecord_hdr fun hl' => absurd hl' hl, if_neg hl, ih index hlen hnd]

/-! ## The scan -/

/-- One round of the scan over a partition that holds `S`. -/
theorem LogAt.scan_sector (h : LogAt crc32 m S) {i : Nat} (hi : i < 96) (scan : StoreScan) :
    scanSector .good crc32 m now scan (i * 4096) =
      (S i).elim scan fun s =>
        let index := indexRecords crc32 now s.seq scan.index s.recs
        if s.seq ≥ scan.newestSeq then ⟨s.seq, some (i * 4096), index⟩ else { scan with index } := by
  have hok : espPartitionReadOk .good (i * 4096) storeSectorHdrSize = true :=
    readOk_good (by unfold storeSectorHdrSize; omega)
  rw [scanSector, hok]
  cases hs : S i with
  | none => exact if_pos (by simp [h.unused i hi hs])
  | some s =>
    have hat := h.used i hi s hs
    have hwalk := indexWalk_eq now hat.laid hat.recs hat.inside (by omega) hat.tail s.seq
      storeSectorSize (Nat.le_trans hat.length_le (by decide)) scan.index
    rw [hat.hdr, if_neg (by simp)]
    dsimp only [Option.elim_some]
    rw [← hwalk]
    rfl

/-- The sector with the highest number among `is`, as the scan keeps it. -/
structure Newest (S : Nat → Option LogSector) (is : List Nat) (scan : StoreScan) : Prop where
  le : ∀ i ∈ is, ∀ s, S i = some s → s.seq ≤ scan.newestSeq
  none : scan.newestBase = none → scan.newestSeq = 0 ∧ ∀ i ∈ is, S i = none
  some : ∀ base, scan.newestBase = some base →
    ∃ i ∈ is, base = i * 4096 ∧ ∃ s, S i = some s ∧ s.seq = scan.newestSeq

variable (now) in
/-- **What the scan collects.** -/
theorem LogAt.scan (h : LogAt crc32 m S) {n : Nat} (hn : n ≤ 96) :
    ∃ scan, ((List.range n).map (· * 4096)).foldl (scanSector .good crc32 m now) {} = scan ∧
      Newest S (List.range n) scan ∧
      scan.index = ((List.range n).flatMap fun i =>
        (S i).elim [] fun s => s.recs.map fun r => (s.seq, r)).foldl
          (fun index x => indexRecord now x.1 index x.2.off (x.2.hdr crc32)) [] := by
  induction n with
  | zero => exact ⟨{}, rfl, ⟨by simp, by simp, by simp⟩, rfl⟩
  | succ n ih =>
    obtain ⟨scan, heq, hnew, hidx⟩ := ih (by omega)
    rw [List.range_succ, List.map_append, List.foldl_append, heq, List.flatMap_append,
      List.foldl_append, ← hidx]
    simp only [List.map_cons, List.map_nil, List.foldl_cons, List.foldl_nil, h.scan_sector
      (show n < 96 by omega), List.flatMap_cons, List.flatMap_nil, List.append_nil]
    cases hs : S n with
    | none =>
      refine ⟨scan, rfl, ⟨fun i hi s hsi => ?_, fun hb => ⟨(hnew.none hb).1, fun i hi => ?_⟩,
        fun base hb => ?_⟩, rfl⟩
      · rcases List.mem_append.mp hi with hi | hi
        · exact hnew.le i hi s hsi
        · rw [List.mem_singleton.mp hi, hs] at hsi
          simp at hsi
      · rcases List.mem_append.mp hi with hi | hi
        · exact (hnew.none hb).2 i hi
        · rw [List.mem_singleton.mp hi, hs]
      · obtain ⟨i, hi, rest⟩ := hnew.some base hb
        exact ⟨i, List.mem_append_left _ hi, rest⟩
    | some s =>
      have hfold : indexRecords crc32 now s.seq scan.index s.recs =
          (s.recs.map fun r => (s.seq, r)).foldl
            (fun index x => indexRecord now x.1 index x.2.off (x.2.hdr crc32)) scan.index := by
        rw [List.foldl_map]
        rfl
      simp only [Option.elim_some, ← hfold]
      by_cases hge : s.seq ≥ scan.newestSeq
      · rw [if_pos hge]
        refine ⟨_, rfl, ⟨fun i hi x hx => ?_, by simp, fun base hb => ?_⟩, rfl⟩
        · rcases List.mem_append.mp hi with hi | hi
          · exact Std.le_trans (hnew.le i hi x hx) hge
          · rw [List.mem_singleton.mp hi, hs, Option.some.injEq] at hx
            exact hx ▸ Std.le_refl _
        · obtain rfl : n * 4096 = base := by simpa using hb
          exact ⟨n, by simp, rfl, s, hs, rfl⟩
      · rw [if_neg hge]
        -- a sector below the newest one: there was one before
        refine ⟨_, rfl, ⟨fun i hi x hx => ?_, fun hb => ?_, fun base hb => ?_⟩, rfl⟩
        · rcases List.mem_append.mp hi with hi | hi
          · exact hnew.le i hi x hx
          · rw [List.mem_singleton.mp hi, hs, Option.some.injEq] at hx
            exact hx ▸ Std.le_of_lt (Std.not_le.mp hge)
        · exact absurd (show s.seq ≥ scan.newestSeq by
            rw [(hnew.none hb).1, ge_iff_le, UInt32.le_iff_toNat_le]
            exact Nat.zero_le _) hge
        · obtain ⟨i, hi, rest⟩ := hnew.some base hb
          exact ⟨i, List.mem_append_left _ hi, rest⟩

/-! ## Boot -/

/-- The index the scan leaves. -/
theorem Indexed.boot (hlog : LogAt crc32 m S) {index : List StoreIndexEntry}
    (h : Indexed now S index) :
    Indexed now S ((liveRecs now S).map fun x => x.2.entry x.1) := by
  obtain ⟨hnd, hlen⟩ := h.live_bounded hlog
  refine ⟨?_, by simpa using hlen, fun e he => ?_, fun seq r hr hl => ?_⟩
  · simpa [Function.comp_def, LogRecord.entry] using hnd
  · obtain ⟨x, hx, rfl⟩ := List.mem_map.mp he
    obtain ⟨hx, hl⟩ := List.mem_filter.mp hx
    rw [LogRecord.live, Bool.and_eq_true] at hl
    exact ⟨x.1, x.2, mem_allRecs.mp hx, hl.1, rfl⟩
  · exact List.mem_map.mpr ⟨(seq, r), List.mem_filter.mpr ⟨mem_allRecs.mpr hr, hl⟩, rfl⟩

/-- The index `bitle_store_init` collects from the sectors `S`. -/
def bootIndex (crc32 : UInt32 → List UInt8 → UInt32) (now : UInt32) (S : Nat → Option LogSector) :
    List StoreIndexEntry :=
  (allRecs S).foldl (fun index x => indexRecord now x.1 index x.2.off (x.2.hdr crc32)) []

/-- The store after `bitle_store_init` on a partition that holds `S`: the head `h` is the sector
with the highest number. -/
structure Booted (crc32 : UInt32 → List UInt8 → UInt32) (now : UInt32) (m : Mem)
    (erased : List Nat) (S : Nat → Option LogSector) (st : StoreState) (h : Nat) : Prop where
  init : bitleStoreInit .good crc32 now (powerOn m erased) = (.ok, st)
  mem : st.mem = m
  erased : st.erased = erased
  part : st.part = true
  lock : st.lock = .free
  head_lt : h < 96
  head_lo : h * 4096 + 8 ≤ st.writeOff
  head_hi : st.writeOff ≤ h * 4096 + 4096
  head : HeadOpen st S h
  newest : ∀ i, i < 96 → ∀ s, S i = some s → s.seq ≤ st.headSeq
  next : st.nextSeq = st.headSeq + 1
  index : st.index = bootIndex crc32 now S

variable (now) in
/-- **Boot.** -/
theorem LogAt.booted (hlog : LogAt crc32 m S) (hused : ∃ i, i < 96 ∧ (S i).isSome = true)
    (erased : List Nat) : ∃ st h, Booted crc32 now m erased S st h := by
  obtain ⟨scan, heq, hnew, hscan⟩ := hlog.scan now (Nat.le_refl 96)
  obtain ⟨base, hbase⟩ : ∃ base, scan.newestBase = some base := by
    refine Option.ne_none_iff_exists'.mp fun hnone => ?_
    obtain ⟨i, hi, hs⟩ := hused
    rw [(hnew.none hnone).2 i (List.mem_range.mpr hi)] at hs
    simp at hs
  obtain ⟨h, hh, rfl, s, hs, hseq⟩ := hnew.some base hbase
  rw [List.mem_range] at hh
  obtain ⟨w, hw, hlo, hhi, hfresh⟩ := (hlog.used h hh s hs).resume (by omega)
  have hinit : bitleStoreInit .good crc32 now (powerOn m erased) =
      (.ok, { mem := m, part := true, lock := .free, index := scan.index, writeOff := w,
              nextSeq := scan.newestSeq + 1, headSeq := scan.newestSeq, erased }) := by
    have hfold : sectorBases.foldl (scanSector .good crc32 m now) {} = scan := heq
    simp only [bitleStoreInit, FlashEnv.good, powerOn, Bool.not_true, Bool.false_eq_true, if_false]
    simp only [FlashEnv.good] at hfold hw
    rw [hfold, hbase]
    simp only [← hw]
    rfl
  exact ⟨_, h, hinit, rfl, rfl, rfl, rfl, hh, hlo, hhi, ⟨s, hs, hseq, hfresh⟩,
    fun i hi => hnew.le i (List.mem_range.mpr hi), rfl, hscan⟩

/-- From a partition whose live records some index has, the store comes up with the bindings
that are alive and not expired. -/
theorem LogAt.boot (hlog : LogAt crc32 m S) {index : List StoreIndexEntry}
    (hidx : Indexed now S index) (hused : ∃ i, i < 96 ∧ (S i).isSome = true)
    (hmax : OneTop S) (erased : List Nat) :
    ∃ st h, bitleStoreInit .good crc32 now (powerOn m erased) = (.ok, st) ∧
      StoreInv crc32 now st S h ∧ st.mem = m ∧ st.erased = erased ∧
      ∀ key r, Bound st S key r ↔ r.key = key ∧ ∃ seq, Stored S seq r ∧ r.live now = true := by
  obtain ⟨st, h, hb⟩ := hlog.booted now hused erased
  obtain ⟨hnd, hlen⟩ := hidx.live_bounded hlog
  have hindex : st.index = (liveRecs now S).map fun x => x.2.entry x.1 := by
    refine hb.index.trans ((foldl_indexRecord (allRecs S) [] ?_ ?_).trans (List.nil_append _))
    · simpa [liveRecs] using hlen
    · simpa [liveRecs] using hnd
  obtain ⟨s, hs, hseq, -⟩ := hb.head
  refine ⟨st, h, hb.init, ⟨⟨hb.mem ▸ hlog, hindex ▸ hidx.boot hlog, hb.head_lt, hb.head_lo,
    hb.head_hi, .inr hb.head, fun i hi x hx hm => ?_⟩, hb.head, hb.part, hb.lock⟩, hb.mem,
    hb.erased, fun key r => ?_⟩
  · -- the highest number there is is the newest, so the scan has picked that sector
    have hle := hb.newest i hi x hx
    have hnewest : st.headSeq = 0xFFFFFFFF := by
      rw [hm, UInt32.le_iff_toNat_le] at hle
      have hlt := st.headSeq.toNat_lt
      exact UInt32.toNat_inj.mp (by
        have : (0xFFFFFFFF : UInt32).toNat = 4294967295 := rfl
        omega)
    obtain rfl := hmax i h hi hb.head_lt x s hx hs hm (hseq.trans hnewest)
    have hnext : st.nextSeq.toNat = 0 := by
      rw [hb.next, hnewest]
      rfl
    have hlt := hb.head_lt
    omega
  · constructor
    · rintro ⟨hk, seq, hr, he⟩
      rw [hindex] at he
      obtain ⟨x, hx, hxe⟩ := List.mem_map.mp he
      obtain ⟨hx, hl⟩ := List.mem_filter.mp hx
      have hoff : x.2.off = r.off := congrArg StoreIndexEntry.offset hxe
      obtain ⟨hxr, -⟩ := hlog.stored_off (mem_allRecs.mp hx) hr hoff
      exact ⟨hk, seq, hr, hxr ▸ hl⟩
    · rintro ⟨hk, seq, hr, hl⟩
      refine ⟨hk, seq, hr, ?_⟩
      rw [hindex]
      exact List.mem_map.mpr ⟨(seq, r), List.mem_filter.mpr ⟨mem_allRecs.mpr hr, hl⟩, rfl⟩

/-- A reboot keeps exactly the bindings that are not expired. -/
theorem StoreInv.reboot {st : StoreState} {h : Nat} (hi : StoreInv crc32 now st S h) :
    ∃ st' h', bitleStoreReboot .good crc32 now st = (.ok, st') ∧ StoreInv crc32 now st' S h' ∧
      st'.erased = st.erased ∧
      ∀ key r, Bound st' S key r ↔ Bound st S key r ∧ storeExpired now r.expiryUnixS = false := by
  obtain ⟨s, hs, -⟩ := hi.head
  obtain ⟨st', h', heq, hinv, -, her, hbound⟩ := hi.log.boot hi.indexed
    ⟨h, hi.head_lt, by rw [hs]; rfl⟩
    hi.oneTop st.erased
  refine ⟨st', h', heq, hinv, her, fun key r => ?_⟩
  rw [hbound]
  constructor
  · rintro ⟨hk, seq, hr, hl⟩
    refine ⟨⟨hk, seq, hr, hi.indexed.complete seq r hr hl⟩, ?_⟩
    rw [LogRecord.live, Bool.and_eq_true, Bool.not_eq_true'] at hl
    exact hl.2
  · rintro ⟨⟨hk, seq, hr, he⟩, hexp⟩
    refine ⟨hk, seq, hr, ?_⟩
    obtain ⟨seq', x, hx, hal, hxe⟩ := hi.indexed.sound _ he
    obtain rfl := (hi.log.stored_off hr hx (congrArg StoreIndexEntry.offset hxe)).1
    rw [LogRecord.live, hal, hexp]
    rfl

/-- An erased partition. -/
def blankFlash : Mem := fun _ => 0xFF

variable (crc32) in
theorem logAt_blank : LogAt crc32 blankFlash fun _ => none := by
  refine ⟨fun i _ s hs => by simp at hs, fun i _ _ => ?_⟩
  have hread : readSectorHdr blankFlash (i * 4096) = readSectorHdr blankFlash 0 := rfl
  rw [hread]
  decide

/-- The store before sector 0 is opened, as if the write offset stood on the end of the partition:
the next sector is the first one. -/
def unopened : StoreState :=
  { mem := blankFlash, part := true, lock := .free, writeOff := 95 * 4096 + 4096, nextSeq := 1 }

variable (crc32) in
/-- The first boot opens sector 0. -/
theorem firstBoot_eq (now : UInt32) :
    bitleStoreInit .good crc32 now (powerOn blankFlash []) = (.ok, unopened.opened 0) := by
  obtain ⟨scan, heq, hnew, hscan⟩ := (logAt_blank crc32).scan now (Nat.le_refl 96)
  have hbase : scan.newestBase = none := by
    refine Option.eq_none_iff_forall_ne_some.mpr fun base hb => ?_
    obtain ⟨i, -, -, s, hs, -⟩ := hnew.some base hb
    simp at hs
  have hindex : scan.index = [] := by
    have hnil : allRecs (fun _ => none) = [] := List.flatMap_eq_nil_iff.mpr fun _ _ => rfl
    refine hscan.trans ?_
    rw [← allRecs, hnil]
    rfl
  have hfold : sectorBases.foldl (scanSector .good crc32 blankFlash now) {} = scan := heq
  have hseq : scan.newestSeq = 0 := (hnew.none hbase).1
  have hopen : openSector .good { unopened with writeOff := 0 } (0 * 4096) =
      (.ok, unopened.opened 0) := openSector_good (by decide)
  rw [← hopen]
  simp only [bitleStoreInit, FlashEnv.good, powerOn, Bool.not_true, Bool.false_eq_true, if_false]
  simp only [FlashEnv.good] at hfold
  rw [hfold, hbase, hindex, hseq]
  rfl

variable (crc32) in
theorem logRing_unopened : LogRing crc32 unopened (fun _ => none) 95 :=
  ⟨logAt_blank crc32, ⟨List.nodup_nil, Nat.zero_le _, by simp [unopened]⟩, by decide, by decide,
    by decide, .inl rfl⟩

theorem not_stored_none (seq : UInt32) (r : LogRecord) : ¬ Stored (fun _ => none) seq r := by
  rintro ⟨i, -, s, hs, -⟩
  cases hs

variable (crc32) in
/-- The first boot: sector 0 is opened and nothing is bound. -/
theorem storeInv_firstBoot (now : UInt32) :
    ∃ st S h, bitleStoreInit .good crc32 now (powerOn blankFlash []) = (.ok, st) ∧
      StoreInv crc32 now st S h ∧ ∀ key r, ¬ Bound st S key r := by
  have hring : Ring crc32 now unopened (fun _ => none) 95 :=
    .of_logRing (logRing_unopened crc32) (fun seq r hr => absurd hr (not_stored_none seq r))
      (by simp)
  obtain ⟨st, S, hopen, hr, htrim, hw⟩ := hring.openNext rfl
  rw [openSector_good (by decide), Prod.mk.injEq] at hopen
  obtain ⟨-, rfl⟩ := hopen
  refine ⟨_, S, _, firstBoot_eq crc32 now, ⟨hr, ?_, htrim.part, htrim.lock⟩, fun key r hb => ?_⟩
  · exact hr.head_open.resolve_left (by omega)
  · obtain ⟨-, seq, hs, -⟩ := ((htrim.bound key r).mp hb).1
    exact not_stored_none seq r hs

end Bitle
