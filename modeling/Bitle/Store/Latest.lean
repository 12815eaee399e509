import Bitle.Store.Order

/-!
# Bitle — failed tombstones and the copy that was written last

A put whose tombstone fails leaves the older copy of its key alive on flash, so that the next
`bitle_store_init` finds several. `copyRun` is a run of such puts and of boots; it keeps the
offsets of the records in the order they were written, the newest in front.

Inside a sector the copies stand in that order (`Logged`), and as long as the sector numbers do
not start again the copies in sectors with higher numbers are newer (`Aged`). The index walk goes
by the numbers alone and stops when the index is full, so it finds the newest copy exactly when
`Prevails` holds, or `Alone` on such runs.
-/

namespace Bitle

open Wire Flash Slots

variable {crc32 : UInt32 → List UInt8 → UInt32} {now : UInt32} {st st' : StoreState}
  {S S' : Nat → Option LogSector} {h : Nat} {written : List Nat}

/-! ## The run -/

/-- A put with the outcome of its tombstone, or a boot. -/
inductive CopyOp where
  | put (cut : Option Nat) (a : PutArgs)
  | boot (now : UInt32)

/-- The flash during a put: everything succeeds but the tombstone of the older copy, of which
`cut` says how many bytes are programmed. -/
def tombstoneEnv (st : StoreState) (key : StoreKey) (cut : Option Nat) : FlashEnv where
  writeCut off :=
    if (storeEntry st key).any fun e => off == e.offset + storeAliveOffset then cut else none

/-- One call, with the offset of the record it wrote. -/
def copyStep (crc32 : UInt32 → List UInt8 → UInt32) (x : StoreState × List Nat) :
    CopyOp → Except StoreFault (StoreState × List Nat)
  | .put cut a => do
    let (err, st) ← bitleStorePut (tombstoneEnv x.1 a.key cut) crc32 x.1 a.key a.expiryUnixS a.flags
      a.payload
    return (st, if err = .ok then
      (st.writeOff - (storeRecordHdrSize + a.payload.length)) :: x.2 else x.2)
  | .boot now => .ok ((bitleStoreReboot .good crc32 now x.1).2, x.2)

def copyRun (crc32 : UInt32 → List UInt8 → UInt32) :
    StoreState × List Nat → List CopyOp → Except StoreFault (StoreState × List Nat)
  | x, [] => .ok x
  | x, op :: ops => do
    let x ← copyStep crc32 x op
    copyRun crc32 x ops

/-- Only the tombstone fails. -/
theorem onlyTombstones_tombstoneEnv (st : StoreState) (key : StoreKey) (cut : Option Nat) :
    OnlyTombstones (tombstoneEnv st key cut) st := by
  refine ⟨⟨fun _ => rfl, fun _ => rfl⟩, fun off hne => ?_⟩
  unfold tombstoneEnv at hne
  dsimp only at hne
  split at hne
  · rename_i hany
    obtain ⟨e, he, hoff⟩ := (Option.any_eq_true _ _).mp hany
    exact ⟨e, (storeEntry_spec he).1, beq_iff_eq.mp hoff⟩
  · exact absurd rfl hne

/-! ## The order of the copies -/

/-- There is a record at `off`, in a sector with number `q`. -/
def StoredOff (S : Nat → Option LogSector) (q : UInt32) (off : Nat) : Prop :=
  ∃ r, Stored S q r ∧ r.off = off

/-- Every record is in the history, and inside a sector they stand in its order. -/
structure Logged (S : Nat → Option LogSector) (written : List Nat) : Prop where
  mem : ∀ q off, StoredOff S q off → off ∈ written
  inSector : ∀ q off q' off', StoredOff S q off → StoredOff S q' off' →
    sectorBase off = sectorBase off' → off < off' → Newest.After written off off'

/-- A record in a sector with a higher number is newer. -/
def Aged (S : Nat → Option LogSector) (written : List Nat) : Prop :=
  ∀ q off q' off', StoredOff S q off → StoredOff S q' off' → q < q' →
    Newest.After written off off'

theorem LogWithin.storedOff (hin : LogWithin S' S) {q : UInt32} {off : Nat}
    (hs : StoredOff S' q off) : StoredOff S q off := by
  obtain ⟨r', ⟨i, hi, s', hs', rfl, hmem'⟩, rfl⟩ := hs
  obtain ⟨s, hs, hseq, hrecs⟩ := hin i s' hs'
  obtain ⟨r, hr, hoff⟩ := hrecs r' hmem'
  exact ⟨r, ⟨i, hi, s, hs, hseq, hr⟩, hoff⟩

theorem Logged.thin (hl : Logged S written)
    (hsub : ∀ q off, StoredOff S' q off → StoredOff S q off) : Logged S' written :=
  ⟨fun q off h => hl.mem q off (hsub q off h),
    fun q off q' off' h h' => hl.inSector q off q' off' (hsub q off h) (hsub q' off' h')⟩

theorem Aged.thin (ha : Aged S written)
    (hsub : ∀ q off, StoredOff S' q off → StoredOff S q off) : Aged S' written :=
  fun q off q' off' h h' => ha q off q' off' (hsub q off h) (hsub q' off' h')

section Append

variable {s : LogSector} {r : LogRecord} (hh : h < 96) (hs : S h = some s)

include hh hs

theorem storedOff_append {q : UInt32} {off : Nat} :
    StoredOff (Function.update S h (some ⟨s.seq, s.recs ++ [r]⟩)) q off ↔
      StoredOff S q off ∨ (off = r.off ∧ q = s.seq) := by
  constructor
  · rintro ⟨x, hx, rfl⟩
    rcases (stored_append hh hs r).mp hx with hx | ⟨rfl, rfl⟩
    · exact .inl ⟨x, hx, rfl⟩
    · exact .inr ⟨rfl, rfl⟩
  · rintro (⟨x, hx, rfl⟩ | ⟨rfl, rfl⟩)
    · exact ⟨x, (stored_append hh hs r).mpr (.inl hx), rfl⟩
    · exact ⟨r, (stored_append hh hs r).mpr (.inr ⟨rfl, rfl⟩), rfl⟩

variable (hfront : ∀ q off, StoredOff S q off → sectorBase off = sectorBase r.off → off < r.off)

include hfront

/-- A record is written behind those of its sector. -/
theorem Logged.append (hl : Logged S written) :
    Logged (Function.update S h (some ⟨s.seq, s.recs ++ [r]⟩)) (r.off :: written) := by
  have hne : ∀ q off, StoredOff S q off → off ≠ r.off := by
    rintro q off ho rfl
    exact Nat.lt_irrefl _ (hfront q _ ho rfl)
  refine ⟨fun q off ho => ?_, fun q off q' off' ho ho' hbase hlt => ?_⟩
  · rcases (storedOff_append hh hs).mp ho with ho | ⟨rfl, -⟩
    · exact List.mem_cons_of_mem _ (hl.mem q off ho)
    · exact List.mem_cons_self
  · rcases (storedOff_append hh hs).mp ho with ho | ⟨rfl, -⟩
    · rcases (storedOff_append hh hs).mp ho' with ho' | ⟨rfl, -⟩
      · exact (hl.inSector q off q' off' ho ho' hbase hlt).cons (hne q off ho)
      · exact Newest.after_cons (hl.mem q off ho) (hne q off ho)
    · -- nothing stands behind the new record
      rcases (storedOff_append hh hs).mp ho' with ho' | ⟨rfl, -⟩
      · have := hfront q' off' ho' hbase.symm
        omega
      · omega

theorem Aged.append (ha : Aged S written) (hl : Logged S written)
    (htop : ∀ q off, StoredOff S q off → q ≤ s.seq) :
    Aged (Function.update S h (some ⟨s.seq, s.recs ++ [r]⟩)) (r.off :: written) := by
  have hne : ∀ q off, StoredOff S q off → off ≠ r.off := by
    rintro q off ho rfl
    exact Nat.lt_irrefl _ (hfront q _ ho rfl)
  intro q off q' off' ho ho' hlt
  have hle : q' ≤ s.seq := by
    rcases (storedOff_append hh hs).mp ho' with ho' | ⟨-, rfl⟩
    · exact htop q' off' ho'
    · exact Std.le_refl _
  rcases (storedOff_append hh hs).mp ho with ho | ⟨-, rfl⟩
  · rcases (storedOff_append hh hs).mp ho' with ho' | ⟨rfl, -⟩
    · exact (ha q off q' off' ho ho' hlt).cons (hne q off ho)
    · exact Newest.after_cons (hl.mem q off ho) (hne q off ho)
  · exact absurd hle (Std.not_le.mpr hlt)

end Append

/-- The write offset is behind the records of the head. -/
theorem LogRing.front (hr : LogRing crc32 st S h) {n : Nat} (hready : Ready st S h n) (hn : 0 < n)
    {q : UInt32} {off : Nat} (ho : StoredOff S q off)
    (hbase : sectorBase off = sectorBase st.writeOff) : off < st.writeOff := by
  obtain ⟨s, hs, -, hw, -, hfit⟩ := hready
  obtain ⟨r, ⟨i, hi, si, hsi, -, hmem⟩, rfl⟩ := ho
  have hlo := hr.head_lo
  rw [hr.log.sectorBase_off hi hsi hmem, hr.sectorBase_writeOff (by omega)] at hbase
  obtain rfl : i = h := by omega
  rw [hs, Option.some.injEq] at hsi
  subst hsi
  have hat := hr.log.used i hi s hs
  have hb := hat.bounds hmem
  have hpos := (hat.recs r hmem).size_pos
  omega

/-! ## Steps and runs -/

/-- What every run keeps. -/
structure History (crc32 : UInt32 → List UInt8 → UInt32) (x : StoreState × List Nat)
    (S : Nat → Option LogSector) (h : Nat) : Prop where
  inv : LogInv crc32 x.1 S h
  logged : Logged S x.2

/-- What it keeps besides, while the numbers do not start again. -/
structure InOrder (x : StoreState × List Nat) (S : Nat → Option LogSector) (h : Nat) : Prop where
  order : RingOrder x.1 S h
  aged : Aged S x.2

/-- One call. -/
theorem History.step {x : StoreState × List Nat} (hx : History crc32 x S h) (op : CopyOp) :
    ∃ x' S' h', copyStep crc32 x op = .ok x' ∧ History crc32 x' S' h' ∧
      (InOrder x S h → x'.1.headSeq ≠ 0 → InOrder x' S' h') := by
  obtain ⟨st, written⟩ := x
  obtain ⟨hi, hl⟩ := hx
  cases op with
  | put cut a =>
    by_cases hlen : 1 ≤ a.payload.length ∧ a.payload.length ≤ 520
    · obtain ⟨S1, st2, S2, bases, st3, S3, h3, s, hu, hr, hput, hs, hseq, hw, hi'⟩ :=
        hi.put (onlyTombstones_tombstoneEnv st a.key cut) hlen.1 hlen.2
      -- making room only takes records away, so what is written next is above and behind all
      have hsub : ∀ q off, StoredOff S3 q off → StoredOff S q off := by
        rintro q off ⟨r, hr3, hoff⟩
        exact (hr.rounds.within.trans hu.within).storedOff ⟨r, hr.stored hr3, hoff⟩
      have hfront : ∀ q off, StoredOff S3 q off →
          sectorBase off = sectorBase (a.record st3.writeOff).off →
          off < (a.record st3.writeOff).off :=
        fun q off ho hbase => hr.ring.front hr.ready (by omega) ho hbase
      have hl3 := hl.thin hsub
      have hh3 := hr.ring.head_lt
      refine ⟨(st3.putDone crc32 a, st3.writeOff :: written), _, h3, ?_,
        ⟨hi', hl3.append hh3 hs hfront⟩, fun ho hnum => ⟨?_, ?_⟩⟩
      · have hoff : (st3.putDone crc32 a).writeOff - (storeRecordHdrSize + a.payload.length) =
            st3.writeOff := Nat.add_sub_cancel _ _
        simp only [copyStep, hput, bind, Except.bind, pure, Except.pure, if_true, hoff]
      · have ho1 := ho.order.within hu.within hu.ram.nextSeq hu.ram.headSeq
        exact (hr.order ho1 hnum).append hs _ rfl rfl
      · have ho1 := ho.order.within hu.within hu.ram.nextSeq hu.ram.headSeq
        have ho3 := hr.order ho1 hnum
        refine (ho.aged.thin hsub).append hh3 hs hfront hl3 fun q off hq => ?_
        obtain ⟨r, ⟨i, hi3, si, hsi, rfl, -⟩, -⟩ := hq
        rw [hseq]
        exact ho3.le_head hi3 hsi
    · refine ⟨(st, written), S, h, ?_, ⟨hi, hl⟩, fun ho _ => ho⟩
      simp only [copyStep, bitleStorePut_invalid hlen, bind, Except.bind, pure, Except.pure]
      rfl
  | boot now =>
    obtain ⟨st', h', heq, hb, hi'⟩ := hi.reboot now
    refine ⟨(st', written), S, h', ?_, ⟨hi', hl⟩, fun ho _ => ⟨?_, ho.aged⟩⟩
    · rw [copyStep, heq]
    · exact (ho.order.booted hi.head_lt hi.head hb).2.2

/-- **A run.** -/
theorem History.run {x : StoreState × List Nat} (hx : History crc32 x S h) (ops : List CopyOp) :
    ∃ x' S' h', copyRun crc32 x ops = .ok x' ∧ History crc32 x' S' h' ∧
      (InOrder x S h →
        (∀ pre y, pre <+: ops → copyRun crc32 x pre = .ok y → y.1.headSeq ≠ 0) →
        InOrder x' S' h') := by
  induction ops generalizing x S h with
  | nil => exact ⟨x, S, h, rfl, hx, fun ho _ => ho⟩
  | cons op ops ih =>
    obtain ⟨x1, S1, h1, hstep, hx1, hord1⟩ := hx.step op
    obtain ⟨x', S', h', hrun, hx', hord⟩ := ih hx1
    have hcons : ∀ ops, copyRun crc32 x (op :: ops) = copyRun crc32 x1 ops := by
      intro ops
      rw [copyRun, hstep]
      rfl
    refine ⟨x', S', h', (hcons ops).trans hrun, hx', fun ho hnum => ?_⟩
    have hnum1 : x1.1.headSeq ≠ 0 :=
      hnum [op] x1 (List.prefix_cons_iff.mpr (.inr ⟨[], rfl, List.nil_prefix⟩)) (hcons [])
    refine hord (hord1 ho hnum1) fun pre y hpre hy => hnum (op :: pre) y ?_ ((hcons pre).trans hy)
    exact List.cons_prefix_cons.mpr ⟨rfl, hpre⟩

/-! ## The next boot -/

/-- A live copy of `key`: its CRC holds, it has no tombstone and is not expired at the boot. -/
def LiveCopy (now : UInt32) (S : Nat → Option LogSector) (key : StoreKey) (off : Nat) : Prop :=
  ∃ q r, Stored S q r ∧ r.live now = true ∧ r.key = key ∧ r.off = off

/-- After a boot the index has the copy at `off`. -/
def IndexedAt (crc32 : UInt32 → List UInt8 → UInt32) (now : UInt32) (st : StoreState)
    (key : StoreKey) (off : Nat) : Prop :=
  (storeEntry (bitleStoreReboot .good crc32 now st).2 key).map StoreIndexEntry.offset = some off

/-- The walk comes to the copy while the index has room, and of the other copies that it comes to
while there is room each is in a sector with a lower number, or behind it in one with the same. -/
structure Prevails (now : UInt32) (S : Nat → Option LogSector) (q : UInt32) (r : LogRecord) :
    Prop where
  room : (keysBefore now S r.off).card < bitleStoreMaxRecords
  newest : ∀ q' x, Stored S q' x → x.live now = true → x.key = r.key → x ≠ r →
    (keysBefore now S x.off).card < bitleStoreMaxRecords → q' < q ∨ (q' = q ∧ r.off < x.off)

/-- The walk comes to the copy while the index has room, and it is the only one in its sector. -/
structure Alone (now : UInt32) (S : Nat → Option LogSector) (r : LogRecord) : Prop where
  room : (keysBefore now S r.off).card < bitleStoreMaxRecords
  only : ∀ off, LiveCopy now S r.key off → off ≠ r.off → sectorBase off ≠ sectorBase r.off

theorem LogInv.indexedAt_iff (hi : LogInv crc32 st S h) {q : UInt32} {r : LogRecord}
    (hr : Stored S q r) (hl : r.live now = true) :
    IndexedAt crc32 now st r.key r.off ↔ Prevails now S q r := by
  obtain ⟨st', h', heq, hb, hi'⟩ := hi.reboot now
  have hmem : IndexedAt crc32 now st r.key r.off ↔ r.entry q ∈ bootIndex crc32 now S := by
    rw [IndexedAt, heq, Option.map_eq_some_iff, ← hb.index]
    constructor
    · rintro ⟨e, he, hoff⟩
      obtain ⟨hin, -⟩ := storeEntry_spec he
      obtain ⟨q', x, hx, -, rfl⟩ := hi'.index.sound e hin
      obtain ⟨rfl, rfl⟩ := hi.log.stored_off hx hr hoff
      exact hin
    · intro hin
      cases hf : storeEntry st' r.key with
      | none => exact absurd rfl (storeEntry_eq_none.mp hf _ hin)
      | some e =>
        obtain ⟨he, hk⟩ := storeEntry_spec hf
        exact ⟨e, rfl, congrArg _ (hi'.index.eq_of_key he hin hk)⟩
  rw [hmem, hi.log.mem_bootIndex_iff hr hl]
  exact ⟨fun ⟨h1, h2⟩ => ⟨h1, h2⟩, fun ⟨h1, h2⟩ => ⟨h1, h2⟩⟩

theorem card_keysBefore_mono {off off' : Nat} (hle : off ≤ off') :
    (keysBefore now S off).card ≤ (keysBefore now S off').card := by
  refine Finset.card_le_card fun k hk => ?_
  obtain ⟨e, he, hk⟩ := Newest.mem_keys.mp hk
  obtain ⟨hin, hlt⟩ := List.mem_filter.mp he
  refine Newest.mem_keys.mpr ⟨e, List.mem_filter.mpr ⟨hin, ?_⟩, hk⟩
  simp only [decide_eq_true_eq] at hlt ⊢
  omega

/-- The records of a sector have its number. -/
theorem LogAt.seq_of_base {m : Mem} (hlog : LogAt crc32 m S) {q q' : UInt32} {r r' : LogRecord}
    (hr : Stored S q r) (hr' : Stored S q' r') (hbase : sectorBase r.off = sectorBase r'.off) :
    q = q' := by
  obtain ⟨i, hi, s, hs, rfl, hmem⟩ := hr
  obtain ⟨i', hi', s', hs', rfl, hmem'⟩ := hr'
  rw [hlog.sectorBase_off hi hs hmem, hlog.sectorBase_off hi' hs' hmem'] at hbase
  obtain rfl : i = i' := by omega
  rw [hs, Option.some.injEq] at hs'
  rw [hs']

/-- While the numbers do not start again, what competes with the newest copy is in front of it in
its sector, or in a sector with a lower number. -/
theorem InOrder.older {x : StoreState × List Nat} (ho : InOrder x S h) (hx : History crc32 x S h)
    {q q' : UInt32} {r y : LogRecord} (hr : Stored S q r)
    (hlast : Newest.Last (LiveCopy now S r.key) x.2 r.off) (hy : Stored S q' y)
    (hlive : y.live now = true) (hkey : y.key = r.key) (hne : y ≠ r) :
    q' < q ∨ (sectorBase y.off = sectorBase r.off ∧ y.off < r.off) := by
  have hnot := hlast.not_after ⟨q', y, hy, hlive, hkey, rfl⟩
  have hle : q' ≤ q :=
    Std.not_lt.mp fun hlt => hnot (ho.aged q r.off q' y.off ⟨r, hr, rfl⟩ ⟨y, hy, rfl⟩ hlt)
  by_cases heq : q' = q
  · right
    have hbase : sectorBase y.off = sectorBase r.off := by
      obtain ⟨i, hi, s, hs, hsq, hmem⟩ := hr
      obtain ⟨i', hi', s', hs', hsq', hmem'⟩ := hy
      obtain rfl := ho.order.eq_of_seq hi hi' hs hs' (by rw [hsq, hsq', heq])
      rw [hx.inv.log.sectorBase_off hi hs hmem, hx.inv.log.sectorBase_off hi hs' hmem']
    refine ⟨hbase, Nat.lt_of_not_le fun hge => ?_⟩
    rcases Nat.lt_or_eq_of_le hge with hlt | hoff
    · exact hnot (hx.logged.inSector q r.off q' y.off ⟨r, hr, rfl⟩ ⟨y, hy, rfl⟩ hbase.symm hlt)
    · exact hne (hx.inv.log.stored_off hy hr hoff.symm).1
  · left
    rw [UInt32.lt_iff_toNat_lt]
    rw [UInt32.le_iff_toNat_le] at hle
    exact Nat.lt_of_le_of_ne hle fun hq => heq (UInt32.toNat_inj.mp hq)

theorem InOrder.prevails_iff {x : StoreState × List Nat} (ho : InOrder x S h)
    (hx : History crc32 x S h) {q : UInt32} {r : LogRecord} (hr : Stored S q r)
    (hlast : Newest.Last (LiveCopy now S r.key) x.2 r.off) :
    Prevails now S q r ↔ Alone now S r := by
  constructor
  · intro hp
    refine ⟨hp.room, ?_⟩
    rintro off ⟨q', y, hy, hlive, hkey, rfl⟩ hoff hbase
    have hne : y ≠ r := fun heq => hoff (heq ▸ rfl)
    have hq := hx.inv.log.seq_of_base hy hr hbase
    subst hq
    rcases ho.older hx hr hlast hy hlive hkey hne with hlt | ⟨-, hlt⟩
    · exact absurd hlt (Std.lt_irrefl)
    -- the walk has come to the copy in front of it
    · have hroom : (keysBefore now S y.off).card ≤ _ := card_keysBefore_mono (Nat.le_of_lt hlt)
      rcases hp.newest q' y hy hlive hkey hne (Nat.lt_of_le_of_lt hroom hp.room) with h1 | ⟨-, h2⟩
      · exact absurd h1 (Std.lt_irrefl)
      · omega
  · intro ha
    refine ⟨ha.room, fun q' y hy hlive hkey hne _ => .inl ?_⟩
    rcases ho.older hx hr hlast hy hlive hkey hne with hlt | ⟨hbase, hlt⟩
    · exact hlt
    · exact absurd hbase (ha.only y.off ⟨q', y, hy, hlive, hkey, rfl⟩ (by omega))

variable (crc32) in
theorem history_firstBoot (now : UInt32) :
    ∃ st S, bitleStoreInit .good crc32 now (powerOn blankFlash []) = (.ok, st) ∧
      History crc32 (st, []) S 0 ∧ InOrder (st, []) S 0 := by
  obtain ⟨st, S, hboot, hi, ho, -, -, hempty⟩ := logInv_firstBoot crc32 now
  have hnone : ∀ q off, ¬ StoredOff S q off := fun q off ⟨r, hr, _⟩ => hempty q r hr
  exact ⟨st, S, hboot, ⟨hi, fun q off ho => absurd ho (hnone q off),
    fun q off _ _ ho => absurd ho (hnone q off)⟩, ho, fun q off _ _ ho => absurd ho (hnone q off)⟩

/-- What is indexed is a copy on flash. -/
theorem LogInv.liveCopy (hi : LogInv crc32 st S h) {e : StoreIndexEntry} (he : e ∈ st.index)
    (hexp : storeExpired now e.expiryUnixS = false) : LiveCopy now S e.key e.offset := by
  obtain ⟨q, r, hr, halive, rfl⟩ := hi.index.sound e he
  have hexp' : storeExpired now r.expiryUnixS = false := hexp
  exact ⟨q, r, hr, by rw [LogRecord.live, halive, hexp']; rfl, rfl, rfl⟩

/-- **The copy that was written last**, over every run of puts whose tombstones fail or not, and
of boots, from an erased partition: the next boot indexes it exactly when it `Prevails` on flash;
while no sector number starts again, exactly when it is `Alone`. -/
theorem init_indexes_last_copy (crc32 : UInt32 → List UInt8 → UInt32) (t : UInt32)
    (ops : List CopyOp) :
    ∃ st0 st written S,
      bitleStoreInit .good crc32 t (powerOn blankFlash []) = (.ok, st0) ∧
      copyRun crc32 (st0, []) ops = .ok (st, written) ∧ LogAt crc32 st.mem S ∧
      ∀ now q r, Stored S q r → r.live now = true →
        Newest.Last (LiveCopy now S r.key) written r.off →
        (IndexedAt crc32 now st r.key r.off ↔ Prevails now S q r) ∧
          ((∀ pre x, pre <+: ops → copyRun crc32 (st0, []) pre = .ok x → x.1.headSeq ≠ 0) →
            (IndexedAt crc32 now st r.key r.off ↔ Alone now S r)) := by
  obtain ⟨st0, S0, hboot, hx0, ho0⟩ := history_firstBoot crc32 t
  obtain ⟨⟨st, written⟩, S, h, hrun, hx, hord⟩ := hx0.run ops
  refine ⟨st0, st, written, S, hboot, hrun, hx.inv.log, fun now q r hr hl hlast => ?_⟩
  have hiff : IndexedAt crc32 now st r.key r.off ↔ Prevails now S q r := hx.inv.indexedAt_iff hr hl
  refine ⟨hiff, fun hnum => hiff.trans ?_⟩
  exact (hord ho0 hnum).prevails_iff hx hr hlast

/-- Two puts of a key into one sector, of which the second finds the tombstone failing. -/
def twoCopies : List CopyOp :=
  [.put none ⟨zeros 16, 0, 0, [1]⟩, .put (some 0) ⟨zeros 16, 0, 0, [2]⟩]

theorem twoCopies_index :
    (copyRun espCrc32Le ((bitleStoreInit .good espCrc32Le 1 (powerOn blankFlash [])).2, [])
      twoCopies).toOption.map (fun x =>
        (x.2, x.1.index, (bitleStoreReboot .good espCrc32Le 5 x.1).2.index)) =
      some ([41, 8], [⟨zeros 16, 41, 0, 1⟩], [⟨zeros 16, 8, 0, 1⟩]) := by
  decide +kernel

/-- After them the boot indexes the older copy. -/
theorem init_indexes_older_copy :
    ∃ st0 st S,
      bitleStoreInit .good espCrc32Le 1 (powerOn blankFlash []) = (.ok, st0) ∧
      copyRun espCrc32Le (st0, []) twoCopies = .ok (st, [41, 8]) ∧ LogAt espCrc32Le st.mem S ∧
      LiveCopy 5 S (zeros 16) 8 ∧ Newest.Last (LiveCopy 5 S (zeros 16)) [41, 8] 41 ∧
      ¬ IndexedAt espCrc32Le 5 st (zeros 16) 41 := by
  obtain ⟨st0, S0, hboot, hx0, -⟩ := history_firstBoot espCrc32Le 1
  obtain ⟨⟨st, written⟩, S, h, hrun, hx, -⟩ := hx0.run twoCopies
  have hindex := twoCopies_index
  rw [hboot, hrun] at hindex
  change some (written, st.index, (bitleStoreReboot .good espCrc32Le 5 st).2.index) = _ at hindex
  rw [Option.some.injEq, Prod.mk.injEq, Prod.mk.injEq] at hindex
  obtain ⟨rfl, hnow, hnext⟩ := hindex
  obtain ⟨st', h', heq, -, hi'⟩ := hx.inv.reboot 5
  rw [heq] at hnext
  have hnew : LiveCopy 5 S (zeros 16) 41 :=
    hx.inv.liveCopy (e := ⟨zeros 16, 41, 0, 1⟩) (by rw [hnow]; exact List.mem_singleton_self _) rfl
  have hold : LiveCopy 5 S (zeros 16) 8 :=
    hi'.liveCopy (e := ⟨zeros 16, 8, 0, 1⟩) (by rw [hnext]; exact List.mem_singleton_self _) rfl
  refine ⟨st0, st, S, hboot, hrun, hx.inv.log, hold, ⟨hnew, [], [8], rfl, by simp⟩, ?_⟩
  rw [IndexedAt, heq, storeEntry, hnext]
  decide

end Bitle
