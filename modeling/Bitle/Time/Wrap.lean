import Bitle.Time.Clock

/-!
# Bitle — the top of the 64-bit range (`components/bitchat_utils/bitchat_time.c`)

Timestamps are checked from below only. A clock set to one of the last `2^40` milliseconds of the
64-bit range wraps around within the life of the device: `bitchat_time_now_ms` falls back to
zero, and the cap of the anchor is no cap any more.

`CorrectionFits` is the bound a correction has to meet. With it, and a stored estimate that fits
as well, no sum of the clock wraps in any state of a run, and only then
(`clock_never_wraps_iff`); and between two corrections the clock never goes back.
-/

namespace Bitle

open Run

/-- The device's lifetime: `2^40` ms. -/
def lifetimeMs : Nat := 2 ^ 40

/-- Neither the clock nor the cap wraps within the lifetime. -/
structure TimeState.NoWrap (st : TimeState) : Prop where
  clock : ∀ m : UInt64, m.toNat ≤ lifetimeMs → st.epochBaseMs.toNat + m.toNat < 2 ^ 64
  cap : st.peerSynced = true → ∀ m : UInt64, st.anchorMonoMs ≤ m → m.toNat ≤ lifetimeMs →
    st.anchorWallMs.toNat + (m.toNat - st.anchorMonoMs.toNat) + skewMs.toNat < 2 ^ 64

/-- A correction leaves room for the rest of the lifetime and the skew. -/
def CorrectionFits (st : TimeState) (c : TimeCall) : Prop :=
  Corrects st c → c.timestamp.toNat + (lifetimeMs - c.now.toNat) + skewMs.toNat < 2 ^ 64

/-- A time at which to boot leaves room for the lifetime. -/
def BootFits (t : UInt64) : Prop := t.toNat + lifetimeMs < 2 ^ 64

/-- The end of the lifetime, as the device would read it. -/
theorem exists_lifetime_end : ∃ m : UInt64, m.toNat = lifetimeMs := ⟨UInt64.ofNat (2 ^ 40), rfl⟩

namespace TimeState

variable {st : TimeState} {now t : UInt64}

/-- A synced clock is at the anchor or ahead of it, by 30 s at most, and has an anchor no younger
than `now`; in sums that do not wrap. -/
structure Steady (st : TimeState) (now : UInt64) : Prop where
  mono_le : st.anchorMonoMs ≤ now
  le_base : st.anchorWallMs.toNat ≤ st.epochBaseMs.toNat + st.anchorMonoMs.toNat
  base_le : st.epochBaseMs.toNat + st.anchorMonoMs.toNat ≤ st.anchorWallMs.toNat + skewMs.toNat

theorem Steady.later {now' : UInt64} (h : st.Steady now) (hle : now ≤ now') : st.Steady now' :=
  ⟨UInt64.le_trans h.mono_le hle, h.le_base, h.base_le⟩

/-- For a steady clock only the cap at the end of the lifetime matters. -/
theorem Steady.noWrap_iff (h : st.Steady now) (hlife : now.toNat ≤ lifetimeMs)
    (hsync : st.peerSynced = true) :
    st.NoWrap ↔
      st.anchorWallMs.toNat + (lifetimeMs - st.anchorMonoMs.toNat) + skewMs.toNat < 2 ^ 64 := by
  have hmono := UInt64.le_iff_toNat_le.mp h.mono_le
  have hbase := h.base_le
  constructor
  · intro hno
    obtain ⟨last, hlast⟩ := exists_lifetime_end
    have := hno.cap hsync last (UInt64.le_iff_toNat_le.mpr (by omega)) (by omega)
    omega
  · intro hlast
    refine ⟨fun m hm => by omega, fun _ m _ hm => by omega⟩

/-- The 64-bit clock and cap are the exact ones while nothing wraps. -/
theorem NoWrap.toNat_clock (h : st.NoWrap) (hlife : now.toNat ≤ lifetimeMs) :
    (st.clock now).toNat = st.epochBaseMs.toNat + now.toNat := by
  rw [TimeState.clock, UInt64.toNat_add, Nat.mod_eq_of_lt (h.clock now hlife)]

theorem NoWrap.toNat_cap (h : st.NoWrap) (hsync : st.peerSynced = true)
    (hmono : st.anchorMonoMs ≤ now) (hlife : now.toNat ≤ lifetimeMs) :
    (st.cap now).toNat =
      st.anchorWallMs.toNat + (now.toNat - st.anchorMonoMs.toNat) + skewMs.toNat := by
  have hfits := h.cap hsync now hmono hlife
  rw [TimeState.cap, UInt64.toNat_add, UInt64.toNat_add, UInt64.toNat_sub_of_le _ _ hmono,
    Nat.mod_eq_of_lt (a := _ + (_ - _)) (by omega), Nat.mod_eq_of_lt hfits]

/-- Tracking moves the offset up only, and keeps the clock steady. -/
theorem Steady.trackForward (h : st.Steady now) (hno : st.NoWrap) (hsync : st.peerSynced = true)
    (hlife : now.toNat ≤ lifetimeMs) (t : UInt64) :
    (st.trackForward now t).Steady now ∧
      st.epochBaseMs.toNat ≤ (st.trackForward now t).epochBaseMs.toNat := by
  rw [TimeState.trackForward]
  split
  · next hin =>
      have hgt := UInt64.lt_iff_toNat_lt.mp hin.1
      have hcap := UInt64.le_iff_toNat_le.mp hin.2
      have hmono := UInt64.le_iff_toNat_le.mp h.mono_le
      rw [hno.toNat_clock hlife] at hgt
      rw [hno.toNat_cap hsync h.mono_le hlife] at hcap
      have hsub : (t - now).toNat = t.toNat - now.toNat :=
        UInt64.toNat_sub_of_le _ _ (UInt64.le_iff_toNat_le.mpr (by omega))
      have hlow := h.le_base
      refine ⟨⟨h.mono_le, ?_, ?_⟩, ?_⟩
      · show st.anchorWallMs.toNat ≤ (t - now).toNat + st.anchorMonoMs.toNat
        omega
      · show (t - now).toNat + st.anchorMonoMs.toNat ≤ st.anchorWallMs.toNat + skewMs.toNat
        omega
      · show st.epochBaseMs.toNat ≤ (t - now).toNat
        omega
  · exact ⟨h, Nat.le_refl _⟩

end TimeState

/-! ## One call -/

section Step

variable {st : TimeState} {c : TimeCall}

/-- Only usable timestamps correct the clock. -/
theorem Corrects.usable (h : Corrects st c) : timestampUsable c.timestamp = true := by
  cases c with
  | peer now t => exact h.1
  | announce now t peerIsInfra peerIsAuthoritative => exact h.1

/-- A correction leaves a steady clock: a usable timestamp is later than any uptime. -/
theorem steady_of_corrects (hc : Corrects st c) (hlife : c.now.toNat ≤ lifetimeMs) :
    (timeStep st c).Steady c.now := by
  obtain ⟨hbase, hwall, hmono, -, -⟩ := timeStep_of_corrects hc
  have hlate := timestamp_ge hc.usable
  rw [lifetimeMs] at hlife
  have hsub : (c.timestamp - c.now).toNat = c.timestamp.toNat - c.now.toNat :=
    UInt64.toNat_sub_of_le _ _ (UInt64.le_iff_toNat_le.mpr (by omega))
  refine ⟨UInt64.le_of_eq hmono, ?_, ?_⟩
  · rw [hwall, hbase, hmono, hsub]
    omega
  · rw [hwall, hbase, hmono, hsub]
    omega

/-- Any other call leaves the anchor, and the offset where it was or higher. -/
theorem steady_of_not_corrects (h : st.peerSynced = true → st.Steady c.now) (hno : st.NoWrap)
    (hlife : c.now.toNat ≤ lifetimeMs) (hc : ¬ Corrects st c) :
    (timeStep st c).peerSynced = st.peerSynced ∧
      (st.peerSynced = true → (timeStep st c).Steady c.now) ∧
      (timeStep st c).anchorWallMs = st.anchorWallMs ∧
      (timeStep st c).anchorMonoMs = st.anchorMonoMs ∧
      st.epochBaseMs.toNat ≤ (timeStep st c).epochBaseMs.toNat ∧ (timeStep st c).NoWrap := by
  cases hsync : st.peerSynced with
  | false =>
    rw [timeStep_of_unsynced hsync hc]
    exact ⟨hsync, (fun hs => nomatch hs), rfl, rfl, Nat.le_refl _, hno⟩
  | true =>
    rcases timeStep_of_not_corrects hsync hc with heq | ⟨auth, gen, -, heq⟩
    · rw [heq]
      exact ⟨hsync, fun _ => h hsync, rfl, rfl, Nat.le_refl _, hno⟩
    · -- tracked: the cap is the old one, and the clock stays under it
      obtain ⟨hsteady, hup⟩ := (h hsync).trackForward hno hsync hlife c.timestamp
      obtain ⟨hs, hw, hm, -⟩ := st.trackForward_fields c.now c.timestamp
      have hsteady' : (timeStep st c).Steady c.now := by
        rw [heq]
        exact ⟨hsteady.mono_le, hsteady.le_base, hsteady.base_le⟩
      have hsync' : (timeStep st c).peerSynced = true := by
        rw [heq]
        exact hs.trans hsync
      have hwall' : (timeStep st c).anchorWallMs = st.anchorWallMs := by
        rw [heq]
        exact hw
      have hmono' : (timeStep st c).anchorMonoMs = st.anchorMonoMs := by
        rw [heq]
        exact hm
      refine ⟨hsync', fun _ => hsteady', hwall', hmono', ?_, ?_⟩
      · rw [heq]
        exact hup
      · rw [hsteady'.noWrap_iff hlife hsync', hwall', hmono']
        exact ((h hsync).noWrap_iff hlife hsync).mp hno

/-- **One call.** From a clock that does not wrap, a call leads to one exactly when its correction
fits. -/
theorem correctionFits_iff (h : st.peerSynced = true → st.Steady c.now) (hno : st.NoWrap)
    (hlife : c.now.toNat ≤ lifetimeMs) : CorrectionFits st c ↔ (timeStep st c).NoWrap := by
  by_cases hc : Corrects st c
  · obtain ⟨-, hwall, hmono, hsync, -⟩ := timeStep_of_corrects hc
    rw [(steady_of_corrects hc hlife).noWrap_iff hlife hsync, hwall, hmono]
    exact ⟨fun hfits => hfits hc, fun hfits _ => hfits⟩
  · have hkeep := steady_of_not_corrects h hno hlife hc
    exact iff_of_true (fun h => absurd h hc) hkeep.2.2.2.2.2

/-- After any call from a clock that does not wrap, a synced clock is steady. -/
theorem steady_timeStep (h : st.peerSynced = true → st.Steady c.now) (hno : st.NoWrap)
    (hlife : c.now.toNat ≤ lifetimeMs) :
    (timeStep st c).peerSynced = true → (timeStep st c).Steady c.now := by
  by_cases hc : Corrects st c
  · exact fun _ => steady_of_corrects hc hlife
  · obtain ⟨hsync, hsteady, -⟩ := steady_of_not_corrects h hno hlife hc
    exact fun hs => hsteady (hsync ▸ hs)

end Step

/-! ## Whole runs -/

section Runs

variable {st : TimeState} {m0 : UInt64} {cs : List TimeCall}

/-- The calls read a clock that does not go back and stays within the lifetime. -/
structure Lifetime (cs : List TimeCall) : Prop where
  mono : cs.Pairwise fun a b => a.now ≤ b.now
  le_life : ∀ c ∈ cs, c.now.toNat ≤ lifetimeMs

theorem Lifetime.tail {c : TimeCall} (h : Lifetime (c :: cs)) :
    Lifetime cs ∧ ∀ d ∈ cs, c.now ≤ d.now :=
  ⟨⟨(List.pairwise_cons.mp h.mono).2, fun d hd => h.le_life d (List.mem_cons_of_mem _ hd)⟩,
    (List.pairwise_cons.mp h.mono).1⟩

/-- From a clock that does not wrap, no state of a run wraps exactly when every correction
fits. -/
theorem noWrap_run_iff (hcs : Lifetime cs) (hfrom : ∀ c ∈ cs, m0 ≤ c.now)
    (h : st.peerSynced = true → st.Steady m0) (hno : st.NoWrap) :
    Along timeStep CorrectionFits st cs ↔ ∀ pre, pre <+: cs → (final timeStep st pre).NoWrap := by
  induction cs generalizing st m0 with
  | nil =>
    refine iff_of_true trivial fun pre hpre => ?_
    rw [List.prefix_nil.mp hpre]
    exact hno
  | cons c cs ih =>
    have hnow := hfrom c (List.mem_cons_self ..)
    have hlife := hcs.le_life c (List.mem_cons_self ..)
    have hsteady : st.peerSynced = true → st.Steady c.now := fun hs => (h hs).later hnow
    obtain ⟨htail, hlater⟩ := hcs.tail
    rw [Along, correctionFits_iff hsteady hno hlife]
    constructor
    · rintro ⟨hstep, hrest⟩ pre hpre
      cases pre with
      | nil => exact hno
      | cons d pre =>
        obtain ⟨rfl, hpre'⟩ := List.cons_prefix_cons.mp hpre
        have hsteady' := steady_timeStep hsteady hno hlife
        exact (ih htail hlater hsteady' hstep).mp hrest pre hpre'
    · intro hall
      have hstep := hall [c] (List.prefix_append [c] cs)
      refine ⟨hstep, (ih htail hlater (steady_timeStep hsteady hno hlife) hstep).mpr ?_⟩
      exact fun pre hpre => hall (c :: pre) (List.cons_prefix_cons.mpr ⟨rfl, hpre⟩)

/-- Along a run of fitting corrections a synced clock stays steady. -/
theorem steady_run (hcs : Lifetime cs) (hfrom : ∀ c ∈ cs, m0 ≤ c.now)
    (h : st.peerSynced = true → st.Steady m0) (hno : st.NoWrap)
    (hrun : Along timeStep CorrectionFits st cs) (m : UInt64) (hm0 : m0 ≤ m)
    (hm : ∀ c ∈ cs, c.now ≤ m) :
    (final timeStep st cs).peerSynced = true → (final timeStep st cs).Steady m := by
  induction cs generalizing st m0 with
  | nil => exact fun hs => (h hs).later hm0
  | cons c cs ih =>
    have hlife := hcs.le_life c (List.mem_cons_self ..)
    have hsteady : st.peerSynced = true → st.Steady c.now :=
      fun hs => (h hs).later (hfrom c (List.mem_cons_self ..))
    obtain ⟨htail, hlater⟩ := hcs.tail
    exact ih htail hlater (steady_timeStep hsteady hno hlife)
      ((correctionFits_iff hsteady hno hlife).mp hrun.1) hrun.2 (hm c (List.mem_cons_self ..))
      (fun d hd => hm d (List.mem_cons_of_mem _ hd))

/-- Calls that correct nothing never lower the offset. -/
theorem base_le_run (hcs : Lifetime cs) (hfrom : ∀ c ∈ cs, m0 ≤ c.now)
    (h : st.peerSynced = true → st.Steady m0) (hno : st.NoWrap)
    (hrun : Along timeStep (fun st c => ¬ Corrects st c) st cs) :
    st.epochBaseMs.toNat ≤ (final timeStep st cs).epochBaseMs.toNat := by
  induction cs generalizing st m0 with
  | nil => exact Nat.le_refl _
  | cons c cs ih =>
    have hlife := hcs.le_life c (List.mem_cons_self ..)
    have hsteady : st.peerSynced = true → st.Steady c.now :=
      fun hs => (h hs).later (hfrom c (List.mem_cons_self ..))
    obtain ⟨htail, hlater⟩ := hcs.tail
    obtain ⟨hsync, hsteady', -, -, hup, hno'⟩ := steady_of_not_corrects hsteady hno hlife hrun.1
    exact Nat.le_trans hup
      (ih htail hlater (fun hs => hsteady' (hsync ▸ hs)) hno' hrun.2)

end Runs

/-- The clock right after boot does not wrap when both its sources fit. -/
theorem noWrap_init_iff (stored build : UInt64) :
    (TimeState.init stored build).NoWrap ↔ BootFits stored ∧ BootFits build := by
  have hbase : (TimeState.init stored build).epochBaseMs.toNat =
      max stored.toNat build.toNat := by
    show (if stored > build then stored else build).toNat = _
    split
    · next hgt => have := UInt64.lt_iff_toNat_lt.mp hgt; omega
    · next hle => have := UInt64.le_iff_toNat_le.mp (UInt64.not_lt.mp hle); omega
  constructor
  · intro hno
    obtain ⟨last, hlast⟩ := exists_lifetime_end
    have := hno.clock last (Nat.le_of_eq hlast)
    constructor
    · unfold BootFits
      omega
    · unfold BootFits
      omega
  · rintro ⟨hstored, hbuild⟩
    unfold BootFits at hstored hbuild
    exact ⟨fun m hm => by omega, fun hs => nomatch hs⟩

/-- A clock whose offset did not shrink shows no earlier time later on. -/
theorem nowMs_le {st st' : TimeState} {m m' : UInt64} (hno : st.NoWrap) (hno' : st'.NoWrap)
    (hbase : st.epochBaseMs.toNat ≤ st'.epochBaseMs.toNat) (hm : m ≤ m')
    (hlife : m'.toNat ≤ lifetimeMs) : bitchatTimeNowMs st m ≤ bitchatTimeNowMs st' m' := by
  have hm' := UInt64.le_iff_toNat_le.mp hm
  rw [bitchatTimeNowMs, bitchatTimeNowMs]
  split
  · exact UInt64.zero_le
  · next hne =>
      have hne' : st'.epochBaseMs ≠ 0 := by
        intro hzero
        apply hne
        apply UInt64.toNat_inj.mp
        rw [hzero] at hbase
        exact Nat.le_zero.mp hbase
      rw [if_neg hne', UInt64.le_iff_toNat_le]
      have hclock := hno.toNat_clock (show m.toNat ≤ lifetimeMs by omega)
      have hclock' := hno'.toNat_clock hlife
      rw [TimeState.clock] at hclock hclock'
      omega

/-- No sum of the clock wraps in any state of the run, and between two corrections the clock never
goes back. -/
structure ClockSound (stored build : UInt64) (cs : List TimeCall) : Prop where
  noWrap : ∀ pre, pre <+: cs → (final timeStep (.init stored build) pre).NoWrap
  forward : ∀ pre mid, pre ++ mid <+: cs →
    Along timeStep (fun st c => ¬ Corrects st c) (final timeStep (.init stored build) pre) mid →
    ∀ m m' : UInt64, m ≤ m' → m'.toNat ≤ lifetimeMs →
      bitchatTimeNowMs (final timeStep (.init stored build) pre) m ≤
        bitchatTimeNowMs (final timeStep (.init stored build) (pre ++ mid)) m'

/-- **The top of the range.** For every sequence of calls within the lifetime, with any
timestamps: no sum wraps and the clock never goes back between corrections, exactly when the
stored estimate, the build time and every timestamp that corrects the clock leave room for the
lifetime. -/
theorem clock_never_wraps_iff (stored build : UInt64) {cs : List TimeCall} (hcs : Lifetime cs) :
    ClockSound stored build cs ↔
      BootFits stored ∧ BootFits build ∧
        Along timeStep CorrectionFits (.init stored build) cs := by
  have hsteady : (TimeState.init stored build).peerSynced = true →
      (TimeState.init stored build).Steady 0 := fun hs => nomatch hs
  have hzero : ∀ c ∈ cs, 0 ≤ c.now := fun _ _ => UInt64.zero_le
  constructor
  · intro hsound
    have hno := hsound.noWrap [] List.nil_prefix
    obtain ⟨hstored, hbuild⟩ := (noWrap_init_iff stored build).mp hno
    exact ⟨hstored, hbuild, (noWrap_run_iff hcs hzero hsteady hno).mpr hsound.noWrap⟩
  · rintro ⟨hstored, hbuild, hrun⟩
    have hno := (noWrap_init_iff stored build).mpr ⟨hstored, hbuild⟩
    have hall := (noWrap_run_iff hcs hzero hsteady hno).mp hrun
    refine ⟨hall, ?_⟩
    intro pre mid hpre hmid m m' hm hlife
    have hpre' : pre <+: cs := (List.prefix_append pre mid).trans hpre
    refine nowMs_le (hall pre hpre') (hall _ hpre) ?_ hm hlife
    rw [final_append]
    cases mid with
    | nil => exact Nat.le_refl _
    | cons c mid =>
      -- steady up to the first call after `pre`
      have hpart : Lifetime (pre ++ c :: mid) :=
        ⟨hcs.mono.sublist hpre.sublist, fun d hd => hcs.le_life d (hpre.subset hd)⟩
      obtain ⟨hmono, hmono', hcross⟩ := List.pairwise_append.mp hpart.mono
      have hlifepre : Lifetime pre :=
        ⟨hmono, fun d hd => hpart.le_life d (List.mem_append_left _ hd)⟩
      have hlifemid : Lifetime (c :: mid) :=
        ⟨hmono', fun d hd => hpart.le_life d (List.mem_append_right _ hd)⟩
      have hst := steady_run hlifepre (fun _ _ => UInt64.zero_le) hsteady hno (hrun.before hpre')
        c.now UInt64.zero_le (fun d hd => hcross d hd c (List.mem_cons_self ..))
      apply base_le_run hlifemid ?_ hst (hall pre hpre') hmid
      intro d hd
      rcases List.mem_cons.mp hd with rfl | hd
      · exact UInt64.le_refl _
      · exact (List.pairwise_cons.mp hmono').1 d hd

/-- A phone and a packet of the present. -/
theorem clock_never_wraps_phone :
    ClockSound 0 1704067200000 phoneThenPacket ↔
      BootFits 0 ∧ BootFits 1704067200000 ∧
        Along timeStep CorrectionFits (.init 0 1704067200000) phoneThenPacket :=
  clock_never_wraps_iff 0 1704067200000
    ⟨List.pairwise_pair.mpr (by decide), by unfold phoneThenPacket lifetimeMs; decide⟩

/-- One packet from the last millisecond of the range, one second after boot: the next
millisecond the clock reads zero. -/
theorem clock_wraps_at_top :
    Lifetime [.peer 1000 0xFFFFFFFFFFFFFFFF] ∧
      ¬ ClockSound 0 1704067200000 [.peer 1000 0xFFFFFFFFFFFFFFFF] ∧
      bitchatTimeNowMs (final timeStep (.init 0 1704067200000) [.peer 1000 0xFFFFFFFFFFFFFFFF]) 1001 <
        bitchatTimeNowMs (final timeStep (.init 0 1704067200000) [.peer 1000 0xFFFFFFFFFFFFFFFF])
          1000 := by
  refine ⟨⟨List.pairwise_singleton _ _, by unfold lifetimeMs; decide⟩, ?_, by decide +kernel⟩
  intro hsound
  have hfits := ((hsound.noWrap _ List.prefix_rfl).clock 1001 (by unfold lifetimeMs; decide))
  exact absurd hfits (by decide +kernel)

end Bitle
