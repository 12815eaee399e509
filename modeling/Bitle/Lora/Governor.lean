import Bitle.Lib.Bucket
import Bitle.Lib.Run
import Bitle.Lora.Trunk
import Mathlib.Algebra.Order.Ring.Rat

/-!
# Bitle — the airtime governor (`main/bitle_lora.c`)

`trunk_admit` call after call. What one call can come to is said once (`AdmitOutcome`), for any
arithmetic of the credit. With an exact credit (`Rat`) it is then a token bucket in which announces
are the draws that spend, and everything else lowers the level. The clamp at `-GOV_BURST_MS`
forgives only what messages have overdrawn: an announce is admitted with credit to cover it, so it
never meets the clamp.
-/

namespace Bitle

open Wire Run Bucket

/-! ## Calls -/

/-- One call of `trunk_admit`: the clock it samples, the OTA switch and the packet. -/
structure AdmitCall where
  now : UInt64
  otaOverTrunk : Bool
  data : List UInt8

/-- A call and its result. -/
structure Admission where
  call : AdmitCall
  admitted : Bool

/-- The local `ota`. -/
def otaType (type : UInt8) : Bool := type ≥ 0xA0 && type ≤ 0xA3

/-- The local `identity_announce`. -/
def identityAnnounce (type : UInt8) : Bool :=
  type == bitchatMsgAnnounce || type == bitchatMsgNoiseIdentityAnnounce

namespace AdmitCall

def type (c : AdmitCall) : UInt8 := byteAt c.data pktTypeOff

/-- The bytes the throttle takes for the sender. -/
def sender (c : AdmitCall) : Bytes 8 := copyAt 8 c.data pktSenderOff

def cost {K : Type} [NatCast K] (airtime : Nat → Nat) (c : AdmitCall) : K :=
  ((packetAirtime airtime c.data.length : Nat) : K)

/-- Refused before the clock is read. -/
def ignored (c : AdmitCall) : Bool :=
  c.data.length < pktMinLen || (otaType c.type && !c.otaOverTrunk)

end AdmitCall

/-- The governor as `bitle_lora_init` sets it up. -/
def Governor.init {K : Type} [NatCast K] [Div K] (dutyPct : Nat) (now : UInt64) : Governor K :=
  { creditMs := govBurstMs, refillFrac := (dutyPct : K) / ((100 : Nat) : K), lastMs := now
    throttle := List.replicate throttleSlots {} }

section Runs

variable {K : Type} [NatCast K] [Add K] [Sub K] [Mul K] [Neg K] [LT K] [DecidableLT K]
  (airtime : Nat → Nat)

/-- What flows in until a call, before the cap at the burst. -/
def Governor.flowed (g : Governor K) (now : UInt64) : K :=
  g.creditMs + ((now - g.lastMs).toNat : K) * g.refillFrac

/-- The refill at the start of a call. -/
def Governor.refill (g : Governor K) (now : UInt64) : Governor K :=
  { g with creditMs := if govBurstMs < g.flowed now then govBurstMs else g.flowed now
           lastMs := now }

/-- The credit left when a packet is debited, clamped from below. -/
def debited (credit cost : K) : K :=
  if credit - cost < -govBurstMs then -govBurstMs else credit - cost

/-- The governor after one call. -/
def admitStep (g : Governor K) (c : AdmitCall) : Governor K :=
  (trunkAdmit airtime c.otaOverTrunk c.now g c.data).2

/-- The results of a run of calls. -/
def admissions : Governor K → List AdmitCall → List Admission
  | _, [] => []
  | g, c :: cs =>
    ⟨c, (trunkAdmit airtime c.otaOverTrunk c.now g c.data).1⟩ ::
      admissions (admitStep airtime g c) cs

/-- What one call comes to. -/
inductive AdmitOutcome (g : Governor K) (c : AdmitCall) : Bool → Governor K → Prop where
  | ignored (h : c.ignored = true) : AdmitOutcome g c false g
  | noCredit (h : c.ignored = false) (hannounce : trunkAnnounce c.type = true)
      (hlow : (g.refill c.now).creditMs < c.cost airtime) :
      AdmitOutcome g c false (g.refill c.now)
  | throttled (h : c.ignored = false) (hidentity : identityAnnounce c.type = true)
      (hcredit : ¬ (g.refill c.now).creditMs < c.cost airtime)
      (hdrop : (announceThrottled g.throttle c.sender c.now).1 = true) :
      AdmitOutcome g c false
        { g.refill c.now with throttle := (announceThrottled g.throttle c.sender c.now).2 }
  | passed (h : c.ignored = false)
      (hcredit : trunkAnnounce c.type = true → ¬ (g.refill c.now).creditMs < c.cost airtime)
      (hpass : identityAnnounce c.type = true →
        (announceThrottled g.throttle c.sender c.now).1 = false) :
      AdmitOutcome g c true
        { g.refill c.now with
          creditMs := debited (g.refill c.now).creditMs (c.cost airtime)
          throttle := if identityAnnounce c.type then
            (announceThrottled g.throttle c.sender c.now).2 else g.throttle }

theorem trunkAnnounce_of_identity {type : UInt8} (h : identityAnnounce type = true) :
    trunkAnnounce type = true := by
  rw [trunkAnnounce, Bool.or_eq_true]
  exact .inl h

/-- The throttle's verdict on a call, which only identity announces ask for. -/
def throttleVerdict (g : Governor K) (c : AdmitCall) : Bool × List Throttle :=
  if identityAnnounce c.type then announceThrottled g.throttle c.sender c.now
  else (false, g.throttle)

/-- `trunk_admit` in the words of this module. -/
theorem trunkAdmit_eq (g : Governor K) (c : AdmitCall) :
    trunkAdmit airtime c.otaOverTrunk c.now g c.data =
      if c.data.length < pktMinLen then (false, g)
      else if (otaType c.type && !c.otaOverTrunk) = true then (false, g)
      else if (trunkAnnounce c.type && decide ((g.refill c.now).creditMs < c.cost airtime)) = true
      then (false, g.refill c.now)
      else if (throttleVerdict g c).1 = true then
        (false, { g.refill c.now with throttle := (throttleVerdict g c).2 })
      else (true, { g.refill c.now with
        creditMs := debited (g.refill c.now).creditMs (c.cost airtime)
        throttle := (throttleVerdict g c).2 }) :=
  rfl

/-- `trunk_admit` has these outcomes and no other. -/
theorem admit_outcome (g : Governor K) (c : AdmitCall) :
    AdmitOutcome airtime g c (trunkAdmit airtime c.otaOverTrunk c.now g c.data).1
      (admitStep airtime g c) := by
  rw [admitStep, trunkAdmit_eq]
  by_cases hlen : c.data.length < pktMinLen
  · rw [if_pos hlen]
    exact .ignored (by rw [AdmitCall.ignored, decide_eq_true hlen, Bool.true_or])
  rw [if_neg hlen]
  by_cases hota : (otaType c.type && !c.otaOverTrunk) = true
  · rw [if_pos hota]
    exact .ignored (by rw [AdmitCall.ignored, hota, Bool.or_true])
  have hread : c.ignored = false := by
    rw [AdmitCall.ignored, decide_eq_false hlen, Bool.false_or]
    exact Bool.not_eq_true _ ▸ hota
  rw [if_neg hota]
  by_cases hlow : (trunkAnnounce c.type && decide ((g.refill c.now).creditMs < c.cost airtime)) = true
  · -- the budget is checked before the throttle
    rw [if_pos hlow]
    rw [Bool.and_eq_true, decide_eq_true_eq] at hlow
    exact .noCredit hread hlow.1 hlow.2
  rw [if_neg hlow]
  rw [Bool.and_eq_true, decide_eq_true_eq] at hlow
  have hcredit : trunkAnnounce c.type = true →
      ¬ (g.refill c.now).creditMs < c.cost airtime := fun ha hlt => hlow ⟨ha, hlt⟩
  rw [throttleVerdict]
  by_cases hidentity : identityAnnounce c.type = true
  · rw [if_pos hidentity]
    by_cases hdrop : (announceThrottled g.throttle c.sender c.now).1 = true
    · rw [if_pos hdrop]
      exact .throttled hread hidentity (hcredit (trunkAnnounce_of_identity hidentity)) hdrop
    · rw [if_neg hdrop]
      have h := AdmitOutcome.passed hread hcredit (fun _ => Bool.not_eq_true _ ▸ hdrop)
      rwa [if_pos hidentity] at h
  · rw [if_neg hidentity, if_neg Bool.false_ne_true]
    have h := AdmitOutcome.passed hread hcredit (fun hi => absurd hi hidentity)
    rwa [if_neg hidentity] at h

/-- An ignored call changes nothing and is not admitted. -/
theorem admit_ignored {airtime : Nat → Nat} {g : Governor K} {c : AdmitCall} (h : c.ignored = true) :
    admitStep airtime g c = g ∧ (trunkAdmit airtime c.otaOverTrunk c.now g c.data).1 = false := by
  have hout := admit_outcome airtime g c
  generalize admitStep airtime g c = g', (trunkAdmit airtime c.otaOverTrunk c.now g c.data).1 = ok
    at hout
  cases hout with
  | ignored => exact ⟨rfl, rfl⟩
  | noCredit hread => rw [h] at hread; cases hread
  | throttled hread => rw [h] at hread; cases hread
  | passed hread => rw [h] at hread; cases hread

end Runs

/-! ## The credit -/

/-- The credit is within the burst, either way. -/
def Governor.Within (g : Governor Rat) : Prop := -govBurstMs ≤ g.creditMs ∧ g.creditMs ≤ govBurstMs

theorem govBurst_pos : (0 : Rat) < govBurstMs := by decide

theorem refill_creditMs (g : Governor Rat) (now : UInt64) :
    (g.refill now).creditMs = min (g.flowed now) govBurstMs := by
  rw [Governor.refill]
  rcases lt_or_ge (govBurstMs : Rat) (g.flowed now) with hover | hunder
  · rw [if_pos hover, min_eq_right hover.le]
  · rw [if_neg (not_lt.mpr hunder), min_eq_left hunder]

theorem debited_eq_max (credit cost : Rat) :
    debited credit cost = max (credit - cost) (-govBurstMs) := by
  rw [debited]
  rcases lt_or_ge (credit - cost) (-govBurstMs) with hlow | hhigh
  · rw [if_pos hlow, max_eq_right hlow.le]
  · rw [if_neg (not_lt.mpr hhigh), max_eq_left hhigh]

section Credit

variable {airtime : Nat → Nat} {g : Governor Rat} {c : AdmitCall}

theorem AdmitCall.cost_nonneg (airtime : Nat → Nat) (c : AdmitCall) :
    (0 : Rat) ≤ c.cost airtime :=
  Nat.cast_nonneg _

/-- What flows in between the calls. -/
theorem toNat_sub_now (hle : g.lastMs ≤ c.now) :
    ((c.now - g.lastMs).toNat : Rat) = (c.now.toNat : Rat) - g.lastMs.toNat := by
  rw [UInt64.toNat_sub_of_le _ _ hle, Nat.cast_sub (UInt64.le_iff_toNat_le.mp hle)]

/-- The refill adds what flowed in, up to the burst. -/
theorem refill_within (hfrac : 0 ≤ g.refillFrac) (h : g.Within) (now : UInt64) :
    (g.refill now).Within ∧ g.creditMs ≤ (g.refill now).creditMs := by
  have hflow : 0 ≤ ((now - g.lastMs).toNat : Rat) * g.refillFrac :=
    mul_nonneg (Nat.cast_nonneg _) hfrac
  have hup : g.creditMs ≤ (g.refill now).creditMs := by
    rw [refill_creditMs, Governor.flowed]
    exact le_min (by linarith) h.2
  have hcap : (g.refill now).creditMs ≤ govBurstMs := by
    rw [refill_creditMs]
    exact min_le_right _ _
  exact ⟨⟨h.1.trans hup, hcap⟩, hup⟩

/-- **One call on the credit**: it stays within the burst; what is spent on an announce and what is
left come out of the refilled credit; and an announce leaves no debt. -/
theorem admit_credit (hfrac : 0 ≤ g.refillFrac) (h : g.Within) {ok : Bool} {g' : Governor Rat}
    (hout : AdmitOutcome airtime g c ok g') (hread : c.ignored = false) :
    g'.Within ∧ g'.lastMs = c.now ∧ g'.refillFrac = g.refillFrac ∧
      (if ok && trunkAnnounce c.type then c.cost airtime else 0) + g'.creditMs ≤
        (g.refill c.now).creditMs ∧
      ((ok && trunkAnnounce c.type) = true → 0 ≤ g'.creditMs) := by
  obtain ⟨hwithin, -⟩ := refill_within hfrac h c.now
  have hcost : (0 : Rat) ≤ c.cost airtime := c.cost_nonneg airtime
  cases hout with
  | ignored hskip => rw [hskip] at hread; cases hread
  | noCredit => exact ⟨hwithin, rfl, rfl, by simp, by simp⟩
  | throttled => exact ⟨hwithin, rfl, rfl, by simp, by simp⟩
  | passed _ hcredit =>
    have hburst := govBurst_pos
    have hmax : max ((g.refill c.now).creditMs - c.cost airtime) (-govBurstMs) ≤
        (g.refill c.now).creditMs := max_le (by linarith) hwithin.1
    rw [Governor.Within]
    dsimp only
    rw [debited_eq_max]
    refine ⟨⟨le_max_right _ _, hmax.trans hwithin.2⟩, rfl, rfl, ?_, ?_⟩
    · cases hann : trunkAnnounce c.type with
      | false => simpa using hmax
      | true =>
        -- covered by the credit, so the clamp does nothing
        have hcov := not_lt.mp (hcredit hann)
        have heq : max ((g.refill c.now).creditMs - c.cost airtime) (-govBurstMs) =
            (g.refill c.now).creditMs - c.cost airtime := max_eq_left (by linarith)
        show (if (true && true) = true then c.cost airtime else 0) + max _ _ ≤ _
        rw [heq, if_pos (by decide)]
        linarith
    · intro hann
      rw [Bool.true_and] at hann
      have hcov := not_lt.mp (hcredit hann)
      exact (sub_nonneg.mpr hcov).trans (le_max_left _ _)

end Credit

/-! ## Runs of calls -/

/-- The clock of the calls does not go back, nor before `last`. -/
def Clocked : UInt64 → List AdmitCall → Prop
  | _, [] => True
  | last, c :: cs => last ≤ c.now ∧ Clocked c.now cs

section Run

variable (airtime : Nat → Nat)

/-- Airtime of the announces admitted from time `a` to time `b`. -/
def announceAirtime (a b : Rat) (log : List Admission) : Rat :=
  ((log.filter fun e => e.admitted && trunkAnnounce e.call.type &&
    decide (a ≤ (e.call.now.toNat : Rat) ∧ (e.call.now.toNat : Rat) ≤ b)).map
      fun e => e.call.cost airtime).sum

/-- The draws on the credit: one for each call that gets as far as the refill. -/
def draws : Governor Rat → List AdmitCall → List (Draw Rat)
  | _, [] => []
  | g, c :: cs =>
    if c.ignored then draws (admitStep airtime g c) cs
    else
      { time := c.now.toNat
        spent :=
          if (trunkAdmit airtime c.otaOverTrunk c.now g c.data).1 && trunkAnnounce c.type then
            c.cost airtime
          else 0
        level := (admitStep airtime g c).creditMs } :: draws (admitStep airtime g c) cs

variable {airtime} {g : Governor Rat} {cs : List AdmitCall}

theorem Clocked.earlier {last last' : UInt64} (h : Clocked last cs) (hle : last' ≤ last) :
    Clocked last' cs := by
  cases cs with
  | nil => trivial
  | cons c cs => exact ⟨UInt64.le_trans hle h.1, h.2⟩

variable (airtime) in
/-- The governor after one call of an ordered run. -/
theorem admitStep_keeps {c : AdmitCall} (hfrac : 0 ≤ g.refillFrac) (h : g.Within)
    (hclock : Clocked g.lastMs (c :: cs)) :
    (admitStep airtime g c).Within ∧ (admitStep airtime g c).refillFrac = g.refillFrac ∧
      Clocked (admitStep airtime g c).lastMs cs := by
  cases hread : c.ignored with
  | true =>
    rw [(admit_ignored hread).1]
    exact ⟨h, rfl, hclock.2.earlier hclock.1⟩
  | false =>
    obtain ⟨hwithin, hlast, hfrac', -, -⟩ :=
      admit_credit hfrac h (admit_outcome airtime g c) hread
    exact ⟨hwithin, hfrac', hlast ▸ hclock.2⟩

/-- The credit of a run is a bucket with these draws. -/
theorem fed_draws (hfrac : 0 ≤ g.refillFrac) (h : g.Within) (hclock : Clocked g.lastMs cs) :
    Fed g.refillFrac govBurstMs g.creditMs g.lastMs.toNat (draws airtime g cs) := by
  induction cs generalizing g with
  | nil => trivial
  | cons c cs ih =>
    rw [draws]
    cases hread : c.ignored with
    | true =>
      rw [if_pos rfl, (admit_ignored hread).1]
      exact ih hfrac h (hclock.2.earlier hclock.1)
    | false =>
      rw [if_neg (by decide)]
      obtain ⟨hwithin, hfrac', hclock'⟩ := admitStep_keeps airtime hfrac h hclock
      obtain ⟨-, hlast, -, hspent, hdebt⟩ :=
        admit_credit hfrac h (admit_outcome airtime g c) hread
      have hrest := ih (hfrac' ▸ hfrac) hwithin hclock'
      rw [hfrac', hlast] at hrest
      have hflow := toNat_sub_now hclock.1
      refine ⟨⟨?_, ?_, ?_, ?_, ?_⟩, hrest⟩
      · exact Nat.cast_le.mpr (UInt64.le_iff_toNat_le.mp hclock.1)
      · dsimp only
        split
        · exact c.cost_nonneg airtime
        · exact le_refl 0
      · dsimp only
        split
        · next hann => exact .inr (hdebt hann)
        · exact .inl rfl
      · -- the refill is at most what flowed in
        have hin : (g.refill c.now).creditMs ≤
            g.creditMs + g.refillFrac * ((c.now.toNat : Rat) - g.lastMs.toNat) := by
          rw [← hflow, mul_comm, refill_creditMs]
          exact min_le_left _ _
        exact hspent.trans hin
      · exact hspent.trans (refill_within hfrac h c.now).1.2

/-- What the draws spend is the airtime of the admitted announces. -/
theorem announceAirtime_eq (a b : Rat) :
    announceAirtime airtime a b (admissions airtime g cs) = spentIn a b (draws airtime g cs) := by
  induction cs generalizing g with
  | nil => rfl
  | cons c cs ih =>
    rw [admissions, draws]
    cases hread : c.ignored with
    | true =>
      rw [if_pos rfl, ← ih, announceAirtime, (admit_ignored hread).2,
        List.filter_cons_of_neg (by simp)]
      rfl
    | false =>
      rw [if_neg (by decide)]
      generalize (trunkAdmit airtime c.otaOverTrunk c.now g c.data).1 = ok
      by_cases hin : a ≤ (c.now.toNat : Rat) ∧ (c.now.toNat : Rat) ≤ b
      · rw [spentIn_cons_in _ hin.1 hin.2, ← ih, announceAirtime]
        dsimp only
        cases hann : (ok && trunkAnnounce c.type) with
        | false =>
          rw [List.filter_cons_of_neg (by simp [hann]), if_neg (by decide), zero_add]
          rfl
        | true =>
          rw [List.filter_cons_of_pos (by simp [hann, hin]), if_pos rfl, List.map_cons,
            List.sum_cons]
          rfl
      · rw [spentIn_cons_out _ hin, ← ih, announceAirtime, List.filter_cons_of_neg (by simp [hin])]
        rfl

/-- Every state of an ordered run keeps the credit within the burst. -/
theorem within_run (hfrac : 0 ≤ g.refillFrac) (h : g.Within) (hclock : Clocked g.lastMs cs) :
    ∀ pre, pre <+: cs → (final (admitStep airtime) g pre).Within := by
  induction cs generalizing g with
  | nil =>
    intro pre hpre
    rw [List.prefix_nil.mp hpre]
    exact h
  | cons c cs ih =>
    intro pre hpre
    cases pre with
    | nil => exact h
    | cons d pre =>
      obtain ⟨rfl, hpre'⟩ := List.cons_prefix_cons.mp hpre
      obtain ⟨hwithin, hfrac', hclock'⟩ := admitStep_keeps airtime hfrac h hclock
      exact ih (hfrac' ▸ hfrac) hwithin hclock' pre hpre'

/-- Traffic that is neither an announce nor OTA is always admitted. -/
theorem admitted_of_ungoverned (e : Admission) (he : e ∈ admissions airtime g cs)
    (hlen : pktMinLen ≤ e.call.data.length) (hann : trunkAnnounce e.call.type = false)
    (hota : otaType e.call.type = false) : e.admitted = true := by
  induction cs generalizing g with
  | nil => exact nomatch he
  | cons c cs ih =>
    rw [admissions] at he
    rcases List.mem_cons.mp he with rfl | he
    · have hout := admit_outcome airtime g c
      dsimp only at hlen hann hota ⊢
      generalize admitStep airtime g c = g',
        (trunkAdmit airtime c.otaOverTrunk c.now g c.data).1 = ok at hout
      cases hout with
      | ignored hskip =>
        rw [AdmitCall.ignored, hota, Bool.false_and, Bool.or_false, decide_eq_true_eq] at hskip
        omega
      | noCredit _ ha => rw [hann] at ha; cases ha
      | throttled _ hi => rw [trunkAnnounce_of_identity hi] at hann; cases hann
      | passed => rfl
    · exact ih he

end Run

/-- The governor starts with a full bucket. -/
theorem within_init (dutyPct : Nat) (boot : UInt64) : (Governor.init dutyPct boot).Within :=
  ⟨by show -(govBurstMs : Rat) ≤ govBurstMs; linarith [govBurst_pos], le_refl _⟩

theorem refillFrac_init_nonneg (dutyPct : Nat) (boot : UInt64) :
    (0 : Rat) ≤ (Governor.init dutyPct boot).refillFrac :=
  div_nonneg (Nat.cast_nonneg _) (by decide)

/-- **The airtime governor.** For every run of calls on a clock that does not go back, every packet
mix and every airtime function, with the credit an exact rational: the credit stays within the
burst; in an interval of length `T` the announces admitted take at most the burst and the refill of
`T`; and traffic that is neither an announce nor OTA is admitted. -/
theorem governor_bounds (airtime : Nat → Nat) (dutyPct : Nat) {boot : UInt64} {cs : List AdmitCall}
    (hclock : Clocked boot cs) :
    let start : Governor Rat := .init dutyPct boot
    (∀ pre, pre <+: cs →
      -govBurstMs ≤ (final (admitStep airtime) start pre).creditMs ∧
        (final (admitStep airtime) start pre).creditMs ≤ govBurstMs) ∧
    (∀ a T : Rat, 0 ≤ T →
      announceAirtime airtime a (a + T) (admissions airtime start cs) ≤
        govBurstMs + start.refillFrac * T) ∧
    ∀ e ∈ admissions airtime start cs, pktMinLen ≤ e.call.data.length →
      trunkAnnounce e.call.type = false → otaType e.call.type = false → e.admitted = true := by
  intro start
  have hfrac := refillFrac_init_nonneg dutyPct boot
  have hwithin := within_init dutyPct boot
  refine ⟨within_run hfrac hwithin hclock, ?_, admitted_of_ungoverned⟩
  intro a T hT
  have hfed : Fed start.refillFrac govBurstMs start.creditMs start.lastMs.toNat
      (draws airtime start cs) := fed_draws hfrac hwithin hclock
  have hbound := hfed.spentIn_le hfrac govBurst_pos.le (show a ≤ a + T by linarith)
  rw [← announceAirtime_eq] at hbound
  rwa [show a + T - a = T by ring] at hbound

/-- A frame of one type with 22 zero bytes besides. -/
def typedFrame (type : UInt8) : List UInt8 := 1 :: type :: List.replicate 21 0

/-- An announce, a long message right after it, and another announce. -/
theorem governor_bounds_mixed :
    let cs : List AdmitCall := [⟨1000, false, typedFrame bitchatMsgAnnounce⟩,
      ⟨1001, false, typedFrame bitchatMsgMessage⟩, ⟨1002, false, typedFrame bitchatMsgAnnounce⟩]
    let start : Governor Rat := .init 25 1000
    (∀ pre, pre <+: cs →
      -govBurstMs ≤ (final (admitStep fun _ => 900) start pre).creditMs ∧
        (final (admitStep fun _ => 900) start pre).creditMs ≤ govBurstMs) ∧
    (∀ a T : Rat, 0 ≤ T →
      announceAirtime (fun _ => 900) a (a + T) (admissions (fun _ => 900) start cs) ≤
        govBurstMs + start.refillFrac * T) ∧
    ∀ e ∈ admissions (fun _ => 900) start cs, pktMinLen ≤ e.call.data.length →
      trunkAnnounce e.call.type = false → otaType e.call.type = false → e.admitted = true :=
  governor_bounds (fun _ => 900) 25 ⟨by decide, by decide, by decide, trivial⟩

end Bitle
