import Bitle.Courier.Courier
import Bitle.Store.Boot

/-!
# Bitle — the tag window (`candidate_tags` and `bitle_courier_accept` of `main/bitle_courier.c`)

The tag of an envelope is that of the day it was sealed on. A recipient is looked for under the
tags of yesterday, today and tomorrow, while an envelope may live for 25 hours. A deposit of the
last hour of a day can still be unexpired on the day after the next, when its tag is no longer
looked for.
-/

namespace Bitle

open Wire

/-- The milliseconds of a day. -/
def dayMs : Nat := 86400000

/-- The day number of a time. -/
def dayOf (nowMs : UInt64) : Nat := nowMs.toNat / dayMs

/-- The day as `candidate_tags` computes it. -/
theorem toUInt32_day (nowMs : UInt64) :
    (nowMs / 1000 / 86400).toUInt32 = UInt32.ofNat (dayOf nowMs) := by
  apply UInt32.toNat_inj.mp
  rw [UInt64.toNat_toUInt32, UInt64.toNat_div, UInt64.toNat_div, UInt32.toNat_ofNat']
  show nowMs.toNat / 1000 / 86400 % 2 ^ 32 = nowMs.toNat / 86400000 % 2 ^ 32
  rw [Nat.div_div_eq_div_mul]

/-- The tags of today and, unless the day number is 0, of yesterday are candidates. -/
theorem mem_candidateTags (hash : CourierHash) (noiseKey : Bytes 32) {nowMs : UInt64} {day : Nat}
    (hwrap : dayOf nowMs < 2 ^ 32) (h : day = dayOf nowMs ∨ day + 1 = dayOf nowMs) :
    tagForDay hash noiseKey (.ofNat day) ∈ candidateTags hash noiseKey nowMs := by
  unfold candidateTags
  dsimp only
  rw [toUInt32_day]
  rcases h with rfl | h
  · exact List.mem_cons_of_mem _ List.mem_cons_self
  · -- a day that has a day before it is not the first
    have hpos : UInt32.ofNat (dayOf nowMs) ≠ 0 := by
      intro hzero
      have hnat := congrArg UInt32.toNat hzero
      rw [UInt32.toNat_ofNat', Nat.mod_eq_of_lt hwrap] at hnat
      rw [hnat] at h
      cases h
    have hprev : UInt32.ofNat (dayOf nowMs) - 1 = UInt32.ofNat day := by
      rw [← h, UInt32.ofNat_add]
      exact UInt32.add_sub_cancel _ _
    rw [if_neg hpos, hprev]
    exact List.mem_cons_self

theorem tagMatches_of_mem {envelope : Envelope} {tags : List (Bytes 16)}
    (h : envelope.recipientTag ∈ tags) : tagMatches envelope tags = true := by
  unfold tagMatches
  rw [List.any_eq_true]
  exact ⟨_, h, beq_self_eq_true _⟩

/-- An accepted deposit is unexpired and lives for 25 hours at most. -/
theorem expiry_of_accept {lib : CourierLib} {env : CourierEnv} {d : Deposit}
    {st st' : CourierState} {envelope : Envelope}
    (hacc : bitleCourierAccept lib env d st = .ok (true, st'))
    (hparse : parseEnvelope d.payload = some envelope) :
    d.nowMs.toNat < envelope.expiryMs.toNat ∧
      envelope.expiryMs.toNat ≤ d.nowMs.toNat + 25 * 3600000 := by
  unfold bitleCourierAccept at hacc
  cases hadm : d.admissible with
  | none =>
    rw [hadm] at hacc
    cases hacc
  | some envelope' =>
    unfold Deposit.admissible at hadm
    rw [hparse] at hadm
    dsimp only at hadm
    rw [Option.ite_none_left_eq_some, Option.ite_none_left_eq_some,
      Option.ite_none_left_eq_some] at hadm
    obtain ⟨-, hlive, hcap, -⟩ := hadm
    have hlive' := UInt64.lt_iff_toNat_lt.mp (UInt64.not_le.mp hlive)
    have hcap' := UInt64.le_iff_toNat_le.mp (UInt64.not_lt.mp hcap)
    have hcapped : (d.nowMs + courierMaxLifetimeS * 1000).toNat =
        (d.nowMs.toNat + 90000000) % 2 ^ 64 := UInt64.toNat_add _ _
    rw [hcapped] at hcap'
    have := d.nowMs.toNat_lt
    omega

/-- **Until the end of the next day** an accepted envelope that bears the tag of its day is matched
while it is unexpired. A deposit made by 23:00 expires by then. -/
theorem tags_match_to_next_day (lib : CourierLib) (env : CourierEnv) (d : Deposit)
    (st st' : CourierState) (envelope : Envelope) (noiseKey : Bytes 32) (later : UInt64)
    (hacc : bitleCourierAccept lib env d st = .ok (true, st'))
    (hparse : parseEnvelope d.payload = some envelope)
    (htag : envelope.recipientTag =
      tagForDay lib.toCourierHash noiseKey (d.nowMs / 1000 / 86400).toUInt32)
    (hlater : d.nowMs ≤ later) (hlive : later < envelope.expiryMs) (hwrap : dayOf later < 2 ^ 32)
    (hday : d.nowMs.toNat % dayMs ≤ 23 * 3600000 ∨ dayOf later ≤ dayOf d.nowMs + 1) :
    tagMatches envelope (candidateTags lib.toCourierHash noiseKey later) = true := by
  obtain ⟨-, hcap⟩ := expiry_of_accept hacc hparse
  have hlater' := UInt64.le_iff_toNat_le.mp hlater
  have hlive' := UInt64.lt_iff_toNat_lt.mp hlive
  have hnext : dayOf later ≤ dayOf d.nowMs + 1 := by
    rcases hday with hearly | hnext
    · unfold dayOf dayMs at *
      omega
    · exact hnext
  have hsame : dayOf d.nowMs ≤ dayOf later := Nat.div_le_div_right hlater'
  apply tagMatches_of_mem
  rw [htag, toUInt32_day]
  exact mem_candidateTags lib.toCourierHash noiseKey hwrap (by omega)

/-! ### A letter of half past eleven -/

/-- A library whose tags are the day numbers. -/
def dayTagLib : CourierLib where
  sha256 l := copyAt 32 l 0
  hmacSha256 _ msg := copyAt 32 msg 22
  crc32 := espCrc32Le

/-- A letter sealed and deposited at a time, for 25 hours. -/
def dayLetter (nowMs : UInt64) : Envelope where
  recipientTag := tagForDay dayTagLib.toCourierHash (zeros 32) (nowMs / 1000 / 86400).toUInt32
  expiryMs := nowMs + 25 * 3600000
  ciphertext := [7]

def dayDeposit (nowMs : UInt64) : Deposit where
  depositor := zeros 8
  verified := true
  payload := (dayLetter nowMs).bytes 1
  nowMs := nowMs

/-- The outcome of the deposit on an empty mailbox. -/
def dayOutcome (nowMs : UInt64) : Except StoreFault Bool := do
  let st ← courierRun dayTagLib (.off blankFlash) [({}, .boot)]
  let (ok, _) ← bitleCourierAccept dayTagLib {} (dayDeposit nowMs) st
  return ok

theorem toOption_bind {ε α β : Type} {x : Except ε α} {f : α → Except ε β} {b : β}
    (h : (x >>= f).toOption = some b) : ∃ a, x = .ok a ∧ (f a).toOption = some b := by
  cases x with
  | error e => cases h
  | ok a => exact ⟨a, rfl, h⟩

theorem exists_of_dayOutcome (nowMs : UInt64) (h : (dayOutcome nowMs).toOption = some true) :
    ∃ st st', bitleCourierAccept dayTagLib {} (dayDeposit nowMs) st = .ok (true, st') := by
  obtain ⟨st, -, h⟩ := toOption_bind h
  obtain ⟨⟨ok, st'⟩, hacc, hok⟩ := toOption_bind h
  obtain rfl : ok = true := Option.some.inj hok
  exact ⟨st, st', hacc⟩

/-- A deposit at noon is matched in the last millisecond of its life. -/
theorem tags_match_to_next_day_noon :
    ∃ st st', bitleCourierAccept dayTagLib {} (dayDeposit 1728043200000) st = .ok (true, st') ∧
      tagMatches (dayLetter 1728043200000)
        (candidateTags dayTagLib.toCourierHash (zeros 32) (1728043200000 + 89999999)) = true := by
  obtain ⟨st, st', hacc⟩ := exists_of_dayOutcome 1728043200000 (by decide +kernel)
  have hparse : parseEnvelope (dayDeposit 1728043200000).payload =
      some (dayLetter 1728043200000) := by decide +kernel
  have hlater : (dayDeposit 1728043200000).nowMs ≤ 1728043200000 + 89999999 := by decide
  have hlive : 1728043200000 + 89999999 < (dayLetter 1728043200000).expiryMs := by decide
  have hwrap : dayOf (1728043200000 + 89999999) < 2 ^ 32 := by
    show (1728043200000 + 89999999 : UInt64).toNat / 86400000 < 2 ^ 32
    decide
  have hnoon : (dayDeposit 1728043200000).nowMs.toNat % dayMs ≤ 23 * 3600000 := by
    show (1728043200000 : UInt64).toNat % 86400000 ≤ 23 * 3600000
    decide
  exact ⟨st, st', hacc, tags_match_to_next_day dayTagLib {} _ st st' _ _ _ hacc hparse rfl hlater
    hlive hwrap (.inl hnoon)⟩

/-- **A deposit at 23:30** is unexpired on the day after the next, and no longer matched. -/
theorem late_deposit_unmatched :
    ∃ st st', bitleCourierAccept dayTagLib {} (dayDeposit 1728084600000) st = .ok (true, st') ∧
      parseEnvelope (dayDeposit 1728084600000).payload = some (dayLetter 1728084600000) ∧
      (dayLetter 1728084600000).recipientTag = tagForDay dayTagLib.toCourierHash (zeros 32)
        ((dayDeposit 1728084600000).nowMs / 1000 / 86400).toUInt32 ∧
      (dayDeposit 1728084600000).nowMs ≤ 1728084600000 + 89999999 ∧
      1728084600000 + 89999999 < (dayLetter 1728084600000).expiryMs ∧
      tagMatches (dayLetter 1728084600000)
        (candidateTags dayTagLib.toCourierHash (zeros 32) (1728084600000 + 89999999)) = false := by
  obtain ⟨st, st', hacc⟩ := exists_of_dayOutcome 1728084600000 (by decide +kernel)
  exact ⟨st, st', hacc, by decide +kernel, rfl, by decide +kernel, by decide +kernel,
    by decide +kernel⟩

end Bitle
