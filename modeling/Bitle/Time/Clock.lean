import Bitle.Lib.Run
import Mathlib.Data.UInt

/-!
# Bitle — the wall clock (`components/bitchat_utils/bitchat_time.c`)

The clock is an offset added to the monotonic clock. Timestamps of peers move it: any packet of a
direct peer through `bitchat_time_consider_peer`, announces through
`bitchat_time_consider_peer_announce`, which alone may step it by more than 30 s.

`Anchored` is the invariant of the two: the clock is at or ahead of the anchor, by 30 s at most.
`clock_follows_phone` is what it gives after a phone's announce. Writing the estimate to NVS has no
part in it and is left out.
-/

namespace Bitle

open Run

/-! ## State -/

def minValidEpochSeconds : UInt64 := 1704067200

/-- `MAX_CLOCK_SKEW_SECONDS` in milliseconds. -/
def skewMs : UInt64 := 30 * 1000

/-- The statics of the module. -/
structure TimeState where
  epochBaseMs : UInt64
  timeValid : Bool
  peerSynced : Bool
  syncGeneration : UInt32
  anchorWallMs : UInt64
  anchorMonoMs : UInt64
  timeAuthoritative : Bool
  deriving DecidableEq

/-- `bitchat_time_init`, with the stored estimate and the build time. -/
def TimeState.init (stored build : UInt64) : TimeState :=
  let base := if stored > build then stored else build
  { epochBaseMs := base, timeValid := base / 1000 ≥ minValidEpochSeconds, peerSynced := false
    syncGeneration := 0, anchorWallMs := 0, anchorMonoMs := 0, timeAuthoritative := false }

/-- `bitchat_time_now_ms` at monotonic time `now`. -/
def bitchatTimeNowMs (st : TimeState) (now : UInt64) : UInt64 :=
  if st.epochBaseMs = 0 then 0 else st.epochBaseMs + now

/-- The check both entry points start with. -/
def timestampUsable (t : UInt64) : Bool := t != 0 && t / 1000 ≥ minValidEpochSeconds

namespace TimeState

/-- `current_epoch`. -/
def clock (st : TimeState) (now : UInt64) : UInt64 := st.epochBaseMs + now

/-- The distance of a timestamp from the clock. -/
def delta (st : TimeState) (now t : UInt64) : UInt64 :=
  if t > st.clock now then t - st.clock now else st.clock now - t

/-- The furthest the clock may be tracked forward. -/
def cap (st : TimeState) (now : UInt64) : UInt64 :=
  st.anchorWallMs + (now - st.anchorMonoMs) + skewMs

/-- Follow a timestamp ahead of the clock, up to the cap. -/
def trackForward (st : TimeState) (now t : UInt64) : TimeState :=
  if t > st.clock now ∧ t ≤ st.cap now then { st with epochBaseMs := t - now } else st

/-- Set the clock and the anchor. -/
def setClock (st : TimeState) (now t : UInt64) : TimeState :=
  { st with epochBaseMs := t - now, syncGeneration := st.syncGeneration + 1
            anchorWallMs := t, anchorMonoMs := now }

end TimeState

/-- `bitchat_time_consider_peer`. -/
def bitchatTimeConsiderPeer (st : TimeState) (now t : UInt64) : TimeState :=
  if !timestampUsable t then st
  else if !st.peerSynced then { st.setClock now t with timeValid := true, peerSynced := true }
  else if st.delta now t > skewMs then st
  else st.trackForward now t

/-- `bitchat_time_consider_peer_announce`. -/
def bitchatTimeConsiderPeerAnnounce (st : TimeState) (now t : UInt64)
    (peerIsInfra peerIsAuthoritative : Bool) : TimeState :=
  if !timestampUsable t then st
  else
    let sourceIsPhone := !peerIsInfra
    let sourceAuthoritative := sourceIsPhone || peerIsAuthoritative
    if !st.peerSynced then
      { st.setClock now t with
        timeValid := true, peerSynced := true, timeAuthoritative := sourceAuthoritative }
    else
      let allowLarge := sourceIsPhone || (peerIsAuthoritative && !st.timeAuthoritative)
      if st.delta now t ≤ skewMs then
        let st' := st.trackForward now t
        if sourceAuthoritative && !st.timeAuthoritative then
          { st' with timeAuthoritative := true, syncGeneration := st'.syncGeneration + 1 }
        else st'
      else if allowLarge then
        { st.setClock now t with
          timeAuthoritative := st.timeAuthoritative || sourceAuthoritative }
      else st

/-! ## Runs -/

/-- A call with the monotonic time it reads. -/
inductive TimeCall where
  | peer (now t : UInt64)
  | announce (now t : UInt64) (peerIsInfra peerIsAuthoritative : Bool)
  deriving DecidableEq

namespace TimeCall

def now : TimeCall → UInt64
  | peer now _ => now
  | announce now _ _ _ => now

def timestamp : TimeCall → UInt64
  | peer _ t => t
  | announce _ t _ _ => t

/-- The announce of a phone. -/
def isPhone : TimeCall → Bool
  | peer _ _ => false
  | announce _ _ peerIsInfra _ => !peerIsInfra

end TimeCall

def timeStep (st : TimeState) : TimeCall → TimeState
  | .peer now t => bitchatTimeConsiderPeer st now t
  | .announce now t peerIsInfra peerIsAuthoritative =>
    bitchatTimeConsiderPeerAnnounce st now t peerIsInfra peerIsAuthoritative

/-- A reading of `monotonic_ms`: whole milliseconds of a signed 64-bit count of microseconds. -/
def IsMono (m : UInt64) : Prop := m.toNat * 1000 < 2 ^ 63

/-- The calls read a clock that does not go back, and their timestamps are below `2^63`. -/
structure Timeline (cs : List TimeCall) : Prop where
  mono : cs.Pairwise fun a b => a.now ≤ b.now
  isMono : ∀ c ∈ cs, IsMono c.now
  timestamp_lt : ∀ c ∈ cs, c.timestamp.toNat < 2 ^ 63

/-- The call (re)acquires the clock: the first sync, or a correction beyond the skew. -/
def Corrects (st : TimeState) : TimeCall → Prop
  | .peer _ t => timestampUsable t ∧ st.peerSynced = false
  | .announce now t peerIsInfra peerIsAuthoritative =>
    timestampUsable t ∧ (st.peerSynced = false ∨ st.delta now t > skewMs ∧
      (peerIsInfra = false ∨ peerIsAuthoritative = true ∧ st.timeAuthoritative = false))

/-! ## The anchor -/

namespace TimeState

variable {st : TimeState} {m now t : UInt64}

/-- What the anchor says the time is. -/
def anchorAt (st : TimeState) (m : UInt64) : Nat :=
  st.anchorWallMs.toNat + (m.toNat - st.anchorMonoMs.toNat)

/-- At `m` the clock is at the anchor or ahead of it, by 30 s at most. -/
structure Anchored (st : TimeState) (m : UInt64) : Prop where
  mono_le : st.anchorMonoMs ≤ m
  wall_lt : st.anchorWallMs.toNat < 2 ^ 63
  le_clock : st.anchorAt m ≤ (st.clock m).toNat
  clock_le : (st.clock m).toNat ≤ st.anchorAt m + 30000

/-- An anchored clock runs with the monotonic clock and does not wrap. -/
theorem Anchored.clock_advance (h : st.Anchored m) (hle : m ≤ now) (hmono : IsMono now) :
    (st.clock now).toNat = (st.clock m).toNat + (now.toNat - m.toNat) := by
  have hle' := UInt64.le_iff_toNat_le.mp hle
  have hbase := st.epochBaseMs.toNat_lt
  have hclock := h.clock_le
  have hwall := h.wall_lt
  unfold IsMono at hmono
  unfold anchorAt clock at *
  rw [UInt64.toNat_add] at hclock ⊢
  rw [UInt64.toNat_add]
  omega

theorem Anchored.advance (h : st.Anchored m) (hle : m ≤ now) (hmono : IsMono now) :
    st.Anchored now := by
  have hle' := UInt64.le_iff_toNat_le.mp hle
  have hm := UInt64.le_iff_toNat_le.mp h.mono_le
  have hadv := h.clock_advance hle hmono
  have hlow := h.le_clock
  have hhigh := h.clock_le
  unfold anchorAt at hlow hhigh
  refine ⟨UInt64.le_trans h.mono_le hle, h.wall_lt, ?_, ?_⟩
  · unfold anchorAt
    omega
  · unfold anchorAt
    omega

theorem Anchored.toNat_cap (h : st.Anchored now) (hmono : IsMono now) :
    (st.cap now).toNat = st.anchorAt now + 30000 := by
  have hwall := h.wall_lt
  have hskew : skewMs.toNat = 30000 := rfl
  unfold IsMono at hmono
  unfold cap anchorAt
  rw [UInt64.toNat_add, UInt64.toNat_add, UInt64.toNat_sub_of_le _ _ h.mono_le, hskew]
  omega

/-- Setting the clock to `t` makes it show `t`. -/
theorem clock_set (h : st.epochBaseMs = t - now) : st.clock now = t := by
  rw [clock, h, UInt64.sub_add_cancel]

theorem anchored_setClock (ht : t.toNat < 2 ^ 63) (h : st.epochBaseMs = t - now)
    (hwall : st.anchorWallMs = t) (hanchor : st.anchorMonoMs = now) : st.Anchored now := by
  refine ⟨UInt64.le_of_eq hanchor, hwall ▸ ht, ?_, ?_⟩
  · rw [clock_set h, anchorAt, hwall, hanchor]
    omega
  · rw [clock_set h, anchorAt, hwall, hanchor]
    omega

/-- Tracking moves the clock forward only, and not beyond the cap. -/
theorem Anchored.trackForward (h : st.Anchored now) (hmono : IsMono now) (t : UInt64) :
    (st.trackForward now t).Anchored now ∧ st.clock now ≤ (st.trackForward now t).clock now := by
  unfold TimeState.trackForward
  split
  · next hc =>
    obtain ⟨hgt, hcap⟩ := hc
    have hcap' := UInt64.le_iff_toNat_le.mp hcap
    have hgt' := UInt64.lt_iff_toNat_lt.mp hgt
    rw [h.toNat_cap hmono] at hcap'
    have hlow := h.le_clock
    have hset : TimeState.clock { st with epochBaseMs := t - now } now = t := clock_set rfl
    refine ⟨⟨h.mono_le, h.wall_lt, ?_, ?_⟩, ?_⟩
    · rw [hset]
      show st.anchorAt now ≤ _
      omega
    · rw [hset]
      exact hcap'
    · rw [hset]
      exact UInt64.le_of_lt hgt
  · exact ⟨h, UInt64.le_refl _⟩

theorem trackForward_fields (st : TimeState) (now t : UInt64) :
    (st.trackForward now t).peerSynced = st.peerSynced ∧
      (st.trackForward now t).anchorWallMs = st.anchorWallMs ∧
      (st.trackForward now t).anchorMonoMs = st.anchorMonoMs ∧
      (st.trackForward now t).timeAuthoritative = st.timeAuthoritative := by
  unfold TimeState.trackForward
  split
  · exact ⟨rfl, rfl, rfl, rfl⟩
  · exact ⟨rfl, rfl, rfl, rfl⟩

end TimeState

/-! ## One call -/

section Step

variable {st : TimeState} {c : TimeCall}

/-- A call that does not correct the clock leaves it alone or tracks it forward; authority is not
taken back. -/
theorem timeStep_of_not_corrects (hsync : st.peerSynced = true) (hc : ¬ Corrects st c) :
    timeStep st c = st ∨ ∃ authoritative generation,
      (st.timeAuthoritative = true → authoritative = true) ∧
      timeStep st c = { st.trackForward c.now c.timestamp with
        timeAuthoritative := authoritative, syncGeneration := generation } := by
  cases c with
  | peer now t =>
    rw [timeStep]
    unfold bitchatTimeConsiderPeer
    rw [hsync]
    split
    · exact .inl rfl
    · rw [if_neg (by decide)]
      split
      · exact .inl rfl
      · exact .inr ⟨_, _, fun h => ((st.trackForward_fields now t).2.2.2.trans h), rfl⟩
  | announce now t peerIsInfra peerIsAuthoritative =>
    rw [timeStep]
    unfold bitchatTimeConsiderPeerAnnounce
    rw [hsync]
    by_cases husable : timestampUsable t = true
    · rw [husable, if_neg (by decide)]
      dsimp only
      rw [if_neg (by decide)]
      by_cases hdelta : st.delta now t ≤ skewMs
      · rw [if_pos hdelta]
        split
        · exact .inr ⟨_, _, fun _ => rfl, rfl⟩
        · exact .inr ⟨_, _, fun h => ((st.trackForward_fields now t).2.2.2.trans h), rfl⟩
      · rw [if_neg hdelta]
        -- out of the window and not allowed to correct
        have hsmall : ¬ (!peerIsInfra || (peerIsAuthoritative && !st.timeAuthoritative)) = true := by
          intro hallow
          refine hc ⟨husable, .inr ⟨UInt64.not_le.mp hdelta, ?_⟩⟩
          simpa using hallow
        rw [if_neg hsmall]
        exact .inl rfl
    · rw [if_pos (by simpa using husable)]
      exact .inl rfl

/-- A call that corrects the clock sets it and the anchor. -/
theorem timeStep_of_corrects (hc : Corrects st c) :
    (timeStep st c).epochBaseMs = c.timestamp - c.now ∧
      (timeStep st c).anchorWallMs = c.timestamp ∧ (timeStep st c).anchorMonoMs = c.now ∧
      (timeStep st c).peerSynced = true ∧ (c.isPhone = true → (timeStep st c).timeAuthoritative = true) := by
  cases c with
  | peer now t =>
    obtain ⟨husable, hsync⟩ := hc
    rw [timeStep]
    unfold bitchatTimeConsiderPeer
    rw [husable, hsync, if_neg (by decide), if_pos (by decide)]
    exact ⟨rfl, rfl, rfl, rfl, fun h => by cases h⟩
  | announce now t peerIsInfra peerIsAuthoritative =>
    obtain ⟨husable, hcase⟩ := hc
    rw [timeStep]
    unfold bitchatTimeConsiderPeerAnnounce
    rw [husable, if_neg (by decide)]
    dsimp only
    cases hsync : st.peerSynced with
    | false =>
      rw [if_pos (by decide)]
      refine ⟨rfl, rfl, rfl, rfl, fun hphone => ?_⟩
      have hphone' : (!peerIsInfra) = true := hphone
      simp [hphone']
    | true =>
      rw [hsync] at hcase
      obtain ⟨hdelta, hallow⟩ := hcase.resolve_left (by decide)
      have hallow' : (!peerIsInfra || (peerIsAuthoritative && !st.timeAuthoritative)) = true := by
        simpa using hallow
      rw [if_neg (by decide), if_neg (UInt64.not_le.mpr hdelta), if_pos hallow']
      refine ⟨rfl, rfl, rfl, hsync, fun hphone => ?_⟩
      have hphone' : (!peerIsInfra) = true := hphone
      simp [hphone']

/-- Before the first sync a call that acquires nothing is ignored. -/
theorem timeStep_of_unsynced (hsync : st.peerSynced = false) (hc : ¬ Corrects st c) :
    timeStep st c = st := by
  cases c with
  | peer now t =>
    have hno : timestampUsable t = false := by
      by_contra hu
      exact hc ⟨by simpa using hu, hsync⟩
    show bitchatTimeConsiderPeer st now t = st
    rw [bitchatTimeConsiderPeer, hno, if_pos (by decide)]
  | announce now t peerIsInfra peerIsAuthoritative =>
    have hno : timestampUsable t = false := by
      by_contra hu
      exact hc ⟨by simpa using hu, .inl hsync⟩
    show bitchatTimeConsiderPeerAnnounce st now t peerIsInfra peerIsAuthoritative = st
    rw [bitchatTimeConsiderPeerAnnounce, hno, if_pos (by decide)]

/-- **A call that does not correct the clock** keeps the anchor and moves the clock forward. -/
theorem timeStep_tracks (hsync : st.peerSynced = true) (h : st.Anchored c.now)
    (hmono : IsMono c.now) (hc : ¬ Corrects st c) :
    (timeStep st c).peerSynced = true ∧ (timeStep st c).Anchored c.now ∧
      st.clock c.now ≤ (timeStep st c).clock c.now ∧
      (timeStep st c).anchorWallMs = st.anchorWallMs ∧
      (timeStep st c).anchorMonoMs = st.anchorMonoMs ∧
      (st.timeAuthoritative = true → (timeStep st c).timeAuthoritative = true) := by
  rcases timeStep_of_not_corrects hsync hc with heq | ⟨auth, gen, hauth, heq⟩
  · rw [heq]
    exact ⟨hsync, h, UInt64.le_refl _, rfl, rfl, id⟩
  · obtain ⟨hs, hw, hm, -⟩ := st.trackForward_fields c.now c.timestamp
    obtain ⟨hanch, hle⟩ := h.trackForward hmono c.timestamp
    rw [heq]
    exact ⟨hs.trans hsync, ⟨hanch.mono_le, hanch.wall_lt, hanch.le_clock, hanch.clock_le⟩, hle, hw,
      hm, hauth⟩

/-- A call at `c.now` anchors the clock or keeps it anchored. -/
theorem timeStep_anchored (h : st.peerSynced = true → st.Anchored c.now) (hmono : IsMono c.now)
    (ht : c.timestamp.toNat < 2 ^ 63) :
    (timeStep st c).peerSynced = true → (timeStep st c).Anchored c.now := by
  intro hafter
  by_cases hc : Corrects st c
  · obtain ⟨hbase, hwall, hanchor, -, -⟩ := timeStep_of_corrects hc
    exact TimeState.anchored_setClock ht hbase hwall hanchor
  · cases hsync : st.peerSynced with
    | true => exact (timeStep_tracks hsync (h hsync) hmono hc).2.1
    | false =>
      -- not synced, and nothing acquired: the call was ignored
      rw [timeStep_of_unsynced hsync hc, hsync] at hafter
      cases hafter

end Step

/-! ## Whole runs -/

section Runs

variable {st : TimeState} {m0 m : UInt64} {cs : List TimeCall}

theorem Timeline.tail {c : TimeCall} (h : Timeline (c :: cs)) : Timeline cs where
  mono := (List.pairwise_cons.mp h.mono).2
  isMono := fun d hd => h.isMono d (List.mem_cons_of_mem _ hd)
  timestamp_lt := fun d hd => h.timestamp_lt d (List.mem_cons_of_mem _ hd)

theorem Timeline.append {as bs : List TimeCall} (h : Timeline (as ++ bs)) :
    Timeline as ∧ Timeline bs ∧ ∀ a ∈ as, ∀ b ∈ bs, a.now ≤ b.now := by
  obtain ⟨ha, hb, hab⟩ := List.pairwise_append.mp h.mono
  refine ⟨⟨ha, ?_, ?_⟩, ⟨hb, ?_, ?_⟩, hab⟩
  · exact fun c hc => h.isMono c (List.mem_append_left _ hc)
  · exact fun c hc => h.timestamp_lt c (List.mem_append_left _ hc)
  · exact fun c hc => h.isMono c (List.mem_append_right _ hc)
  · exact fun c hc => h.timestamp_lt c (List.mem_append_right _ hc)

/-- In every reachable state a synced clock is anchored. -/
theorem anchored_run (htl : Timeline cs) (hfrom : ∀ c ∈ cs, m0 ≤ c.now)
    (hle : ∀ c ∈ cs, c.now ≤ m) (hm0 : m0 ≤ m) (hmono : IsMono m)
    (h : st.peerSynced = true → st.Anchored m0) :
    (final timeStep st cs).peerSynced = true → (final timeStep st cs).Anchored m := by
  induction cs generalizing st m0 with
  | nil => exact fun hs => (h hs).advance hm0 hmono
  | cons c cs ih =>
    have hc := htl.isMono c List.mem_cons_self
    refine ih htl.tail (fun d hd => (List.pairwise_cons.mp htl.mono).1 d hd)
      (fun d hd => hle d (List.mem_cons_of_mem _ hd)) (hle c List.mem_cons_self) ?_
    exact timeStep_anchored (fun hs => (h hs).advance (hfrom c List.mem_cons_self) hc) hc
      (htl.timestamp_lt c List.mem_cons_self)

theorem anchored_run_init (stored build : UInt64) (htl : Timeline cs)
    (hle : ∀ c ∈ cs, c.now ≤ m) (hmono : IsMono m) :
    (final timeStep (.init stored build) cs).peerSynced = true →
      (final timeStep (.init stored build) cs).Anchored m :=
  anchored_run htl (fun _ _ => UInt64.zero_le) hle UInt64.zero_le hmono fun h => by cases h

/-- **Between corrections** the anchor stays, the clock only gains, and it stays within 30 s of the
anchor. -/
theorem tracks_run (htl : Timeline cs) (hfrom : ∀ c ∈ cs, m0 ≤ c.now)
    (hle : ∀ c ∈ cs, c.now ≤ m) (hm0 : m0 ≤ m) (hmono : IsMono m) (hsync : st.peerSynced = true)
    (h : st.Anchored m0) (hrun : Along timeStep (fun st c => ¬ Corrects st c) st cs) :
    (final timeStep st cs).anchorWallMs = st.anchorWallMs ∧
      (final timeStep st cs).anchorMonoMs = st.anchorMonoMs ∧
      (final timeStep st cs).Anchored m ∧
      st.clock m ≤ (final timeStep st cs).clock m := by
  induction cs generalizing st m0 with
  | nil => exact ⟨rfl, rfl, h.advance hm0 hmono, UInt64.le_refl _⟩
  | cons c cs ih =>
    have hc := htl.isMono c List.mem_cons_self
    have hcm := hle c List.mem_cons_self
    have hnow := h.advance (hfrom c List.mem_cons_self) hc
    obtain ⟨hs', hanch, hgain, hwall, hanchor, -⟩ := timeStep_tracks hsync hnow hc hrun.1
    obtain ⟨hw, ha, hfinal, hle'⟩ := ih htl.tail
      (fun d hd => (List.pairwise_cons.mp htl.mono).1 d hd)
      (fun d hd => hle d (List.mem_cons_of_mem _ hd)) hcm hs' hanch hrun.2
    refine ⟨hw.trans hwall, ha.trans hanchor, hfinal, UInt64.le_trans ?_ hle'⟩
    rw [UInt64.le_iff_toNat_le] at hgain ⊢
    rw [hnow.clock_advance hcm hmono, hanch.clock_advance hcm hmono]
    omega

/-- Once the clock traces to a phone, only a phone corrects it. -/
theorem along_not_corrects (hsync : st.peerSynced = true) (hauth : st.timeAuthoritative = true)
    (htl : Timeline cs) (hfrom : ∀ c ∈ cs, m0 ≤ c.now) (h : st.Anchored m0)
    (hphone : ∀ c ∈ cs, c.isPhone = false) :
    Along timeStep (fun st c => ¬ Corrects st c) st cs := by
  induction cs generalizing st m0 with
  | nil => trivial
  | cons c cs ih =>
    have hc := htl.isMono c List.mem_cons_self
    have hnot : ¬ Corrects st c := by
      have hp := hphone c List.mem_cons_self
      cases c with
      | peer now t =>
        rintro ⟨-, hs⟩
        rw [hsync] at hs
        cases hs
      | announce now t peerIsInfra peerIsAuthoritative =>
        rintro ⟨-, hs | ⟨-, hinfra | ⟨-, ha⟩⟩⟩
        · rw [hsync] at hs
          cases hs
        · rw [hinfra] at hp
          cases hp
        · rw [hauth] at ha
          cases ha
    obtain ⟨hs', hanch, -, -, -, hkeep⟩ :=
      timeStep_tracks hsync (h.advance (hfrom c List.mem_cons_self) hc) hc hnot
    exact ⟨hnot, ih hs' (hkeep hauth) htl.tail
      (fun d hd => (List.pairwise_cons.mp htl.mono).1 d hd) hanch
      fun d hd => hphone d (List.mem_cons_of_mem _ hd)⟩

end Runs

theorem timestamp_ge {t : UInt64} (h : timestampUsable t = true) : 1704067200000 ≤ t.toNat := by
  unfold timestampUsable at h
  rw [Bool.and_eq_true, decide_eq_true_eq, ge_iff_le, UInt64.le_iff_toNat_le, UInt64.toNat_div] at h
  have hmin : minValidEpochSeconds.toNat = 1704067200 := rfl
  have hk : (1000 : UInt64).toNat = 1000 := rfl
  rw [hmin, hk] at h
  omega

/-- A phone's announce within the window: tracked, and the clock is authoritative. -/
theorem phone_in_window {st : TimeState} {m0 t : UInt64} (auth : Bool)
    (husable : timestampUsable t = true) (hsync : st.peerSynced = true)
    (hdelta : st.delta m0 t ≤ skewMs) : ∃ generation,
      timeStep st (.announce m0 t false auth) = { st.trackForward m0 t with
        timeAuthoritative := true, syncGeneration := generation } := by
  rw [timeStep]
  unfold bitchatTimeConsiderPeerAnnounce
  dsimp only
  rw [husable, hsync, if_neg (by decide), if_neg (by decide), if_pos hdelta]
  cases hauth : st.timeAuthoritative with
  | false =>
    rw [if_pos (by simp)]
    exact ⟨_, rfl⟩
  | true =>
    rw [if_neg (by simp)]
    refine ⟨(st.trackForward m0 t).syncGeneration, ?_⟩
    have hkeep := (st.trackForward_fields m0 t).2.2.2.trans hauth
    rw [← hkeep]

/-- Tracked or not, the clock ends up within the skew of a timestamp in the window. -/
theorem trackForward_near {st : TimeState} {now t : UInt64} (hdelta : st.delta now t ≤ skewMs) :
    t.toNat ≤ ((st.trackForward now t).clock now).toNat + 30000 ∧
      ((st.trackForward now t).clock now).toNat ≤ t.toNat + 30000 := by
  have hd := UInt64.le_iff_toNat_le.mp hdelta
  rw [show skewMs.toNat = 30000 from rfl] at hd
  unfold TimeState.trackForward
  split
  · rw [TimeState.clock_set rfl]
    exact ⟨Nat.le_add_right _ _, Nat.le_add_right _ _⟩
  · unfold TimeState.delta at hd
    split at hd
    · next hgt =>
      have hgt' := UInt64.lt_iff_toNat_lt.mp hgt
      rw [UInt64.toNat_sub_of_le _ _ (UInt64.le_of_lt hgt)] at hd
      omega
    · next hle =>
      have hle' := UInt64.le_iff_toNat_le.mp (UInt64.not_lt.mp hle)
      rw [UInt64.toNat_sub_of_le _ _ (UInt64.not_lt.mp hle)] at hd
      omega

/-- **A phone's announce** leaves an authoritative clock within 30 s of its timestamp. -/
theorem phone_announce {st : TimeState} {m0 t : UInt64} (auth : Bool)
    (husable : timestampUsable t = true) (ht : t.toNat < 2 ^ 63) (hmono : IsMono m0)
    (h : st.peerSynced = true → st.Anchored m0) :
    (timeStep st (.announce m0 t false auth)).peerSynced = true ∧
      (timeStep st (.announce m0 t false auth)).timeAuthoritative = true ∧
      (timeStep st (.announce m0 t false auth)).Anchored m0 ∧
      t.toNat ≤ ((timeStep st (.announce m0 t false auth)).clock m0).toNat + 30000 ∧
      ((timeStep st (.announce m0 t false auth)).clock m0).toNat ≤ t.toNat + 30000 := by
  by_cases hc : Corrects st (.announce m0 t false auth)
  · obtain ⟨hbase, hwall, hanchor, hsync, hphone⟩ := timeStep_of_corrects hc
    have hclock : (timeStep st (.announce m0 t false auth)).clock m0 = t :=
      TimeState.clock_set hbase
    refine ⟨hsync, hphone rfl, TimeState.anchored_setClock ht hbase hwall hanchor, ?_, ?_⟩
    · rw [hclock]
      exact Nat.le_add_right _ _
    · rw [hclock]
      exact Nat.le_add_right _ _
  · -- synced and within the window
    have hsync : st.peerSynced = true := by
      by_contra hs
      exact hc ⟨husable, .inl (by simpa using hs)⟩
    have hdelta : st.delta m0 t ≤ skewMs := by
      by_contra hd
      exact hc ⟨husable, .inr ⟨UInt64.not_le.mp hd, .inl rfl⟩⟩
    obtain ⟨generation, heq⟩ := phone_in_window auth husable hsync hdelta
    obtain ⟨hanch, -⟩ := (h hsync).trackForward hmono t
    rw [heq]
    exact ⟨(st.trackForward_fields m0 t).1.trans hsync, rfl,
      ⟨hanch.mono_le, hanch.wall_lt, hanch.le_clock, hanch.clock_le⟩, trackForward_near hdelta⟩

/-- **The clock after a phone's announce.** In any run, whatever other peers say afterwards, the
clock stays between 30 s behind and 60 s ahead of the phone's time; and between corrections it only
gains, staying within 30 s of the anchor. The last clause of the first part is that
`bitchat_time_now_ms` shows this clock, for 54 years of uptime: an offset of zero, which it takes
for "no time", needs an uptime as large as the timestamp. -/
theorem clock_follows_phone (stored build : UInt64) :
    (∀ (pre post : List TimeCall) (m0 t m : UInt64) (auth : Bool),
      Timeline (pre ++ .announce m0 t false auth :: post) → timestampUsable t = true →
      (∀ c ∈ post, c.isPhone = false) →
      (∀ c ∈ pre ++ .announce m0 t false auth :: post, c.now ≤ m) → IsMono m →
      let st := final timeStep (.init stored build) (pre ++ .announce m0 t false auth :: post)
      t.toNat + (m.toNat - m0.toNat) ≤ (st.clock m).toNat + 30000 ∧
        (st.clock m).toNat ≤ t.toNat + (m.toNat - m0.toNat) + 60000 ∧
        (m.toNat < 1704067170000 → bitchatTimeNowMs st m = st.clock m)) ∧
    (∀ (pre mid : List TimeCall) (m : UInt64), Timeline (pre ++ mid) →
      (∀ c ∈ pre ++ mid, c.now ≤ m) → IsMono m →
      let st := final timeStep (.init stored build) pre
      let st' := final timeStep st mid
      st.peerSynced = true → Along timeStep (fun st c => ¬ Corrects st c) st mid →
      st.clock m ≤ st'.clock m ∧ st'.anchorWallMs = st.anchorWallMs ∧
        st'.anchorMonoMs = st.anchorMonoMs ∧ (st'.clock m).toNat ≤ st'.anchorAt m + 30000) := by
  constructor
  · intro pre post m0 t m auth htl husable hphone hle hmono st
    obtain ⟨htlpre, htlpost, hcross⟩ := htl.append
    have hmem : TimeCall.announce m0 t false auth ∈
        pre ++ TimeCall.announce m0 t false auth :: post :=
      List.mem_append_right _ List.mem_cons_self
    have hm0 : IsMono m0 := htl.isMono (.announce m0 t false auth) hmem
    have hm0m : m0 ≤ m := hle (.announce m0 t false auth) hmem
    have ht : t.toNat < 2 ^ 63 := htl.timestamp_lt (.announce m0 t false auth) hmem
    -- up to the announce, through it, and on
    have hbefore := anchored_run_init stored build htlpre
      (fun c hc => hcross c hc (.announce m0 t false auth) List.mem_cons_self) hm0
    obtain ⟨hsync, hauth, hanch, hlow, hhigh⟩ := phone_announce auth husable ht hm0 hbefore
    have hfrom : ∀ c ∈ post, m0 ≤ c.now := (List.pairwise_cons.mp htlpost.mono).1
    obtain ⟨hwall, hanchor, hfinal, hgain⟩ := tracks_run htlpost.tail hfrom
      (fun c hc => hle c (List.mem_append_right _ (List.mem_cons_of_mem _ hc))) hm0m hmono hsync
      hanch (along_not_corrects hsync hauth htlpost.tail hfrom hanch hphone)
    have hst : st = final timeStep (timeStep (final timeStep (.init stored build) pre)
        (.announce m0 t false auth)) post := by
      show final timeStep _ (pre ++ _) = _
      rw [final_append, final_cons]
    rw [← hst] at hfinal hgain hwall hanchor
    generalize timeStep (final timeStep (.init stored build) pre) (.announce m0 t false auth) =
      st0 at hanch hlow hhigh hgain hst hwall hanchor
    have hsame : st.anchorAt m = st0.anchorAt m := by
      rw [TimeState.anchorAt, TimeState.anchorAt, hwall, hanchor]
    have hadv := hanch.clock_advance hm0m hmono
    have hlow0 := (hanch.advance hm0m hmono).le_clock
    have hcap := hfinal.clock_le
    have hgain' := UInt64.le_iff_toNat_le.mp hgain
    refine ⟨by omega, by omega, ?_⟩
    intro hearly
    -- the clock is later than the uptime, so the offset is not zero
    have hbase : st.epochBaseMs ≠ 0 := by
      intro hzero
      have hclock : st.clock m = m := by rw [TimeState.clock, hzero, UInt64.zero_add]
      have husable' := timestamp_ge husable
      rw [hclock] at hgain' hcap
      omega
    rw [bitchatTimeNowMs, if_neg hbase]
    rfl
  · intro pre mid m htl hle hmono st st' hsync hrun
    obtain ⟨htlpre, htlmid, hcross⟩ := htl.append
    cases mid with
    | nil =>
      have hanch := anchored_run_init stored build htlpre
        (fun c hc => hle c (List.mem_append_left _ hc)) hmono hsync
      exact ⟨UInt64.le_refl _, rfl, rfl, hanch.clock_le⟩
    | cons c mid =>
      have hanch := anchored_run_init stored build htlpre
        (fun d hd => hcross d hd c List.mem_cons_self) (htlmid.isMono c List.mem_cons_self) hsync
      obtain ⟨hw, ha, hfinal, hgain⟩ := tracks_run htlmid
        (fun d hd => by
          rcases List.mem_cons.mp hd with rfl | hd
          · exact UInt64.le_refl _
          · exact (List.pairwise_cons.mp htlmid.mono).1 d hd)
        (fun d hd => hle d (List.mem_append_right _ hd))
        (hle c (List.mem_append_right _ List.mem_cons_self)) hmono hsync hanch hrun
      exact ⟨hgain, hw, ha, hfinal.clock_le⟩

/-- A phone sets the clock; a second later a packet claims to be ten seconds ahead. -/
def phoneThenPacket : List TimeCall :=
  [.announce 1000 1704067200000 false false, .peer 2000 1704067211000]

theorem clock_follows_phone_tracked :
    ((final timeStep (.init 0 0) phoneThenPacket).clock 5000).toNat ≤ 1704067264000 ∧
      bitchatTimeNowMs (final timeStep (.init 0 0) phoneThenPacket) 5000 =
        (final timeStep (.init 0 0) phoneThenPacket).clock 5000 := by
  have htl : Timeline phoneThenPacket := by
    refine ⟨List.pairwise_pair.mpr (by decide), ?_, ?_⟩
    · unfold IsMono phoneThenPacket
      decide
    · unfold phoneThenPacket
      decide
  obtain ⟨-, hhigh, hshown⟩ := (clock_follows_phone 0 0).1 [] [.peer 2000 1704067211000] 1000
    1704067200000 5000 false htl (by decide) (by decide) (by decide) (by unfold IsMono; decide)
  exact ⟨hhigh, hshown (by decide)⟩

end Bitle
