import Bitle.Ota.Step
import Mathlib.Logic.Function.Basic

/-!
# Bitle — the image a node serves

`ServesRunning`: whenever `s_can_serve` is set, the manifest to serve describes the image in the
running slot. Boot and adoption check this by hashing that image. `finish_receive` does not: it
stores the manifest of the image it has just downloaded, while the old image runs on until the
restart. `serve_matches_running` says that this is the only way the property is lost.
-/

namespace Bitle

open Wire Flash Run

/-- The manifest to serve describes the running image. -/
def ServesRunning (sha256 : List UInt8 → Bytes 32) (st : OtaState) : Prop :=
  st.canServe = true → Describes sha256 st st.serveManifest

/-- A transfer writes to the slot that does not run. -/
def WritesOther (st : OtaState) : Prop := ∀ t, st.rx = some t → t.part = st.running.other

/-- The running image and the manifest to serve are the same in both states. -/
structure SameServe (st st' : OtaState) : Prop where
  running : st'.running = st.running
  image : st'.slots st.running = st.slots st.running
  serveManifest : st'.serveManifest = st.serveManifest
  canServe : st'.canServe = st.canServe

theorem SameServe.servesRunning {sha256 : List UInt8 → Bytes 32} {st st' : OtaState}
    (h : SameServe st st') : ServesRunning sha256 st' ↔ ServesRunning sha256 st := by
  unfold ServesRunning Describes
  rw [h.canServe, h.serveManifest, h.running, h.image]

theorem SameServe.trans {st st' st'' : OtaState} (h : SameServe st st')
    (h' : SameServe st' st'') : SameServe st st'' where
  running := h'.running.trans h.running
  image := by
    have := h'.image
    rw [h.running] at this
    exact this.trans h.image
  serveManifest := h'.serveManifest.trans h.serveManifest
  canServe := h'.canServe.trans h.canServe

theorem Idle.sameServe {st st' : OtaState} (h : Idle st st') : SameServe st st' where
  running := h.running
  image := by rw [h.slots]
  serveManifest := h.serveManifest
  canServe := h.canServe

/-- Idle rounds keep the transfer's slot. -/
theorem Idle.writesOther {st st' : OtaState} (h : Idle st st') (hw : WritesOther st) :
    WritesOther st' := by
  intro u hu
  rcases h.rx with hn | ⟨t, t', ht, ht', hc⟩
  · rw [hn] at hu
    simp at hu
  · rw [ht', Option.some.injEq] at hu
    subst hu
    rw [Transfer.part_of_core hc, h.running]
    exact hw t ht

theorem AppSlot.other_ne (s : AppSlot) : s ≠ s.other := by cases s <;> decide

section Task

variable {sha256 : List UInt8 → Bytes 32}
variable {ed25519SignOpen : List UInt8 → Bytes 32 → Bytes 64 → Bool}
variable {api : OtaApi}

theorem sameServe_started (env : OtaEnv) (st : OtaState) (evt : OtaEvent) (m : OtaManifest) :
    SameServe st (OtaState.started api env st evt m) where
  running := rfl
  image := Function.update_of_ne (AppSlot.other_ne _) _ _
  serveManifest := rfl
  canServe := rfl

variable (api) in
theorem sameServe_wrote {st : OtaState} {t : Transfer} (ht : t.part = st.running.other)
    (data : List UInt8) : SameServe st (st.wrote api t data) where
  running := rfl
  image := Function.update_of_ne (by rw [ht]; exact AppSlot.other_ne _) _ _
  serveManifest := rfl
  canServe := rfl

theorem sameServe_wroteFail {st : OtaState} {t : Transfer} (ht : t.part = st.running.other)
    (data : List UInt8) : SameServe st (st.wroteFail api t data) where
  running := rfl
  image := Function.update_of_ne (by rw [ht]; exact AppSlot.other_ne _) _ _
  serveManifest := rfl
  canServe := rfl

/-- What `acceptedChunk` says about the transfer. -/
theorem acceptedChunk_eq_some {st : OtaState} {evt : OtaEvent} {t : Transfer}
    {data : List UInt8} (h : acceptedChunk st evt = some (t, data)) :
    st.rx = some t ∧ u32At evt.payload 4 = t.nextChunk ∧ data = evt.payload.drop 8 ∧
      data.length = (expectedLen t.manifest t.nextChunk).toNat := by
  unfold acceptedChunk at h
  split at h
  · split at h
    · simp at h
    · next u hu =>
      split at h
      · next hc =>
        simp only [Option.some.injEq, Prod.mk.injEq] at h
        obtain ⟨rfl, rfl⟩ := h
        exact ⟨hu, hc.2.2.1, rfl, hc.2.2.2⟩
      · simp at h
  · simp at h

/-! ## Boot -/

/-- What `bitle_ota_init` leaves alone, and that what it serves describes the running image. -/
structure Boots (sha256 : List UInt8 → Bytes 32) (st st' : OtaState) : Prop where
  slots : st'.slots = st.slots
  running : st'.running = st.running
  boot : st'.boot = st.boot
  fwVersion : st'.fwVersion = st.fwVersion
  rx : st'.rx = st.rx
  log : st'.log = st.log
  serves : ServesRunning sha256 st → ServesRunning sha256 st'

theorem boots_refl (st : OtaState) : Boots sha256 st st :=
  ⟨rfl, rfl, rfl, rfl, rfl, rfl, id⟩

theorem boots_storeServeManifest {env : OtaEnv} {st : OtaState} {m : OtaManifest}
    (h : hashMatchesRunningImage sha256 env st m = true) :
    Boots sha256 st (storeServeManifest env st m) := by
  unfold storeServeManifest
  split
  · exact boots_refl st
  · exact ⟨rfl, rfl, rfl, rfl, rfl, rfl, fun _ _ => describes_of_hashMatches h⟩

variable (sha256 ed25519SignOpen) in
theorem boots_adoptManifestFromPartition (env : OtaEnv) (st : OtaState) :
    Boots sha256 st (adoptManifestFromPartition sha256 ed25519SignOpen env st) := by
  unfold adoptManifestFromPartition
  split
  · exact boots_refl st
  · split
    · exact boots_refl st
    · split
      · exact boots_refl st
      · split
        · next hm => exact boots_storeServeManifest hm
        · exact boots_refl st

variable (sha256 ed25519SignOpen) in
theorem boots_loadServeManifest (env : OtaEnv) (st : OtaState) :
    Boots sha256 st (loadServeManifest sha256 ed25519SignOpen env st) := by
  unfold loadServeManifest
  split
  · exact boots_refl st
  · split
    · exact boots_refl st
    · dsimp only
      split
      · exact ⟨rfl, rfl, rfl, rfl, rfl, rfl, id⟩
      · split
        · next hm =>
          exact ⟨rfl, rfl, rfl, rfl, rfl, rfl, fun _ _ => describes_of_hashMatches hm.2⟩
        · exact ⟨rfl, rfl, rfl, rfl, rfl, rfl, id⟩

variable (sha256 ed25519SignOpen) in
theorem boots_bitleOtaInit (env : OtaEnv) (st : OtaState) :
    Boots sha256 st (bitleOtaInit sha256 ed25519SignOpen env st) := by
  unfold bitleOtaInit
  have h := boots_loadServeManifest sha256 ed25519SignOpen env st
  dsimp only
  split
  · have h' := boots_adoptManifestFromPartition sha256
      ed25519SignOpen env
      (loadServeManifest sha256 ed25519SignOpen env st)
    exact ⟨h'.slots.trans h.slots, h'.running.trans h.running, h'.boot.trans h.boot,
      h'.fwVersion.trans h.fwVersion, h'.rx.trans h.rx, h'.log.trans h.log,
      fun hs => h'.serves (h.serves hs)⟩
  · exact h

/-! ## One step -/

theorem writesOther_acceptChunk (env : OtaEnv) (st : OtaState) {t : Transfer}
    (ht : t.part = st.running.other) (data : List UInt8) :
    WritesOther (acceptChunk sha256 api env st t data) := by
  have hwrote : WritesOther (st.wrote api t data) := by
    rintro u ⟨rfl⟩
    exact ht
  rcases acceptChunk_cases sha256 api env st t data with
    ⟨-, h⟩ | ⟨-, -, h, -⟩ | ⟨-, -, h, -⟩ | ⟨-, -, h⟩
  · exact h.writesOther (by rintro u ⟨⟩)
  · exact h.writesOther hwrote
  · exact h.writesOther hwrote
  · refine h.writesOther ?_
    unfold OtaState.switched
    dsimp only
    split
    · rintro u ⟨⟩
    · rintro u ⟨⟩

/-- Every step keeps the transfer on the other slot. -/
theorem writesOther_step {st : OtaState} (hw : WritesOther st) (i : OtaInput) :
    WritesOther (otaStep sha256 ed25519SignOpen api st i) := by
  cases i with
  | health => exact hw
  | boot b env =>
    have h := boots_bitleOtaInit sha256 ed25519SignOpen env (st.reset b)
    intro t ht
    rw [otaStep, h.rx] at ht
    cases ht
  | round evt env =>
    unfold otaStep
    dsimp only
    split
    · exact hw
    · refine (idle_poll env _).writesOther ?_
      cases evt with
      | none => exact hw
      | some evt =>
        dsimp only
        rcases handleEvent_cases sha256 ed25519SignOpen api env st evt with
          ⟨-, -, h | ⟨m, h⟩⟩ | ⟨m, st₀, -, -, h₀, h⟩ | ⟨t, data, -, hc, h⟩
        · exact h.writesOther hw
        · exact h.idle.writesOther hw
        · refine h.writesOther ?_
          rintro u ⟨rfl⟩
          rfl
        · rw [h]
          have ht := hw t (acceptedChunk_eq_some hc).1
          exact writesOther_acceptChunk env (st.touched env t)
            (t := { t with lastActivityMs := env.nowMs }) ht data

/-- The step does not complete the download of an image whose manifest fails to describe the
running one. -/
def ServeStep (sha256 : List UInt8 → Bytes 32) (st : OtaState) : OtaInput → Prop
  | .round (some evt) env =>
    st.halted = false → ∀ t data, acceptedChunk st evt = some (t, data) →
      Completes sha256 env t data → env.setBootOk = true → env.nvsOpenOk = true →
      Describes sha256 st t.manifest
  | _ => True

variable (api) in
theorem servesRunning_acceptChunk (env : OtaEnv) (st : OtaState) {t : Transfer}
    (ht : t.part = st.running.other) (data : List UInt8) (hs : ServesRunning sha256 st) :
    (Completes sha256 env t data → env.setBootOk = true → env.nvsOpenOk = true →
      Describes sha256 st t.manifest) ↔
    ServesRunning sha256 (acceptChunk sha256 api env st t data) := by
  have hwrote := sameServe_wrote api ht data
  rcases acceptChunk_cases sha256 api env st t data with
    ⟨hw, h⟩ | ⟨-, hn, h, -⟩ | ⟨-, hb, h, -⟩ | ⟨hc, hb, h⟩
  · refine iff_of_true (fun hc => ?_) ?_
    · exact absurd hc.1 (by simp [hw])
    · exact ((sameServe_wroteFail ht data).trans h.sameServe).servesRunning.mpr hs
  · exact iff_of_true (fun hc => absurd hc hn) ((hwrote.trans h.sameServe).servesRunning.mpr hs)
  · refine iff_of_true (fun _ hb' => absurd hb' (by simp [hb])) ?_
    refine h.sameServe.servesRunning.mpr (SameServe.servesRunning ?_ |>.mpr hs)
    exact ⟨hwrote.running, hwrote.image, hwrote.serveManifest, hwrote.canServe⟩
  · rw [h.sameServe.servesRunning]
    cases hnvs : env.nvsOpenOk with
    | false =>
      refine iff_of_true (fun _ _ hn => by simp at hn) ?_
      unfold OtaState.switched
      rw [hnvs]
      refine SameServe.servesRunning ?_ |>.mpr hs
      exact ⟨hwrote.running, hwrote.image, hwrote.serveManifest, hwrote.canServe⟩
    | true =>
      -- the new manifest against the image that still runs
      unfold OtaState.switched ServesRunning Describes
      rw [hnvs]
      have himage : (st.wrote api t data).slots (st.wrote api t data).running =
          st.slots st.running := by
        rw [hwrote.running, hwrote.image]
      constructor
      · intro hd _
        exact (congrArg (fun m => sha256 (read m 0 t.manifest.size.toNat)) himage).trans
          (hd hc hb rfl)
      · intro hd _ _ _
        exact (congrArg (fun m => sha256 (read m 0 t.manifest.size.toNat)) himage).symm.trans
          (hd rfl)

/-- **One step.** Where the property holds, a step keeps it exactly when it meets
`ServeStep`. -/
theorem serveStep_iff {st : OtaState} (hw : WritesOther st) (hs : ServesRunning sha256 st)
    (i : OtaInput) :
    ServeStep sha256 st i ↔ ServesRunning sha256 (otaStep sha256 ed25519SignOpen api st i) := by
  cases i with
  | health => exact iff_of_true trivial hs
  | boot b env =>
    refine iff_of_true trivial ?_
    have h := boots_bitleOtaInit sha256 ed25519SignOpen env (st.reset b)
    exact h.serves (by intro h; cases h)
  | round evt env =>
    unfold otaStep
    cases hh : st.halted with
    | true =>
      refine iff_of_true ?_ hs
      cases evt with
      | none => trivial
      | some evt => exact fun h => absurd h (by simp [hh])
    | false =>
      change _ ↔ ServesRunning sha256 (otaTask sha256 ed25519SignOpen api env st evt)
      unfold otaTask
      dsimp only
      rw [(idle_poll env _).sameServe.servesRunning]
      cases evt with
      | none => exact iff_of_true trivial hs
      | some evt =>
        dsimp only [ServeStep]
        -- no chunk, or the adopted manifest, or a new transfer: what is served describes the image
        rcases handleEvent_cases sha256 ed25519SignOpen api env st evt with
          ⟨-, hc, h | ⟨m, h⟩⟩ | ⟨m, st₀, -, hc, h₀, h⟩ | ⟨t, data, -, hc, h⟩
        · refine iff_of_true (by simp [hc]) (h.sameServe.servesRunning.mpr hs)
        · refine iff_of_true (by simp [hc]) (h.idle.sameServe.servesRunning.mpr fun _ => ?_)
          exact h.describes
        · refine iff_of_true (by simp [hc]) ?_
          have := (h₀.sameServe.trans (sameServe_started env st₀ evt m)).trans h.sameServe
          exact this.servesRunning.mpr hs
        · rw [h]
          have ht := hw t (acceptedChunk_eq_some hc).1
          -- an accepted chunk: the condition is the one on its end
          have key := servesRunning_acceptChunk api env (st.touched env t)
            (t := { t with lastActivityMs := env.nowMs }) ht data (SameServe.servesRunning ⟨rfl, rfl, rfl, rfl⟩ |>.mpr hs)
          rw [← key]
          constructor
          · exact fun hstep => hstep hh t data hc
          · rintro hd - u d hud
            rw [hc, Option.some.injEq, Prod.mk.injEq] at hud
            obtain ⟨rfl, rfl⟩ := hud
            exact hd

/-! ## Runs -/

theorem writesOther_off (slots : AppSlot → Mem) (nvs : Option (List UInt8)) (fwm : Bytes 110) :
    WritesOther (OtaState.off slots nvs fwm) := by
  rintro t ⟨⟩

/-- What `handle_req` sends: the request's eight bytes and a run of the running image, from the
chunk's offset. -/
theorem handleReq_sends {env : OtaEnv} {st : OtaState} {evt : OtaEvent} {conn : UInt16}
    {type : UInt8} {peer : Bytes 8} {payload : List UInt8}
    (h : (handleReq env st evt).log = st.log ++ [.send conn type peer payload]) :
    st.canServe = true ∧ 8 ≤ evt.payload.length ∧
    u32At evt.payload 4 * st.serveManifest.chunkSize.toUInt32 < st.serveManifest.size ∧
    payload = evt.payload.take 8 ++ read (st.slots st.running)
      (u32At evt.payload 4 * st.serveManifest.chunkSize.toUInt32).toNat
      (expectedLen st.serveManifest (u32At evt.payload 4)).toNat := by
  unfold handleReq at h
  split at h
  · simp at h
  · next hserve =>
    simp only [Bool.or_eq_true, Bool.not_eq_true', decide_eq_true_eq, not_or,
      Bool.not_eq_false] at hserve
    dsimp only at h
    split at h
    · simp at h
    · split at h
      · simp at h
      · next hoff =>
        unfold partitionRead at h
        split at h
        · simp at h
        · next data hdata =>
          split at hdata
          · rw [Option.some.injEq] at hdata
            simp only [OtaState.call, List.append_cancel_left_eq, List.cons.injEq,
              OtaCall.send.injEq, and_true] at h
            refine ⟨hserve.1, by omega, UInt32.not_le.mp hoff, ?_⟩
            rw [hdata]
            exact h.2.2.2.symm
          · simp at hdata

/-- The expected length of a chunk stays inside the image. -/
theorem expectedLen_le {m : OtaManifest} {index : UInt32}
    (h : index * m.chunkSize.toUInt32 < m.size) :
    (index * m.chunkSize.toUInt32).toNat + (expectedLen m index).toNat ≤ m.size.toNat := by
  have hsub : (m.size - index * m.chunkSize.toUInt32).toNat =
      m.size.toNat - (index * m.chunkSize.toUInt32).toNat :=
    UInt32.toNat_sub_of_le _ _ (UInt32.le_of_lt h)
  have hlt := UInt32.lt_iff_toNat_lt.mp h
  have hle : (expectedLen m index).toNat ≤ (m.size - index * m.chunkSize.toUInt32).toNat := by
    unfold expectedLen
    dsimp only
    split
    · next hgt => exact Nat.le_of_lt (UInt32.lt_iff_toNat_lt.mp hgt)
    · exact Nat.le_refl _
  omega

/-- **What a node serves.** Along a run from power-on, the manifest to serve describes the
running image in every state exactly when every step meets `ServeStep`. After such a run, every
chunk `handle_req` sends is a piece of an image with the manifest's size and digest. -/
theorem serve_matches_running (sha256 : List UInt8 → Bytes 32)
    (ed25519SignOpen : List UInt8 → Bytes 32 → Bytes 64 → Bool) (api : OtaApi)
    (slots : AppSlot → Mem) (nvs : Option (List UInt8)) (fwm : Bytes 110) (is : List OtaInput) :
    (Along (otaStep sha256 ed25519SignOpen api) (ServeStep sha256) (OtaState.off slots nvs fwm)
        is ↔
      ∀ pre, pre <+: is → ServesRunning sha256
        (final (otaStep sha256 ed25519SignOpen api) (OtaState.off slots nvs fwm) pre)) ∧
    (Along (otaStep sha256 ed25519SignOpen api) (ServeStep sha256) (OtaState.off slots nvs fwm)
        is →
      ∀ st, st = final (otaStep sha256 ed25519SignOpen api) (OtaState.off slots nvs fwm) is →
      ∀ env evt conn type peer payload,
        (handleReq env st evt).log = st.log ++ [.send conn type peer payload] →
      ∃ image, image.length = st.serveManifest.size.toNat ∧
        sha256 image = st.serveManifest.sha256 ∧
        payload = evt.payload.take 8 ++
          (image.drop (u32At evt.payload 4 * st.serveManifest.chunkSize.toUInt32).toNat).take
            (expectedLen st.serveManifest (u32At evt.payload 4)).toNat) := by
  have hother : ∀ pre, WritesOther
      (final (otaStep sha256 ed25519SignOpen api) (OtaState.off slots nvs fwm) pre) :=
    fun pre => invariant_final WritesOther (fun _ i hw => writesOther_step hw i)
      (writesOther_off _ _ _) pre
  have hserves : ServesRunning sha256 (OtaState.off slots nvs fwm) := by rintro ⟨⟩
  have hiff : Along (otaStep sha256 ed25519SignOpen api) (ServeStep sha256)
        (OtaState.off slots nvs fwm) is ↔
      ∀ pre, pre <+: is → ServesRunning sha256
        (final (otaStep sha256 ed25519SignOpen api) (OtaState.off slots nvs fwm) pre) := by
    rw [along_iff_invariant (fun st => WritesOther st ∧ ServesRunning sha256 st) _
      ⟨writesOther_off _ _ _, hserves⟩]
    · exact forall_congr' fun pre => imp_congr_right fun _ => and_iff_right (hother pre)
    · intro st i h
      rw [serveStep_iff h.1 h.2 i]
      exact (and_iff_right (writesOther_step h.1 i)).symm
  refine ⟨hiff, ?_⟩
  rintro hrun st rfl env evt conn type peer payload hsend
  obtain ⟨hcan, -, hoff, hpay⟩ := handleReq_sends hsend
  have hdesc := hiff.mp hrun is (List.prefix_refl is) hcan
  refine ⟨_, length_read _ _ _, hdesc, ?_⟩
  have hmin := expectedLen_le hoff
  rw [hpay, drop_take_read, Nat.zero_add, Nat.min_eq_left (by omega)]

end Task

/-! ## An update as it happens -/

/-- Slots that take writes as they come. -/
def plainApi : OtaApi where
  begin m := m
  write m off data := fun i => if off ≤ i ∧ i < off + data.length then data.getD (i - off) 0 else m i
  writeFail m _ _ := m

/-- A manifest event for an image of `size` bytes, in chunks of 64. -/
def manifestEvent (version size : Nat) (digest : Bytes 32) : OtaEvent where
  type := bitleMsgOtaManifest
  connHandle := 1
  peer := zeros 8
  payload := otaMagic ++ beBytes 4 version ++ beBytes 4 size ++ digest.val ++ beBytes 2 64 ++
    List.replicate 64 0
  payload_le := by simp [otaMagic, digest.property, otaChunkMax]

/-- The first chunk of an image. -/
def chunkEvent (version : Nat) {n : Nat} (data : Bytes n) (h : n ≤ 480 := by decide) : OtaEvent where
  type := bitleMsgOtaChunk
  connHandle := 1
  peer := zeros 8
  payload := beBytes 4 version ++ beBytes 4 0 ++ data.val
  payload_le := by
    have hmax : otaChunkMax.toNat = 480 := rfl
    simp only [List.length_append, length_beBytes, data.property]
    omega

/-- The image of version 6: two bytes. -/
def image6 : Bytes 2 := ⟨[0xE9, 6], rfl⟩

/-- A device that runs an image of version 5 and takes up version 6; the digest is the first 32
bytes of the image. -/
def updateStart : List OtaInput :=
  [.boot { running := .ota0, fwVersion := 5, pendingVerify := false, reflash := none } {},
    .round (some (manifestEvent 6 2 (copyAt 32 image6.val 0))) {}]

/-- The only chunk arrives. -/
def updateRun : List OtaInput := updateStart ++ [.round (some (chunkEvent 6 image6)) {}]

/-- Both slots hold the version 5 image. -/
def updateSlots : AppSlot → Mem := fun _ i => if i = 0 then 0xE9 else if i = 1 then 5 else 0xFF

/-- After the download the node serves the new manifest from the old image. -/
theorem update_serves_old_image :
    ¬ ServesRunning (fun l => copyAt 32 l 0)
      (final (otaStep (fun l => copyAt 32 l 0) (fun _ _ _ => true) plainApi)
        (OtaState.off updateSlots none (zeros 110)) updateRun) := by
  unfold ServesRunning Describes
  decide +kernel

end Bitle
