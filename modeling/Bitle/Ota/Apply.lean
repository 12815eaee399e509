import Bitle.Ota.Transfer

/-!
# Bitle — between the boot switch and the restart

`finish_receive` switches the boot slot, clears the transfer and schedules the restart three
seconds later. In that window the task looks idle: a manifest above the running version starts a
transfer into the slot that does not run, which is the boot slot. `boot_image_kept` says that
nothing else can touch it, and `second_manifest_overwrites_boot_slot` shows that this does.
-/

namespace Bitle

open Wire Flash Run

/-- The calls that change the contents of a slot. -/
def OtaCall.touches (part : AppSlot) : OtaCall → Bool
  | .otaBegin p => p = part
  | .otaWrite p _ => p = part
  | _ => false

theorem OtaCall.touches_of_plain {c : OtaCall} (h : c.plain = true) (part : AppSlot) :
    c.touches part = false := by
  cases c with
  | otaBegin _ => cases h
  | otaWrite _ _ => cases h
  | _ => rfl

/-- The input is a boot. -/
def OtaInput.isBoot : OtaInput → Bool
  | .boot _ _ => true
  | _ => false

section Task

variable {sha256 : List UInt8 → Bytes 32}
variable {ed25519SignOpen : List UInt8 → Bytes 32 → Bytes 64 → Bool}
variable {api : OtaApi}

/-! ## The slot holds what was hashed -/

/-- The slot of an active transfer holds the bytes hashed so far. -/
def SlotHolds (st : OtaState) : Prop :=
  ∀ t, st.rx = some t → read (st.slots t.part) 0 t.sha.length = t.sha

theorem Idle.slotHolds {st st' : OtaState} (h : Idle st st') (hs : SlotHolds st) :
    SlotHolds st' := by
  intro u hu
  rcases h.rx with hn | ⟨t, t', ht, ht', hc⟩
  · rw [hn] at hu
    cases hu
  · rw [ht', Option.some.injEq] at hu
    subst hu
    rw [Transfer.part_of_core hc, Transfer.sha_of_core hc, h.slots]
    exact hs t ht

/-- A write at the end of what the slot holds extends it. -/
theorem read_write (hapi : api.Lawful) {m : Mem} {held : List UInt8}
    (h : read m 0 held.length = held) (data : List UInt8) :
    read (api.write m held.length data) 0 (held ++ data).length = held ++ data := by
  rw [List.length_append, read_add, Nat.zero_add, hapi.write_data]
  congr 1
  exact (read_congr fun i _ hi => hapi.write_before _ _ _ _ (by omega)).trans h

theorem slotHolds_wrote (hapi : api.Lawful) {st : OtaState} {chunks : List Chunk} {t : Transfer}
    (r : Receiving ed25519SignOpen st chunks t)
    (hs : read (st.slots t.part) 0 t.sha.length = t.sha) (data : List UInt8) :
    read ((st.wrote api t data).slots t.part) 0 (t.sha ++ data).length = t.sha ++ data := by
  have hupdate : (st.wrote api t data).slots t.part =
      api.write (st.slots t.part) t.sha.length data := by
    rw [← r.wrote]
    exact Function.update_self _ _ _
  rw [hupdate]
  exact read_write hapi hs data

/-- **One step.** Every input keeps the slot in step with the hash. -/
theorem slotHolds_step (hapi : api.Lawful) {p : OtaState × List Chunk}
    (hp : TransferInv ed25519SignOpen p) (hs : SlotHolds p.1) (i : OtaInput) :
    SlotHolds (otaStep sha256 ed25519SignOpen api p.1 i) := by
  obtain ⟨st, chunks⟩ := p
  have hnone : ∀ s : OtaState, s.rx = none → SlotHolds s := by
    intro s h t ht
    rw [h] at ht
    cases ht
  cases i with
  | health => exact hs
  | boot b env =>
    have h := boots_bitleOtaInit sha256 ed25519SignOpen env (st.reset b)
    exact hnone _ h.rx
  | round evt env =>
    unfold otaStep
    dsimp only
    split
    · exact hs
    · refine (idle_poll env _).slotHolds ?_
      cases evt with
      | none => exact hs
      | some evt =>
        dsimp only
        -- nothing received, a manifest that opens a transfer, or a chunk
        rcases handleEvent_cases sha256 ed25519SignOpen api env st evt with
          ⟨-, -, h | ⟨m, h⟩⟩ | ⟨m, st₀, -, -, h₀, h⟩ | ⟨t, data, -, hc, h⟩
        · exact h.slotHolds hs
        · exact h.idle.slotHolds hs
        · refine h.slotHolds ?_
          rintro u ⟨rfl⟩
          rfl
        · rw [h]
          have hrx := (acceptedChunk_eq_some hc).1
          have r := (hp t hrx).touched env
          have hwrote := slotHolds_wrote hapi r (hs t hrx) data
          -- the chunk is written: the transfer is over, goes on, or ends with the switch
          rcases acceptChunk_cases sha256 api env (st.touched env t)
            { t with lastActivityMs := env.nowMs } data with
            ⟨-, h⟩ | ⟨-, -, h, -⟩ | ⟨-, -, -, hrx⟩ | ⟨-, -, h⟩
          · exact h.slotHolds (hnone _ rfl)
          · refine h.slotHolds ?_
            rintro u ⟨rfl⟩
            exact hwrote
          · exact hnone _ hrx
          · refine h.slotHolds (hnone _ ?_)
            unfold OtaState.switched
            dsimp only
            split <;> rfl

/-! ## The switch -/

/-- The round completes a download and switches the boot slot. -/
structure Switches (sha256 : List UInt8 → Bytes 32) (st : OtaState) (evt : OtaEvent)
    (env : OtaEnv) (t : Transfer) (data : List UInt8) : Prop where
  running : st.halted = false
  accepted : acceptedChunk st evt = some (t, data)
  completes : Completes sha256 env t data
  setBootOk : env.setBootOk = true

/-- After the switch no transfer is active, the boot slot is the transfer's, and it holds the
image that was verified. -/
theorem after_switch (hapi : api.Lawful) {st : OtaState} {chunks : List Chunk}
    (hp : TransferInv ed25519SignOpen (st, chunks)) (hs : SlotHolds st) (hw : WritesOther st)
    {evt : OtaEvent} {env : OtaEnv} {t : Transfer} {data : List UInt8}
    (h : Switches sha256 st evt env t data) :
    let st₁ := otaStep sha256 ed25519SignOpen api st (.round (some evt) env)
    st₁.rx = none ∧ st₁.boot = t.part ∧ t.part = st₁.running.other ∧
      (t.sha ++ data).length = t.manifest.size.toNat ∧
      read (st₁.slots t.part) 0 t.manifest.size.toNat = t.sha ++ data := by
  intro st₁
  obtain ⟨hrx, -, -, hlen⟩ := acceptedChunk_eq_some h.accepted
  have r := hp t hrx
  have hlt : t.nextChunk < totalChunks t.manifest := r.total ▸ r.next_lt
  have hlast := expectedLen_of_last r.usable hlt (r.total ▸ h.completes.2.1)
  have hsize : (t.sha ++ data).length = t.manifest.size.toNat := by
    rw [List.length_append, r.length, hlen, hlast]
  have hwrote := slotHolds_wrote hapi (r.touched env) (hs t hrx) data
  -- the round is the handler, the switch, and housekeeping
  have hidle : Idle (((st.touched env t).wrote api { t with lastActivityMs := env.nowMs } data).switched
      env (Transfer.advance { t with lastActivityMs := env.nowMs } data)) st₁ := by
    have hround : st₁ = pollReboot env (pollHealth env (pollReceive env
        (handleEvent sha256 ed25519SignOpen api env st evt))) := by
      change (if st.halted then _ else _) = _
      rw [h.running]
      rfl
    rw [hround]
    refine Idle.trans ?_ (idle_poll env _)
    rcases handleEvent_cases sha256 ed25519SignOpen api env st evt with
      ⟨-, hc, -⟩ | ⟨m, st₀, -, hc, -⟩ | ⟨u, d, -, hc, hh⟩
    · exact absurd (h.accepted.symm.trans hc) (by simp)
    · exact absurd (h.accepted.symm.trans hc) (by simp)
    · have := h.accepted.symm.trans hc
      simp only [Option.some.injEq, Prod.mk.injEq] at this
      obtain ⟨rfl, rfl⟩ := this
      rw [hh]
      rcases acceptChunk_cases sha256 api env (st.touched env t)
        { t with lastActivityMs := env.nowMs } data with
        ⟨hf, -⟩ | ⟨-, hn, -⟩ | ⟨-, hb, -⟩ | ⟨-, -, hi⟩
      · exact absurd h.completes.1 (by simp [hf])
      · exact absurd h.completes hn
      · exact absurd h.setBootOk (by simp [hb])
      · exact hi
  unfold OtaState.switched at hidle
  dsimp only at hidle
  have hrx₁ : st₁.rx = none := by
    rcases hidle.rx with hn | ⟨a, b, ha, -⟩
    · exact hn
    · split at ha <;> cases ha
  have hother := hw t hrx
  refine ⟨hrx₁, ?_, ?_, hsize, ?_⟩
  · rw [hidle.boot]
    split <;> rfl
  · rw [hidle.running, hother]
    split <;> rfl
  · rw [← hsize, hidle.slots]
    split
    · exact hwrote
    · exact hwrote

/-! ## The window -/

/-- The step starts no transfer. -/
def QuietStep (ed25519SignOpen : List UInt8 → Bytes 32 → Bytes 64 → Bool) (st : OtaState) :
    OtaInput → Prop
  | .round (some evt) env => st.halted = false → startsTransfer ed25519SignOpen env st evt = none
  | _ => True

/-- A state of the window that began in `st₁`: no transfer, and nothing but plain calls since. -/
structure Window (st₁ st : OtaState) : Prop where
  rx : st.rx = none
  slots : st.slots = st₁.slots
  running : st.running = st₁.running
  boot : st.boot = st₁.boot
  log : ∃ l, st.log = st₁.log ++ l ∧ ∀ c ∈ l, c.plain = true

theorem Window.refl {st₁ : OtaState} (h : st₁.rx = none) : Window st₁ st₁ :=
  ⟨h, rfl, rfl, rfl, [], by simp, by simp⟩

theorem Window.idle {st₁ st st' : OtaState} (h : Window st₁ st) (hi : Idle st st') :
    Window st₁ st' where
  rx := by
    rcases hi.rx with hn | ⟨t, -, ht, -⟩
    · exact hn
    · rw [h.rx] at ht
      cases ht
  slots := hi.slots.trans h.slots
  running := hi.running.trans h.running
  boot := hi.boot.trans h.boot
  log := by
    obtain ⟨l, hl, hp⟩ := h.log
    obtain ⟨k, hk, hkp⟩ := hi.log
    refine ⟨l ++ k, by rw [hk, hl, List.append_assoc], fun c hc => ?_⟩
    rcases List.mem_append.mp hc with hc | hc
    · exact hp c hc
    · exact hkp c hc

/-- Without a transfer no chunk is accepted. -/
theorem acceptedChunk_of_none {st : OtaState} (h : st.rx = none) (evt : OtaEvent) :
    acceptedChunk st evt = none := by
  unfold acceptedChunk
  rw [h]
  split <;> rfl

variable (sha256 api) in
/-- A step that starts no transfer stays in the window. -/
theorem Window.step {st₁ st : OtaState} (h : Window st₁ st) {i : OtaInput}
    (hboot : i.isBoot = false) (hq : QuietStep ed25519SignOpen st i) :
    Window st₁ (otaStep sha256 ed25519SignOpen api st i) := by
  cases i with
  | health => exact { h with }
  | boot b env => cases hboot
  | round evt env =>
    unfold otaStep
    dsimp only
    split
    · exact h
    · next hh =>
      refine Window.idle ?_ (idle_poll env _)
      cases evt with
      | none => exact h
      | some evt =>
        dsimp only
        have hs := hq (by simpa using hh)
        have hc := acceptedChunk_of_none h.rx evt
        rcases handleEvent_cases sha256 ed25519SignOpen api env st evt with
          ⟨-, -, hi | ⟨m, hi⟩⟩ | ⟨m, st₀, hs', -⟩ | ⟨t, data, -, hc', -⟩
        · exact h.idle hi
        · have hadopt : Window st₁ { st with serveManifest := m, canServe := true } := { h with }
          exact hadopt.idle hi.idle
        · exact absurd (hs.symm.trans hs') (by simp)
        · exact absurd (hc.symm.trans hc') (by simp)

/-- The log only grows. -/
theorem log_prefix_step (st : OtaState) (i : OtaInput) :
    st.log <+: (otaStep sha256 ed25519SignOpen api st i).log := by
  rcases step_calls sha256 ed25519SignOpen api st i with
    ⟨l, hl, -⟩ | ⟨t, evt, env, data, -, -, l, hl, -⟩
  · exact ⟨l, hl.symm⟩
  · exact ⟨_, by rw [hl, List.append_assoc]⟩

variable (sha256 ed25519SignOpen api) in
theorem log_prefix_final (st : OtaState) (is : List OtaInput) :
    st.log <+: (final (otaStep sha256 ed25519SignOpen api) st is).log := by
  induction is generalizing st with
  | nil => exact List.prefix_refl _
  | cons i is ih => exact (log_prefix_step st i).trans (ih _)

variable (sha256 api) in
/-- A step that starts a transfer begins on the slot that does not run. -/
theorem begin_of_not_quietStep {st : OtaState} {i : OtaInput}
    (h : ¬ QuietStep ed25519SignOpen st i) :
    ∃ l, (otaStep sha256 ed25519SignOpen api st i).log = st.log ++ l ∧
      OtaCall.otaBegin st.running.other ∈ l := by
  cases i with
  | health => exact absurd trivial h
  | boot b env => exact absurd trivial h
  | round evt env =>
    cases evt with
    | none => exact absurd trivial h
    | some evt =>
      simp only [QuietStep, Classical.not_imp] at h
      obtain ⟨hh, hs⟩ := h
      unfold otaStep
      dsimp only
      rw [hh]
      obtain ⟨l, hl, -⟩ := (idle_poll env (handleEvent sha256 ed25519SignOpen api env st evt)).log
      rcases handleEvent_cases sha256 ed25519SignOpen api env st evt with
        ⟨hs', -⟩ | ⟨m, st₀, -, -, h₀, hi⟩ | ⟨t, data, hs', -⟩
      · exact absurd hs' hs
      · obtain ⟨j, hj, -⟩ := h₀.log
        obtain ⟨k, hk, -⟩ := hi.log
        refine ⟨j ++ (.otaBegin st.running.other :: (k ++ l)), ?_, by simp⟩
        change (pollReboot env (pollHealth env (pollReceive env
          (handleEvent sha256 ed25519SignOpen api env st evt)))).log = _
        have hstart : (OtaState.started api env st₀ evt m).log =
            st₀.log ++ [.otaBegin st₀.running.other] := rfl
        rw [hl, hk, hstart, hj, h₀.running]
        simp
      · exact absurd hs' hs

/-- The calls made between two states touch no byte of `part`. -/
def Untouched (part : AppSlot) (st st' : OtaState) : Prop :=
  ∃ l, st'.log = st.log ++ l ∧ ∀ c ∈ l, c.touches part = false

/-- **The window.** Its steps all start no transfer exactly when no call in it touches the boot
slot. -/
theorem window_iff {st₁ st : OtaState} (h : Window st₁ st) (hother : st₁.boot = st₁.running.other)
    {mid : List OtaInput} (hboot : ∀ i ∈ mid, i.isBoot = false) :
    Along (otaStep sha256 ed25519SignOpen api) (QuietStep ed25519SignOpen) st mid ↔
      Untouched st₁.boot st (final (otaStep sha256 ed25519SignOpen api) st mid) := by
  induction mid generalizing st with
  | nil => exact iff_of_true trivial ⟨[], by simp, by simp⟩
  | cons i mid ih =>
    have hi : i.isBoot = false := hboot i (by simp)
    rw [final_cons]
    by_cases hq : QuietStep ed25519SignOpen st i
    · have hnext := h.step sha256 api hi hq
      obtain ⟨k, hk, hkp⟩ := (Window.step sha256 api (Window.refl h.rx) hi hq).log
      -- a quiet step adds plain calls only, so the rest of the window decides
      have hih := ih hnext fun j hj => hboot j (by simp [hj])
      refine (and_iff_right hq).trans (hih.trans ?_)
      constructor
      · rintro ⟨l, hl, hn⟩
        refine ⟨k ++ l, by rw [hl, hk, List.append_assoc], fun c hc => ?_⟩
        rcases List.mem_append.mp hc with hc | hc
        · exact OtaCall.touches_of_plain (hkp c hc) _
        · exact hn c hc
      · rintro ⟨l, hl, hn⟩
        obtain ⟨l', hl'⟩ := log_prefix_final sha256 ed25519SignOpen api
          (otaStep sha256 ed25519SignOpen api st i) mid
        refine ⟨l', hl'.symm, fun c hc => hn c ?_⟩
        rw [← hl', hk, List.append_assoc, List.append_cancel_left_eq] at hl
        rw [← hl]
        exact List.mem_append_right _ hc
    · refine iff_of_false (fun ha => hq ha.1) ?_
      rintro ⟨l, hl, hn⟩
      -- a step that is not quiet begins a transfer, into the boot slot
      obtain ⟨k, hk, hbegin⟩ := begin_of_not_quietStep sha256 api hq
      obtain ⟨l', hl'⟩ := log_prefix_final sha256 ed25519SignOpen api
        (otaStep sha256 ed25519SignOpen api st i) mid
      rw [← hl', hk, List.append_assoc, List.append_cancel_left_eq] at hl
      have htouch := hn (.otaBegin st.running.other) (by rw [← hl]; exact List.mem_append_left _ hbegin)
      rw [h.running, hother] at htouch
      simp [OtaCall.touches] at htouch

theorem Window.final {st₁ st : OtaState} (h : Window st₁ st) {mid : List OtaInput}
    (hboot : ∀ i ∈ mid, i.isBoot = false)
    (hq : Along (otaStep sha256 ed25519SignOpen api) (QuietStep ed25519SignOpen) st mid) :
    Window st₁ (Run.final (otaStep sha256 ed25519SignOpen api) st mid) := by
  induction mid generalizing st with
  | nil => exact h
  | cons i mid ih =>
    exact ih (h.step sha256 api (hboot i (by simp)) hq.1) (fun j hj => hboot j (by simp [hj])) hq.2

variable (sha256 ed25519SignOpen) in
/-- The invariants of a run from power-on. -/
theorem applyInv_otaRun (hapi : api.Lawful) (slots : AppSlot → Mem) (nvs : Option (List UInt8))
    (fwm : Bytes 110) (is : List OtaInput) :
    TransferInv ed25519SignOpen (otaRun sha256 ed25519SignOpen api slots nvs fwm is) ∧
      SlotHolds (otaRun sha256 ed25519SignOpen api slots nvs fwm is).1 ∧
      WritesOther (otaRun sha256 ed25519SignOpen api slots nvs fwm is).1 := by
  refine invariant_final (fun p : OtaState × List Chunk =>
    TransferInv ed25519SignOpen p ∧ SlotHolds p.1 ∧ WritesOther p.1) ?_ ?_ is
  · rintro p i ⟨ht, hs, hw⟩
    exact ⟨transferInv_step ht i, slotHolds_step hapi ht hs i, writesOther_step hw i⟩
  · exact ⟨transferInv_of_none rfl, by rintro t ⟨⟩, writesOther_off _ _ _⟩

/-- **From the switch to the restart.** After the boot slot was switched in a run from power-on,
and up to the next boot, no call touches that slot exactly when no step starts a transfer; and
then the slot holds, unchanged, the image whose digest was verified. -/
theorem boot_image_kept (sha256 : List UInt8 → Bytes 32)
    (ed25519SignOpen : List UInt8 → Bytes 32 → Bytes 64 → Bool) (api : OtaApi)
    (hapi : api.Lawful) (slots : AppSlot → Mem) (nvs : Option (List UInt8)) (fwm : Bytes 110)
    (is : List OtaInput) (evt : OtaEvent) (env : OtaEnv) (t : Transfer) (data : List UInt8)
    (hswitch : Switches sha256
      (final (otaStep sha256 ed25519SignOpen api) (OtaState.off slots nvs fwm) is) evt env t data)
    (mid : List OtaInput) (hmid : ∀ i ∈ mid, i.isBoot = false) :
    let st₁ := otaStep sha256 ed25519SignOpen api
      (final (otaStep sha256 ed25519SignOpen api) (OtaState.off slots nvs fwm) is)
      (.round (some evt) env)
    let st₂ := final (otaStep sha256 ed25519SignOpen api) st₁ mid
    (Along (otaStep sha256 ed25519SignOpen api) (QuietStep ed25519SignOpen) st₁ mid ↔
      Untouched st₁.boot st₁ st₂) ∧
    (Along (otaStep sha256 ed25519SignOpen api) (QuietStep ed25519SignOpen) st₁ mid →
      st₂.boot = t.part ∧ st₂.slots st₂.boot = st₁.slots st₁.boot ∧
      read (st₂.slots st₂.boot) 0 t.manifest.size.toNat = t.sha ++ data ∧
      sha256 (read (st₂.slots st₂.boot) 0 t.manifest.size.toNat) = t.manifest.sha256) := by
  intro st₁ st₂
  have hrun := fst_final_otaStepChunks sha256 ed25519SignOpen api (OtaState.off slots nvs fwm, []) is
  obtain ⟨htrans, hholds, hother⟩ := applyInv_otaRun sha256
    ed25519SignOpen hapi slots nvs fwm is
  rw [otaRun, hrun] at hholds hother
  have htrans' : TransferInv ed25519SignOpen
      (final (otaStep sha256 ed25519SignOpen api) (OtaState.off slots nvs fwm) is,
        (otaRun sha256 ed25519SignOpen api slots nvs fwm is).2) := by
    rw [← hrun]
    exact htrans
  obtain ⟨hrx, hboot, hpart, hsize, himage⟩ := after_switch hapi htrans' hholds hother hswitch
  have hwin : Window st₁ st₁ := Window.refl hrx
  refine ⟨window_iff hwin (hboot.trans hpart) hmid, fun hq => ?_⟩
  have hend : Window st₁ st₂ := hwin.final hmid hq
  have hsame : st₂.slots st₂.boot = st₁.slots st₁.boot := by rw [hend.slots, hend.boot]
  have hread : read (st₂.slots st₂.boot) 0 t.manifest.size.toNat = t.sha ++ data := by
    rw [hsame, hboot]
    exact himage
  exact ⟨hend.boot.trans hboot, hsame, hread, by rw [hread]; exact hswitch.completes.2.2.1⟩

end Task

theorem plainApi_lawful : plainApi.Lawful where
  write_data m off data := by
    rw [read_eq_iff]
    intro i hi
    simp [plainApi, hi]
  write_before m off data i hi := if_neg (by omega)

/-- The transfer of version 6 as its only chunk arrives. -/
def updateTransfer : Transfer where
  manifest :=
    { version := 6, size := 2, sha256 := copyAt 32 image6.val 0, chunkSize := 64
      raw := copyAt 110 (manifestEvent 6 2 (copyAt 32 image6.val 0)).payload 0 }
  nextChunk := 0
  totalChunks := 1
  part := .ota1
  wrote := 0
  connHandle := 1
  peer := zeros 8
  lastActivityMs := 0
  retries := 0
  sha := []

/-- The update is applied, and the restart three seconds later finds the verified image. -/
theorem boot_image_kept_restart :
    let step := otaStep (fun l => copyAt 32 l 0) (fun _ _ _ => true) plainApi
    let st₂ := final step
      (step (final step (OtaState.off updateSlots none (zeros 110)) updateStart)
        (.round (some (chunkEvent 6 image6)) {}))
      [.round none { loopMs := 3000 }]
    OtaCall.restart ∈ st₂.log ∧ read (st₂.slots st₂.boot) 0 updateTransfer.manifest.size.toNat =
      updateTransfer.sha ++ image6.val := by
  have hkept := boot_image_kept (fun l => copyAt 32 l 0) (fun _ _ _ => true) plainApi
    plainApi_lawful updateSlots none (zeros 110) updateStart (chunkEvent 6 image6) {}
    updateTransfer image6.val
    ⟨by decide +kernel, by decide +kernel, by unfold Completes; decide +kernel, rfl⟩
    [.round none { loopMs := 3000 }] (by simp [OtaInput.isBoot])
  exact ⟨by decide +kernel, (hkept.2 ⟨trivial, trivial⟩).2.2.1⟩

/-- A second manifest in the window: when the restart comes, the boot slot holds the first chunk
of an image that was never verified. -/
theorem second_manifest_overwrites_boot_slot :
    let step := otaStep (fun l => copyAt 32 l 0) (fun _ _ _ => true) plainApi
    let st₁ := final step (OtaState.off updateSlots none (zeros 110)) updateRun
    let st₂ := final step st₁
      [.round (some (manifestEvent 7 65 (zeros 32))) { nowMs := 100, loopMs := 100 },
        .round (some (chunkEvent 7 (copyAt 64 [0xE9, 7] 0))) { nowMs := 200, loopMs := 200 },
        .round none { loopMs := 3000 }]
    st₁.boot = .ota1 ∧ read (st₁.slots .ota1) 0 2 = image6.val ∧ OtaCall.restart ∉ st₁.log ∧
      OtaCall.restart ∈ st₂.log ∧ st₂.boot = .ota1 ∧
      read (st₂.slots .ota1) 0 2 ≠ image6.val := by
  decide +kernel

end Bitle
