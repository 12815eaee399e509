import Bitle.Ota.Task

/-!
# Bitle — what one round of the update task can do

Most of what a round does leaves the transfer, the slots and the served manifest as they are
(`Idle`). What else it can do is said once here, by input: a manifest can be adopted or start a
transfer (`startsTransfer`), a chunk can be accepted (`acceptedChunk`) and the last one can
finish it. `handleEvent_cases` is the one case analysis of the handlers; the invariants of the
update task are proved from it.
-/

namespace Bitle

open Wire Flash

/-! ## Rounds that change nothing -/

/-- The calls that neither touch a slot nor choose the boot slot. -/
def OtaCall.plain : OtaCall → Bool
  | .otaBegin _ | .otaWrite _ _ | .setBoot _ => false
  | _ => true

/-- A transfer less its timers. -/
def Transfer.core (t : Transfer) : Transfer := { t with lastActivityMs := 0, retries := 0 }

theorem Transfer.part_of_core {t t' : Transfer} (h : t'.core = t.core) : t'.part = t.part := by
  have hpart : t'.core.part = t.core.part := by rw [h]
  exact hpart

theorem Transfer.sha_of_core {t t' : Transfer} (h : t'.core = t.core) : t'.sha = t.sha := by
  have hsha : t'.core.sha = t.core.sha := by rw [h]
  exact hsha

/-- `st'` is `st` after plain calls, with its transfer going on or dropped. -/
structure Idle (st st' : OtaState) : Prop where
  slots : st'.slots = st.slots
  running : st'.running = st.running
  boot : st'.boot = st.boot
  fwVersion : st'.fwVersion = st.fwVersion
  serveManifest : st'.serveManifest = st.serveManifest
  canServe : st'.canServe = st.canServe
  rx : st'.rx = none ∨ ∃ t t', st.rx = some t ∧ st'.rx = some t' ∧ t'.core = t.core
  log : ∃ l, st'.log = st.log ++ l ∧ ∀ c ∈ l, c.plain = true

theorem Idle.refl (st : OtaState) : Idle st st where
  slots := rfl
  running := rfl
  boot := rfl
  fwVersion := rfl
  serveManifest := rfl
  canServe := rfl
  rx := by
    cases h : st.rx with
    | none => exact Or.inl rfl
    | some t => exact Or.inr ⟨t, t, rfl, rfl, rfl⟩
  log := ⟨[], by simp, by simp⟩

theorem Idle.trans {st st' st'' : OtaState} (h : Idle st st') (h' : Idle st' st'') :
    Idle st st'' where
  slots := h'.slots.trans h.slots
  running := h'.running.trans h.running
  boot := h'.boot.trans h.boot
  fwVersion := h'.fwVersion.trans h.fwVersion
  serveManifest := h'.serveManifest.trans h.serveManifest
  canServe := h'.canServe.trans h.canServe
  rx := by
    rcases h'.rx with hn | ⟨t', t'', ht', ht'', hc'⟩
    · exact Or.inl hn
    · rcases h.rx with hn | ⟨t, u, ht, hu, hc⟩
      · rw [hn] at ht'
        simp at ht'
      · rw [hu, Option.some.injEq] at ht'
        subst ht'
        exact Or.inr ⟨t, t'', ht, ht'', hc'.trans hc⟩
  log := by
    obtain ⟨l, hl, hp⟩ := h.log
    obtain ⟨l', hl', hp'⟩ := h'.log
    refine ⟨l ++ l', by rw [hl', hl, List.append_assoc], fun c hc => ?_⟩
    rcases List.mem_append.mp hc with hc | hc
    · exact hp c hc
    · exact hp' c hc

/-- A plain call. -/
theorem idle_call (st : OtaState) {c : OtaCall} (hc : c.plain = true) : Idle st (st.call c) :=
  { Idle.refl st with
    log := ⟨[c], rfl, by simpa using hc⟩ }

/-- Only the timers of the transfer change. -/
theorem idle_timers {st : OtaState} {t t' : Transfer} (h : st.rx = some t)
    (hc : t'.core = t.core) : Idle st { st with rx := some t' } :=
  { Idle.refl st with
    rx := Or.inr ⟨t, t', h, rfl, hc⟩ }

/-- The transfer is dropped. -/
theorem idle_drop (st : OtaState) : Idle st { st with rx := none } :=
  { Idle.refl st with
    rx := Or.inl rfl }

theorem idle_sendReq (st : OtaState) (t : Transfer) (i : UInt32) : Idle st (sendReq st t i) :=
  idle_call st rfl

theorem idle_sendStatus (st : OtaState) (conn : UInt16) (peer : Bytes 8) (code : UInt8) :
    Idle st (sendStatus st conn peer code) :=
  idle_call st rfl

theorem idle_abortReceive (st : OtaState) : Idle st (abortReceive st) := by
  unfold abortReceive
  split
  · exact Idle.refl st
  · exact (idle_call st rfl).trans (idle_drop _)

theorem abortReceive_rx (st : OtaState) : (abortReceive st).rx = none := by
  unfold abortReceive
  split
  · assumption
  · rfl

/-! ## Housekeeping -/

theorem idle_pollReceive (env : OtaEnv) (st : OtaState) : Idle st (pollReceive env st) := by
  unfold pollReceive
  split
  · exact Idle.refl st
  · next t ht =>
    split
    · dsimp only
      split
      · exact (idle_timers ht rfl).trans (idle_abortReceive _)
      · refine Idle.trans ?_ (idle_sendReq _ _ _)
        exact idle_timers ht rfl
    · exact Idle.refl st

theorem idle_pollHealth (env : OtaEnv) (st : OtaState) : Idle st (pollHealth env st) := by
  have mark : ∀ s : OtaState, Idle s { s.call .markValid with pendingVerify := false } := by
    intro s
    have h := idle_call s (c := .markValid) rfl
    exact { h with }
  unfold pollHealth
  dsimp only
  split
  · split
    · exact (mark _).trans (mark _)
    · exact mark _
  · split
    · exact mark _
    · exact Idle.refl st

theorem idle_pollReboot (env : OtaEnv) (st : OtaState) : Idle st (pollReboot env st) := by
  unfold pollReboot
  split
  · have h := idle_call st (c := .restart) rfl
    exact { h with }
  · exact Idle.refl st

/-- The housekeeping at the end of a round is idle. -/
theorem idle_poll (env : OtaEnv) (st : OtaState) :
    Idle st (pollReboot env (pollHealth env (pollReceive env st))) :=
  ((idle_pollReceive env st).trans (idle_pollHealth env _)).trans (idle_pollReboot env _)

theorem idle_handleReq (env : OtaEnv) (st : OtaState) (evt : OtaEvent) :
    Idle st (handleReq env st evt) := by
  unfold handleReq
  dsimp only
  split
  · exact Idle.refl st
  · split
    · exact Idle.refl st
    · split
      · exact Idle.refl st
      · split
        · exact Idle.refl st
        · exact idle_call st rfl

theorem idle_handleOffer (env : OtaEnv) (st : OtaState) (evt : OtaEvent) :
    Idle st (handleOffer env st evt) := by
  unfold handleOffer
  dsimp only
  split
  · exact Idle.refl st
  · split
    · exact Idle.refl st
    · have h := idle_call st (c := .send evt.connHandle bitleMsgOtaManifest evt.peer
        st.serveManifest.raw.val) rfl
      exact { h with }

/-! ## Hashing the running image -/

/-- What the hash loop has read is the image up to its offset. -/
theorem hashLoop_eq_some {env : OtaEnv} {m : Mem} {size fuel off : Nat} {ctx image : List UInt8}
    (hfuel : size ≤ off + 1024 * fuel) (hctx : ctx = read m 0 (min off size))
    (h : hashLoop env m size fuel off ctx = some image) : image = read m 0 size := by
  induction fuel generalizing off ctx with
  | zero =>
    rw [hashLoop, Option.some.injEq] at h
    rw [← h, hctx, show min off size = size by omega]
  | succ fuel ih =>
    unfold hashLoop at h
    split at h
    · next hlt =>
      dsimp only at h
      unfold partitionRead at h
      split at h
      · simp at h
      · next buf hbuf =>
        split at hbuf
        · rw [Option.some.injEq] at hbuf
          refine ih (by omega) ?_ h
          rw [hctx, ← hbuf, show min off size = off by omega]
          have hadd := read_add m 0 off (if size - off < 1024 then size - off else 1024)
          rw [Nat.zero_add] at hadd
          rw [← hadd]
          congr 1
          split <;> omega
        · simp at hbuf
    · rw [Option.some.injEq] at h
      rw [← h, hctx, show min off size = size by omega]

section Task

variable {sha256 : List UInt8 → Bytes 32}
variable {ed25519SignOpen : List UInt8 → Bytes 32 → Bytes 64 → Bool}
variable {api : OtaApi}

/-- The manifest describes the image in the running slot. -/
def Describes (sha256 : List UInt8 → Bytes 32) (st : OtaState) (m : OtaManifest) : Prop :=
  sha256 (read (st.slots st.running) 0 m.size.toNat) = m.sha256

/-- A manifest that passes the hash check describes the running image. -/
theorem describes_of_hashMatches {env : OtaEnv} {st : OtaState} {m : OtaManifest}
    (h : hashMatchesRunningImage sha256 env st m = true) : Describes sha256 st m := by
  unfold hashMatchesRunningImage at h
  split at h
  · simp at h
  · split at h
    · simp at h
    · next image himage =>
      have := hashLoop_eq_some (by omega) (by simp) himage
      rw [this] at h
      exact beq_iff_eq.mp h

/-! ## Manifests -/

/-- What `parse_manifest` accepts: a signed manifest with sane sizes, which keeps the bytes it
was read from. -/
theorem parseManifest_eq_some {data : List UInt8} {m : OtaManifest}
    (h : parseManifest ed25519SignOpen data = some m) :
    m.raw.val = data ∧ manifestSigned ed25519SignOpen data = true ∧ m.size ≠ 0 ∧
      64 ≤ m.chunkSize ∧ m.chunkSize ≤ otaChunkMax := by
  unfold parseManifest at h
  split at h
  · simp at h
  · next hlen =>
    split at h
    · simp at h
    · next hsig =>
      dsimp only at h
      split at h
      · simp at h
      · next hsizes =>
        rw [Option.some.injEq] at h
        subst h
        have hdata : data.length = 110 := by
          by_contra hne
          exact hlen (Or.inl hne)
        simp only [not_or, UInt16.not_lt] at hsizes
        refine ⟨?_, by simpa using hsig, hsizes.1, hsizes.2.1, hsizes.2.2⟩
        rw [copyAt_val (by omega), List.drop_zero, List.take_of_length_le (by omega)]

/-! ## The effective events -/

/-- The manifest of an event that starts a transfer. -/
def startsTransfer (ed25519SignOpen : List UInt8 → Bytes 32 → Bytes 64 → Bool) (env : OtaEnv)
    (st : OtaState) (evt : OtaEvent) : Option OtaManifest :=
  if evt.type = bitleMsgOtaManifest then
    match parseManifest ed25519SignOpen evt.payload with
    | none => none
    | some m =>
      if st.fwVersion < m.version ∧ (∀ t ∈ st.rx, t.manifest.version < m.version) ∧
          m.size.toNat ≤ otaPartSize ∧ env.beginOk = true
      then some m
      else none
  else none

/-- The chunk of an event that passes the checks of `handle_chunk`. -/
def acceptedChunk (st : OtaState) (evt : OtaEvent) : Option (Transfer × List UInt8) :=
  if evt.type = bitleMsgOtaChunk then
    match st.rx with
    | none => none
    | some t =>
      if 9 ≤ evt.payload.length ∧ u32At evt.payload 0 = t.manifest.version ∧
          u32At evt.payload 4 = t.nextChunk ∧
          (evt.payload.drop 8).length = (expectedLen t.manifest t.nextChunk).toNat
      then some (t, evt.payload.drop 8)
      else none
  else none

/-- The state in which the write of an accepted chunk happens: the transfer is marked active. -/
def OtaState.touched (st : OtaState) (env : OtaEnv) (t : Transfer) : OtaState :=
  { st with rx := some { t with lastActivityMs := env.nowMs } }

/-- A new transfer of `m`. -/
def newTransfer (env : OtaEnv) (st : OtaState) (evt : OtaEvent) (m : OtaManifest) : Transfer :=
  { manifest := m, nextChunk := 0,
    totalChunks := (m.size + m.chunkSize.toUInt32 - 1) / m.chunkSize.toUInt32,
    part := st.running.other, wrote := 0, connHandle := evt.connHandle, peer := evt.peer,
    lastActivityMs := env.nowMs, retries := 0, sha := [] }

/-- The state a started transfer begins in, before the first request is sent. -/
def OtaState.started (api : OtaApi) (env : OtaEnv) (st : OtaState) (evt : OtaEvent)
    (m : OtaManifest) : OtaState :=
  { st.call (.otaBegin st.running.other) with
    slots := Function.update st.slots st.running.other (api.begin (st.slots st.running.other))
    rx := some (newTransfer env st evt m) }

/-- A round adopted `m` as the manifest to serve. -/
structure Adopts (sha256 : List UInt8 → Bytes 32) (st st' : OtaState) (m : OtaManifest) :
    Prop where
  describes : Describes sha256 st m
  idle : Idle { st with serveManifest := m, canServe := true } st'

/-- `begin_receive` starts the transfer if the image fits and `esp_ota_begin` succeeds. -/
theorem beginReceive_of_fits {env : OtaEnv} {m : OtaManifest} (st : OtaState) (evt : OtaEvent)
    (h : m.size.toNat ≤ otaPartSize ∧ env.beginOk = true) :
    Idle (OtaState.started api env st evt m) (beginReceive api env st evt m) := by
  have hfit : ¬ m.size.toNat > otaPartSize := by omega
  unfold beginReceive
  rw [if_neg hfit, if_neg (by simp [h.2])]
  exact idle_sendReq _ _ _

theorem beginReceive_of_not_fits {env : OtaEnv} {m : OtaManifest} (st : OtaState)
    (evt : OtaEvent) (h : ¬ (m.size.toNat ≤ otaPartSize ∧ env.beginOk = true)) :
    beginReceive api env st evt m = st := by
  unfold beginReceive
  dsimp only
  split
  · rfl
  · split
    · rfl
    · next hfit hok => exact absurd ⟨by omega, by simpa using hok⟩ h

theorem handleManifest_cases (env : OtaEnv) (st : OtaState) {evt : OtaEvent}
    (hty : evt.type = bitleMsgOtaManifest) :
    (startsTransfer ed25519SignOpen env st evt = none ∧
      (Idle st (handleManifest sha256 ed25519SignOpen api env st evt) ∨
        ∃ m, Adopts sha256 st (handleManifest sha256 ed25519SignOpen api env st evt) m)) ∨
    (∃ m st₀, startsTransfer ed25519SignOpen env st evt = some m ∧ Idle st st₀ ∧
      Idle (OtaState.started api env st₀ evt m)
        (handleManifest sha256 ed25519SignOpen api env st evt)) := by
  unfold startsTransfer handleManifest
  rw [if_pos hty]
  cases parseManifest ed25519SignOpen evt.payload with
  | none => exact Or.inl ⟨rfl, Or.inl (Idle.refl st)⟩
  | some m =>
    dsimp only
    by_cases hsame : m.version = st.fwVersion
    · -- the running version: adopt or ignore
      rw [if_pos hsame, if_neg (by simp [hsame])]
      refine Or.inl ⟨rfl, ?_⟩
      split
      · next hadopt =>
        rw [Bool.and_eq_true] at hadopt
        unfold storeServeManifest
        split
        · exact Or.inl (idle_sendStatus _ _ _ _)
        · refine Or.inr ⟨m, describes_of_hashMatches hadopt.2, Idle.trans ?_ (idle_sendStatus _ _ _ _)⟩
          have h := Idle.refl { st with serveManifest := m, canServe := true }
          exact { h with }
      · exact Or.inl (Idle.refl st)
    · rw [if_neg hsame]
      by_cases hdown : m.version < st.fwVersion
      · rw [if_pos hdown, if_neg fun h => absurd (UInt32.lt_trans h.1 hdown) (UInt32.lt_irrefl _)]
        exact Or.inl ⟨rfl, Or.inl (Idle.refl st)⟩
      · rw [if_neg hdown]
        have hup : st.fwVersion < m.version :=
          UInt32.lt_of_le_of_ne (UInt32.not_lt.mp hdown) (Ne.symm hsame)
        by_cases hfit : m.size.toNat ≤ otaPartSize ∧ env.beginOk = true
        · cases hrx : st.rx with
          | none =>
            rw [if_pos ⟨hup, by simp, hfit⟩]
            exact Or.inr ⟨m, st, rfl, Idle.refl st, beginReceive_of_fits st evt hfit⟩
          | some t =>
            dsimp only
            by_cases hold : m.version ≤ t.manifest.version
            · rw [if_pos hold, if_neg]
              · exact Or.inl ⟨rfl, Or.inl (Idle.refl st)⟩
              · exact fun h => UInt32.not_lt.mpr hold (h.2.1 t rfl)
            · rw [if_neg hold, if_pos]
              · exact Or.inr ⟨m, _, rfl, idle_abortReceive st, beginReceive_of_fits _ evt hfit⟩
              · refine ⟨hup, ?_, hfit⟩
                rintro u ⟨rfl⟩
                exact UInt32.not_le.mp hold
        · -- no room, or `esp_ota_begin` fails
          rw [if_neg fun h => hfit h.2.2]
          refine Or.inl ⟨rfl, Or.inl ?_⟩
          split
          · rw [beginReceive_of_not_fits _ _ hfit]
            exact Idle.refl st
          · split
            · exact Idle.refl st
            · rw [beginReceive_of_not_fits _ _ hfit]
              exact idle_abortReceive st

theorem handleChunk_cases (env : OtaEnv) (st : OtaState) {evt : OtaEvent}
    (hty : evt.type = bitleMsgOtaChunk) :
    (acceptedChunk st evt = none ∧ Idle st (handleChunk sha256 api env st evt)) ∨
    (∃ t data, acceptedChunk st evt = some (t, data) ∧
      handleChunk sha256 api env st evt =
        acceptChunk sha256 api env (st.touched env t) { t with lastActivityMs := env.nowMs }
          data) := by
  unfold acceptedChunk handleChunk
  rw [if_pos hty]
  cases hrx : st.rx with
  | none => exact Or.inl ⟨rfl, Idle.refl st⟩
  | some t =>
    dsimp only
    by_cases hlen : evt.payload.length < 9
    · rw [if_pos hlen, if_neg (by omega)]
      exact Or.inl ⟨rfl, Idle.refl st⟩
    · rw [if_neg hlen]
      by_cases hver : u32At evt.payload 0 = t.manifest.version
      · rw [if_neg (not_not.mpr hver)]
        by_cases hidx : u32At evt.payload 4 = t.nextChunk
        · rw [if_neg (not_not.mpr hidx), hidx]
          by_cases hdata : (evt.payload.drop 8).length = (expectedLen t.manifest t.nextChunk).toNat
          · rw [if_neg (not_not.mpr hdata), if_pos ⟨by omega, hver, rfl, hdata⟩]
            exact Or.inr ⟨t, _, rfl, rfl⟩
          · rw [if_pos hdata, if_neg fun h => hdata h.2.2.2]
            exact Or.inl ⟨rfl, idle_timers hrx rfl⟩
        · rw [if_pos hidx, if_neg fun h => hidx h.2.2.1]
          refine Or.inl ⟨rfl, Idle.trans ?_ (idle_sendReq _ _ _)⟩
          exact idle_timers hrx rfl
      · rw [if_pos hver, if_neg fun h => hver h.2.1]
        exact Or.inl ⟨rfl, Idle.refl st⟩

theorem startsTransfer_of_type {env : OtaEnv} {st : OtaState} {evt : OtaEvent}
    (h : evt.type ≠ bitleMsgOtaManifest) : startsTransfer ed25519SignOpen env st evt = none :=
  if_neg h

theorem acceptedChunk_of_type {st : OtaState} {evt : OtaEvent}
    (h : evt.type ≠ bitleMsgOtaChunk) : acceptedChunk st evt = none :=
  if_neg h

variable (sha256 ed25519SignOpen api) in
/-- **The case analysis of the handlers.** An event that neither starts a transfer nor carries
an acceptable chunk leaves the state idle or adopts a manifest of the running image; the other
two kinds do exactly what `started` and `accept_chunk` say. -/
theorem handleEvent_cases (env : OtaEnv) (st : OtaState) (evt : OtaEvent) :
    (startsTransfer ed25519SignOpen env st evt = none ∧ acceptedChunk st evt = none ∧
      (Idle st (handleEvent sha256 ed25519SignOpen api env st evt) ∨
        ∃ m, Adopts sha256 st (handleEvent sha256 ed25519SignOpen api env st evt) m)) ∨
    (∃ m st₀, startsTransfer ed25519SignOpen env st evt = some m ∧ acceptedChunk st evt = none ∧
      Idle st st₀ ∧ Idle (OtaState.started api env st₀ evt m)
        (handleEvent sha256 ed25519SignOpen api env st evt)) ∨
    (∃ t data, startsTransfer ed25519SignOpen env st evt = none ∧
      acceptedChunk st evt = some (t, data) ∧
      handleEvent sha256 ed25519SignOpen api env st evt =
        acceptChunk sha256 api env (st.touched env t) { t with lastActivityMs := env.nowMs } data) := by
  unfold handleEvent
  by_cases hm : evt.type = bitleMsgOtaManifest
  · have hc : acceptedChunk st evt = none := acceptedChunk_of_type (by rw [hm]; decide)
    rw [if_pos hm]
    rcases handleManifest_cases env st hm with ⟨hs, h⟩ | ⟨m, st₀, hs, h₀, h⟩
    · exact Or.inl ⟨hs, hc, h⟩
    · exact Or.inr (Or.inl ⟨m, st₀, hs, hc, h₀, h⟩)
  · have hs : startsTransfer ed25519SignOpen env st evt = none := startsTransfer_of_type hm
    rw [if_neg hm]
    by_cases hck : evt.type = bitleMsgOtaChunk
    · rw [if_pos hck]
      rcases handleChunk_cases env st hck with ⟨hc, h⟩ | ⟨t, data, hc, h⟩
      · exact Or.inl ⟨hs, hc, Or.inl h⟩
      · exact Or.inr (Or.inr ⟨t, data, hs, hc, h⟩)
    · rw [if_neg hck]
      refine Or.inl ⟨hs, acceptedChunk_of_type hck, Or.inl ?_⟩
      split
      · exact idle_handleReq env st evt
      · split
        · exact idle_handleOffer env st evt
        · exact Idle.refl st

/-! ## An accepted chunk -/

/-- The transfer after one more chunk. -/
def Transfer.advance (t : Transfer) (data : List UInt8) : Transfer :=
  { t with
    nextChunk := t.nextChunk + 1, wrote := t.wrote + data.length, retries := 0
    sha := t.sha ++ data }

/-- The state after a successful write. -/
def OtaState.wrote (api : OtaApi) (st : OtaState) (t : Transfer) (data : List UInt8) : OtaState :=
  { st.call (.otaWrite t.part data) with
    slots := Function.update st.slots t.part (api.write (st.slots t.part) t.wrote data)
    rx := some (t.advance data) }

/-- The state after a write that failed. -/
def OtaState.wroteFail (api : OtaApi) (st : OtaState) (t : Transfer) (data : List UInt8) :
    OtaState :=
  { st.call (.otaWrite t.part data) with
    slots := Function.update st.slots t.part (api.writeFail (st.slots t.part) t.wrote data)
    rx := none }

/-- The chunk is the last one and the image passes: `finish_receive` gets to
`esp_ota_set_boot_partition`. -/
def Completes (sha256 : List UInt8 → Bytes 32) (env : OtaEnv) (t : Transfer)
    (data : List UInt8) : Prop :=
  env.writeOk = true ∧ t.totalChunks ≤ t.nextChunk + 1 ∧
    sha256 (t.sha ++ data) = t.manifest.sha256 ∧ env.endOk = true

/-- The state after the boot slot was switched to the transfer's, with the manifest to serve
replaced where NVS opens. -/
def OtaState.switched (env : OtaEnv) (st : OtaState) (t : Transfer) : OtaState :=
  let st := { st.call (.setBoot t.part) with boot := t.part, rx := none }
  if env.nvsOpenOk then { st with serveManifest := t.manifest, canServe := true } else st

/-- What `finish_receive` does, by the outcome of its checks. -/
theorem finishReceive_cases (env : OtaEnv) (st : OtaState) (t : Transfer) :
    (¬ (sha256 t.sha = t.manifest.sha256 ∧ env.endOk = true) ∧
      Idle st (finishReceive sha256 env st t) ∧ (finishReceive sha256 env st t).rx = none) ∨
    (sha256 t.sha = t.manifest.sha256 ∧ env.endOk = true ∧ env.setBootOk = false ∧
      Idle (st.call (.setBoot t.part)) (finishReceive sha256 env st t) ∧
      (finishReceive sha256 env st t).rx = none) ∨
    (sha256 t.sha = t.manifest.sha256 ∧ env.endOk = true ∧ env.setBootOk = true ∧
      Idle (st.switched env t) (finishReceive sha256 env st t)) := by
  unfold finishReceive
  by_cases hsha : sha256 t.sha = t.manifest.sha256
  · rw [if_neg (not_not.mpr hsha)]
    cases hend : env.endOk with
    | false => exact Or.inl ⟨by simp, (idle_sendStatus _ _ _ _).trans (idle_drop _), rfl⟩
    | true =>
      refine Or.inr ?_
      cases hset : env.setBootOk with
      | false =>
        exact Or.inl ⟨hsha, rfl, rfl, (idle_sendStatus _ _ _ _).trans (idle_drop _), rfl⟩
      | true =>
        refine Or.inr ⟨hsha, rfl, rfl, ?_⟩
        unfold OtaState.switched storeServeManifest
        have hlog : ∀ s : OtaState, ∃ l, (sendStatus s t.connHandle t.peer 0x00).log = s.log ++ l ∧
            ∀ c ∈ l, c.plain = true := fun s => (idle_sendStatus s _ _ _).log
        cases hnvs : env.nvsOpenOk with
        | false => exact ⟨rfl, rfl, rfl, rfl, rfl, rfl, Or.inl rfl, hlog _⟩
        | true => exact ⟨rfl, rfl, rfl, rfl, rfl, rfl, Or.inl rfl, hlog _⟩
  · rw [if_pos hsha]
    refine Or.inl ⟨fun h => hsha h.1, ?_, rfl⟩
    exact ((idle_call st rfl).trans (idle_sendStatus _ _ _ _)).trans (idle_drop _)

variable (sha256 api) in
/-- **The case analysis of an accepted chunk.** Unless it completes the image, the chunk is
written and the transfer goes on while chunks are missing; the boot slot is switched only when
it completes it. -/
theorem acceptChunk_cases (env : OtaEnv) (st : OtaState) (t : Transfer) (data : List UInt8) :
    (env.writeOk = false ∧ Idle (st.wroteFail api t data) (acceptChunk sha256 api env st t data)) ∨
    (env.writeOk = true ∧ ¬ Completes sha256 env t data ∧
      Idle (st.wrote api t data) (acceptChunk sha256 api env st t data) ∧
      ((acceptChunk sha256 api env st t data).rx = none ∨ t.nextChunk + 1 < t.totalChunks)) ∨
    (Completes sha256 env t data ∧ env.setBootOk = false ∧
      Idle ((st.wrote api t data).call (.setBoot t.part)) (acceptChunk sha256 api env st t data) ∧
      (acceptChunk sha256 api env st t data).rx = none) ∨
    (Completes sha256 env t data ∧ env.setBootOk = true ∧
      Idle ((st.wrote api t data).switched env (t.advance data))
        (acceptChunk sha256 api env st t data)) := by
  cases hw : env.writeOk with
  | false =>
    refine Or.inl ⟨rfl, ?_⟩
    unfold acceptChunk
    rw [hw]
    have h := (idle_abortReceive { st.call (.otaWrite t.part data) with
      slots := Function.update st.slots t.part (api.writeFail (st.slots t.part) t.wrote data) })
    exact { h with rx := Or.inl (abortReceive_rx _) }
  | true =>
    refine Or.inr ?_
    -- the last chunk ends the transfer one way or another, any other one asks for the next
    by_cases hlast : t.totalChunks ≤ t.nextChunk + 1
    · have heq : acceptChunk sha256 api env st t data =
          finishReceive sha256 env (st.wrote api t data) (t.advance data) := by
        unfold acceptChunk
        rw [hw]
        exact if_pos hlast
      rw [heq]
      rcases finishReceive_cases env (st.wrote api t data) (t.advance data) with
        ⟨hn, hi, hrx⟩ | ⟨hs, he, hb, hi, hrx⟩ | ⟨hs, he, hb, hi⟩
      · exact Or.inl ⟨rfl, fun h => hn ⟨h.2.2.1, h.2.2.2⟩, hi, Or.inl hrx⟩
      · exact Or.inr (Or.inl ⟨⟨hw, hlast, hs, he⟩, hb, hi, hrx⟩)
      · exact Or.inr (Or.inr ⟨⟨hw, hlast, hs, he⟩, hb, hi⟩)
    · have heq : acceptChunk sha256 api env st t data =
          sendReq (st.wrote api t data) (t.advance data) (t.nextChunk + 1) := by
        unfold acceptChunk
        rw [hw]
        exact if_neg hlast
      rw [heq]
      exact Or.inl ⟨rfl, fun h => hlast h.2.1, idle_sendReq _ _ _,
        Or.inr (UInt32.not_le.mp hlast)⟩

end Task

end Bitle
