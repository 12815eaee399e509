import Bitle.Ota.Serve

/-!
# Bitle — a transfer, chunk by chunk

`Receiving` ties the parts of an active transfer together: the chunk counter, the bytes hashed,
the bytes passed to `esp_ota_write` since the last `esp_ota_begin`, and the chunks accepted so
far, which `otaStepChunks` records next to the state. It holds in every state of every run, and
from it follows what is known when `esp_ota_set_boot_partition` is called.
-/

namespace Bitle

open Wire Flash Run

/-! ## The calls since the transfer began -/

/-- The bytes passed to `esp_ota_write` since the last `esp_ota_begin`. -/
def writesSinceBegin (log : List OtaCall) : List UInt8 :=
  log.foldl (fun acc c =>
    match c with
    | .otaBegin _ => []
    | .otaWrite _ data => acc ++ data
    | _ => acc) []

@[simp] theorem writesSinceBegin_begin (log : List OtaCall) (part : AppSlot) :
    writesSinceBegin (log ++ [.otaBegin part]) = [] := by
  simp [writesSinceBegin]

@[simp] theorem writesSinceBegin_write (log : List OtaCall) (part : AppSlot) (data : List UInt8) :
    writesSinceBegin (log ++ [.otaWrite part data]) = writesSinceBegin log ++ data := by
  simp [writesSinceBegin]

/-- Plain calls do not count. -/
theorem writesSinceBegin_plain (log : List OtaCall) {l : List OtaCall}
    (h : ∀ c ∈ l, c.plain = true) : writesSinceBegin (log ++ l) = writesSinceBegin log := by
  unfold writesSinceBegin
  rw [List.foldl_append]
  induction l generalizing log with
  | nil => rfl
  | cons c l ih =>
    have hc : c.plain = true := h c (by simp)
    rw [List.foldl_cons]
    cases c with
    | otaBegin _ => cases hc
    | otaWrite _ _ => cases hc
    | setBoot _ => cases hc
    | otaAbort => exact ih log fun c hc => h c (by simp [hc])
    | send _ _ _ _ => exact ih log fun c hc => h c (by simp [hc])
    | markValid => exact ih log fun c hc => h c (by simp [hc])
    | restart => exact ih log fun c hc => h c (by simp [hc])

/-! ## Chunk arithmetic -/

/-- The number of chunks of a manifest, as `handle_manifest` computes it. -/
def totalChunks (m : OtaManifest) : UInt32 :=
  (m.size + m.chunkSize.toUInt32 - 1) / m.chunkSize.toUInt32

/-- A manifest the receiver can work with. -/
structure Usable (m : OtaManifest) : Prop where
  size_ne : m.size ≠ 0
  le_chunk : 64 ≤ m.chunkSize
  chunk_le : m.chunkSize ≤ otaChunkMax
  fits : m.size.toNat ≤ otaPartSize

theorem Usable.bounds {m : OtaManifest} (h : Usable m) :
    0 < m.size.toNat ∧ m.size.toNat ≤ 1835008 ∧ 64 ≤ m.chunkSize.toNat ∧
      m.chunkSize.toNat ≤ 480 := by
  have h1 : m.size.toNat ≠ 0 := fun h0 => h.size_ne (UInt32.toNat_inj.mp h0)
  have h2 := UInt16.le_iff_toNat_le.mp h.le_chunk
  have h3 := UInt16.le_iff_toNat_le.mp h.chunk_le
  have h4 := h.fits
  refine ⟨by omega, h4, h2, h3⟩

/-- Chunk `i` exists exactly when its offset is inside the image. -/
theorem lt_totalChunks_iff {m : OtaManifest} (h : Usable m) (i : UInt32) :
    i < totalChunks m ↔ i.toNat * m.chunkSize.toNat < m.size.toNat := by
  obtain ⟨h1, h2, h3, h4⟩ := h.bounds
  have hsum : (m.size + m.chunkSize.toUInt32 - 1).toNat = m.size.toNat + m.chunkSize.toNat - 1 := by
    have hadd : (m.size + m.chunkSize.toUInt32).toNat = m.size.toNat + m.chunkSize.toNat := by
      rw [UInt32.toNat_add, UInt16.toNat_toUInt32]
      omega
    have hone : (1 : UInt32) ≤ m.size + m.chunkSize.toUInt32 := by
      rw [UInt32.le_iff_toNat_le, hadd]
      change 1 ≤ _
      omega
    rw [UInt32.toNat_sub_of_le _ _ hone, hadd]
    rfl
  rw [UInt32.lt_iff_toNat_lt, totalChunks, UInt32.toNat_div, hsum, UInt16.toNat_toUInt32,
    Nat.lt_iff_add_one_le, Nat.le_div_iff_mul_le (by omega), Nat.add_mul]
  omega

/-- An offset inside the image does not wrap. -/
theorem toNat_offset_of_lt {m : OtaManifest} {i : UInt32}
    (hi : i.toNat * m.chunkSize.toNat < m.size.toNat) :
    (i * m.chunkSize.toUInt32).toNat = i.toNat * m.chunkSize.toNat := by
  have := m.size.toNat_lt
  rw [UInt32.toNat_mul, UInt16.toNat_toUInt32, Nat.mod_eq_of_lt (by omega)]

/-- A chunk is as long as the chunk size, or as what is left of the image. -/
theorem toNat_expectedLen_of_lt {m : OtaManifest} {i : UInt32}
    (hi : i.toNat * m.chunkSize.toNat < m.size.toNat) :
    (expectedLen m i).toNat =
      min m.chunkSize.toNat (m.size.toNat - i.toNat * m.chunkSize.toNat) := by
  have hoff := toNat_offset_of_lt hi
  have hsub : (m.size - i * m.chunkSize.toUInt32).toNat =
      m.size.toNat - i.toNat * m.chunkSize.toNat := by
    rw [UInt32.toNat_sub_of_le _ _ (UInt32.le_iff_toNat_le.mpr (by omega)), hoff]
  unfold expectedLen
  dsimp only
  split
  · next hgt =>
    have := UInt32.lt_iff_toNat_lt.mp hgt
    rw [hsub, UInt16.toNat_toUInt32] at this
    rw [UInt16.toNat_toUInt32]
    omega
  · next hgt =>
    have := UInt32.le_iff_toNat_le.mp (UInt32.not_lt.mp hgt)
    rw [hsub, UInt16.toNat_toUInt32] at this
    rw [hsub]
    omega

theorem toNat_expectedLen {m : OtaManifest} (h : Usable m) {i : UInt32} (hi : i < totalChunks m) :
    (expectedLen m i).toNat =
      min m.chunkSize.toNat (m.size.toNat - i.toNat * m.chunkSize.toNat) :=
  toNat_expectedLen_of_lt ((lt_totalChunks_iff h i).mp hi)

/-- The counter does not wrap at an existing chunk. -/
theorem toNat_next {m : OtaManifest} (h : Usable m) {i : UInt32} (hi : i < totalChunks m) :
    (i + 1).toNat = i.toNat + 1 := by
  have hlt := (lt_totalChunks_iff h i).mp hi
  obtain ⟨h1, h2, h3, h4⟩ := h.bounds
  have hi : i.toNat * 64 ≤ i.toNat * m.chunkSize.toNat := Nat.mul_le_mul_left _ h3
  rw [UInt32.toNat_add]
  change (i.toNat + 1) % 2 ^ 32 = _
  omega

/-- A chunk with a successor is full. -/
theorem expectedLen_of_next {m : OtaManifest} (h : Usable m) {i : UInt32} (hi : i < totalChunks m)
    (hn : i + 1 < totalChunks m) : (expectedLen m i).toNat = m.chunkSize.toNat := by
  have hlt := (lt_totalChunks_iff h _).mp hn
  rw [toNat_next h hi, Nat.add_mul] at hlt
  rw [toNat_expectedLen h hi]
  omega

/-- The last chunk ends with the image. -/
theorem expectedLen_of_last {m : OtaManifest} (h : Usable m) {i : UInt32} (hi : i < totalChunks m)
    (hn : totalChunks m ≤ i + 1) :
    i.toNat * m.chunkSize.toNat + (expectedLen m i).toNat = m.size.toNat := by
  have hlt := (lt_totalChunks_iff h i).mp hi
  have hlast : ¬ (i + 1).toNat * m.chunkSize.toNat < m.size.toNat := fun hc =>
    UInt32.not_lt.mpr hn ((lt_totalChunks_iff h _).mpr hc)
  rw [toNat_next h hi, Nat.add_mul] at hlast
  rw [toNat_expectedLen h hi]
  omega

/-! ## The invariant of a transfer -/

/-- An accepted chunk: its index and its bytes. -/
abbrev Chunk : Type := UInt32 × List UInt8

section Task

variable (sha256 : List UInt8 → Bytes 32)
variable (ed25519SignOpen : List UInt8 → Bytes 32 → Bytes 64 → Bool)
variable (api : OtaApi)

/-- The chunks accepted since the transfer began, after one more input. -/
def chunksAfter (st : OtaState) (chunks : List Chunk) : OtaInput → List Chunk
  | .round (some evt) env =>
    if st.halted then chunks
    else if (startsTransfer ed25519SignOpen env st evt).isSome then []
    else
      match acceptedChunk st evt with
      | none => chunks
      | some (_, data) => chunks ++ [(u32At evt.payload 4, data)]
  | _ => chunks

/-- The machine with the accepted chunks of the current transfer recorded next to it. -/
def otaStepChunks (p : OtaState × List Chunk) (i : OtaInput) : OtaState × List Chunk :=
  (otaStep sha256 ed25519SignOpen api p.1 i, chunksAfter ed25519SignOpen p.1 p.2 i)

/-- The record does not influence the machine. -/
theorem fst_final_otaStepChunks (p : OtaState × List Chunk) (is : List OtaInput) :
    (final (otaStepChunks sha256 ed25519SignOpen api) p is).1 =
      final (otaStep sha256 ed25519SignOpen api) p.1 is := by
  induction is generalizing p with
  | nil => rfl
  | cons i is ih => exact ih _

variable {sha256 ed25519SignOpen api}

/-- **The invariant of an active transfer.** -/
structure Receiving (ed25519SignOpen : List UInt8 → Bytes 32 → Bytes 64 → Bool) (st : OtaState)
    (chunks : List Chunk) (t : Transfer) : Prop where
  parsed : parseManifest ed25519SignOpen t.manifest.raw.val = some t.manifest
  newer : st.fwVersion < t.manifest.version
  fits : t.manifest.size.toNat ≤ otaPartSize
  total : t.totalChunks = totalChunks t.manifest
  next_lt : t.nextChunk < t.totalChunks
  indices : chunks.map Prod.fst = (List.range t.nextChunk.toNat).map UInt32.ofNat
  sha : t.sha = (chunks.map Prod.snd).flatten
  length : t.sha.length = t.nextChunk.toNat * t.manifest.chunkSize.toNat
  writes : writesSinceBegin st.log = t.sha
  wrote : t.wrote = t.sha.length

theorem Receiving.usable {st : OtaState} {chunks : List Chunk} {t : Transfer}
    (h : Receiving ed25519SignOpen st chunks t) : Usable t.manifest := by
  obtain ⟨-, -, h1, h2, h3⟩ := parseManifest_eq_some h.parsed
  exact ⟨h1, h2, h3, h.fits⟩

/-- `Receiving` for the transfer of a state, if it has one. -/
def TransferInv (ed25519SignOpen : List UInt8 → Bytes 32 → Bytes 64 → Bool)
    (p : OtaState × List Chunk) : Prop :=
  ∀ t, p.1.rx = some t → Receiving ed25519SignOpen p.1 p.2 t

theorem Idle.transferInv {st st' : OtaState} (h : Idle st st') {chunks : List Chunk}
    (hi : TransferInv ed25519SignOpen (st, chunks)) : TransferInv ed25519SignOpen (st', chunks) := by
  intro u hu
  rcases h.rx with hn | ⟨t, t', ht, ht', hc⟩
  · dsimp only at hu
    rw [hn] at hu
    simp at hu
  · obtain rfl : t' = u := by
      dsimp only at hu
      rwa [ht', Option.some.injEq] at hu
    have r := hi t ht
    obtain ⟨l, hl, hp⟩ := h.log
    cases t
    cases t'
    simp only [Transfer.core, Transfer.mk.injEq] at hc
    obtain ⟨rfl, rfl, rfl, rfl, rfl, -, -, -, -, rfl⟩ := hc
    exact
      { parsed := r.parsed, newer := by rw [h.fwVersion]; exact r.newer, fits := r.fits
        total := r.total, next_lt := r.next_lt, indices := r.indices, sha := r.sha
        length := r.length
        writes := by rw [hl, writesSinceBegin_plain _ hp]; exact r.writes
        wrote := r.wrote }

/-- What `startsTransfer` says about the manifest. -/
theorem startsTransfer_eq_some {env : OtaEnv} {st : OtaState} {evt : OtaEvent} {m : OtaManifest}
    (h : startsTransfer ed25519SignOpen env st evt = some m) :
    parseManifest ed25519SignOpen m.raw.val = some m ∧ st.fwVersion < m.version ∧
      m.size.toNat ≤ otaPartSize ∧ env.beginOk = true := by
  unfold startsTransfer at h
  split at h
  · split at h
    · simp at h
    · next m' hm =>
      split at h
      · next hc =>
        rw [Option.some.injEq] at h
        subst h
        refine ⟨?_, hc.1, hc.2.2⟩
        rw [(parseManifest_eq_some hm).1]
        exact hm
      · simp at h
  · simp at h

/-- A transfer begins with no chunk. -/
theorem transferInv_started {env : OtaEnv} {st st₀ : OtaState} {evt : OtaEvent} {m : OtaManifest}
    (hs : startsTransfer ed25519SignOpen env st evt = some m) (hi : Idle st st₀) :
    TransferInv ed25519SignOpen (OtaState.started api env st₀ evt m, []) := by
  obtain ⟨hparse, hver, hfit, -⟩ := startsTransfer_eq_some hs
  obtain ⟨-, -, hsize, hle, hge⟩ := parseManifest_eq_some hparse
  have husable : Usable m := ⟨hsize, hle, hge, hfit⟩
  rintro t ⟨rfl⟩
  exact
    { parsed := hparse, newer := by change st₀.fwVersion < _; rw [hi.fwVersion]; exact hver
      fits := hfit, total := rfl
      next_lt := (lt_totalChunks_iff husable 0).mpr (by simpa using husable.bounds.1)
      indices := rfl, sha := rfl, length := by simp [newTransfer]
      writes := writesSinceBegin_begin _ _, wrote := rfl }

/-- One more chunk, while another is missing. -/
theorem Receiving.wrote_next {st : OtaState} {chunks : List Chunk} {t : Transfer}
    (r : Receiving ed25519SignOpen st chunks t) {data : List UInt8}
    (hlen : data.length = (expectedLen t.manifest t.nextChunk).toNat)
    (hmore : t.nextChunk + 1 < t.totalChunks) :
    Receiving ed25519SignOpen (st.wrote api t data) (chunks ++ [(t.nextChunk, data)])
      (t.advance data) := by
  have hu := r.usable
  have hlt : t.nextChunk < totalChunks t.manifest := r.total ▸ r.next_lt
  have hnext := toNat_next hu hlt
  have hfull := expectedLen_of_next hu hlt (r.total ▸ hmore)
  exact
    { parsed := r.parsed, newer := r.newer, fits := r.fits, total := r.total, next_lt := hmore
      indices := by
        rw [List.map_append, r.indices]
        change _ = (List.range (t.nextChunk + 1).toNat).map UInt32.ofNat
        simp [hnext, List.range_succ]
      sha := by
        change t.sha ++ data = _
        simp [r.sha]
      length := by
        change (t.sha ++ data).length = (t.nextChunk + 1).toNat * t.manifest.chunkSize.toNat
        rw [List.length_append, r.length, hlen, hfull, hnext, Nat.add_mul, Nat.one_mul]
      writes := by
        change writesSinceBegin (st.log ++ [.otaWrite t.part data]) = t.sha ++ data
        rw [writesSinceBegin_write, r.writes]
      wrote := by
        change t.wrote + data.length = (t.sha ++ data).length
        rw [List.length_append, r.wrote] }

/-- A state without a transfer. -/
theorem transferInv_of_none {st : OtaState} {chunks : List Chunk} (h : st.rx = none) :
    TransferInv ed25519SignOpen (st, chunks) := by
  intro t ht
  dsimp only at ht
  rw [h] at ht
  cases ht

theorem transferInv_acceptChunk {env : OtaEnv} {st : OtaState} {chunks : List Chunk} {t : Transfer}
    (r : Receiving ed25519SignOpen st chunks t) {data : List UInt8}
    (hlen : data.length = (expectedLen t.manifest t.nextChunk).toNat) :
    TransferInv ed25519SignOpen
      (acceptChunk sha256 api env st t data, chunks ++ [(t.nextChunk, data)]) := by
  rcases acceptChunk_cases sha256 api env st t data with
    ⟨-, h⟩ | ⟨-, -, h, hrx | hmore⟩ | ⟨-, -, h, hrx⟩ | ⟨-, -, h⟩
  · exact h.transferInv (transferInv_of_none rfl)
  · exact transferInv_of_none hrx
  · refine h.transferInv ?_
    rintro u ⟨rfl⟩
    exact r.wrote_next hlen hmore
  · exact transferInv_of_none hrx
  · refine h.transferInv (transferInv_of_none ?_)
    unfold OtaState.switched
    dsimp only
    split <;> rfl

/-- The timers of a transfer do not matter to it. -/
theorem Receiving.touched {st : OtaState} {chunks : List Chunk} {t : Transfer}
    (r : Receiving ed25519SignOpen st chunks t) (env : OtaEnv) :
    Receiving ed25519SignOpen (st.touched env t) chunks { t with lastActivityMs := env.nowMs } :=
  { r with }

/-- **One step.** Every input keeps the invariant. -/
theorem transferInv_step {p : OtaState × List Chunk} (hp : TransferInv ed25519SignOpen p)
    (i : OtaInput) :
    TransferInv ed25519SignOpen (otaStepChunks sha256 ed25519SignOpen api p i) := by
  obtain ⟨st, chunks⟩ := p
  unfold otaStepChunks
  cases i with
  | health => exact fun t ht => { hp t ht with }
  | boot b env =>
    have h := boots_bitleOtaInit sha256 ed25519SignOpen env (st.reset b)
    exact transferInv_of_none h.rx
  | round evt env =>
    unfold otaStep chunksAfter
    dsimp only
    cases hh : st.halted with
    | true =>
      cases evt with
      | none => exact hp
      | some evt => exact hp
    | false =>
      cases evt with
      | none => exact (idle_poll env st).transferInv hp
      | some evt =>
        refine (idle_poll env _).transferInv ?_
        dsimp only
        -- a round keeps the transfer, opens one, or takes the next chunk
        rcases handleEvent_cases sha256 ed25519SignOpen api env st evt with
          ⟨hs, hc, h | ⟨m, h⟩⟩ | ⟨m, st₀, hs, hc, h₀, h⟩ | ⟨t, data, hs, hc, h⟩
        · rw [hs, hc]
          exact h.transferInv hp
        · rw [hs, hc]
          exact h.idle.transferInv fun t ht => { hp t ht with }
        · rw [hs]
          exact h.transferInv (transferInv_started hs h₀)
        · obtain ⟨hrx, hidx, -, hlen⟩ := acceptedChunk_eq_some hc
          have r := (hp t hrx).touched env
          rw [hs, hc, h]
          dsimp only
          rw [hidx]
          exact transferInv_acceptChunk (t := { t with lastActivityMs := env.nowMs }) r hlen

/-! ## Switching the boot slot -/

/-- A list of calls without a boot switch. -/
def NoSwitch (l : List OtaCall) : Prop := ∀ part, OtaCall.setBoot part ∉ l

theorem noSwitch_of_plain {l : List OtaCall} (h : ∀ c ∈ l, c.plain = true) : NoSwitch l := by
  intro part hm
  have := h _ hm
  cases this

theorem NoSwitch.append {l l' : List OtaCall} (h : NoSwitch l) (h' : NoSwitch l') :
    NoSwitch (l ++ l') := by
  intro part hm
  rcases List.mem_append.mp hm with hm | hm
  · exact h part hm
  · exact h' part hm

theorem noSwitch_singleton {c : OtaCall} (h : ∀ part, c ≠ .setBoot part) : NoSwitch [c] := by
  intro part hm
  rw [List.mem_singleton] at hm
  exact h part hm.symm

/-- Plain calls after calls without a switch. -/
theorem Idle.calls {st st' : OtaState} (h : Idle st st') {log l : List OtaCall}
    (hl : st.log = log ++ l) (hn : NoSwitch l) : ∃ k, st'.log = log ++ k ∧ NoSwitch k := by
  obtain ⟨k, hk, hp⟩ := h.log
  exact ⟨l ++ k, by rw [hk, hl, List.append_assoc], hn.append (noSwitch_of_plain hp)⟩

variable (sha256 api) in
/-- The calls of an accepted chunk: the write and no boot switch, or, if it completes the image,
the write, the switch, and none after it. -/
theorem acceptChunk_calls (env : OtaEnv) (st : OtaState) (t : Transfer) (data : List UInt8) :
    (∃ l, (acceptChunk sha256 api env st t data).log = st.log ++ l ∧ NoSwitch l) ∨
    (Completes sha256 env t data ∧ ∃ l, (acceptChunk sha256 api env st t data).log =
      (st.log ++ [.otaWrite t.part data, .setBoot t.part]) ++ l ∧ NoSwitch l) := by
  have hw : NoSwitch [OtaCall.otaWrite t.part data] := noSwitch_singleton (by simp)
  have hnil : NoSwitch [] := by simp [NoSwitch]
  rcases acceptChunk_cases sha256 api env st t data with
    ⟨-, h⟩ | ⟨-, -, h, -⟩ | ⟨hcomp, -, h, -⟩ | ⟨hcomp, -, h⟩
  · exact Or.inl (h.calls rfl hw)
  · exact Or.inl (h.calls rfl hw)
  · refine Or.inr ⟨hcomp, h.calls (l := []) ?_ hnil⟩
    simp [OtaState.call, OtaState.wrote]
  · refine Or.inr ⟨hcomp, h.calls (l := []) ?_ hnil⟩
    unfold OtaState.switched
    cases env.nvsOpenOk <;> simp [OtaState.call, OtaState.wrote, Transfer.advance]

variable (sha256 ed25519SignOpen api) in
/-- The calls of one step: no boot switch, or those of a chunk that completes its image. -/
theorem step_calls (st : OtaState) (i : OtaInput) :
    (∃ l, (otaStep sha256 ed25519SignOpen api st i).log = st.log ++ l ∧ NoSwitch l) ∨
    (∃ t evt env data, acceptedChunk st evt = some (t, data) ∧ Completes sha256 env t data ∧
      ∃ l, (otaStep sha256 ed25519SignOpen api st i).log =
        (st.log ++ [.otaWrite t.part data, .setBoot t.part]) ++ l ∧ NoSwitch l) := by
  have hnil : NoSwitch [] := by simp [NoSwitch]
  cases i with
  | health => exact Or.inl ⟨[], by simp [otaStep], hnil⟩
  | boot b env =>
    have h := boots_bitleOtaInit sha256 ed25519SignOpen env (st.reset b)
    exact Or.inl ⟨[], by rw [otaStep, h.log, List.append_nil]; rfl, hnil⟩
  | round evt env =>
    unfold otaStep
    dsimp only
    split
    · exact Or.inl ⟨[], by simp, hnil⟩
    · unfold otaTask
      dsimp only
      cases evt with
      | none => exact Or.inl ((idle_poll env st).calls (List.append_nil _).symm hnil)
      | some evt =>
        have hpoll := idle_poll env (handleEvent sha256 ed25519SignOpen api env st evt)
        dsimp only
        rcases handleEvent_cases sha256 ed25519SignOpen api env st evt with
          ⟨-, -, h | ⟨m, h⟩⟩ | ⟨m, st₀, -, -, h₀, h⟩ | ⟨t, data, -, hc, h⟩
        · exact Or.inl ((h.trans hpoll).calls (List.append_nil _).symm hnil)
        · exact Or.inl ((h.idle.trans hpoll).calls (List.append_nil _).symm hnil)
        · obtain ⟨j, hj, hjn⟩ := h₀.calls (List.append_nil _).symm hnil
          refine Or.inl ((h.trans hpoll).calls (l := j ++ [.otaBegin st₀.running.other]) ?_
            (hjn.append (noSwitch_singleton (by simp))))
          change st₀.log ++ _ = _
          rw [hj, List.append_assoc]
        · rw [h] at hpoll ⊢
          rcases acceptChunk_calls sha256 api env (st.touched env t)
            { t with lastActivityMs := env.nowMs } data with
            ⟨l, hl, hn⟩ | ⟨hcomp, l, hl, hn⟩
          · exact Or.inl (hpoll.calls hl hn)
          · exact Or.inr ⟨t, evt, env, data, hc, hcomp, hpoll.calls hl hn⟩

/-- Where the one switch of a step stands. -/
theorem switch_unique {log pre post l : List OtaCall} {part part' : AppSlot} {c : OtaCall}
    (hc : ∀ p, c ≠ .setBoot p) (hn : NoSwitch l)
    (h : log ++ pre ++ .setBoot part :: post = (log ++ [c, .setBoot part']) ++ l) :
    pre = [c] ∧ part = part' := by
  rw [List.append_assoc, List.append_assoc, List.append_cancel_left_eq] at h
  match pre, h with
  | [], h => exact absurd (List.cons.inj h).1.symm (hc part)
  | [d], h =>
    simp only [List.cons_append, List.nil_append, List.cons.injEq, OtaCall.setBoot.injEq] at h
    exact ⟨by rw [h.1], h.2.1⟩
  | d :: e :: pre, h =>
    simp only [List.cons_append, List.nil_append, List.cons.injEq] at h
    have hm : OtaCall.setBoot part ∈ l := by
      rw [← h.2.2]
      simp
    exact absurd hm (hn part)

/-- **The boot slot is switched only to a complete, verified image.** -/
theorem setBoot_verified {st : OtaState} {chunks : List Chunk}
    (hi : TransferInv ed25519SignOpen (st, chunks)) {i : OtaInput} {part : AppSlot}
    {pre post : List OtaCall}
    (h : (otaStep sha256 ed25519SignOpen api st i).log =
      st.log ++ pre ++ .setBoot part :: post) :
    ∃ t, st.rx = some t ∧ part = t.part ∧
      (writesSinceBegin (st.log ++ pre)).length = t.manifest.size.toNat ∧
      sha256 (writesSinceBegin (st.log ++ pre)) = t.manifest.sha256 ∧
      parseManifest ed25519SignOpen t.manifest.raw.val = some t.manifest ∧
      manifestSigned ed25519SignOpen t.manifest.raw.val = true ∧
      st.fwVersion < t.manifest.version := by
  rcases step_calls sha256 ed25519SignOpen api st i with
    ⟨l, hl, hn⟩ | ⟨t, evt, env, data, hc, hcomp, l, hl, hn⟩
  · rw [hl, List.append_assoc, List.append_cancel_left_eq] at h
    exact absurd (by rw [h]; simp) (hn part)
  · obtain ⟨rfl, rfl⟩ := switch_unique (by simp) hn (h.symm.trans hl)
    obtain ⟨hrx, -, -, hlen⟩ := acceptedChunk_eq_some hc
    have r := hi t hrx
    have hlt : t.nextChunk < totalChunks t.manifest := r.total ▸ r.next_lt
    have hlast := expectedLen_of_last r.usable hlt (r.total ▸ hcomp.2.1)
    refine ⟨t, hrx, rfl, ?_, ?_, r.parsed, (parseManifest_eq_some r.parsed).2.1, r.newer⟩
    · rw [writesSinceBegin_write, r.writes, List.length_append, r.length, hlen, hlast]
    · rw [writesSinceBegin_write, r.writes]
      exact hcomp.2.2.1

/-! ## Chunks from a server of the image -/

/-- The chunk was sent by the `handle_req` of a node that serves `m` from `image`. -/
def FromServer (m : OtaManifest) (image : List UInt8) (c : Chunk) : Prop :=
  ∃ (server : OtaState) (env : OtaEnv) (evt : OtaEvent) (conn : UInt16) (type : UInt8)
    (peer : Bytes 8) (payload : List UInt8),
    server.serveManifest = m ∧ read (server.slots server.running) 0 m.size.toNat = image ∧
      (handleReq env server evt).log = server.log ++ [.send conn type peer payload] ∧
      c = (u32At payload 4, payload.drop 8)

/-- The request's header is the chunk's header. -/
theorem u32At_header {req data : List UInt8} (h : 8 ≤ req.length) :
    u32At (req.take 8 ++ data) 4 = u32At req 4 := by
  unfold u32At
  have hcopy : copyAt 4 (req.take 8 ++ data) 4 = copyAt 4 req 4 := by
    apply Subtype.ext
    rw [copyAt_val (by simp; omega), copyAt_val (by omega),
      List.drop_append_of_le_length (by simp; omega),
      List.take_append_of_le_length (by simp; omega), slice_take (by omega)]
  rw [hcopy]

/-- A served chunk that exists is the piece of the image at its index. -/
theorem FromServer.piece {m : OtaManifest} {image : List UInt8} {c : Chunk} (hu : Usable m)
    (h : FromServer m image c) (hc : c.1 < totalChunks m) :
    c.2 = (image.drop (c.1.toNat * m.chunkSize.toNat)).take m.chunkSize.toNat := by
  obtain ⟨server, env, evt, conn, type, peer, payload, rfl, himage, hsend, rfl⟩ := h
  obtain ⟨-, hlen, hoff, hpay⟩ := handleReq_sends hsend
  subst hpay
  rw [u32At_header hlen] at hc
  dsimp only
  rw [u32At_header hlen, List.drop_append_of_le_length (by rw [List.length_take]; omega),
    List.drop_eq_nil_of_le (List.length_take_le 8 evt.payload), List.nil_append,
    toNat_offset_of_lt ((lt_totalChunks_iff hu _).mp hc), toNat_expectedLen hu hc, ← himage, drop_take_read, Nat.zero_add]

/-- The first `k` pieces of a list are its first `k * n` elements. -/
theorem flatten_pieces (image : List UInt8) (n k : Nat) :
    ((List.range k).map fun i => (image.drop (i * n)).take n).flatten = image.take (k * n) := by
  induction k with
  | zero => simp
  | succ k ih =>
    rw [List.range_succ, List.map_append, List.flatten_append, ih, Nat.add_mul, Nat.one_mul,
      List.take_add]
    simp

/-- **The bytes written are a prefix of the image** when its servers sent the chunks. -/
theorem Receiving.isPrefix {st : OtaState} {chunks : List Chunk} {t : Transfer}
    (r : Receiving ed25519SignOpen st chunks t) {image : List UInt8}
    (h : ∀ c ∈ chunks, FromServer t.manifest image c) :
    writesSinceBegin st.log <+: image := by
  have hlt : t.nextChunk < totalChunks t.manifest := r.total ▸ r.next_lt
  have hpieces : chunks.map Prod.snd = (chunks.map Prod.fst).map fun i =>
      (image.drop (i.toNat * t.manifest.chunkSize.toNat)).take t.manifest.chunkSize.toNat := by
    rw [List.map_map]
    refine List.map_congr_left fun c hc => (h c hc).piece r.usable ?_
    have hmem : c.1 ∈ chunks.map Prod.fst := List.mem_map_of_mem hc
    rw [r.indices] at hmem
    obtain ⟨k, hk, hkc⟩ := List.mem_map.mp hmem
    rw [List.mem_range] at hk
    rw [← hkc, UInt32.lt_iff_toNat_lt]
    have := UInt32.lt_iff_toNat_lt.mp hlt
    have := t.nextChunk.toNat_lt
    rw [UInt32.toNat_ofNat']
    omega
  have htake : t.sha = image.take (t.nextChunk.toNat * t.manifest.chunkSize.toNat) := by
    rw [r.sha, hpieces, r.indices, List.map_map, ← flatten_pieces]
    refine congrArg List.flatten (List.map_congr_left fun k hk => ?_)
    rw [List.mem_range] at hk
    have := t.nextChunk.toNat_lt
    have hk : (UInt32.ofNat k).toNat = k := by
      rw [UInt32.toNat_ofNat']
      omega
    rw [Function.comp_apply, hk]
  rw [r.writes, htake]
  exact List.take_prefix _ _

/-- A run from power-on, with the chunks accepted for the transfer it ends in. -/
def otaRun (sha256 : List UInt8 → Bytes 32)
    (ed25519SignOpen : List UInt8 → Bytes 32 → Bytes 64 → Bool) (api : OtaApi)
    (slots : AppSlot → Mem) (nvs : Option (List UInt8)) (fwm : Bytes 110) (is : List OtaInput) :
    OtaState × List Chunk :=
  final (otaStepChunks sha256 ed25519SignOpen api) (OtaState.off slots nvs fwm, []) is

theorem transferInv_otaRun (slots : AppSlot → Mem) (nvs : Option (List UInt8)) (fwm : Bytes 110)
    (is : List OtaInput) :
    TransferInv ed25519SignOpen (otaRun sha256 ed25519SignOpen api slots nvs fwm is) :=
  invariant_final (TransferInv ed25519SignOpen) (fun _ i hp => transferInv_step hp i)
    (transferInv_of_none rfl) is

/-- **A transfer in any run.** In every state of a run from power-on with an active transfer, the
bytes passed to `esp_ota_write` since `esp_ota_begin` are the payloads accepted for the indices
below `next_chunk`, in order, `min (next_chunk * chunk_size) size` of them, and are the bytes
hashed; the next step switches the boot slot only when the bytes written are all of a signed,
newer manifest's image and have its digest; and when servers of an image sent the accepted
chunks, the bytes written are a prefix of it. -/
theorem ota_transfer (sha256 : List UInt8 → Bytes 32)
    (ed25519SignOpen : List UInt8 → Bytes 32 → Bytes 64 → Bool) (api : OtaApi)
    (slots : AppSlot → Mem) (nvs : Option (List UInt8)) (fwm : Bytes 110) (is : List OtaInput) :
    let st := (otaRun sha256 ed25519SignOpen api slots nvs fwm is).1
    let chunks := (otaRun sha256 ed25519SignOpen api slots nvs fwm is).2
    st = final (otaStep sha256 ed25519SignOpen api) (OtaState.off slots nvs fwm) is ∧
    (∀ t, st.rx = some t →
      chunks.map Prod.fst = (List.range t.nextChunk.toNat).map UInt32.ofNat ∧
      writesSinceBegin st.log = (chunks.map Prod.snd).flatten ∧
      (writesSinceBegin st.log).length =
        min (t.nextChunk.toNat * t.manifest.chunkSize.toNat) t.manifest.size.toNat ∧
      t.sha = writesSinceBegin st.log) ∧
    (∀ i part pre post, (otaStep sha256 ed25519SignOpen api st i).log =
        st.log ++ pre ++ .setBoot part :: post →
      ∃ t, st.rx = some t ∧ part = t.part ∧
        (writesSinceBegin (st.log ++ pre)).length = t.manifest.size.toNat ∧
        sha256 (writesSinceBegin (st.log ++ pre)) = t.manifest.sha256 ∧
        parseManifest ed25519SignOpen t.manifest.raw.val = some t.manifest ∧
        manifestSigned ed25519SignOpen t.manifest.raw.val = true ∧
        st.fwVersion < t.manifest.version) ∧
    (∀ t image, st.rx = some t → (∀ c ∈ chunks, FromServer t.manifest image c) →
      writesSinceBegin st.log <+: image) := by
  intro st chunks
  have hinv : TransferInv ed25519SignOpen (st, chunks) := transferInv_otaRun slots nvs fwm is
  refine ⟨fst_final_otaStepChunks _ _ _ _ is, fun t ht => ?_,
    fun i part pre post h => setBoot_verified hinv h, fun t image ht h => (hinv t ht).isPrefix h⟩
  have r := hinv t ht
  have hlt := (lt_totalChunks_iff r.usable _).mp (r.total ▸ r.next_lt)
  refine ⟨r.indices, by rw [r.writes, r.sha], ?_, r.writes.symm⟩
  rw [r.writes, r.length]
  omega

end Task

end Bitle
