import Bitle.Lib.Run
import Bitle.Store.Chain

/-!
# Bitle — the tail of the head sector

A record is programmed at the write offset on the assumption that everything from there to the
end of the sector is erased. A program that fails or is cut short by a power loss can break this
in two places, and only there (`FaultOp.safe`): a record that fails leaves the write offset where
it is, on top of what was programmed (`failed_record_spoils_next`); and at the next boot the walk
does not step over a header of which less than the length was programmed.
-/

namespace Bitle

open Wire Flash Slots

/-! ## The calls -/

/-- Where `bitle_store_put` programs a record of `n` payload bytes. -/
def recordPlace (writeOff n : Nat) : Nat :=
  if inRoom writeOff (storeRecordHdrSize + n) then writeOff
  else roomSector writeOff + storeSectorHdrSize

section Calls

variable {env : FlashEnv} {crc32 : UInt32 → List UInt8 → UInt32} {st st' : StoreState}
  {err : EspErr}

theorem Tidy.writeOff_prepare (ht : Tidy st) {key : StoreKey} {n : Nat} (hn : n ≤ 520)
    (h : putPrepare env st key n = .ok (.ok, st')) : st'.writeOff = recordPlace st.writeOff n := by
  obtain ⟨err1, st1, hev, hcase⟩ := putPrepare_cases h
  obtain ⟨reclaimed, -, hw, -⟩ := (ht.placed.unbind env key).placed.evict hev
  rw [Placed.writeOff_unbind] at hw
  unfold recordPlace storeRecordHdrSize
  rcases hcase with ⟨herr, rfl, -⟩ | ⟨-, hroom⟩
  · exact absurd rfl herr
  · rcases roomLoop_cases (by omega) hroom with ⟨hin, -, rfl⟩ | ⟨hout, hop⟩
    · rw [hw] at hin
      rw [if_pos hin, hw]
    · rw [hw] at hout hop
      rw [hout]
      exact openSector_writeOff hop

/-- **A put on a tidy store** ends before the record, with the store tidy, or it comes to the
record with a tidy store and room. -/
theorem Tidy.put_cases (ht : Tidy st) (henv : OnlyPrograms env) {a : PutArgs}
    (h : bitleStorePut env crc32 st a.key a.expiryUnixS a.flags a.payload = .ok (err, st')) :
    (err ≠ .ok ∧ Tidy st') ∨
      (1 ≤ a.payload.length ∧ a.payload.length ≤ 520 ∧
        ∃ st1 st2, Tidy st1 ∧ st1.part = true ∧
          inRoom st1.writeOff (32 + a.payload.length) = true ∧
          st1.writeOff = recordPlace st.writeOff a.payload.length ∧
          (∀ e ∈ st1.index, e.key ≠ a.key) ∧
          putRecord env crc32 st1 a.key a.expiryUnixS a.flags a.payload = (err, st2) ∧
          st' = giveLock st2) := by
  rcases bitleStorePut_cases h with ⟨rfl, rfl⟩ | ⟨hpart, -, hpos, hle, err1, st1, hprep, hcase⟩
  · exact .inl ⟨by decide, ht⟩
  obtain ⟨ht1, hin⟩ := (ht.setLock .held).prepare henv hle hprep
  rcases hcase with ⟨herr, rfl, rfl⟩ | ⟨rfl, st2, hrec, rfl⟩
  · exact .inl ⟨herr, ht1.setLock .free⟩
  · obtain ⟨reclaimed, opened, hs, -⟩ :=
      (ht.placed.setLock .held).prepare (fun _ => henv.reads _) hle hprep
    refine .inr ⟨hpos, hle, st1, st2, ht1, hs.part.trans hpart, hin rfl,
      (ht.setLock .held).writeOff_prepare hle hprep, fun e he hk => ?_, hrec, rfl⟩
    exact ((hs.mem e).mp he).2 (.inl hk)

/-- What is asked of the programs of a put that returns: of a record that fails nothing was
programmed. -/
def RecordWhole (cut : Nat → Option Nat) (off : Nat) : Prop :=
  cut off = some 0 ∨ (cut off = none ∧ cut (off + storeRecordHdrSize) = none)

/-- **`bitle_store_put`** keeps the store tidy, and what it reports as stored is there. -/
theorem Tidy.put (ht : Tidy st) (henv : OnlyPrograms env) {a : PutArgs}
    (hwhole : RecordWhole env.writeCut (recordPlace st.writeOff a.payload.length))
    (h : bitleStorePut env crc32 st a.key a.expiryUnixS a.flags a.payload = .ok (err, st')) :
    Tidy st' ∧ (err = .ok → ∀ env' now, Reads env' → storeExpired now a.expiryUnixS = false →
      (a.key, ⟨a.expiryUnixS, a.flags, a.payload⟩) ∈ shownRecords env' now st') := by
  rcases ht.put_cases henv h with
    ⟨herr, ht'⟩ | ⟨hpos, hle, st1, st2, ht1, hpart, hin, hplace, hkey, hrec, rfl⟩
  · exact ⟨ht', fun hok => absurd hok herr⟩
  rw [← hplace] at hwhole
  rcases putRecord_cases hrec with ⟨-, -, hpart2, hmem, hw, hidx⟩ | ⟨hnot, rfl, rfl⟩
  · obtain ⟨ht2, hshow⟩ := ht1.written hpos hle hin hkey hmem hw hidx
    have hnew : (⟨a.key, st1.writeOff, a.expiryUnixS, st1.headSeq⟩ : StoreIndexEntry) ∈
        (giveLock st2).index := by
      show _ ∈ st2.index
      rw [hidx]
      exact List.mem_append_right _ (List.mem_singleton_self _)
    refine ⟨ht2.setLock .free, fun _ env' now henv' hexp => ?_⟩
    exact ((ht2.setLock .free).placed.mem_shownRecords henv' (hpart2.trans hpart) rfl now _ _).mpr
      ⟨_, hnew, rfl, hexp, hshow⟩
  · -- the header was not programmed at all
    have hzero : env.writeCut st1.writeOff = some 0 := by
      rcases hwhole with h0 | ⟨h1, h2⟩
      · exact h0
      · unfold storeRecordHdrSize at h2
        rw [recordWritten, h1, h2] at hnot
        cases hnot
    have hsame : tornState crc32 st1 a (programmedBytes env st1.writeOff a.payload.length) = st1 := by
      have hbytes : programmedBytes env st1.writeOff a.payload.length = 0 := by
        rw [programmedBytes, hzero]
        exact Nat.zero_min 32
      have hmem : program st1.mem st1.writeOff ((a.bytes crc32).take 0) = st1.mem := by
        funext x
        refine program_outside ?_
        rw [List.take_zero, List.length_nil]
        omega
      rw [hbytes, tornState, hmem]
    rw [hsame]
    exact ⟨ht1.setLock .free, fun hok => by cases hok⟩

/-- A power loss during a put: nothing of the record, or at least its length, is programmed. -/
theorem Tidy.flash_put (ht : Tidy st) (henv : OnlyPrograms env) {a : PutArgs}
    (hlen : programmedBytes env (recordPlace st.writeOff a.payload.length) a.payload.length = 0 ∨
      4 ≤ programmedBytes env (recordPlace st.writeOff a.payload.length) a.payload.length)
    (h : bitleStorePut env crc32 st a.key a.expiryUnixS a.flags a.payload = .ok (err, st')) :
    FlashTidy st'.mem := by
  rcases ht.put_cases henv h with
    ⟨-, ht'⟩ | ⟨hpos, hle, st1, st2, ht1, -, hin, hplace, hkey, hrec, rfl⟩
  · exact ht'.flash
  rw [← hplace] at hlen
  rcases putRecord_cases hrec with ⟨-, -, -, hmem, -⟩ | ⟨-, -, rfl⟩
  · have htake : (a.bytes crc32).take (32 + a.payload.length) = a.bytes crc32 :=
      List.take_of_length_le (Nat.le_of_eq (a.length_bytes crc32))
    have hflash := ht1.flash_torn crc32 hpos hle hin
      (n := 32 + a.payload.length) (.inr (by omega))
    rw [tornState, htake] at hflash
    show FlashTidy st2.mem
    rw [hmem]
    exact hflash
  · exact ht1.flash_torn crc32 hpos hle hin hlen

theorem Tidy.delete (ht : Tidy st) {key : StoreKey} (h : bitleStoreDelete env st key = .ok st') :
    Tidy st' := by
  unfold bitleStoreDelete at h
  by_cases hpart : st.part = true
  · rw [if_neg (by simp [hpart])] at h
    cases hl : takeLock st with
    | error f =>
      rw [hl] at h
      cases h
    | ok st1 =>
      have hst1 : Tidy st1 := by
        unfold takeLock at hl
        split at hl <;> cases hl
        exact ht.setLock .held
      rw [hl] at h
      cases h
      exact (hst1.unbind env key).setLock .free
  · rw [if_pos (by simp [hpart])] at h
    cases h
    exact ht

theorem Tidy.iterateLoop {σ : Type} {now : UInt32} {cb : StoreIterCb σ} {n i : Nat} {s s' : σ}
    (ht : Tidy st) (h : iterateLoop env now cb n i st s = .ok (st', s')) : Tidy st' :=
  iterateLoop_rule (fun _ _ _ hx he => hx.tombstone env he) (fun _ _ _ hx he => hx.drop he) h ht

end Calls

/-! ## Runs with failing programs and power losses -/

/-- A flash on which the program at an offset stops after the given number of bytes. -/
def FlashEnv.cutting (cut : Nat → Option Nat) : FlashEnv := { writeCut := cut }

theorem onlyPrograms_cutting (cut : Nat → Option Nat) : OnlyPrograms (.cutting cut) :=
  ⟨fun _ => rfl, fun _ => rfl⟩

/-- What can happen to the store. The `lose` events are power losses: between two calls; during a
put, after any part of its programs; in the quota loop of a put, after `n` sectors; during an
iteration, after `n` entries. RAM is lost with them, and the store is not in use again before the
next boot. -/
inductive FaultOp where
  | put (cut : Nat → Option Nat) (a : PutArgs)
  | delete (cut : Nat → Option Nat) (key : StoreKey)
  | iterate (cut : Nat → Option Nat) (now : UInt32)
      (keep : List (StoreKey × StoreValue) → Bool)
  | contains (key : StoreKey)
  | boot (cut : Nat → Option Nat) (now : UInt32)
  | lose
  | losePut (cut : Nat → Option Nat) (a : PutArgs)
  | loseEvict (cut : Nat → Option Nat) (key : StoreKey) (n : Nat)
  | loseIterate (cut : Nat → Option Nat) (now : UInt32)
      (keep : List (StoreKey × StoreValue) → Bool) (n : Nat)

/-- The state a call leaves; a call that does not return leaves the one it found. -/
def stateAfter {α : Type} (st : StoreState) (f : α → StoreState) : Except StoreFault α → StoreState
  | .ok x => f x
  | .error _ => st

/-- The flash at a power loss. -/
def powerLost (st : StoreState) : StoreState := powerOn st.mem st.erased

/-- The first `n` rounds of the quota loop. -/
def evictRounds (env : FlashEnv) : Nat → StoreState → StoreState
  | 0, st => st
  | n + 1, st =>
    if st.index.length ≥ bitleStoreMaxRecords then
      match reclaimOldestSector env st with
      | none => st
      | some st => evictRounds env n st
    else st

/-- `bitle_store_put` with programs that may fail. -/
def faultyPut (crc32 : UInt32 → List UInt8 → UInt32) (st : StoreState) (cut : Nat → Option Nat)
    (a : PutArgs) : Except StoreFault (EspErr × StoreState) :=
  bitleStorePut (.cutting cut) crc32 st a.key a.expiryUnixS a.flags a.payload

def faultStep (crc32 : UInt32 → List UInt8 → UInt32) (st : StoreState) : FaultOp → StoreState
  | .put cut a => stateAfter st Prod.snd (faultyPut crc32 st cut a)
  | .delete cut key => stateAfter st id (bitleStoreDelete (.cutting cut) st key)
  | .iterate cut now keep =>
    stateAfter st Prod.fst (bitleStoreIterate (.cutting cut) now (collect keep) st [])
  | .contains key => stateAfter st Prod.snd (bitleStoreContains st key)
  | .boot cut now => (bitleStoreReboot (.cutting cut) crc32 now st).2
  | .lose => powerLost st
  | .losePut cut a => powerLost (stateAfter st Prod.snd (faultyPut crc32 st cut a))
  | .loseEvict cut key n =>
    if st.part then
      powerLost (stateAfter st
        (fun st => evictRounds (.cutting cut) n (unbindKey (.cutting cut) st key)) (takeLock st))
    else powerLost st
  | .loseIterate cut now keep n =>
    if st.part then
      powerLost (stateAfter st Prod.fst do
        let st ← takeLock st
        iterateLoop (.cutting cut) now (collect keep) n 0 st [])
    else powerLost st

/-- **What is asked of an event.** A put that fails has programmed nothing of its record; a power
loss during a put leaves nothing of it, or at least the magic and the length. -/
def FaultOp.safe (st : StoreState) : FaultOp → Prop
  | .put cut a => RecordWhole cut (recordPlace st.writeOff a.payload.length)
  | .losePut cut a =>
    let n := programmedBytes (.cutting cut) (recordPlace st.writeOff a.payload.length)
      a.payload.length
    n = 0 ∨ 4 ≤ n
  | _ => True

/-- The events after which the record of a key is another matter. -/
def FaultOp.touches (key : StoreKey) : FaultOp → Bool
  | .put _ a => a.key == key
  | .delete _ k => k == key
  | .iterate .. | .contains .. => false
  | .boot .. | .lose | .losePut .. | .loseEvict .. | .loseIterate .. => true

/-- From the write offset to the end of its sector everything is erased. -/
def TailErased (st : StoreState) : Prop :=
  ∀ x, st.writeOff ≤ x → x < sectorBase st.writeOff + storeSectorSize → st.mem x = 0xFF

/-- Every record is programmed into an erased tail. -/
def ProgramsErased (st : StoreState) (cut : Nat → Option Nat) (a : PutArgs) : Prop :=
  putRejects st a.payload.length = false → ∀ st0 st1, takeLock st = .ok st0 →
    putPrepare (.cutting cut) st0 a.key a.payload.length = .ok (.ok, st1) → TailErased st1

/-- Every put that returns `ESP_OK` is read back as it was given. -/
def ReadsBack (crc32 : UInt32 → List UInt8 → UInt32) (st : StoreState) (cut : Nat → Option Nat)
    (a : PutArgs) : Prop :=
  ∀ st', faultyPut crc32 st cut a = .ok (.ok, st') → ∀ env now, Reads env →
    storeExpired now a.expiryUnixS = false →
    (a.key, ⟨a.expiryUnixS, a.flags, a.payload⟩) ∈ shownRecords env now st'

/-- **What a step of a run should do.** The last part is that a record stays what was read back
of it for as long as it is indexed. -/
def FaultOp.Good (crc32 : UInt32 → List UInt8 → UInt32) (st : StoreState) (op : FaultOp) : Prop :=
  (∀ cut a, op = .put cut a → ProgramsErased st cut a ∧ ReadsBack crc32 st cut a) ∧
    (∀ cut a, op = .losePut cut a → ProgramsErased st cut a) ∧
    ∀ key, op.touches key = false → storeMap (faultStep crc32 st op) key = storeMap st key ∨
      storeMap (faultStep crc32 st op) key = none

section Runs

variable {crc32 : UInt32 → List UInt8 → UInt32} {st : StoreState}

/-- A take of the mutex changes nothing else. -/
theorem Tidy.takeLock {st0 : StoreState} (ht : Tidy st) (h : takeLock st = .ok st0) : Tidy st0 := by
  unfold Bitle.takeLock at h
  split at h <;> cases h
  exact ht.setLock .held

theorem Tidy.programsErased (ht : Tidy st) (cut : Nat → Option Nat) (a : PutArgs) :
    ProgramsErased st cut a := by
  intro hrej st0 st1 hlock hprep
  have hlen : 1 ≤ a.payload.length ∧ a.payload.length ≤ 520 := by
    by_contra hlen
    rw [putRejects_of_invalid st hlen] at hrej
    cases hrej
  obtain ⟨ht1, hin⟩ := (ht.takeLock hlock).prepare (onlyPrograms_cutting cut) hlen.2 hprep
  obtain ⟨i, -, -, hl, -, hbase⟩ := ht1.tail (hin rfl)
  intro x h1 h2
  rw [hbase] at h2
  exact hl.blank x h1 h2

theorem Tidy.evictRounds (ht : Tidy st) {env : FlashEnv} (henv : OnlyPrograms env) (n : Nat) :
    Tidy (evictRounds env n st) := by
  induction n generalizing st with
  | zero => exact ht
  | succ n ih =>
    rw [Bitle.evictRounds]
    split
    · split
      · exact ht
      · rename_i st' hr
        exact ih (ht.reclaim henv hr)
    · exact ht

/-- What a call may leave. -/
theorem stateAfter_rule {α : Type} {P : StoreState → Prop} {f : α → StoreState}
    {r : Except StoreFault α} (hst : P st) (hok : ∀ x, r = .ok x → P (f x)) :
    P (stateAfter st f r) := by
  cases r with
  | error _ => exact hst
  | ok x => exact hok x rfl

theorem Tidy.lost (ht : Tidy st) : Tidy (powerLost st) := ht.flash.powerOn st.erased

/-- Iterating, whole or cut off. -/
theorem Tidy.iterated (ht : Tidy st) {env : FlashEnv} {now : UInt32} {n : Nat}
    {keep : List (StoreKey × StoreValue) → Bool} {x : StoreState × List (StoreKey × StoreValue)}
    (h : (do let st ← Bitle.takeLock st; Bitle.iterateLoop env now (collect keep) n 0 st []) =
      .ok x) : Tidy x.1 ∧ ∃ lost, Shrinks st { x.1 with lock := st.lock } lost := by
  cases hl : Bitle.takeLock st with
  | error f =>
    rw [hl] at h
    cases h
  | ok st0 =>
    rw [hl] at h
    have h : Bitle.iterateLoop env now (collect keep) n 0 st0 [] = .ok (x.1, x.2) := h
    have hst0 : st0 = { st with lock := .held } := by
      unfold Bitle.takeLock at hl
      split at hl <;> cases hl
      rfl
    subst hst0
    obtain ⟨lost, hs⟩ := (ht.placed.setLock .held).iterateLoop h
    exact ⟨(ht.setLock .held).iterateLoop h, lost, hs.setLock⟩

theorem bitleStoreIterate_cases {env : FlashEnv} {now : UInt32}
    {keep : List (StoreKey × StoreValue) → Bool} {x : StoreState × List (StoreKey × StoreValue)}
    (h : bitleStoreIterate env now (collect keep) st [] = .ok x) :
    x.1 = st ∨ ∃ y, (do
        let st0 ← Bitle.takeLock st
        Bitle.iterateLoop env now (collect keep) st.index.length 0 st0 []) = .ok y ∧
      x.1 = giveLock y.1 := by
  unfold bitleStoreIterate at h
  split at h
  · cases h
    exact .inl rfl
  · right
    cases hl : Bitle.takeLock st with
    | error f =>
      rw [hl] at h
      cases h
    | ok st0 =>
      rw [hl] at h
      have hlen : st0.index.length = st.index.length := by
        unfold Bitle.takeLock at hl
        split at hl <;> cases hl
        rfl
      simp only [bind, Except.bind, hlen] at h ⊢
      cases hi : Bitle.iterateLoop env now (collect keep) st.index.length 0 st0 [] with
      | error f =>
        rw [hi] at h
        cases h
      | ok y =>
        rw [hi] at h
        cases h
        exact ⟨y, rfl, rfl⟩

theorem bitleStoreContains_cases {key : StoreKey} {x : Bool × StoreState}
    (h : bitleStoreContains st key = .ok x) : x.2 = st ∨ x.2 = { st with lock := .free } := by
  unfold bitleStoreContains at h
  split at h
  · cases h
    exact .inl rfl
  · right
    unfold Bitle.takeLock at h
    cases hl : st.lock with
    | absent | held =>
      rw [hl] at h
      cases h
    | free =>
      rw [hl] at h
      cases h
      rfl

/-- **One event keeps the store tidy.** -/
theorem Tidy.step (ht : Tidy st) {op : FaultOp} (hsafe : op.safe st) :
    Tidy (faultStep crc32 st op) := by
  cases op with
  | put cut a =>
    exact stateAfter_rule ht fun x hx => (ht.put (onlyPrograms_cutting cut) hsafe hx).1
  | delete cut key => exact stateAfter_rule ht fun x hx => ht.delete hx
  | iterate cut now keep =>
    refine stateAfter_rule ht fun x hx => ?_
    rcases bitleStoreIterate_cases hx with hst | ⟨y, hy, hst⟩
    · exact hst ▸ ht
    · rw [hst]
      exact (ht.iterated hy).1.setLock .free
  | contains key =>
    refine stateAfter_rule ht fun x hx => ?_
    rcases bitleStoreContains_cases hx with hst | hst
    · exact hst ▸ ht
    · rw [hst]
      exact ht.setLock .free
  | boot cut now => exact ht.flash.reboot (onlyPrograms_cutting cut)
  | lose => exact ht.lost
  | losePut cut a =>
    refine FlashTidy.powerOn (stateAfter_rule (P := fun x => FlashTidy x.mem) ht.flash ?_) _
    exact fun x hx => ht.flash_put (onlyPrograms_cutting cut) hsafe hx
  | loseEvict cut key n =>
    rw [faultStep]
    split
    · refine Tidy.lost (stateAfter_rule ht fun x hx => ?_)
      exact ((ht.takeLock hx).unbind _ key).evictRounds (onlyPrograms_cutting cut) n
    · exact ht.lost
  | loseIterate cut now keep n =>
    rw [faultStep]
    split
    · exact Tidy.lost (stateAfter_rule ht fun x hx => (ht.iterated hx).1)
    · exact ht.lost

/-- What is bound to a key that an event does not touch. -/
theorem Tidy.storeMap_step (ht : Tidy st) {op : FaultOp} {key : StoreKey}
    (hkey : op.touches key = false) :
    storeMap (faultStep crc32 st op) key = storeMap st key ∨
      storeMap (faultStep crc32 st op) key = none := by
  let P : StoreState → Prop := fun x => storeMap x key = storeMap st key ∨ storeMap x key = none
  have hst : P st := .inl rfl
  cases op with
  | put cut a =>
    refine stateAfter_rule hst fun x hx => ?_
    have hne : key ≠ a.key := by
      rintro rfl
      simp [FaultOp.touches] at hkey
    exact (ht.placed.put (onlyPrograms_cutting cut).reads hx).2 key hne
  | delete cut k =>
    exact stateAfter_rule hst fun x hx => (ht.placed.delete hx).storeMap_eq ht.placed key
  | iterate cut now keep =>
    refine stateAfter_rule hst fun x hx => ?_
    rcases bitleStoreIterate_cases hx with hx | ⟨y, hy, hx⟩
    · exact .inl (hx ▸ rfl)
    · obtain ⟨-, lost, hs⟩ := ht.iterated hy
      rw [hx]
      exact hs.storeMap_eq ht.placed key
  | contains k =>
    refine stateAfter_rule hst fun x hx => ?_
    rcases bitleStoreContains_cases hx with hx | hx
    · exact .inl (hx ▸ rfl)
    · exact .inl (hx ▸ rfl)
  | boot | lose | losePut | loseEvict | loseIterate => cases hkey

theorem Tidy.good (ht : Tidy st) {op : FaultOp} (hsafe : op.safe st) : op.Good crc32 st := by
  refine ⟨?_, ?_, fun key hkey => ht.storeMap_step hkey⟩
  · rintro cut a rfl
    refine ⟨ht.programsErased cut a, fun st' hput => ?_⟩
    exact (ht.put (onlyPrograms_cutting cut) hsafe hput).2 rfl
  · rintro cut a rfl
    exact ht.programsErased cut a

/-- An erased partition, before the first boot. -/
theorem tidy_blank : Tidy (powerOn blankFlash []) := by
  refine FlashTidy.powerOn (fun i _ hu => absurd hu ?_) []
  have hread : readSectorHdr blankFlash (i * 4096) = readSectorHdr blankFlash 0 := rfl
  rw [SectorUsed, hread]
  decide

/-- The induction over the run. -/
theorem Tidy.run (ht : Tidy st) {ops : List FaultOp}
    (hsafe : Run.Along (faultStep crc32) (fun st op => op.safe st) st ops) :
    Run.Along (faultStep crc32) (fun st op => op.Good crc32 st) st ops := by
  induction ops generalizing st with
  | nil => trivial
  | cons op ops ih => exact ⟨ht.good hsafe.1, ih (ht.step hsafe.1) hsafe.2⟩

end Runs

/-- **The tail is erased.** In every run from an erased partition, with any programs failing at
any byte and any power losses, in which a put that fails has programmed nothing of its record and
a power loss leaves nothing of a record or at least its length: every record is programmed into
an erased tail, every put that returns `ESP_OK` is read back as it was given, and it stays so for
as long as it is indexed. -/
theorem store_tail_erased (crc32 : UInt32 → List UInt8 → UInt32) (ops : List FaultOp)
    (hsafe : Run.Along (faultStep crc32) (fun st op => op.safe st) (powerOn blankFlash []) ops) :
    Run.Along (faultStep crc32) (fun st op => op.Good crc32 st) (powerOn blankFlash []) ops :=
  tidy_blank.run hsafe

/-- A first put fails, a second one is lost to a power cut behind the length of its record. -/
theorem store_tail_erased_power_loss :
    Run.Along (faultStep espCrc32Le) (fun st op => op.Good espCrc32Le st) (powerOn blankFlash [])
      [.boot (fun _ => none) 1, .put (fun _ => some 0) ⟨zeros 16, 9, 0, [1]⟩,
        .put (fun _ => none) ⟨zeros 16, 9, 0, [2]⟩, .losePut (fun _ => some 5) ⟨zeros 16, 9, 0, [3]⟩,
        .boot (fun _ => none) 2, .put (fun _ => none) ⟨copyAt 16 [1] 0, 9, 0, [4]⟩] :=
  store_tail_erased espCrc32Le _
    ⟨trivial, .inl rfl, .inr ⟨rfl, rfl⟩, .inr (by decide), trivial, .inr ⟨rfl, rfl⟩, trivial⟩

/-- The payload of a first record is programmed, but the program reports a failure. A second
record is put in the same place with `ESP_OK`, and of its payload only the bits that both have
are read back. -/
theorem failed_record_spoils_next :
    ¬ ∀ (crc32 : UInt32 → List UInt8 → UInt32) (ops : List FaultOp),
      Run.Along (faultStep crc32) (fun st op => op.Good crc32 st) (powerOn blankFlash []) ops := by
  intro hall
  let cut : Nat → Option Nat := fun off => if off = 40 then some 1 else none
  have hrun := hall espCrc32Le [.boot (fun _ => none) 1, .put cut ⟨zeros 16, 9, 0, [1]⟩,
    .put (fun _ => none) ⟨copyAt 16 [1] 0, 9, 0, [2]⟩]
  obtain ⟨-, -, ⟨hput, -⟩, -⟩ := hrun
  obtain ⟨-, hback⟩ := hput _ _ rfl
  have hshown : ((faultyPut espCrc32Le
      (faultStep espCrc32Le (faultStep espCrc32Le (powerOn blankFlash []) (.boot (fun _ => none) 1))
        (.put cut ⟨zeros 16, 9, 0, [1]⟩)) (fun _ => none) ⟨copyAt 16 [1] 0, 9, 0, [2]⟩).toOption.map
      fun x => (x.1, shownRecords .good 1 x.2)) =
      some (.ok, [(copyAt 16 [1] 0, ⟨9, 0, [0]⟩)]) := by
    decide +kernel
  unfold ReadsBack at hback
  generalize faultyPut espCrc32Le _ _ _ = r at hback hshown
  cases r with
  | error e => cases hshown
  | ok x =>
    obtain ⟨err, st'⟩ := x
    simp only [Except.toOption, Option.map_some, Option.some.injEq, Prod.mk.injEq] at hshown
    obtain ⟨rfl, heq⟩ := hshown
    have hmem := hback st' rfl .good 1 (fun _ => rfl) rfl
    rw [heq] at hmem
    revert hmem
    decide

end Bitle
