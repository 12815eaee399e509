import Bitle.Store.Placed

/-!
# Bitle — the calls of the mailbox on a flash with faults

Every call keeps `Placed`, whatever becomes of its programs and erases. For `bitle_store_put`
there is more to say (`Placed.prepare`): up to the first write of the record it has dropped the
older copy of the key and the records of the sectors it gave up, for the quota or for room, and
nothing else.
-/

namespace Bitle

open Wire Flash Slots

section Faults

variable {crc32 : UInt32 → List UInt8 → UInt32} {env : FlashEnv} {st st' : StoreState}
  {err : EspErr}

namespace Placed

/-- The quota loop gives up whole sectors, none if the index has room. -/
theorem evict (hp : Placed st) {fuel : Nat} (h : evictLoop env fuel st = .ok (err, st')) :
    ∃ reclaimed, Shrinks st st' (fun e => sectorBase e.offset ∈ reclaimed) ∧
      st'.writeOff = st.writeOff ∧
      (st.index.length < bitleStoreMaxRecords → reclaimed = []) := by
  cases fuel with
  | zero => cases h
  | succ fuel =>
    have hrefl : Shrinks st st fun e => sectorBase e.offset ∈ ([] : List Nat) :=
      (Shrinks.refl hp).congr fun e _ => by simp
    by_cases hroom : st.index.length < bitleStoreMaxRecords
    · rw [evictLoop, if_neg (Nat.not_le.mpr hroom)] at h
      cases h
      exact ⟨[], hrefl, rfl, fun _ => rfl⟩
    · have hstep : ∀ x x', (∃ reclaimed : List Nat,
          Shrinks st x (fun e => sectorBase e.offset ∈ reclaimed) ∧
          x.writeOff = st.writeOff) → reclaimOldestSector env x = some x' →
          ∃ reclaimed : List Nat, Shrinks st x' (fun e => sectorBase e.offset ∈ reclaimed) ∧
            x'.writeOff = st.writeOff := by
        rintro x x' ⟨reclaimed, hs, hw⟩ hrec
        obtain ⟨j, -, -, hw', hs', -⟩ := hs.placed.reclaim hrec
        refine ⟨reclaimed ++ [j * 4096], (hs.trans hs').congr fun e _ => ?_, hw'.trans hw⟩
        rw [List.mem_append, List.mem_singleton]
      obtain ⟨⟨reclaimed, hs, hw⟩, -⟩ := evictLoop_rule hstep h ⟨[], hrefl, rfl⟩
      exact ⟨reclaimed, hs, hw, fun hlt => absurd hlt hroom⟩

/-- The index without one key. -/
theorem length_unbind (hp : Placed st) (env : FlashEnv) (key : StoreKey) :
    (unbindKey env st key).index.length = st.index.countP fun e => e.key ≠ key := by
  have hs := hp.unbind env key
  have hperm : (unbindKey env st key).index.Perm (st.index.filter fun e => e.key ≠ key) := by
    refine (List.perm_ext_iff_of_nodup hs.placed.nodup.of_map
      (hp.nodup.of_map.sublist List.filter_sublist)).mpr fun e => ?_
    rw [hs.mem, List.mem_filter]
    simp
  rw [hperm.length_eq, List.countP_eq_length_filter]

theorem writeOff_unbind (env : FlashEnv) (st : StoreState) (key : StoreKey) :
    (unbindKey env st key).writeOff = st.writeOff := by
  unfold unbindKey tombstoneEntry
  split
  · rfl
  · split <;> rfl

/-- **Up to the first write of the record**, whatever fails: the older copy of the key is gone,
and the records of the sectors given up. -/
theorem prepare (hp : Placed st) {key : StoreKey} {n : Nat}
    (hread : inRoom st.writeOff (32 + n) = false → env.readOk (roomSector st.writeOff) = true)
    (hn : n ≤ 520) (h : putPrepare env st key n = .ok (err, st')) :
    ∃ reclaimed opened : List Nat,
      Shrinks st st' (fun e => e.key = key ∨ sectorBase e.offset ∈ reclaimed ++ opened) ∧
      (st.index.countP (fun e => e.key ≠ key) < bitleStoreMaxRecords → reclaimed = []) ∧
      (opened = [] ∨
        inRoom st.writeOff (32 + n) = false ∧ opened = [roomSector st.writeOff]) ∧
      (err = .ok → inRoom st'.writeOff (32 + n) = true) := by
  obtain ⟨err1, st1, hev, hcase⟩ := putPrepare_cases h
  have hs0 := hp.unbind env key
  obtain ⟨reclaimed, hs1, hw1, hnone⟩ := hs0.placed.evict hev
  rw [hp.length_unbind] at hnone
  rw [writeOff_unbind] at hw1
  have hs01 := hs0.trans hs1
  rcases hcase with ⟨herr, rfl, rfl⟩ | ⟨-, hroom⟩
  · refine ⟨reclaimed, [], hs01.congr fun e _ => ?_, hnone, .inl rfl, fun hok => absurd hok herr⟩
    rw [List.append_nil]
  · rcases roomLoop_cases (by omega) hroom with ⟨hin, -, rfl⟩ | ⟨hout, hop⟩
    · refine ⟨reclaimed, [], hs01.congr fun e _ => ?_, hnone, .inl rfl, fun _ => hin⟩
      rw [List.append_nil]
    · obtain ⟨j, hj, hlt, hne⟩ := mayOpen_roomSector st1
      have hin : err = .ok → inRoom st'.writeOff (32 + n) = true := by
        rintro rfl
        exact inRoom_opened (by omega) hop
      rw [hj] at hop
      rw [hw1] at hout hj
      have hs2 := hs1.placed.openSector (hj ▸ hread hout) hlt (hw1 ▸ hne) hop
      refine ⟨reclaimed, [roomSector st.writeOff], (hs01.trans hs2).congr fun e _ => ?_, hnone,
        .inr ⟨hout, rfl⟩, hin⟩
      rw [hj, List.mem_append, List.mem_singleton, or_assoc]

end Placed

/-- What a call of `bitle_store_put` goes through. -/
theorem bitleStorePut_cases {a : PutArgs}
    (h : bitleStorePut env crc32 st a.key a.expiryUnixS a.flags a.payload = .ok (err, st')) :
    (err = .invalidArg ∧ st' = st) ∨
      (st.part = true ∧ st.lock = .free ∧ 1 ≤ a.payload.length ∧ a.payload.length ≤ 520 ∧
        ∃ err1 st1,
          putPrepare env { st with lock := .held } a.key a.payload.length = .ok (err1, st1) ∧
          ((err1 ≠ .ok ∧ err = err1 ∧ st' = giveLock st1) ∨
            (err1 = .ok ∧ ∃ st2, putRecord env crc32 st1 a.key a.expiryUnixS a.flags a.payload =
              (err, st2) ∧ st' = giveLock st2))) := by
  unfold bitleStorePut at h
  by_cases hrej : putRejects st a.payload.length = true
  · rw [if_pos hrej] at h
    cases h
    exact .inl ⟨rfl, rfl⟩
  · rw [if_neg hrej] at h
    -- past the checks: the length is in bounds and the store is up
    have hlen : 1 ≤ a.payload.length ∧ a.payload.length ≤ 520 := by
      by_contra hlen
      exact hrej (putRejects_of_invalid st hlen)
    have hpart : st.part = true := by
      by_contra hpart
      exact hrej (by simp [putRejects, hpart])
    cases hl : st.lock with
    | absent =>
      rw [takeLock, hl] at h
      cases h
    | held =>
      rw [takeLock, hl] at h
      cases h
    | free =>
      rw [takeLock_free hl] at h
      refine .inr ⟨hpart, rfl, hlen.1, hlen.2, ?_⟩
      simp only [bind, Except.bind, pure, Except.pure] at h
      cases hprep : putPrepare env { st with lock := .held } a.key a.payload.length with
      | error f =>
        rw [hprep] at h
        cases h
      | ok r =>
        obtain ⟨err1, st1⟩ := r
        rw [hprep] at h
        refine ⟨err1, st1, rfl, ?_⟩
        dsimp only at h
        -- room was made and the record is written, or the error of making room is returned
        by_cases herr : err1 = .ok
        · rw [if_neg (not_not_intro herr)] at h
          cases h
          exact .inr ⟨herr, _, rfl, rfl⟩
        · rw [if_pos herr] at h
          cases h
          exact .inl ⟨herr, rfl, rfl⟩

/-- Two states that present the same, up to what is lost. -/
theorem Shrinks.mem_shownRecords {lost : StoreIndexEntry → Prop} (hs : Shrinks st st' lost)
    (hp : Placed st) (hpart : st.part = true) (hlock : st.lock = .free) (henv : Reads env)
    (now : UInt32) (k : StoreKey) (v : StoreValue) :
    (k, v) ∈ shownRecords env now st' ↔ (k, v) ∈ shownRecords env now st ∧
      ∀ e ∈ st.index, e.key = k → ¬ lost e := by
  rw [hs.placed.mem_shownRecords henv (hs.part.trans hpart) (hs.lock.trans hlock),
    hp.mem_shownRecords henv hpart hlock]
  constructor
  · rintro ⟨e, he, rfl, hexp, hv⟩
    obtain ⟨hmem, hnot⟩ := (hs.mem e).mp he
    rw [(hs.kept e he).presented_eq] at hv
    refine ⟨⟨e, hmem, rfl, hexp, hv⟩, fun x hx hk => ?_⟩
    rwa [hp.eq_of_key hx hmem hk]
  · rintro ⟨⟨e, hmem, rfl, hexp, hv⟩, hnot⟩
    have he := (hs.mem e).mpr ⟨hmem, hnot e hmem rfl⟩
    exact ⟨e, he, rfl, hexp, (hs.kept e he).presented_eq.trans hv⟩

theorem Shrinks.setLock {lost : StoreIndexEntry → Prop} {lock : StoreLock}
    (hs : Shrinks { st with lock } st' lost) :
    Shrinks st { st' with lock := st.lock } lost :=
  ⟨hs.placed.setLock _, hs.mem, hs.kept, hs.part, rfl⟩

/-! ## Whole calls -/

/-- A value does not depend on the tombstone. -/
theorem RecordKept.entryValue_eq {m m' : Mem} {e : StoreIndexEntry}
    (h : RecordKept m m' e.offset) : entryValue m' e = entryValue m e := by
  obtain ⟨-, hlen, hflags, hexp⟩ := h.fields
  have hpayload : read m' (e.offset + 32) (hdrAt m e.offset).payloadLen.toNat =
      read m (e.offset + 32) (hdrAt m e.offset).payloadLen.toNat := by
    refine read_congr fun a h1 h2 => (h a (by omega) ?_ ?_).symm
    · unfold recordEnd
      omega
    · unfold storeAliveOffset
      omega
  simp only [entryValue, hlen, hflags, hexp, hpayload]

/-- A key that is still bound has the value it had. -/
theorem storeMap_of_kept (hp : Placed st) {key : StoreKey}
    (hsub : ∀ e ∈ st'.index, e.key = key → e ∈ st.index ∧ RecordKept st.mem st'.mem e.offset) :
    storeMap st' key = storeMap st key ∨ storeMap st' key = none := by
  cases hf : storeEntry st' key with
  | none => exact .inr (by rw [storeMap, hf]; rfl)
  | some e =>
    obtain ⟨he, rfl⟩ := storeEntry_spec hf
    obtain ⟨hmem, hkept⟩ := hsub e he rfl
    left
    rw [storeMap, storeMap, hf, hp.storeEntry_of_mem hmem, Option.map_some, Option.map_some,
      hkept.entryValue_eq]

theorem Shrinks.storeMap_eq {lost : StoreIndexEntry → Prop} (hs : Shrinks st st' lost)
    (hp : Placed st) (key : StoreKey) :
    storeMap st' key = storeMap st key ∨ storeMap st' key = none :=
  storeMap_of_kept hp fun e he _ => ⟨((hs.mem e).mp he).1, hs.kept e he⟩

namespace Placed

/-- **`bitle_store_put`**, whatever fails, keeps the placement and the values of the other keys
that stay bound. -/
theorem put (hp : Placed st) (henv : Reads env) {a : PutArgs}
    (h : bitleStorePut env crc32 st a.key a.expiryUnixS a.flags a.payload = .ok (err, st')) :
    Placed st' ∧ ∀ key, key ≠ a.key →
      storeMap st' key = storeMap st key ∨ storeMap st' key = none := by
  rcases bitleStorePut_cases h with ⟨-, rfl⟩ | ⟨-, -, -, hle, err1, st1, hprep, hcase⟩
  · exact ⟨hp, fun _ _ => .inl rfl⟩
  obtain ⟨reclaimed, opened, hs, -, -, hin⟩ := (hp.setLock .held).prepare (fun _ => henv _) hle hprep
  have hs := hs.setLock
  rcases hcase with ⟨-, -, rfl⟩ | ⟨herr1, st2, hrec, rfl⟩
  · exact ⟨hs.placed.setLock .free, fun key _ => hs.storeMap_eq hp key⟩
  have hfits : fits st1.writeOff (32 + a.payload.length) = true := by
    have hroom := hin herr1
    rw [inRoom, Bool.and_eq_true] at hroom
    exact hroom.1
  rcases putRecord_cases hrec with ⟨-, -, -, hmem, hw, hidx⟩ | ⟨-, -, rfl⟩
  · -- written: the key is new to the index
    have hnew : ∀ e ∈ st1.index, e.key ≠ a.key := fun e he hk => ((hs.mem e).mp he).2 (.inl hk)
    obtain ⟨hp2, hkept⟩ := hs.placed.written hle hfits hnew hmem hw hidx
    refine ⟨hp2.setLock .free, fun key hne => storeMap_of_kept hp fun e he hk => ?_⟩
    change e ∈ st2.index at he
    rw [hidx] at he
    rcases List.mem_append.mp he with he | he
    · exact ⟨((hs.mem e).mp he).1, (hs.kept e he).trans (hkept e he)⟩
    · rw [List.mem_singleton.mp he] at hk
      exact absurd hk.symm hne
  · have htorn := hs.placed.torn crc32 hfits
      (programmedBytes env st1.writeOff a.payload.length)
    have hall := hs.trans htorn
    exact ⟨hall.placed.setLock .free, fun key _ => hall.storeMap_eq hp key⟩

theorem delete (hp : Placed st) {key : StoreKey} (h : bitleStoreDelete env st key = .ok st') :
    Shrinks st st' fun e => e.key = key ∧ st.part = true := by
  unfold bitleStoreDelete at h
  by_cases hpart : st.part = true
  · rw [if_neg (by simp [hpart])] at h
    cases hl : st.lock with
    | absent | held =>
      rw [takeLock, hl] at h
      cases h
    | free =>
      rw [takeLock_free hl] at h
      cases h
      have hs := ((hp.setLock .held).unbind env key).setLock
      rw [hl] at hs
      exact hs.congr fun e _ => (and_iff_left hpart).symm
  · rw [if_pos (by simp [hpart])] at h
    cases h
    exact (Shrinks.refl hp).congr fun e _ => by simp [hpart]

/-- Iterating drops entries and changes no record but by tombstones. -/
theorem iterateLoop {σ : Type} {now : UInt32} {cb : StoreIterCb σ} {n i : Nat} {s s' : σ}
    (hp : Placed st) (h : iterateLoop env now cb n i st s = .ok (st', s')) :
    ∃ lost, Shrinks st st' lost := by
  refine iterateLoop_rule (P := fun x => ∃ lost, Shrinks st x lost) ?_ ?_ h ⟨_, .refl hp⟩
  · rintro x i e ⟨lost, hs⟩ he
    exact ⟨_, hs.trans (hs.placed.tombstone env he)⟩
  · rintro x i e ⟨lost, hs⟩ he
    exact ⟨_, hs.trans (hs.placed.drop he)⟩

end Placed

end Faults

end Bitle
