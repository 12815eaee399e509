import Bitle.Store.Tail

/-!
# Bitle — a `bitle_store_put` that fails

The call tombstones an older copy of its key before it knows whether the new one can be written,
and it gives up whole sectors to make room. An error therefore does not mean that nothing has
changed (`refresh_lost`). `failed_put_keeps` is what it does mean, for every outcome of its
flash calls but one: the records under other keys are presented as before, except those of the
sectors given up, and none is given up where the record fits and the index has room.
-/

namespace Bitle

open Wire Flash Slots

/-- **A put that fails.** Of its flash calls only one has to succeed, that which reads the header of
the sector opened for room. With `ESP_ERR_INVALID_ARG` nothing has changed. With any other error
the records under other keys are those from before, except in the sectors that were given up:
for the quota, when 256 other records are indexed, and for room, when the record does not fit
where the write offset is. -/
theorem failed_put_keeps (crc32 : UInt32 → List UInt8 → UInt32) (env : FlashEnv)
    (st : StoreState) (hp : Placed st) (a : PutArgs) (err : EspErr) (st' : StoreState)
    (hread : inRoom st.writeOff (storeRecordHdrSize + a.payload.length) = false →
      env.readOk (roomSector st.writeOff) = true)
    (h : bitleStorePut env crc32 st a.key a.expiryUnixS a.flags a.payload = .ok (err, st'))
    (herr : err ≠ .ok) :
    (err = .invalidArg ∧ st' = st) ∨ ∃ reclaimed opened : List Nat,
      (st.index.countP (fun e => e.key ≠ a.key) < bitleStoreMaxRecords → reclaimed = []) ∧
      (opened = [] ∨ inRoom st.writeOff (storeRecordHdrSize + a.payload.length) = false ∧
        opened = [roomSector st.writeOff]) ∧
      ∀ env' now k v, Reads env' → ((k, v) ∈ shownRecords env' now st' ↔
        (k, v) ∈ shownRecords env' now st ∧ k ≠ a.key ∧
          ∀ base ∈ reclaimed ++ opened, storeBase st k ≠ some base) := by
  rcases bitleStorePut_cases h with hrej | ⟨hpart, hlock, -, hle, err1, st1, hprep, hcase⟩
  · exact .inl hrej
  right
  obtain ⟨reclaimed, opened, hs, hnone, hopened, hin⟩ := (hp.setLock .held).prepare hread hle hprep
  -- the state at the end, whether the record was tried or not
  have hend : Shrinks st st' fun e =>
      e.key = a.key ∨ sectorBase e.offset ∈ reclaimed ++ opened := by
    rcases hcase with ⟨-, -, rfl⟩ | ⟨herr1, st2, hrec, rfl⟩
    · have := hs.setLock
      rwa [hlock] at this
    · have hfits : fits st1.writeOff (32 + a.payload.length) = true := by
        have := hin herr1
        rw [inRoom, Bool.and_eq_true] at this
        exact this.1
      rcases putRecord_cases hrec with ⟨-, hok, -⟩ | ⟨-, -, rfl⟩
      · exact absurd hok herr
      · have htorn := (hs.trans (hs.placed.torn crc32 hfits
          (programmedBytes env st1.writeOff a.payload.length))).setLock
        rw [hlock] at htorn
        exact htorn.congr fun e _ => or_iff_left id
  refine ⟨reclaimed, opened, hnone, hopened, fun env' now k v henv' => ?_⟩
  rw [hend.mem_shownRecords hp hpart hlock henv']
  refine and_congr_right fun hshown => ?_
  obtain ⟨e, he, rfl, -⟩ := (hp.mem_shownRecords henv' hpart hlock now k v).mp hshown
  have hbase : storeBase st e.key = some (sectorBase e.offset) := by
    rw [storeBase, hp.storeEntry_of_mem he, Option.map_some]
  rw [hbase]
  constructor
  · intro hnot
    obtain ⟨hk, hb⟩ := not_or.mp (hnot e he rfl)
    refine ⟨hk, fun base hmem heq => hb ?_⟩
    rwa [Option.some.inj heq]
  · rintro ⟨hk, hb⟩ x hx hxk (hlost | hlost)
    · exact hk (hxk.symm.trans hlost)
    · rw [hp.eq_of_key hx he hxk] at hlost
      exact hb _ hlost rfl

/-- A partition with one record, as the first boot and one put leave it. -/
def oneRecord : StoreState :=
  faultStep espCrc32Le (faultStep espCrc32Le (powerOn blankFlash []) (.boot (fun _ => none) 1))
    (.put (fun _ => none) ⟨zeros 16, 9, 0, [1]⟩)

theorem placed_oneRecord : Placed oneRecord := by
  have hboot : FaultOp.safe (powerOn blankFlash []) (.boot (fun _ => none) 1) := trivial
  have hput : FaultOp.safe (faultStep espCrc32Le (powerOn blankFlash []) (.boot (fun _ => none) 1))
      (.put (fun _ => none) ⟨zeros 16, 9, 0, [1]⟩) := .inr ⟨rfl, rfl⟩
  exact ((tidy_blank.step hboot).step hput).placed

/-- The header of a second record is not programmed: the first one is still presented. -/
theorem failed_put_keeps_new_key :
    ∃ st', faultyPut espCrc32Le oneRecord (fun _ => some 0) ⟨copyAt 16 [1] 0, 9, 0, [2]⟩ =
        .ok (.fail, st') ∧
      ∀ env now k v, Reads env → ((k, v) ∈ shownRecords env now st' ↔
        (k, v) ∈ shownRecords env now oneRecord ∧ k ≠ copyAt 16 [1] 0) := by
  have hfail : ((faultyPut espCrc32Le oneRecord (fun _ => some 0)
      ⟨copyAt 16 [1] 0, 9, 0, [2]⟩).map Prod.fst).toOption = some .fail := by
    decide +kernel
  have hroom : inRoom oneRecord.writeOff (storeRecordHdrSize + 1) = true := by decide +kernel
  have hfew : oneRecord.index.countP (fun e => e.key ≠ copyAt 16 [1] 0) < bitleStoreMaxRecords := by
    decide +kernel
  generalize hr : faultyPut espCrc32Le oneRecord (fun _ => some 0)
    ⟨copyAt 16 [1] 0, 9, 0, [2]⟩ = r at hfail
  match r, hr, hfail with
  | .error _, _, hfail => cases hfail
  | .ok (err, st'), hr, hfail =>
    obtain rfl : err = .fail := Option.some.inj hfail
    refine ⟨st', rfl, fun env now k v henv => ?_⟩
    rcases failed_put_keeps espCrc32Le (.cutting fun _ => some 0) oneRecord placed_oneRecord
      ⟨copyAt 16 [1] 0, 9, 0, [2]⟩ .fail st' (fun _ => rfl) hr (by decide) with
      ⟨hinv, -⟩ | ⟨reclaimed, opened, hnone, hopened, hiff⟩
    · cases hinv
    · obtain rfl := hnone hfew
      obtain rfl : opened = [] := by
        rcases hopened with hnil | ⟨hout, -⟩
        · exact hnil
        · exact absurd (hroom.symm.trans hout) (by decide)
      rw [hiff env now k v henv]
      simp

/-- A refresh whose header is not programmed has tombstoned the old record. -/
theorem refresh_lost :
    ¬ ∀ (crc32 : UInt32 → List UInt8 → UInt32) (env : FlashEnv) (st : StoreState) (a : PutArgs)
      (err : EspErr) (st' : StoreState), Reads env → Placed st →
      bitleStorePut env crc32 st a.key a.expiryUnixS a.flags a.payload = .ok (err, st') →
      err ≠ .ok → ∀ now x, x ∈ shownRecords .good now st' ↔ x ∈ shownRecords .good now st := by
  intro hall
  have hbefore : shownRecords .good 1 oneRecord = [(zeros 16, ⟨9, 0, [1]⟩)] := by decide +kernel
  have hcall : ((faultyPut espCrc32Le oneRecord (fun off => if off = 41 then some 0 else none)
      ⟨zeros 16, 9, 0, [2]⟩).map fun x => (x.1, shownRecords .good 1 x.2)).toOption =
      some (EspErr.fail, []) := by
    decide +kernel
  generalize hr : faultyPut espCrc32Le oneRecord (fun off => if off = 41 then some 0 else none)
    ⟨zeros 16, 9, 0, [2]⟩ = r at hcall
  match r, hr, hcall with
  | .error _, _, hcall => cases hcall
  | .ok (err, st'), hr, hcall =>
    simp only [Except.map, Except.toOption, Option.some.injEq, Prod.mk.injEq] at hcall
    obtain ⟨rfl, hafter⟩ := hcall
    have hsame := hall espCrc32Le (.cutting fun off => if off = 41 then some 0 else none) oneRecord
      ⟨zeros 16, 9, 0, [2]⟩ .fail st' (fun _ => rfl) placed_oneRecord hr (by decide) 1
      (zeros 16, ⟨9, 0, [1]⟩)
    rw [hbefore, hafter] at hsame
    revert hsame
    decide

end Bitle
