import Mathlib.Data.Set.Finite.List
import Bitle.Lib.Run
import Bitle.Store.Boot

/-!
# Bitle — the mailbox as a finite map

`storeMap` is what a caller can find out about the store: for each key in the index the values
its record has on flash. `MapStep` says what each call should do to such a map, in terms of the
map alone; the one thing it takes from below is which keys a `put` loses with the sectors it
erases.

`store_refines_map` is the refinement, for every run from an erased partition with a clock that
does not go back. Iterating does one thing more than presenting records: it drops the expired
ones it meets (`iterate_drops_expired`).
-/

namespace Bitle

open Wire Flash Slots

/-! ## The map of a state -/

/-- What a key is bound to. -/
structure StoreValue where
  expiryUnixS : UInt32
  flags : UInt8
  payload : List UInt8
  deriving DecidableEq

/-- The values on flash for an index entry. -/
def entryValue (m : Mem) (e : StoreIndexEntry) : StoreValue :=
  ⟨(hdrAt m e.offset).expiryUnixS, (hdrAt m e.offset).flags,
    read m (e.offset + 32) (hdrAt m e.offset).payloadLen.toNat⟩

/-- The index entry of a key. -/
def storeEntry (st : StoreState) (key : StoreKey) : Option StoreIndexEntry :=
  st.index.find? fun e => e.key == key

/-- The map the store stands for. -/
def storeMap (st : StoreState) (key : StoreKey) : Option StoreValue :=
  (storeEntry st key).map (entryValue st.mem)

/-- The sector the record of a key lies in. -/
def storeBase (st : StoreState) (key : StoreKey) : Option Nat :=
  (storeEntry st key).map fun e => sectorBase e.offset

/-- The value has not expired. -/
def StoreValue.fresh (now : UInt32) (v : StoreValue) : Bool := !storeExpired now v.expiryUnixS

def LogRecord.value (r : LogRecord) : StoreValue := ⟨r.expiryUnixS, r.flags, r.payload⟩

section Lookup

variable {crc32 : UInt32 → List UInt8 → UInt32} {now : UInt32} {st : StoreState}
  {S : Nat → Option LogSector} {h : Nat}

theorem LogRecord.At.value_eq {m : Mem} {r : LogRecord} (h : r.At crc32 m) (seq : UInt32) :
    entryValue m (r.entry seq) = r.value := by
  have hhdr : hdrAt m r.off = r.hdr crc32 := h.ofBytes
  have hlen := LogRecord.payloadLen_toNat crc32 h.le
  simp only [entryValue, LogRecord.entry, hhdr, hlen, h.payload]
  rfl

theorem storeEntry_spec {key : StoreKey} {e : StoreIndexEntry} (hf : storeEntry st key = some e) :
    e ∈ st.index ∧ e.key = key := by
  have hk := List.find?_some (p := fun e : StoreIndexEntry => e.key == key) hf
  exact ⟨List.mem_of_find?_eq_some hf, beq_iff_eq.mp hk⟩

theorem storeEntry_eq_none {key : StoreKey} :
    storeEntry st key = none ↔ ∀ e ∈ st.index, e.key ≠ key := by
  simp only [storeEntry, List.find?_eq_none, beq_iff_eq, ne_eq]

/-- The index finds exactly the bound record. -/
theorem Ring.storeEntry_eq_some (hr : Ring crc32 now st S h) {key : StoreKey} {r : LogRecord}
    (hb : Bound st S key r) : ∃ seq, storeEntry st key = some (r.entry seq) ∧ Stored S seq r := by
  obtain ⟨rfl, seq, hs, he⟩ := hb
  refine ⟨seq, ?_, hs⟩
  cases hf : storeEntry st r.key with
  | none => exact absurd rfl (storeEntry_eq_none.mp hf _ he)
  | some e =>
    obtain ⟨hmem, hk⟩ := storeEntry_spec hf
    rw [hr.indexed.eq_of_key hmem he hk]

theorem Ring.storeMap_of_bound (hr : Ring crc32 now st S h) {key : StoreKey} {r : LogRecord}
    (hb : Bound st S key r) : storeMap st key = some r.value := by
  obtain ⟨seq, he, hs⟩ := hr.storeEntry_eq_some hb
  rw [storeMap, he, Option.map_some, (hr.log.stored_at hs).value_eq]

theorem Ring.storeBase_of_bound (hr : Ring crc32 now st S h) {key : StoreKey} {r : LogRecord}
    (hb : Bound st S key r) : storeBase st key = some (sectorBase r.off) := by
  obtain ⟨seq, he, -⟩ := hr.storeEntry_eq_some hb
  rw [storeBase, he]
  rfl

theorem Ring.storeMap_eq_none (hr : Ring crc32 now st S h) {key : StoreKey}
    (hb : ∀ r, ¬ Bound st S key r) : storeMap st key = none := by
  rw [storeMap, Option.map_eq_none_iff, storeEntry_eq_none]
  intro e he hk
  obtain ⟨r, hr', -⟩ := hr.indexed.bound he
  exact hb r (hk ▸ hr')

/-- The map and the bindings. -/
theorem Ring.storeMap_eq_some_iff (hr : Ring crc32 now st S h) {key : StoreKey} {v : StoreValue} :
    storeMap st key = some v ↔ ∃ r, Bound st S key r ∧ r.value = v := by
  constructor
  · intro hm
    by_contra hno
    by_cases hb : ∃ r, Bound st S key r
    · obtain ⟨r, hb⟩ := hb
      rw [hr.storeMap_of_bound hb, Option.some.injEq] at hm
      exact hno ⟨r, hb, hm⟩
    · rw [hr.storeMap_eq_none fun r hr => hb ⟨r, hr⟩] at hm
      simp at hm
  · rintro ⟨r, hb, rfl⟩
    exact hr.storeMap_of_bound hb

/-- Two states with the same values under a key. -/
theorem storeMap_congr {st' : StoreState} {S' : Nat → Option LogSector} {h' : Nat} {now' : UInt32}
    (hr : Ring crc32 now st S h) (hr' : Ring crc32 now' st' S' h') {key : StoreKey}
    (hiff : ∀ r, Bound st' S' key r ↔ Bound st S key r) : storeMap st' key = storeMap st key := by
  apply Option.ext
  intro v
  rw [hr'.storeMap_eq_some_iff, hr.storeMap_eq_some_iff]
  exact exists_congr fun r => and_congr_left fun _ => hiff r

/-- A state that keeps the bindings that are not expired. -/
theorem storeMap_filter {st' : StoreState} {S' : Nat → Option LogSector} {h' : Nat}
    {t now' : UInt32} (hr : Ring crc32 t st S h) (hr' : Ring crc32 now' st' S' h') {key : StoreKey}
    (hiff : ∀ r, Bound st' S' key r ↔
      Bound st S key r ∧ storeExpired now r.expiryUnixS = false) :
    storeMap st' key = (storeMap st key).filter (StoreValue.fresh now) := by
  apply Option.ext
  intro v
  simp only [Option.filter_eq_some_iff, hr'.storeMap_eq_some_iff, hr.storeMap_eq_some_iff, hiff,
    StoreValue.fresh, Bool.not_eq_true']
  constructor
  · rintro ⟨r, ⟨hb, hexp⟩, rfl⟩
    exact ⟨⟨r, hb, rfl⟩, hexp⟩
  · rintro ⟨⟨r, hb, rfl⟩, hexp⟩
    exact ⟨r, ⟨hb, hexp⟩, rfl⟩

/-- `bitle_store_contains` is the domain of the map. -/
theorem indexFind_isSome (st : StoreState) (key : StoreKey) :
    (indexFind st.index key).isSome = (storeMap st key).isSome := by
  rw [storeMap, storeEntry, indexFind, Option.isSome_map, List.findIdx?_isSome, Bool.eq_iff_iff,
    List.find?_isSome, List.any_eq_true]

/-- The map is finite. -/
theorem finite_storeMap (st : StoreState) : {key | (storeMap st key).isSome = true}.Finite := by
  refine (List.finite_toSet (st.index.map (·.key))).subset fun key hk => ?_
  rw [Set.mem_ofPred_eq, storeMap, Option.isSome_map, Option.isSome_iff_exists] at hk
  obtain ⟨e, he⟩ := hk
  obtain ⟨hmem, rfl⟩ := storeEntry_spec he
  exact List.mem_map_of_mem hmem

/-- The value of an index entry is that of its record. -/
theorem Ring.entryValue_of_mem (hr : Ring crc32 now st S h) {e : StoreIndexEntry}
    (he : e ∈ st.index) {r : LogRecord} (hb : Bound st S e.key r) :
    entryValue st.mem e = r.value := by
  obtain ⟨hk, seq, hs, he'⟩ := hb
  rw [← hr.indexed.eq_of_key he' he hk, (hr.log.stored_at hs).value_eq]

end Lookup

/-! ## Iterating -/

/-- A callback that keeps what it is shown and decides from that whether to go on. -/
def collect (keep : List (StoreKey × StoreValue) → Bool) :
    StoreIterCb (List (StoreKey × StoreValue)) := fun _ key expiryUnixS flags payload seen =>
  .ok (keep (seen ++ [(key, ⟨expiryUnixS, flags, payload⟩)]),
    seen ++ [(key, ⟨expiryUnixS, flags, payload⟩)])

/-- What is shown for an index entry. -/
def entryView (m : Mem) (e : StoreIndexEntry) : StoreKey × StoreValue := (e.key, entryValue m e)

/-- The callback went on after everything it was shown. -/
def WentOn (keep : List (StoreKey × StoreValue) → Bool) (seen : List (StoreKey × StoreValue)) :
    Prop := ∀ l, l ≠ [] → l <+: seen → keep l = true

/-- It stopped the walk, and only at the end. -/
def Stopped (keep : List (StoreKey × StoreValue) → Bool) (seen : List (StoreKey × StoreValue)) :
    Prop := ∃ before x, seen = before ++ [x] ∧ keep seen = false ∧ WentOn keep before

section Iterate

variable {crc32 : UInt32 → List UInt8 → UInt32} {now t : UInt32} {st st' : StoreState}
  {S S' : Nat → Option LogSector} {h : Nat} {keep : List (StoreKey × StoreValue) → Bool}
  {seen seen' : List (StoreKey × StoreValue)}

/-- What the loop of `bitle_store_iterate` leaves: it shows the first entries of the index it
leaves, all of them unless it was stopped, and has unbound nothing but expired records. The walk
is made at `now`, which need not be the time `t` of the invariant. -/
structure Iterated (crc32 : UInt32 → List UInt8 → UInt32) (t now : UInt32)
    (keep : List (StoreKey × StoreValue) → Bool) (h : Nat) (st : StoreState)
    (S : Nat → Option LogSector) (st' : StoreState) (S' : Nat → Option LogSector)
    (seen : List (StoreKey × StoreValue)) : Prop where
  ring : Ring crc32 t st' S' h
  head : HeadOpen st S h → HeadOpen st' S' h
  erased : st'.erased = st.erased
  part : st'.part = st.part
  lock : st'.lock = st.lock
  sub : ∀ k r, Bound st' S' k r → Bound st S k r
  keeps : ∀ k r, Bound st S k r → Bound st' S' k r ∨ storeExpired now r.expiryUnixS = true
  shown : ∃ n, seen = (st'.index.take n).map (entryView st'.mem) ∧
    (∀ e ∈ st'.index.take n, storeExpired now e.expiryUnixS = false) ∧
    (n = st'.index.length ∧ WentOn keep seen ∨ Stopped keep seen)

/-- A record that is on flash is read. -/
theorem LogRecord.At.readRecord_eq {m : Mem} {r : LogRecord} (hat : r.At crc32 m)
    (hend : r.off + r.size ≤ 0x60000) :
    readRecord .good m r.off = some (r.hdr crc32, r.payload) := by
  have hlen := LogRecord.payloadLen_toNat crc32 hat.le
  have hle := hat.le
  have hsize : r.size = 32 + r.payload.length := rfl
  have hhdr : StoreRecordHdr.ofBytes (read m r.off storeRecordHdrSize) = r.hdr crc32 :=
    hat.ofBytes
  have hmagic : (r.hdr crc32).magic = storeRecordMagic := rfl
  have hok1 : espPartitionReadOk .good r.off storeRecordHdrSize = true :=
    readOk_good (by unfold storeRecordHdrSize; omega)
  have hok2 : espPartitionReadOk .good (r.off + storeRecordHdrSize) r.payload.length = true :=
    readOk_good (by unfold storeRecordHdrSize; omega)
  have hpay : read m (r.off + storeRecordHdrSize) r.payload.length = r.payload := hat.payload
  simp only [readRecord, hhdr, hlen, hpay]
  refine if_neg ?_
  rw [hmagic, hok1, hok2]
  simp [bitleStorePayloadMax]
  omega

/-- A record that is indexed is read. -/
theorem Ring.readRecord_eq (hr : Ring crc32 now st S h) {e : StoreIndexEntry} (he : e ∈ st.index) :
    ∃ r, Bound st S e.key r ∧ r.expiryUnixS = e.expiryUnixS ∧
      readRecord .good st.mem e.offset = some (r.hdr crc32, r.payload) := by
  obtain ⟨seq, r, hs, -, rfl⟩ := hr.indexed.sound e he
  refine ⟨r, ⟨rfl, seq, hs, he⟩, rfl, (hr.log.stored_at hs).readRecord_eq ?_⟩
  obtain ⟨i, hi, s, hsi, -, hmem⟩ := hs
  have hsat := hr.log.used i hi s hsi
  have hb := hsat.bounds hmem
  have hin := hsat.inside
  omega

/-- A tombstone elsewhere does not change what an entry shows. -/
theorem Ring.entryView_tombstone (hr : Ring crc32 now st S h) {i : Nat} {e : StoreIndexEntry}
    (he : st.index[i]? = some e) {x : StoreIndexEntry} (hx : x ∈ swapRemove st.index i) :
    entryView (tombstoneEntry .good st i).mem x = entryView st.mem x := by
  obtain ⟨hmem, hne⟩ := List.mem_filter.mp ((hr.indexed.toSound.remove_perm he).mem_iff.mp hx)
  obtain ⟨r, hb, -⟩ := hr.indexed.bound hmem
  obtain ⟨hr', -, hbound⟩ := hr.tombstone he
  have hb' := (hbound x.key r).mpr ⟨hb, bne_iff_ne.mp hne⟩
  have hx' : x ∈ (tombstoneEntry .good st i).index := by
    rw [tombstoneEntry_eq .good he]
    exact hx
  rw [entryView, entryView, hr'.entryValue_of_mem hx' hb', hr.entryValue_of_mem hmem hb]

/-- **The loop.** By induction on the entries left: entry `i` is expired and makes room for the
last one, or it is shown and `i` goes on. -/
theorem Ring.iterate (hr : Ring crc32 t st S h) {n i : Nat} (hn : i + n = st.index.length)
    (hexp : ∀ e ∈ st.index.take i, storeExpired now e.expiryUnixS = false)
    (hseen : seen = (st.index.take i).map (entryView st.mem)) (hkeep : WentOn keep seen) :
    ∃ st' S' seen', iterateLoop .good now (collect keep) n i st seen = .ok (st', seen') ∧
      Iterated crc32 t now keep h st S st' S' seen' := by
  induction n generalizing i st S seen with
  | zero =>
    refine ⟨st, S, seen, rfl, ⟨hr, id, rfl, rfl, rfl, fun _ _ => id, fun _ _ => .inl,
      ⟨i, hseen, hexp, .inl ⟨by omega, hkeep⟩⟩⟩⟩
  | succ n ih =>
    have hi : i < st.index.length := by omega
    have he := List.getElem?_eq_getElem hi
    have hmem := List.getElem_mem hi
    obtain ⟨r, hbr, hrexp, hread⟩ := hr.readRecord_eq hmem
    rw [iterateLoop, he]
    dsimp only
    by_cases hx : storeExpired now st.index[i].expiryUnixS = true
    · -- expired: its tombstone makes room for the last entry, and the walk stays at `i`
      rw [if_pos hx]
      obtain ⟨hr1, hopen1, hbound1⟩ := hr.tombstone he
      have hst1 := tombstoneEntry_eq .good he
      have hidx : (tombstoneEntry .good st i).index = swapRemove st.index i := by
        rw [hst1]
        rfl
      have hlen := length_swapRemove hi
      have htake := take_swapRemove hi
      rw [← hst1]
      obtain ⟨st', S', seen', heq, hit⟩ := ih (i := i) hr1 (by rw [hidx]; omega)
        (by rwa [hidx, htake]) (by
          rw [hseen, hidx, htake]
          refine List.map_congr_left fun x hx => (hr.entryView_tombstone he ?_).symm
          exact List.mem_of_mem_take (htake ▸ hx)) hkeep
      refine ⟨st', S', seen', heq, ⟨hit.ring, hit.head ∘ hopen1, hit.erased.trans ?_,
        hit.part.trans ?_, hit.lock.trans ?_, fun k x hb => ((hbound1 k x).mp (hit.sub k x hb)).1,
        fun k x hb => ?_, hit.shown⟩⟩
      · rw [hst1]
        rfl
      · rw [hst1]
        rfl
      · rw [hst1]
        rfl
      · -- the expired record is the only one that may be missing afterwards
        by_cases hk : k = st.index[i].key
        · subst hk
          rw [hb.unique hr.indexed hr.log hbr, hrexp]
          exact .inr hx
        · exact hit.keeps k x ((hbound1 k x).mpr ⟨hb, hk⟩)
    · -- shown: the callback gets the record of the entry
      rw [if_neg hx, hread]
      have htake : st.index.take (i + 1) = st.index.take i ++ [st.index[i]] :=
        List.take_succ_eq_append_getElem hi
      have hexp1 : ∀ e ∈ st.index.take (i + 1), storeExpired now e.expiryUnixS = false := by
        intro e he
        rw [htake, List.mem_append, List.mem_singleton] at he
        rcases he with he | rfl
        · exact hexp e he
        · simpa using hx
      have hview : entryView st.mem st.index[i] = (st.index[i].key, r.value) := by
        rw [entryView, hr.entryValue_of_mem hmem hbr]
      have hseen1 : seen ++ [(st.index[i].key, r.value)] =
          (st.index.take (i + 1)).map (entryView st.mem) := by
        rw [htake, List.map_append, ← hseen, List.map_singleton, hview]
      have hcb : collect keep st st.index[i].key (r.hdr crc32).expiryUnixS (r.hdr crc32).flags
          r.payload seen = .ok (keep (seen ++ [(st.index[i].key, r.value)]),
            seen ++ [(st.index[i].key, r.value)]) := rfl
      dsimp only
      rw [hcb]
      by_cases hgo : keep (seen ++ [(st.index[i].key, r.value)]) = true
      · have hkeep1 : WentOn keep (seen ++ [(st.index[i].key, r.value)]) := by
          intro l hl hpre
          rcases List.prefix_concat_iff.mp hpre with rfl | hpre
          · exact hgo
          · exact hkeep l hl hpre
        obtain ⟨st', S', seen', heq, hit⟩ := ih hr (by omega) hexp1 hseen1 hkeep1
        refine ⟨st', S', seen', ?_, hit⟩
        rw [← heq, hgo]
        rfl
      · -- the callback stops the walk
        rw [Bool.not_eq_true] at hgo
        refine ⟨st, S, _, by rw [hgo]; rfl, ⟨hr, id, rfl, rfl, rfl, fun _ _ => id, fun _ _ => .inl,
          ⟨i + 1, hseen1, hexp1, .inr ⟨seen, _, rfl, hgo, hkeep⟩⟩⟩⟩

/-- **`bitle_store_iterate`.** -/
theorem StoreInv.iterate (hi : StoreInv crc32 t st S h) (now : UInt32)
    (keep : List (StoreKey × StoreValue) → Bool) :
    ∃ st' S' seen, bitleStoreIterate .good now (collect keep) st [] = .ok (st', seen) ∧
      StoreInv crc32 t st' S' h ∧ Iterated crc32 t now keep h st S st' S' seen := by
  have hwent : WentOn keep [] := fun l hl hpre => absurd (List.prefix_nil.mp hpre) hl
  obtain ⟨st1, S1, seen, heq, hit⟩ := (hi.toRing.setLock .held).iterate (i := 0)
    (Nat.zero_add _) (by simp) (by simp) hwent
  refine ⟨giveLock st1, S1, seen, ?_,
    ⟨hit.ring.setLock .free, hit.head hi.head, hit.part.trans hi.part, rfl⟩,
    ⟨hit.ring.setLock .free, hit.head, hit.erased, hit.part, hi.lock.symm, hit.sub, hit.keeps,
      hit.shown⟩⟩
  unfold bitleStoreIterate
  rw [if_neg (by simp [hi.part]), takeLock_free hi.lock]
  simp only [bind, Except.bind, pure, Except.pure, heq]

theorem mem_view {n : Nat} {k : StoreKey} {v : StoreValue}
    (hmem : (k, v) ∈ (st.index.take n).map (entryView st.mem)) :
    ∃ e ∈ st.index.take n, e.key = k ∧ entryValue st.mem e = v := by
  obtain ⟨e, he, heq⟩ := List.mem_map.mp hmem
  rw [entryView, Prod.mk.injEq] at heq
  exact ⟨e, he, heq⟩

end Iterate

/-! ## Calls and runs -/

/-- The calls of the store, and a reboot. -/
inductive StoreOp where
  | put (key : StoreKey) (expiryUnixS : UInt32) (flags : UInt8) (payload : List UInt8)
  | delete (key : StoreKey)
  | iterate (keep : List (StoreKey × StoreValue) → Bool)
  | contains (key : StoreKey)
  | reboot

/-- What a call gives back. -/
inductive StoreOut where
  | err (e : EspErr)
  | done
  | seen (l : List (StoreKey × StoreValue))
  | found (b : Bool)
  deriving DecidableEq

/-- One call at time `now`, on a flash without faults. -/
def storeStep (crc32 : UInt32 → List UInt8 → UInt32) (now : UInt32) (st : StoreState) :
    StoreOp → Except StoreFault (StoreOut × StoreState)
  | .put key expiryUnixS flags payload => do
    let (err, st) ← bitleStorePut .good crc32 st key expiryUnixS flags payload
    return (.err err, st)
  | .delete key => do
    let st ← bitleStoreDelete .good st key
    return (.done, st)
  | .iterate keep => do
    let (st, seen) ← bitleStoreIterate .good now (collect keep) st []
    return (.seen seen, st)
  | .contains key => do
    let (found, st) ← bitleStoreContains st key
    return (.found found, st)
  | .reboot =>
    let (err, st) := bitleStoreReboot .good crc32 now st
    .ok (.err err, st)

/-- A run: calls with the times they are made at. -/
def storeRun (crc32 : UInt32 → List UInt8 → UInt32) :
    StoreState → List (UInt32 × StoreOp) → Except StoreFault StoreState
  | st, [] => .ok st
  | st, (now, op) :: rest => do
    let (_, st) ← storeStep crc32 now st op
    storeRun crc32 st rest

/-- The times of a run that starts at `t` do not go back. -/
def ClockFrom {α : Type} : UInt32 → List (UInt32 × α) → Prop
  | _, [] => True
  | t, (now, _) :: rest => t ≤ now ∧ ClockFrom now rest

instance decidableClockFrom {α : Type} : (t : UInt32) → (ops : List (UInt32 × α)) →
    Decidable (ClockFrom t ops)
  | _, [] => .isTrue trivial
  | t, (now, _) :: rest =>
    have := decidableClockFrom now rest
    inferInstanceAs (Decidable (t ≤ now ∧ ClockFrom now rest))

/-- The time of the last call. -/
def lastTime {α : Type} : UInt32 → List (UInt32 × α) → UInt32
  | t, [] => t
  | _, (now, _) :: rest => lastTime now rest

theorem clockFrom_append {α : Type} {t : UInt32} {ops ops' : List (UInt32 × α)} :
    ClockFrom t (ops ++ ops') ↔ ClockFrom t ops ∧ ClockFrom (lastTime t ops) ops' := by
  induction ops generalizing t with
  | nil => simp [ClockFrom, lastTime]
  | cons x ops ih => simp [ClockFrom, lastTime, ih, and_assoc]

theorem le_lastTime {α : Type} {t : UInt32} {ops : List (UInt32 × α)} (h : ClockFrom t ops) :
    t ≤ lastTime t ops := by
  induction ops generalizing t with
  | nil => exact Std.le_refl t
  | cons x ops ih => exact Std.le_trans h.1 (ih h.2)

/-! ## The abstract map -/

/-- **What a call does to the map**, from `f` to `f'`. `lost` are the keys whose records lie in a
sector that the call has erased. A walk that is not stopped shows every value that is not
expired, once, and unbinds the others; one that is stopped may leave some of those. -/
def MapStep (now : UInt32) (f f' : StoreKey → Option StoreValue) (lost : StoreKey → Prop) :
    StoreOp → StoreOut → Prop
  | .put key expiryUnixS flags payload, out =>
    (1 ≤ payload.length ∧ payload.length ≤ bitleStorePayloadMax →
      out = .err .ok ∧ f' key = some ⟨expiryUnixS, flags, payload⟩ ∧
      ∀ k, k ≠ key → (lost k → f' k = none) ∧ (¬ lost k → f' k = f k)) ∧
    (¬ (1 ≤ payload.length ∧ payload.length ≤ bitleStorePayloadMax) →
      out = .err .invalidArg ∧ f' = f)
  | .delete key, out => out = .done ∧ f' key = none ∧ ∀ k, k ≠ key → f' k = f k
  | .iterate keep, out =>
    ∃ seen, out = .seen seen ∧ (seen.map Prod.fst).Nodup ∧
      (∀ k v, (k, v) ∈ seen → f k = some v ∧ v.fresh now = true) ∧
      (WentOn keep seen ∧ (∀ k v, f k = some v → v.fresh now = true → (k, v) ∈ seen) ∧
          (∀ k, f' k = (f k).filter (StoreValue.fresh now)) ∨
        Stopped keep seen ∧
          ∀ k, f' k = f k ∨ f' k = none ∧ ∃ v, f k = some v ∧ v.fresh now = false)
  | .contains key, out => out = .found (f key).isSome ∧ f' = f
  | .reboot, out => out = .err .ok ∧ ∀ k, f' k = (f k).filter (StoreValue.fresh now)

/-- The call erases sectors. -/
def StoreOp.isPut : StoreOp → Bool
  | .put .. => true
  | _ => false

/-- The call refreshes or deletes `key`. -/
def StoreOp.touches (key : StoreKey) : StoreOp → Bool
  | .put k .. => k == key
  | .delete k => k == key
  | _ => false

/-! ## Each call is a step of the map -/

section Refine

variable {crc32 : UInt32 → List UInt8 → UInt32} {now : UInt32} {st : StoreState}
  {S : Nat → Option LogSector} {h : Nat}

/-- **What one call does**, from the state `st` with the sectors `S` to `st'` with `S'`: it keeps
the invariant, is a step of the map, and keeps every record that it does not touch, erase or
find expired where it is. -/
structure Stepped (crc32 : UInt32 → List UInt8 → UInt32) (now : UInt32) (op : StoreOp)
    (st : StoreState) (S : Nat → Option LogSector) (out : StoreOut) (st' : StoreState)
    (S' : Nat → Option LogSector) (h' : Nat) (bases : List Nat) : Prop where
  inv : StoreInv crc32 now st' S' h'
  erased : st'.erased = st.erased ++ bases
  only_put : op.isPut = false → bases = []
  map : MapStep now (storeMap st) (storeMap st')
    (fun k => ∃ b ∈ bases, storeBase st k = some b) op out
  keeps : ∀ key r, op.touches key = false → Bound st S key r → sectorBase r.off ∉ bases →
    storeExpired now r.expiryUnixS = false → Bound st' S' key r

theorem StoreInv.step_put (hi : StoreInv crc32 now st S h) (key : StoreKey)
    (expiryUnixS : UInt32) (flags : UInt8) (payload : List UInt8) :
    ∃ out st' S' h' bases,
      storeStep crc32 now st (.put key expiryUnixS flags payload) = .ok (out, st') ∧
      Stepped crc32 now (.put key expiryUnixS flags payload) st S out st' S' h' bases := by
  by_cases hlen : 1 ≤ payload.length ∧ payload.length ≤ 520
  · obtain ⟨st', S', h', bases, r, heq, hi', her, ⟨hk, he, hf, hp⟩, hbound⟩ :=
      hi.put key expiryUnixS flags hlen.1 hlen.2
    have hr := hi.toRing
    have hr' := hi'.toRing
    refine ⟨.err .ok, st', S', h', bases, ?_, ⟨hi', her, by simp [StoreOp.isPut],
      ⟨fun _ => ⟨rfl, ?_, fun k hne => ⟨?_, fun hlost => ?_⟩⟩, fun hbad => absurd hlen hbad⟩,
      fun k x ht hx hb _ => ?_⟩⟩
    · rw [storeStep, heq]
      rfl
    · rw [hr'.storeMap_of_bound ((hbound key r).mpr (.inr ⟨rfl, rfl⟩)), LogRecord.value, he, hf, hp]
    · rintro ⟨b, hb, hbase⟩
      refine hr'.storeMap_eq_none fun x hx => ?_
      rcases (hbound k x).mp hx with ⟨hx, -, hnot⟩ | ⟨rfl, -⟩
      · rw [hr.storeBase_of_bound hx, Option.some.injEq] at hbase
        exact hnot (hbase ▸ hb)
      · exact hne rfl
    · refine storeMap_congr hr hr' fun x => ⟨fun hx => ?_, fun hx => ?_⟩
      · rcases (hbound k x).mp hx with ⟨hx, -⟩ | ⟨rfl, -⟩
        · exact hx
        · exact absurd rfl hne
      · refine (hbound k x).mpr (.inl ⟨hx, hne, fun hmem => hlost ⟨_, hmem, ?_⟩⟩)
        exact hr.storeBase_of_bound hx
    · exact (hbound k x).mpr (.inl ⟨hx, fun hk => beq_eq_false_iff_ne.mp ht hk.symm, hb⟩)
  · refine ⟨.err .invalidArg, st, S, h, [], ?_, ⟨hi, by simp, fun _ => rfl,
      ⟨fun hgood => absurd hgood hlen, fun _ => ⟨rfl, rfl⟩⟩, fun k x _ hx _ _ => hx⟩⟩
    rw [storeStep, bitleStorePut_invalid hlen]
    rfl

theorem StoreInv.step_delete (hi : StoreInv crc32 now st S h) (key : StoreKey) :
    ∃ out st' S' h' bases, storeStep crc32 now st (.delete key) = .ok (out, st') ∧
      Stepped crc32 now (.delete key) st S out st' S' h' bases := by
  obtain ⟨st', S', heq, hi', her, hbound⟩ := hi.delete key
  refine ⟨.done, st', S', h, [], ?_, ⟨hi', by simp [her], fun _ => rfl, ⟨rfl, ?_, fun k hne => ?_⟩,
    fun k r ht hb _ _ => ?_⟩⟩
  · rw [storeStep, heq]
    rfl
  · exact hi'.storeMap_eq_none fun r hr => ((hbound key r).mp hr).2 rfl
  · refine storeMap_congr hi.toRing hi'.toRing fun r => ?_
    rw [hbound]
    exact ⟨And.left, fun hr => ⟨hr, hne⟩⟩
  · exact (hbound k r).mpr ⟨hb, fun hk => beq_eq_false_iff_ne.mp ht hk.symm⟩

/-- What is shown is bound, and not expired. -/
theorem Iterated.shown_bound {t : UInt32} {keep : List (StoreKey × StoreValue) → Bool}
    {st' : StoreState} {S' : Nat → Option LogSector} {seen : List (StoreKey × StoreValue)}
    (hr : Ring crc32 t st S h) (hit : Iterated crc32 t now keep h st S st' S' seen) {k : StoreKey}
    {v : StoreValue} (hmem : (k, v) ∈ seen) :
    storeMap st k = some v ∧ v.fresh now = true := by
  obtain ⟨n, hseen, hexp, -⟩ := hit.shown
  rw [hseen] at hmem
  obtain ⟨e, he, rfl, rfl⟩ := mem_view hmem
  have hidx := List.mem_of_mem_take he
  obtain ⟨r, hb, -, -, hrexp⟩ := hit.ring.indexed.bound hidx
  have hval := hit.ring.entryValue_of_mem hidx hb
  refine ⟨?_, ?_⟩
  · rw [hval]
    exact hr.storeMap_of_bound (hit.sub _ _ hb)
  · rw [hval, StoreValue.fresh, LogRecord.value, hrexp, hexp e he]
    rfl

/-- A walk that was not stopped has shown everything and left what is not expired. -/
theorem Iterated.complete {t : UInt32} {keep : List (StoreKey × StoreValue) → Bool}
    {st' : StoreState} {S' : Nat → Option LogSector} {seen : List (StoreKey × StoreValue)}
    (hr : Ring crc32 t st S h) (hit : Iterated crc32 t now keep h st S st' S' seen)
    (hseen : seen = st'.index.map (entryView st'.mem))
    (hexp : ∀ e ∈ st'.index, storeExpired now e.expiryUnixS = false) :
    (∀ k v, storeMap st k = some v → v.fresh now = true → (k, v) ∈ seen) ∧
      ∀ k, storeMap st' k = (storeMap st k).filter (StoreValue.fresh now) := by
  have hleft : ∀ k r, Bound st' S' k r → storeExpired now r.expiryUnixS = false := by
    rintro k r ⟨-, seq, -, he⟩
    exact hexp _ he
  have hiff : ∀ k r, Bound st' S' k r ↔
      Bound st S k r ∧ storeExpired now r.expiryUnixS = false := by
    refine fun k r => ⟨fun hb => ⟨hit.sub k r hb, hleft k r hb⟩, fun ⟨hb, hne⟩ => ?_⟩
    exact (hit.keeps k r hb).resolve_right (by simp [hne])
  refine ⟨fun k v hm hfresh => ?_, fun k => storeMap_filter hr hit.ring (hiff k)⟩
  obtain ⟨r, hb, rfl⟩ := hr.storeMap_eq_some_iff.mp hm
  obtain ⟨rfl, seq, hs, he⟩ := (hiff k r).mpr ⟨hb, by
    simpa [StoreValue.fresh, LogRecord.value] using hfresh⟩
  rw [hseen]
  refine List.mem_map.mpr ⟨_, he, ?_⟩
  rw [entryView, (hit.ring.log.stored_at hs).value_eq]
  rfl

/-- A walk that was stopped has unbound nothing but expired records. -/
theorem Iterated.partly {t : UInt32} {keep : List (StoreKey × StoreValue) → Bool}
    {st' : StoreState} {S' : Nat → Option LogSector} {seen : List (StoreKey × StoreValue)}
    (hr : Ring crc32 t st S h) (hit : Iterated crc32 t now keep h st S st' S' seen) (k : StoreKey) :
    storeMap st' k = storeMap st k ∨
      storeMap st' k = none ∧ ∃ v, storeMap st k = some v ∧ v.fresh now = false := by
  by_cases hb : ∃ r, Bound st S k r
  · obtain ⟨r, hb⟩ := hb
    by_cases hb' : Bound st' S' k r
    · left
      rw [hr.storeMap_of_bound hb, hit.ring.storeMap_of_bound hb']
    · right
      have hx := (hit.keeps k r hb).resolve_left hb'
      refine ⟨hit.ring.storeMap_eq_none fun x hx' => hb' ?_, r.value, hr.storeMap_of_bound hb, ?_⟩
      · rwa [hb.unique hr.indexed hr.log (hit.sub k x hx')]
      · rw [StoreValue.fresh, LogRecord.value, hx]
        rfl
  · left
    rw [hr.storeMap_eq_none fun r hr => hb ⟨r, hr⟩,
      hit.ring.storeMap_eq_none fun r hr => hb ⟨r, hit.sub k r hr⟩]

theorem StoreInv.step_iterate (hi : StoreInv crc32 now st S h)
    (keep : List (StoreKey × StoreValue) → Bool) :
    ∃ out st' S' h' bases, storeStep crc32 now st (.iterate keep) = .ok (out, st') ∧
      Stepped crc32 now (.iterate keep) st S out st' S' h' bases := by
  obtain ⟨st', S', seen, heq, hi', hit⟩ := hi.iterate now keep
  have hr := hi.toRing
  refine ⟨.seen seen, st', S', h, [], ?_, ⟨hi', by simp [hit.erased], fun _ => rfl,
    ⟨seen, rfl, ?_, fun k v hmem => hit.shown_bound hr hmem, ?_⟩, fun k r _ hb _ hexp => ?_⟩⟩
  · rw [storeStep, heq]
    rfl
  · obtain ⟨n, hseen, -⟩ := hit.shown
    rw [hseen, List.map_map]
    exact hi'.indexed.nodup.sublist ((List.take_sublist n _).map _)
  · obtain ⟨n, hseen, hexp, ⟨rfl, hwent⟩ | hstop⟩ := hit.shown
    · rw [List.take_length] at hseen hexp
      exact .inl ⟨hwent, hit.complete hr hseen hexp⟩
    · exact .inr ⟨hstop, hit.partly hr⟩
  · exact (hit.keeps k r hb).resolve_right (by simp [hexp])

theorem StoreInv.step_contains (hi : StoreInv crc32 now st S h) (key : StoreKey) :
    ∃ out st' S' h' bases, storeStep crc32 now st (.contains key) = .ok (out, st') ∧
      Stepped crc32 now (.contains key) st S out st' S' h' bases := by
  refine ⟨.found (storeMap st key).isSome, giveLock { st with lock := .held }, S, h, [], ?_,
    ⟨⟨hi.toRing.setLock .free, hi.head, hi.part, rfl⟩, by simp [giveLock], fun _ => rfl,
      ⟨rfl, rfl⟩, fun k r _ hb _ _ => hb⟩⟩
  rw [storeStep, bitleStoreContains, if_neg (by simp [hi.part]), takeLock_free hi.lock,
    ← indexFind_isSome]
  rfl

theorem StoreInv.step_reboot (hi : StoreInv crc32 now st S h) :
    ∃ out st' S' h' bases, storeStep crc32 now st .reboot = .ok (out, st') ∧
      Stepped crc32 now .reboot st S out st' S' h' bases := by
  obtain ⟨st', h', heq, hi', her, hbound⟩ := hi.reboot
  refine ⟨.err .ok, st', S, h', [], ?_, ⟨hi', by simp [her], fun _ => rfl,
    ⟨rfl, fun k => storeMap_filter hi.toRing hi'.toRing (hbound k)⟩, fun k r _ hb _ hexp => ?_⟩⟩
  · rw [storeStep, heq]
  · exact (hbound k r).mpr ⟨hb, hexp⟩

/-- **One call.** -/
theorem StoreInv.step (hi : StoreInv crc32 now st S h) (op : StoreOp) :
    ∃ out st' S' h' bases, storeStep crc32 now st op = .ok (out, st') ∧
      Stepped crc32 now op st S out st' S' h' bases := by
  cases op with
  | put key expiryUnixS flags payload => exact hi.step_put key expiryUnixS flags payload
  | delete key => exact hi.step_delete key
  | iterate keep => exact hi.step_iterate keep
  | contains key => exact hi.step_contains key
  | reboot => exact hi.step_reboot

theorem StoreInv.mono {now' : UInt32} (hi : StoreInv crc32 now st S h) (hle : now ≤ now') :
    StoreInv crc32 now' st S h :=
  ⟨hi.toRing.mono hle, hi.head, hi.part, hi.lock⟩

/-- **A run** keeps the invariant, and every record that no call of it refreshes or deletes, that
is not expired at its end and whose sector is not erased. -/
theorem StoreInv.run (hi : StoreInv crc32 now st S h) {ops : List (UInt32 × StoreOp)}
    (hclock : ClockFrom now ops) :
    ∃ st' S' h' bases, storeRun crc32 st ops = .ok st' ∧
      StoreInv crc32 (lastTime now ops) st' S' h' ∧ st'.erased = st.erased ++ bases ∧
      ∀ key r, (∀ x ∈ ops, x.2.touches key = false) → Bound st S key r →
        sectorBase r.off ∉ bases → storeExpired (lastTime now ops) r.expiryUnixS = false →
        Bound st' S' key r := by
  induction ops generalizing now st S h with
  | nil => exact ⟨st, S, h, [], rfl, hi, by simp, fun key r _ hb _ _ => hb⟩
  | cons x ops ih =>
    obtain ⟨t, op⟩ := x
    obtain ⟨hle, hclock⟩ := hclock
    obtain ⟨out, st1, S1, h1, bases1, heq, hs⟩ := (hi.mono hle).step op
    obtain ⟨st', S', h', bases, hrun, hi', her, hkeeps⟩ := ih hs.inv hclock
    refine ⟨st', S', h', bases1 ++ bases, ?_, hi', ?_, fun key r ht hb hbase hexp => ?_⟩
    · rw [storeRun, heq]
      exact hrun
    · rw [her, hs.erased, List.append_assoc]
    · rw [List.mem_append, not_or] at hbase
      have hexp1 : storeExpired t r.expiryUnixS = false := by
        refine Bool.eq_false_iff.mpr fun he => ?_
        have he' := storeExpired_mono (le_lastTime hclock) he
        rw [lastTime] at hexp
        simp [hexp] at he'
      refine hkeeps key r (fun y hy => ht y (List.mem_cons_of_mem _ hy)) ?_ hbase.2 hexp
      exact hs.keeps key r (ht _ List.mem_cons_self) hb hbase.1 hexp1

end Refine

/-- **The store is a finite map.** Along every run of calls and reboots from an erased partition
with a clock that does not go back, on a flash without faults, every call returns and does to
the map what `MapStep` says; nothing is lost but what lies in a sector that a `put` erased. -/
theorem store_refines_map (crc32 : UInt32 → List UInt8 → UInt32) (t : UInt32)
    (ops : List (UInt32 × StoreOp)) (now : UInt32) (op : StoreOp)
    (hclock : ClockFrom t (ops ++ [(now, op)])) :
    ∃ st0 st out st' bases,
      bitleStoreInit .good crc32 t (powerOn blankFlash []) = (.ok, st0) ∧
      (∀ key, storeMap st0 key = none) ∧
      storeRun crc32 st0 ops = .ok st ∧
      storeStep crc32 now st op = .ok (out, st') ∧
      st'.erased = st.erased ++ bases ∧ (op.isPut = false → bases = []) ∧
      MapStep now (storeMap st) (storeMap st') (fun k => ∃ b ∈ bases, storeBase st k = some b)
        op out ∧
      {key | (storeMap st' key).isSome = true}.Finite := by
  obtain ⟨hclock, hlast, -⟩ := clockFrom_append.mp hclock
  obtain ⟨st0, S0, h0, hboot, hi0, hempty⟩ := storeInv_firstBoot crc32 t
  obtain ⟨st, S, h, -, hrun, hi, -⟩ := hi0.run hclock
  obtain ⟨out, st', S', h', bases, hstep, hs⟩ := (hi.mono hlast).step op
  exact ⟨st0, st, out, st', bases, hboot, fun key => hi0.storeMap_eq_none (hempty key), hrun, hstep,
    hs.erased, hs.only_put, hs.map, finite_storeMap st'⟩

/-- A run that refreshes a key, reboots and iterates. -/
theorem store_refines_map_refresh :
    ∃ st0 st out st' bases,
      bitleStoreInit .good espCrc32Le 1 (powerOn blankFlash []) = (.ok, st0) ∧
      (∀ key, storeMap st0 key = none) ∧
      storeRun espCrc32Le st0 [(1, .put (zeros 16) 50 2 [1, 2]), (2, .put (zeros 16) 60 1 [3]),
        (3, .reboot)] = .ok st ∧
      storeStep espCrc32Le 4 st (.iterate fun _ => true) = .ok (out, st') ∧
      st'.erased = st.erased ++ bases ∧ (StoreOp.isPut (.iterate fun _ => true) = false → bases = []) ∧
      MapStep 4 (storeMap st) (storeMap st') (fun k => ∃ b ∈ bases, storeBase st k = some b)
        (.iterate fun _ => true) out ∧
      {key | (storeMap st' key).isSome = true}.Finite :=
  store_refines_map espCrc32Le 1 [(1, .put (zeros 16) 50 2 [1, 2]), (2, .put (zeros 16) 60 1 [3]),
    (3, .reboot)] 4 (.iterate fun _ => true) (by decide)

/-- A record that expires at time 5 is bound at time 1; iterating at time 10 unbinds it, though
nothing was deleted, refreshed, erased or rebooted. -/
theorem iterate_drops_expired :
    (do
      let st0 := (bitleStoreInit .good espCrc32Le 1 (powerOn blankFlash [])).2
      let st ← storeRun espCrc32Le st0 [(1, .put (zeros 16) 5 0 [7])]
      let (_, st') ← storeStep espCrc32Le 10 st (.iterate fun _ => true)
      return (storeMap st (zeros 16), storeMap st' (zeros 16), st'.erased == st.erased) :
        Except StoreFault (Option StoreValue × Option StoreValue × Bool)).toOption =
      some (some ⟨5, 0, [7]⟩, none, true) := by
  decide +kernel

end Bitle
