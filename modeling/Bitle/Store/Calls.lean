import Bitle.Store.Map

/-!
# Bitle — the calls of the mailbox, as its users see them

A walk whose callback never stops it is a fold over the records it shows (`shownRecords`,
`bitleStoreIterate_foldlM`); this holds for every outcome of the flash calls. On a flash without
faults the calls are given by what they do to the map of the store (`StoreGood.put` and so on).
-/

namespace Bitle

open Wire Flash Slots

/-- A take that is not the holder's second one fails or gets the mutex. -/
theorem takeLock_cases {st : StoreState} (h : st.lock ≠ .held) :
    takeLock st = .error .nullLock ∨ takeLock st = .ok { st with lock := .held } := by
  unfold takeLock
  cases hl : st.lock with
  | absent => exact .inl rfl
  | free => exact .inr rfl
  | held => exact absurd hl h

/-! ## A walk is a fold -/

section Walk

variable {σ : Type} (env : FlashEnv) (now : UInt32) (cb : StoreIterCb σ)
  {f : σ → StoreKey × StoreValue → Except StoreFault σ}

/-- What a walk of the store shows if nothing stops it. -/
def shownRecords (env : FlashEnv) (now : UInt32) (st : StoreState) : List (StoreKey × StoreValue) :=
  match bitleStoreIterate env now (collect fun _ => true) st [] with
  | .ok (_, seen) => seen
  | .error _ => []

/-- **A walk is a fold over what it shows**, when its callback never stops it and finds out
nothing about the store but that its mutex is held. -/
theorem iterateLoop_foldlM
    (hcb : ∀ st key expiryUnixS flags payload s, st.part = true → st.lock = .held →
      cb st key expiryUnixS flags payload s =
        (f s (key, ⟨expiryUnixS, flags, payload⟩)).map fun s => (true, s))
    (n i : Nat) {st : StoreState} (hpart : st.part = true) (hlock : st.lock = .held)
    (seen : List (StoreKey × StoreValue)) :
    ∃ st' shown,
      iterateLoop env now (collect fun _ => true) n i st seen = .ok (st', seen ++ shown) ∧
      ∀ s, iterateLoop env now cb n i st s = (shown.foldlM f s).map fun s => (st', s) := by
  induction n generalizing i st seen with
  | zero => exact ⟨st, [], by simp [iterateLoop], fun s => rfl⟩
  | succ n ih =>
    cases he : st.index[i]? with
    | none =>
      refine ⟨st, [], by simp [iterateLoop, he], fun s => ?_⟩
      simp only [iterateLoop, he]
      rfl
    | some e =>
      by_cases hx : storeExpired now e.expiryUnixS = true
      · have hpart' : (indexRemoveAt (tombstoneAt env st e.offset) i).part = true := hpart
        obtain ⟨st', shown, heq, hf⟩ := ih i hpart' hlock seen
        refine ⟨st', shown, ?_, fun s => ?_⟩
        · simp only [iterateLoop, he, hx, if_true, heq]
        · simp only [iterateLoop, he, hx, if_true, hf]
      · -- the callback sees neither an expired record nor one that does not read back
        cases hr : readRecord env st.mem e.offset with
        | none =>
          have hpart' : (indexRemoveAt st i).part = true := hpart
          obtain ⟨st', shown, heq, hf⟩ := ih i hpart' hlock seen
          refine ⟨st', shown, ?_, fun s => ?_⟩
          · simp only [iterateLoop, he, hx, hr, heq]
            rfl
          · simp only [iterateLoop, he, hx, hr, hf]
            rfl
        | some x =>
          obtain ⟨hdr, payload⟩ := x
          obtain ⟨st', shown, heq, hf⟩ := ih (i + 1) hpart hlock
            (seen ++ [(e.key, ⟨hdr.expiryUnixS, hdr.flags, payload⟩)])
          refine ⟨st', (e.key, ⟨hdr.expiryUnixS, hdr.flags, payload⟩) :: shown, ?_, fun s => ?_⟩
          · rw [List.append_cons, ← heq]
            simp only [iterateLoop, he, hx, hr]
            rfl
          · rw [List.foldlM_cons]
            simp only [iterateLoop, he, hx, hr, hcb st _ _ _ _ s hpart hlock]
            cases f s (e.key, ⟨hdr.expiryUnixS, hdr.flags, payload⟩) with
            | error e => rfl
            | ok s' => exact hf s'

/-- `bitle_store_iterate`, from a state in which nobody holds the mutex: it has no mutex to
take, or it folds over what it shows. -/
theorem bitleStoreIterate_foldlM
    (hcb : ∀ st key expiryUnixS flags payload s, st.part = true → st.lock = .held →
      cb st key expiryUnixS flags payload s =
        (f s (key, ⟨expiryUnixS, flags, payload⟩)).map fun s => (true, s))
    {st : StoreState} (h : st.lock ≠ .held) (s : σ) :
    (bitleStoreIterate env now (collect fun _ => true) st [] = .error .nullLock ∧
      bitleStoreIterate env now cb st s = .error .nullLock) ∨
      ∃ st', st'.lock ≠ .held ∧
        bitleStoreIterate env now (collect fun _ => true) st [] =
          .ok (st', shownRecords env now st) ∧
        bitleStoreIterate env now cb st s =
          ((shownRecords env now st).foldlM f s).map fun s => (st', s) := by
  by_cases hpart : st.part = true
  · rcases takeLock_cases h with hl | hl
    · left
      simp [bitleStoreIterate, hpart, hl, bind, Except.bind]
    · right
      have hpart' : { st with lock := .held }.part = true := hpart
      obtain ⟨st', shown, heq, hf⟩ :=
        iterateLoop_foldlM env now cb hcb st.index.length 0 hpart' rfl []
      have hcollect : bitleStoreIterate env now (collect fun _ => true) st [] =
          .ok (giveLock st', shown) := by
        unfold bitleStoreIterate
        rw [if_neg (by simp [hpart]), hl]
        simp only [bind, Except.bind, heq]
        rfl
      have hshown : shownRecords env now st = shown := by rw [shownRecords, hcollect]
      refine ⟨giveLock st', by simp [giveLock], hshown ▸ hcollect, ?_⟩
      unfold bitleStoreIterate
      rw [hshown, if_neg (by simp [hpart]), hl]
      simp only [bind, Except.bind, hf s]
      cases shown.foldlM f s with
      | error e => rfl
      | ok s' => rfl
  · right
    have hcollect : bitleStoreIterate env now (collect fun _ => true) st [] = .ok (st, []) := by
      simp [bitleStoreIterate, hpart, pure, Except.pure]
    have hshown : shownRecords env now st = [] := by rw [shownRecords, hcollect]
    refine ⟨st, h, hshown ▸ hcollect, ?_⟩
    rw [hshown]
    simp [bitleStoreIterate, hpart, pure, Except.pure, Except.map]

theorem shownRecords_nil {store : StoreState} (env : FlashEnv) (now : UInt32)
    (h : store.index = []) : shownRecords env now store = [] := by
  unfold shownRecords bitleStoreIterate
  by_cases hpart : store.part = true
  · rw [if_neg (by simp [hpart])]
    cases hl : takeLock store with
    | error e => rfl
    | ok store' =>
      have hidx : store'.index = [] := by
        unfold takeLock at hl
        split at hl <;> cases hl
        exact h
      simp [bind, Except.bind, hidx, iterateLoop, pure, Except.pure]
  · rw [if_pos (by simp [hpart])]
    rfl

end Walk

/-! ## A walk whose callback does not return -/

/-- `cb`, in a walk that ends where a call of it does not return: the context is the one it was
called with, and the flag says that it was called. -/
def untilFault {σ : Type} (cb : StoreIterCb σ) : StoreIterCb (σ × Bool) :=
  fun st key expiryUnixS flags payload s =>
    match cb st key expiryUnixS flags payload s.1 with
    | .ok (keepGoing, s') => .ok (keepGoing, s', false)
    | .error _ => .ok (false, s.1, true)

section UntilFault

variable {σ : Type} {env : FlashEnv} {now : UInt32} {cb : StoreIterCb σ}
  {f : σ → StoreKey × StoreValue → Except StoreFault σ}

variable (env now cb) in
/-- The two walks go together until a call does not return, by induction on the entries left. -/
theorem iterateLoop_untilFault (n i : Nat) (st : StoreState) (s : σ) :
    (∃ st' s', iterateLoop env now cb n i st s = .ok (st', s') ∧
      iterateLoop env now (untilFault cb) n i st (s, false) = .ok (st', s', false)) ∨
    ∃ e st' s', iterateLoop env now cb n i st s = .error e ∧
      iterateLoop env now (untilFault cb) n i st (s, false) = .ok (st', s', true) := by
  induction n generalizing i st s with
  | zero => exact .inl ⟨st, s, rfl, rfl⟩
  | succ n ih =>
    rw [iterateLoop, iterateLoop]
    cases he : st.index[i]? with
    | none => exact .inl ⟨st, s, rfl, rfl⟩
    | some e =>
      dsimp only
      by_cases hx : storeExpired now e.expiryUnixS = true
      · rw [if_pos hx, if_pos hx]
        exact ih i _ s
      · rw [if_neg hx, if_neg hx]
        cases hr : readRecord env st.mem e.offset with
        | none => exact ih i _ s
        | some x =>
          obtain ⟨hdr, payload⟩ := x
          dsimp only [untilFault]
          cases hcb : cb st e.key hdr.expiryUnixS hdr.flags payload s with
          | error e' => exact .inr ⟨e', st, s, rfl, rfl⟩
          | ok r =>
            obtain ⟨keepGoing, s1⟩ := r
            cases keepGoing with
            | false => exact .inl ⟨st, s1, rfl, rfl⟩
            | true => exact ih (i + 1) st s1

variable (env now cb) in
theorem bitleStoreIterate_untilFault (st : StoreState) (s : σ) :
    (∃ st' s', bitleStoreIterate env now cb st s = .ok (st', s') ∧
      bitleStoreIterate env now (untilFault cb) st (s, false) = .ok (st', s', false)) ∨
    ∃ e, bitleStoreIterate env now cb st s = .error e ∧
      ∀ st' r, bitleStoreIterate env now (untilFault cb) st (s, false) = .ok (st', r) →
        r.2 = true := by
  unfold bitleStoreIterate
  by_cases hpart : st.part = true
  · rw [if_neg (by simp [hpart]), if_neg (by simp [hpart])]
    cases hl : takeLock st with
    | error e => exact .inr ⟨e, rfl, nofun⟩
    | ok st1 =>
      simp only [bind, Except.bind]
      rcases iterateLoop_untilFault env now cb st1.index.length 0 st1 s with
        ⟨st', s', hcb, huntil⟩ | ⟨e, st', s', hcb, huntil⟩
      · rw [hcb, huntil]
        exact .inl ⟨giveLock st', s', rfl, rfl⟩
      · rw [hcb, huntil]
        refine .inr ⟨e, rfl, fun st2 r hr => ?_⟩
        cases hr
        rfl
  · rw [if_pos (by simp [hpart]), if_pos (by simp [hpart])]
    exact .inl ⟨st, s, rfl, rfl⟩

/-- What such a walk leaves after showing `seen`: all of it was handled, or all but the last. -/
def Walked (f : σ → StoreKey × StoreValue → Except StoreFault σ) (s : σ)
    (seen : List (StoreKey × StoreValue)) (r : σ × Bool) : Prop :=
  (r.2 = false ∧ seen.foldlM f s = .ok r.1) ∨
    (r.2 = true ∧ ∃ before x e, seen = before ++ [x] ∧ before.foldlM f s = .ok r.1 ∧
      f r.1 x = .error e)

variable (env now) in
/-- The walk is the one that collects until `f` fails. -/
theorem iterateLoop_walked
    (hcb : ∀ st key expiryUnixS flags payload s, st.part = true → st.lock = .held →
      cb st key expiryUnixS flags payload s =
        (f s (key, ⟨expiryUnixS, flags, payload⟩)).map fun s => (true, s)) (s0 : σ)
    (n i : Nat) {st : StoreState} (hpart : st.part = true) (hlock : st.lock = .held)
    {seen : List (StoreKey × StoreValue)} {s : σ} (hs : seen.foldlM f s0 = .ok s) :
    ∃ st' seen' r,
      iterateLoop env now (collect fun l => (l.foldlM f s0).toBool) n i st seen =
        .ok (st', seen') ∧
      iterateLoop env now (untilFault cb) n i st (s, false) = .ok (st', r) ∧
      Walked f s0 seen' r := by
  induction n generalizing i st seen s with
  | zero => exact ⟨st, seen, (s, false), rfl, rfl, .inl ⟨rfl, hs⟩⟩
  | succ n ih =>
    rw [iterateLoop, iterateLoop]
    cases he : st.index[i]? with
    | none => exact ⟨st, seen, (s, false), rfl, rfl, .inl ⟨rfl, hs⟩⟩
    | some e =>
      dsimp only
      by_cases hx : storeExpired now e.expiryUnixS = true
      · have hpart' : (indexRemoveAt (tombstoneAt env st e.offset) i).part = true := hpart
        rw [if_pos hx, if_pos hx]
        exact ih i hpart' hlock hs
      · rw [if_neg hx, if_neg hx]
        cases hr : readRecord env st.mem e.offset with
        | none =>
          have hpart' : (indexRemoveAt st i).part = true := hpart
          exact ih i hpart' hlock hs
        | some x =>
          obtain ⟨hdr, payload⟩ := x
          generalize hxs : ((e.key, ⟨hdr.expiryUnixS, hdr.flags, payload⟩) :
            StoreKey × StoreValue) = x
          -- the collecting walk stops where the fold fails, and so does the other one
          have hfold : (seen ++ [x]).foldlM f s0 = f s x := by
            rw [List.foldlM_append, hs]
            exact bind_pure (f s x)
          dsimp only [untilFault, collect]
          rw [hcb st _ _ _ _ s hpart hlock, hxs, hfold]
          cases hf : f s x with
          | ok s1 =>
            rw [hf] at hfold
            exact ih (i + 1) hpart hlock hfold
          | error e' =>
            exact ⟨st, seen ++ [x], (s, true), rfl, rfl,
              .inr ⟨rfl, seen, x, e', rfl, hs, hf⟩⟩

end UntilFault

/-! ## The calls through the map -/

/-- The invariant holds between two calls, for some picture of what is on flash. -/
def StoreGood (crc32 : UInt32 → List UInt8 → UInt32) (now : UInt32) (st : StoreState) : Prop :=
  ∃ S h, StoreInv crc32 now st S h

section Good

variable {crc32 : UInt32 → List UInt8 → UInt32} {now t : UInt32} {st : StoreState}

theorem StoreGood.lock (hg : StoreGood crc32 now st) : st.lock ≠ .held := by
  obtain ⟨S, h, hi⟩ := hg
  rw [hi.lock]
  decide

theorem bitleStoreCount_eq_zero : bitleStoreCount st = 0 ↔ ∀ key, storeMap st key = none := by
  constructor
  · intro hc key
    rw [storeMap, storeEntry, List.length_eq_zero_iff.mp hc]
    rfl
  · intro hm
    refine List.length_eq_zero_iff.mpr (List.eq_nil_iff_forall_not_mem.mpr fun e he => ?_)
    have hnone := hm e.key
    rw [storeMap, Option.map_eq_none_iff] at hnone
    exact storeEntry_eq_none.mp hnone e he rfl

/-- **Put**: the key is bound; another one keeps its value unless its sector is erased. -/
theorem StoreGood.put (hg : StoreGood crc32 now st) (key : StoreKey) (expiryUnixS : UInt32)
    (flags : UInt8) {payload : List UInt8} (h1 : 1 ≤ payload.length)
    (h2 : payload.length ≤ bitleStorePayloadMax) :
    ∃ st' bases, bitleStorePut .good crc32 st key expiryUnixS flags payload = .ok (.ok, st') ∧
      StoreGood crc32 now st' ∧ st'.erased = st.erased ++ bases ∧
      storeMap st' key = some ⟨expiryUnixS, flags, payload⟩ ∧
      ∀ k, k ≠ key → storeMap st' k = storeMap st k ∨ (bases ≠ [] ∧ storeMap st' k = none) := by
  obtain ⟨S, h, hi⟩ := hg
  obtain ⟨out, st', S', h', bases, heq, hs⟩ := hi.step_put key expiryUnixS flags payload
  obtain ⟨rfl, hkey, hother⟩ := hs.map.1 ⟨h1, h2⟩
  refine ⟨st', bases, ?_, ⟨S', h', hs.inv⟩, hs.erased, hkey, fun k hk => ?_⟩
  · rw [storeStep] at heq
    cases hp : bitleStorePut .good crc32 st key expiryUnixS flags payload with
    | error e =>
      rw [hp] at heq
      cases heq
    | ok x =>
      rw [hp] at heq
      obtain ⟨err, st1⟩ := x
      cases heq
      rfl
  · by_cases hlost : ∃ b ∈ bases, storeBase st k = some b
    · obtain ⟨b, hb, -⟩ := id hlost
      exact .inr ⟨List.ne_nil_of_mem hb, (hother k hk).1 hlost⟩
    · exact .inl ((hother k hk).2 hlost)

theorem StoreGood.delete (hg : StoreGood crc32 now st) (key : StoreKey) :
    ∃ st', bitleStoreDelete .good st key = .ok st' ∧ StoreGood crc32 now st' ∧
      st'.erased = st.erased ∧ storeMap st' key = none ∧
      ∀ k, k ≠ key → storeMap st' k = storeMap st k := by
  obtain ⟨S, h, hi⟩ := hg
  obtain ⟨st', S', heq, hi', her, hbound⟩ := hi.delete key
  refine ⟨st', heq, ⟨S', h, hi'⟩, her, ?_, fun k hk => ?_⟩
  · exact hi'.storeMap_eq_none fun r hr => ((hbound key r).mp hr).2 rfl
  · refine storeMap_congr hi.toRing hi'.toRing fun r => ?_
    rw [hbound]
    exact ⟨And.left, fun hr => ⟨hr, hk⟩⟩

theorem StoreGood.contains_eq (hg : StoreGood crc32 now st) (key : StoreKey) :
    bitleStoreContains st key = .ok ((storeMap st key).isSome, st) := by
  obtain ⟨S, h, hi⟩ := hg
  have hgive : giveLock { st with lock := .held } = st := by
    rw [giveLock, ← hi.lock]
  rw [bitleStoreContains, if_neg (by simp [hi.part]), takeLock_free hi.lock, ← indexFind_isSome]
  show Except.ok ((indexFind st.index key).isSome, giveLock { st with lock := .held }) = _
  rw [hgive]

theorem StoreGood.contains (hg : StoreGood crc32 now st) (key : StoreKey) :
    ∃ st', bitleStoreContains st key = .ok ((storeMap st key).isSome, st') ∧
      StoreGood crc32 now st' ∧ st'.erased = st.erased ∧ storeMap st' = storeMap st :=
  ⟨st, hg.contains_eq key, hg, rfl, rfl⟩

/-- **A walk that is not stopped** shows each binding that is not expired once, and unbinds the
others. -/
theorem StoreGood.iterate (hg : StoreGood crc32 t st) (now : UInt32) :
    ∃ st', bitleStoreIterate .good now (collect fun _ => true) st [] =
        .ok (st', shownRecords .good now st) ∧
      StoreGood crc32 t st' ∧ st'.erased = st.erased ∧
      (∀ k, storeMap st' k = (storeMap st k).filter (StoreValue.fresh now)) ∧
      ((shownRecords .good now st).map Prod.fst).Nodup ∧
      ∀ k v, (k, v) ∈ shownRecords .good now st ↔ storeMap st k = some v ∧ v.fresh now = true := by
  obtain ⟨S, h, hi⟩ := hg
  obtain ⟨st', S', seen, heq, hi', hit⟩ := hi.iterate now fun _ => true
  have hshown : shownRecords .good now st = seen := by rw [shownRecords, heq]
  obtain ⟨n, hseen, hexp, ⟨rfl, -⟩ | ⟨before, x, -, hstop, -⟩⟩ := hit.shown
  · rw [List.take_length] at hseen hexp
    obtain ⟨hall, hmap⟩ := hit.complete hi.toRing hseen hexp
    refine ⟨st', hshown ▸ heq, ⟨S', h, hi'⟩, hit.erased, hmap, ?_, fun k v => ?_⟩
    · rw [hshown, hseen, List.map_map]
      exact hi'.indexed.nodup
    · rw [hshown]
      exact ⟨fun hmem => hit.shown_bound hi.toRing hmem, fun hm => hall k v hm.1 hm.2⟩
  · simp at hstop

/-- A fold over what it shows, for any callback that does not stop it. -/
theorem StoreGood.iterate_foldlM {σ : Type} (hg : StoreGood crc32 t st) (now : UInt32)
    (cb : StoreIterCb σ)
    {f : σ → StoreKey × StoreValue → Except StoreFault σ}
    (hcb : ∀ st key expiryUnixS flags payload s, st.part = true → st.lock = .held →
      cb st key expiryUnixS flags payload s =
        (f s (key, ⟨expiryUnixS, flags, payload⟩)).map fun s => (true, s)) (s : σ) :
    ∃ st', StoreGood crc32 t st' ∧ st'.erased = st.erased ∧
      (∀ k, storeMap st' k = (storeMap st k).filter (StoreValue.fresh now)) ∧
      bitleStoreIterate .good now cb st s =
        ((shownRecords .good now st).foldlM f s).map fun s => (st', s) := by
  obtain ⟨st', heq, hg', her, hmap, -⟩ := hg.iterate now
  rcases bitleStoreIterate_foldlM .good now cb hcb hg.lock s with
    ⟨hnull, -⟩ | ⟨st'', -, hcollect, hfold⟩
  · rw [hnull] at heq
    cases heq
  · rw [hcollect, Except.ok.injEq, Prod.mk.injEq] at heq
    obtain ⟨rfl, -⟩ := heq
    exact ⟨st'', hg', her, hmap, hfold⟩

/-- A walk that ends where its callback does not return leaves a store that is good again once the
mutex is back, and nothing in it that was not there. -/
theorem StoreGood.walked {σ : Type} (hg : StoreGood crc32 t st) (now : UInt32)
    {cb : StoreIterCb σ} {f : σ → StoreKey × StoreValue → Except StoreFault σ}
    (hcb : ∀ st key expiryUnixS flags payload s, st.part = true → st.lock = .held →
      cb st key expiryUnixS flags payload s =
        (f s (key, ⟨expiryUnixS, flags, payload⟩)).map fun s => (true, s)) (s : σ) :
    ∃ st' seen r, bitleStoreIterate .good now (untilFault cb) st (s, false) = .ok (st', r) ∧
      Walked f s seen r ∧ StoreGood crc32 t st' ∧ st'.erased = st.erased ∧
      ∀ k v, storeMap st' k = some v → storeMap st k = some v := by
  obtain ⟨S, h, hi⟩ := hg
  obtain ⟨st', S', seen, heq, hi', hit⟩ := hi.iterate now fun l => (l.foldlM f s).toBool
  have hlock := takeLock_free hi.lock
  have hpart : { st with lock := .held }.part = true := hi.part
  have hnone : ([] : List (StoreKey × StoreValue)).foldlM f s = .ok s := rfl
  obtain ⟨st1, seen1, r, hcollect, huntil, hwalked⟩ :=
    iterateLoop_walked .good now hcb s st.index.length 0 hpart rfl hnone
  have hst : bitleStoreIterate .good now (collect fun l => (l.foldlM f s).toBool) st [] =
      .ok (giveLock st1, seen1) := by
    unfold bitleStoreIterate
    rw [if_neg (by simp [hi.part]), hlock]
    simp only [bind, Except.bind, hcollect]
    rfl
  rw [hst, Except.ok.injEq, Prod.mk.injEq] at heq
  obtain ⟨rfl, rfl⟩ := heq
  refine ⟨giveLock st1, seen1, r, ?_, hwalked, ⟨S', h, hi'⟩, hit.erased, fun k v hk => ?_⟩
  · unfold bitleStoreIterate
    rw [if_neg (by simp [hi.part]), hlock]
    simp only [bind, Except.bind, huntil]
    rfl
  · rcases hit.partly hi.toRing k with hsame | ⟨hnone, -⟩
    · rwa [hsame] at hk
    · rw [hnone] at hk
      cases hk

end Good

/-! ## A mailbox without expired records -/

/-- The records that are indexed, with their values. -/
def bindings (st : StoreState) : List (StoreKey × StoreValue) := st.index.map (entryView st.mem)

/-- A walk that shows a list of records. -/
def walkList {σ : Type} (cb : StoreIterCb σ) (st : StoreState) :
    List (StoreKey × StoreValue) → σ → Except StoreFault σ
  | [], s => .ok s
  | x :: l, s => do
    let (keepGoing, s) ← cb st x.1 x.2.expiryUnixS x.2.flags x.2.payload s
    if keepGoing then walkList cb st l s else return s

section WalkList

variable {σ : Type} {cb : StoreIterCb σ} {f : σ → StoreKey × StoreValue → Except StoreFault σ}
  {st : StoreState}

/-- A callback that goes on folds. -/
theorem walkList_foldlM
    (hcb : ∀ key expiryUnixS flags payload s, cb st key expiryUnixS flags payload s =
      (f s (key, ⟨expiryUnixS, flags, payload⟩)).map fun s => (true, s))
    (l : List (StoreKey × StoreValue)) (s : σ) : walkList cb st l s = l.foldlM f s := by
  induction l generalizing s with
  | nil => rfl
  | cons x l ih =>
    rw [walkList, List.foldlM_cons, hcb]
    cases f s x with
    | error e => rfl
    | ok s' => exact ih s'

/-- Where a call does not return, the walk has handled the records before. -/
theorem walkList_untilFault
    (hcb : ∀ key expiryUnixS flags payload s, cb st key expiryUnixS flags payload s =
      (f s (key, ⟨expiryUnixS, flags, payload⟩)).map fun s => (true, s))
    {before after : List (StoreKey × StoreValue)} {x : StoreKey × StoreValue} {s s' : σ}
    {b : Bool} {e : StoreFault} (hbefore : before.foldlM f s = .ok s')
    (hx : f s' x = .error e) :
    walkList (untilFault cb) st (before ++ x :: after) (s, b) = .ok (s', true) := by
  induction before generalizing s b with
  | nil =>
    cases hbefore
    rw [List.nil_append, walkList]
    dsimp only [untilFault]
    rw [hcb, hx]
    rfl
  | cons y before ih =>
    rw [List.foldlM_cons] at hbefore
    rw [List.cons_append, walkList]
    dsimp only [untilFault]
    rw [hcb]
    cases hy : f s y with
    | error e =>
      rw [hy] at hbefore
      cases hbefore
    | ok s1 =>
      rw [hy] at hbefore
      exact ih hbefore

end WalkList

section Fresh

variable {crc32 : UInt32 → List UInt8 → UInt32} {now t : UInt32} {st : StoreState}

theorem StoreGood.bindings_nodup (hg : StoreGood crc32 t st) :
    ((bindings st).map Prod.fst).Nodup := by
  obtain ⟨S, h, hi⟩ := hg
  rw [bindings, List.map_map]
  exact hi.indexed.nodup

theorem StoreGood.mem_bindings (hg : StoreGood crc32 t st) {k : StoreKey} {v : StoreValue} :
    (k, v) ∈ bindings st ↔ storeMap st k = some v := by
  obtain ⟨S, h, hi⟩ := hg
  constructor
  · intro hmem
    obtain ⟨e, he, heq⟩ := List.mem_map.mp hmem
    rw [entryView, Prod.mk.injEq] at heq
    obtain ⟨rfl, rfl⟩ := heq
    obtain ⟨r, hr, -⟩ := hi.indexed.bound he
    rw [hi.storeMap_of_bound hr, hi.entryValue_of_mem he hr]
  · intro hmap
    rw [storeMap, Option.map_eq_some_iff] at hmap
    obtain ⟨e, he, rfl⟩ := hmap
    obtain ⟨hmem, rfl⟩ := storeEntry_spec he
    exact List.mem_map_of_mem hmem

theorem length_bindings (st : StoreState) : (bindings st).length = bitleStoreCount st :=
  List.length_map _

/-- The loop, by induction on the entries left: each of them is read and shown. -/
theorem Ring.iterateLoop_fresh {σ : Type} {S : Nat → Option LogSector} {h : Nat}
    (hr : Ring crc32 t st S h) (cb : StoreIterCb σ)
    (hfresh : ∀ x ∈ bindings st, x.2.fresh now = true) (n i : Nat)
    (hn : i + n = st.index.length) (s : σ) :
    iterateLoop .good now cb n i st s =
      (walkList cb st ((bindings st).drop i) s).map fun s => (st, s) := by
  induction n generalizing i s with
  | zero =>
    have hdone : (bindings st).drop i = [] := by
      rw [List.drop_eq_nil_iff, bindings, List.length_map]
      omega
    rw [hdone]
    rfl
  | succ n ih =>
    have hi : i < st.index.length := by omega
    have hmem := List.getElem_mem hi
    obtain ⟨r, hbound, hexp, hread⟩ := hr.readRecord_eq hmem
    have hview : entryView st.mem st.index[i] = (st.index[i].key, r.value) := by
      rw [entryView, hr.entryValue_of_mem hmem hbound]
    -- no record is expired, so the index is not changed under the walk
    have hlive : storeExpired now st.index[i].expiryUnixS = false := by
      have hf := hfresh _ (List.mem_map_of_mem hmem)
      rw [hview, StoreValue.fresh, LogRecord.value, hexp, Bool.not_eq_true'] at hf
      exact hf
    have hlen : i < (bindings st).length := by
      rw [bindings, List.length_map]
      exact hi
    have hget : (bindings st)[i] = (st.index[i].key, r.value) := by
      rw [← hview]
      exact List.getElem_map _
    rw [iterateLoop, List.getElem?_eq_getElem hi, List.drop_eq_getElem_cons hlen, hget, walkList]
    dsimp only
    rw [hlive, if_neg (by decide), hread]
    dsimp only [LogRecord.value]
    have hhdr : (r.hdr crc32).expiryUnixS = r.expiryUnixS ∧ (r.hdr crc32).flags = r.flags :=
      ⟨rfl, rfl⟩
    rw [hhdr.1, hhdr.2]
    cases cb st st.index[i].key r.expiryUnixS r.flags r.payload s with
    | error e => rfl
    | ok x =>
      obtain ⟨keepGoing, s1⟩ := x
      cases keepGoing with
      | false => rfl
      | true => exact ih (i + 1) (by omega) s1

/-- **A walk in which nothing is expired** shows the records in the order of the index, and leaves
the store as it is. -/
theorem StoreGood.walk_fresh {σ : Type} (hg : StoreGood crc32 t st) (cb : StoreIterCb σ)
    (hfresh : ∀ x ∈ bindings st, x.2.fresh now = true) (s : σ) :
    bitleStoreIterate .good now cb st s =
      (walkList cb { st with lock := .held } (bindings st) s).map fun s => (st, s) := by
  obtain ⟨S, h, hi⟩ := hg
  have hgive : giveLock { st with lock := .held } = st := by
    rw [giveLock, ← hi.lock]
  unfold bitleStoreIterate
  rw [if_neg (by simp [hi.part]), takeLock_free hi.lock]
  have hloop := (hi.toRing.setLock .held).iterateLoop_fresh cb hfresh st.index.length 0
    (Nat.zero_add _) s
  rw [List.drop_zero] at hloop
  dsimp only [bind, Except.bind]
  rw [hloop, show bindings { st with lock := .held } = bindings st from rfl]
  cases walkList cb { st with lock := .held } (bindings st) s with
  | error e => rfl
  | ok s' =>
    show Except.ok (giveLock { st with lock := .held }, s') = _
    rw [hgive]
    rfl

/-- Where the record of a put goes that has nothing to make room for: behind the last one, or into
the sector `j` that is opened for it. -/
def StoreState.placed (st : StoreState) (need j : Nat) : StoreState :=
  if fits st.writeOff need then { st with lock := .held }
  else StoreState.opened { st with lock := .held } j

/-- A put, with no older copy and no quota in its way. -/
theorem StoreInv.put_placed {S : Nat → Option LogSector} {h : Nat} (hi : StoreInv crc32 now st S h)
    {key : StoreKey} (expiryUnixS : UInt32) (flags : UInt8) {payload : List UInt8}
    (h1 : 1 ≤ payload.length) (h2 : payload.length ≤ bitleStorePayloadMax)
    (hnew : storeMap st key = none) (hcount : bitleStoreCount st < bitleStoreMaxRecords) :
    let st1 := st.placed (32 + payload.length) ((h + 1) % 96)
    bitleStorePut .good crc32 st key expiryUnixS flags payload =
      .ok (.ok, giveLock (st1.append crc32 (putLogRecord st1 key expiryUnixS flags payload))) := by
  intro st1
  have hfind : indexFind st.index key = none := by
    rw [← Option.not_isSome_iff_eq_none, indexFind_isSome, hnew]
    decide
  have hidle : ¬ st.index.length ≥ bitleStoreMaxRecords := Nat.not_le.mpr hcount
  have hroom : roomLoop .good (32 + payload.length) 3 { st with lock := .held } = .ok (.ok, st1) :=
    (hi.toRing.setLock .held).logRing.room (Nat.add_le_add_left h2 32)
  have hprepare : putPrepare .good { st with lock := .held } key payload.length =
      .ok (.ok, st1) := by
    rw [← hroom, putPrepare, unbindKey]
    dsimp only
    rw [hfind]
    dsimp only
    rw [evictLoop, if_neg hidle]
    rfl
  unfold bitleStorePut
  rw [putRejects_of_valid hi.part h1 h2, takeLock_free hi.lock]
  simp only [Bool.false_eq_true, if_false, bind, Except.bind, pure, Except.pure, hprepare,
    putRecord_good]
  rfl

/-- **A put of a new key** into a mailbox that has nothing to make room for: the record is the last
of the index, and the write offset is behind it, in the same sector if it fits there. -/
theorem StoreGood.put_new (hg : StoreGood crc32 now st) {key : StoreKey} (expiryUnixS : UInt32)
    (flags : UInt8) {payload : List UInt8} (h1 : 1 ≤ payload.length)
    (h2 : payload.length ≤ bitleStorePayloadMax) (hnew : storeMap st key = none)
    (hcount : bitleStoreCount st < bitleStoreMaxRecords)
    (hplace : st.index = [] ∨ fits st.writeOff (32 + payload.length) = true) :
    ∃ st', bitleStorePut .good crc32 st key expiryUnixS flags payload = .ok (.ok, st') ∧
      StoreGood crc32 now st' ∧ bindings st' = bindings st ++ [(key, ⟨expiryUnixS, flags, payload⟩)] ∧
      st'.writeOff % 4096 = ((if fits st.writeOff (32 + payload.length) then st.writeOff % 4096
        else 8) + (32 + payload.length)) % 4096 ∧
      (fits st.writeOff (32 + payload.length) = true → st'.erased = st.erased) := by
  obtain ⟨st', bases, hput, hg', her, hkey, hother⟩ := hg.put key expiryUnixS flags h1 h2
  obtain ⟨S, h, hi⟩ := id hg
  have hexact := hi.put_placed expiryUnixS flags h1 h2 hnew hcount
  dsimp only at hexact
  rw [hput, Except.ok.injEq, Prod.mk.injEq] at hexact
  obtain ⟨-, rfl⟩ := hexact
  generalize hst1 : st.placed (32 + payload.length) ((h + 1) % 96) = st1 at *
  rw [StoreState.placed] at hst1
  -- nothing is swept: the record fits behind the last one, or the index is empty
  have hindex : st1.index = st.index := by
    rcases hplace with hnil | hfits
    · rw [← hst1]
      split
      · rfl
      · rw [StoreState.opened_index, openedIndex]
        split
        · rw [hnil]
          exact (sweepAll_perm _ []).eq_nil
        · rfl
    · rw [← hst1, if_pos hfits]
  have hnone : fits st.writeOff (32 + payload.length) = true → bases = [] := by
    intro hfits
    rw [if_pos hfits] at hst1
    subst hst1
    exact List.self_eq_append_right.mp her
  refine ⟨_, hput, hg', ?_, ?_, fun hfits => ?_⟩
  · -- the records already there read as before, and the new one is the last entry
    have hviews : ∀ e ∈ st.index, entryView (giveLock (st1.append crc32
        (putLogRecord st1 key expiryUnixS flags payload))).mem e = entryView st.mem e := by
      intro e he
      have hbound := hg.mem_bindings.mp (List.mem_map_of_mem he)
      have hne : e.key ≠ key := by
        intro heq
        rw [heq, hnew] at hbound
        cases hbound
      have hfits : fits st.writeOff (32 + payload.length) = true := by
        rcases hplace with hnil | hfits
        · rw [hnil] at he
          cases he
        · exact hfits
      have hin : e ∈ (giveLock (st1.append crc32
          (putLogRecord st1 key expiryUnixS flags payload))).index :=
        List.mem_append_left _ (hindex ▸ he)
      have hbound' := hg'.mem_bindings.mp (List.mem_map_of_mem hin)
      rcases hother e.key hne with hsame | ⟨hbases, -⟩
      · rw [hsame, hbound, Option.some.injEq] at hbound'
        exact Prod.ext rfl hbound'.symm
      · exact absurd (hnone hfits) hbases
    have hentry : ((putLogRecord st1 key expiryUnixS flags payload).entry st1.headSeq) ∈
        (giveLock (st1.append crc32 (putLogRecord st1 key expiryUnixS flags payload))).index :=
      List.mem_append_right _ (List.mem_singleton_self _)
    have hlast := hg'.mem_bindings.mp (List.mem_map_of_mem hentry)
    have hlast' : storeMap (giveLock (st1.append crc32
        (putLogRecord st1 key expiryUnixS flags payload))) key = some _ := hlast
    rw [hkey, Option.some.injEq] at hlast'
    show (st1.index ++ [_]).map _ = _
    rw [List.map_append, List.map_singleton, hindex, List.map_congr_left hviews, hlast']
    rfl
  · have hoff : (giveLock (st1.append crc32
        (putLogRecord st1 key expiryUnixS flags payload))).writeOff =
        st1.writeOff + (32 + payload.length) := rfl
    rw [hoff, ← hst1]
    split
    · exact (Nat.mod_add_mod _ _ _).symm
    · rw [StoreState.opened_writeOff]
      omega
  · rw [her, hnone hfits, List.append_nil]

theorem delete_writeOff {env : FlashEnv} {st' : StoreState} {key : StoreKey}
    (h : bitleStoreDelete env st key = .ok st') : st'.writeOff = st.writeOff := by
  have hunbind : ∀ st : StoreState, (unbindKey env st key).writeOff = st.writeOff := by
    intro st
    unfold unbindKey tombstoneEntry
    split
    · rfl
    · split <;> rfl
  unfold bitleStoreDelete at h
  split at h
  · cases h
    rfl
  · cases hl : takeLock st with
    | error e =>
      rw [hl] at h
      cases h
    | ok st1 =>
      rw [hl] at h
      cases h
      unfold takeLock at hl
      split at hl <;> cases hl
      exact hunbind _

end Fresh

end Bitle
