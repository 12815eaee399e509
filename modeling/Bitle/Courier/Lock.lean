import Bitle.Courier.Courier
import Bitle.Store.Calls

/-!
# Bitle — the courier and the store mutex

`announce_iter` runs inside `bitle_store_iterate`, which holds the mutex of the store. The
comments of the source keep every rewrite out of the callback for that reason. `side_get` is
not kept out: with no slot free it asks `bitle_store_contains` which of its keys have left the
store, and that takes the mutex again.

Here a walk is a fold over the records it shows (`iterateLoop_foldlM`), and each record either
leaves the side table alone or asks it for a slot (`announceEntry_cases`). A verified announce
is safe, whatever becomes of its sends, exactly when the records that will ask and have no slot
yet are at most as many as the slots that are free (`HasRoom`).
-/

namespace Bitle

open Wire Flash Slots

/-! ## Who holds the mutex -/

section Unlocked

variable {env : FlashEnv} {st : StoreState}

/-- The result is not that of a take of a held mutex, and nobody holds it afterwards. -/
def Released {α : Type} (store : α → StoreState) (r : Except StoreFault α) : Prop :=
  r ≠ .error .deadlock ∧ ∀ x, r = .ok x → (store x).lock ≠ .held

theorem released_ok {α : Type} {store : α → StoreState} {x : α} (h : (store x).lock ≠ .held) :
    Released store (.ok x) := by
  refine ⟨by simp, fun y hy => ?_⟩
  rw [Except.ok.injEq] at hy
  exact hy ▸ h

theorem Released.bind {α β : Type} {store : α → StoreState} {store' : β → StoreState}
    {r : Except StoreFault α} {f : α → Except StoreFault β} (h : Released store r)
    (hf : ∀ x, (store x).lock ≠ .held → Released store' (f x)) : Released store' (r >>= f) := by
  cases r with
  | error e =>
    refine ⟨fun hc => h.1 ?_, fun x hx => by cases hx⟩
    cases hc
    rfl
  | ok x => exact hf x (h.2 x rfl)

theorem evictLoop_error {fuel : Nat} {e : StoreFault} (h : evictLoop env fuel st = .error e) :
    e = .spin := by
  induction fuel generalizing st with
  | zero =>
    rw [evictLoop, Except.error.injEq] at h
    exact h.symm
  | succ fuel ih =>
    unfold evictLoop at h
    split at h
    · split at h
      · cases h
      · exact ih h
    · cases h

theorem roomLoop_error {need fuel : Nat} {e : StoreFault}
    (h : roomLoop env need fuel st = .error e) : e = .spin := by
  induction fuel generalizing st with
  | zero =>
    rw [roomLoop, Except.error.injEq] at h
    exact h.symm
  | succ fuel ih =>
    unfold roomLoop at h
    generalize (if st.writeOff ≥ storePartSize then openSector env st 0 else (.ok, st)) = x at h
    dsimp only at h
    split at h
    · cases h
    · split at h
      · cases h
      · exact ih h
      · cases h

theorem putPrepare_error {key : StoreKey} {n : Nat} {e : StoreFault}
    (h : putPrepare env st key n = .error e) : e = .spin := by
  unfold putPrepare at h
  cases hev : evictLoop env (storePartSize / storeSectorSize + 1) (unbindKey env st key) with
  | error e' =>
    rw [hev] at h
    cases h
    exact evictLoop_error hev
  | ok x =>
    obtain ⟨err, st'⟩ := x
    rw [hev] at h
    by_cases herr : err = .ok
    · subst herr
      exact roomLoop_error h
    · simp only [bind, Except.bind, ne_eq, herr, not_false_eq_true, if_true, pure, Except.pure,
        reduceCtorEq] at h

/-- `bitle_store_put` gives the mutex back on every path. -/
theorem released_put (h : st.lock ≠ .held) (env : FlashEnv)
    (crc32 : UInt32 → List UInt8 → UInt32) (key : StoreKey) (expiryUnixS : UInt32) (flags : UInt8)
    (payload : List UInt8) :
    Released Prod.snd (bitleStorePut env crc32 st key expiryUnixS flags payload) := by
  unfold bitleStorePut
  split
  · exact released_ok h
  · rcases takeLock_cases h with hl | hl
    · rw [hl]
      exact ⟨by simp [bind, Except.bind], by simp [bind, Except.bind]⟩
    · rw [hl]
      cases hp : putPrepare env { st with lock := .held } key payload.length with
      | error e =>
        have := putPrepare_error hp
        subst this
        exact ⟨by simp [bind, Except.bind, hp], by simp [bind, Except.bind, hp]⟩
      | ok x =>
        obtain ⟨err, st1⟩ := x
        simp only [bind, Except.bind, pure, Except.pure, hp]
        split
        · exact released_ok (by simp [giveLock])
        · exact released_ok (by simp [giveLock])

theorem released_delete (h : st.lock ≠ .held) (env : FlashEnv) (key : StoreKey) :
    Released id (bitleStoreDelete env st key) := by
  unfold bitleStoreDelete
  split
  · exact released_ok h
  · rcases takeLock_cases h with hl | hl
    · rw [hl]
      exact ⟨by simp [bind, Except.bind], by simp [bind, Except.bind]⟩
    · rw [hl]
      exact released_ok (by simp [giveLock])

theorem released_contains (h : st.lock ≠ .held) (key : StoreKey) :
    Released Prod.snd (bitleStoreContains st key) := by
  unfold bitleStoreContains
  split
  · exact released_ok h
  · rcases takeLock_cases h with hl | hl
    · rw [hl]
      exact ⟨by simp [bind, Except.bind], by simp [bind, Except.bind]⟩
    · rw [hl]
      exact released_ok (by simp [giveLock])

theorem openSector_lock (env : FlashEnv) (st : StoreState) (base : Nat) :
    (openSector env st base).2.lock = st.lock := by
  unfold openSector
  dsimp only
  repeat' split
  all_goals rfl

/-- After a boot nobody holds the mutex. -/
theorem init_lock (h : st.lock ≠ .held) (env : FlashEnv) (crc32 : UInt32 → List UInt8 → UInt32)
    (now : UInt32) : (bitleStoreInit env crc32 now st).2.lock ≠ .held := by
  unfold bitleStoreInit
  split
  · exact h
  · split
    · simp
    · dsimp only
      split
      · rw [openSector_lock]
        simp
      · simp

end Unlocked

/-! ## The side table -/

/-- The key a slot is kept for. -/
def SideState.owner (s : SideState) : Option StoreKey := if s.inUse then some s.key else none

/-- Who owns the slots of the table. -/
def SideTable.owners (side : SideTable) : List (Option StoreKey) := side.val.map SideState.owner

section Side

variable {side : SideTable} {key : StoreKey} {i : Nat} {store : StoreState}

theorem SideTable.owners_set (s : SideState) :
    (side.set i s).owners = side.owners.set i s.owner := by
  rw [SideTable.owners, SideTable.set, SideTable.owners, List.map_set]

/-- Writing a slot for the key it is kept for changes no owner. -/
theorem SideTable.owners_set_slot {s : SideState} (h : s.owner = (side.slot i).owner) :
    (side.set i s).owners = side.owners := by
  rw [owners_set]
  by_cases hi : i < side.owners.length
  · have hi' : i < side.val.length := by simpa [owners] using hi
    have hget : side.owners[i] = s.owner := by
      simp [owners, h, slot, List.getElem?_eq_getElem hi']
    rw [← hget, List.set_getElem_self]
  · exact List.set_eq_of_length_le (Nat.le_of_not_lt hi)

/-- A table in which `key` has been given a slot, if it had none. -/
structure Takes (side : SideTable) (key : StoreKey) (side' : SideTable) : Prop where
  owns : owned side'.owners = insert key (owned side.owners)
  old : key ∈ owned side.owners → vacancies side'.owners = vacancies side.owners
  new : key ∉ owned side.owners → vacancies side'.owners + 1 = vacancies side.owners

/-- The search for a slot to reclaim asks the store at once. -/
theorem reclaimSide_held (hpart : store.part = true) (hlock : store.lock = .held)
    (side : SideTable) : reclaimSide store side.val 0 = .error .deadlock := by
  have hcontains : ∀ k, bitleStoreContains store k = .error .deadlock := by
    intro k
    unfold bitleStoreContains
    rw [if_neg (by simp [hpart]), takeLock, hlock]
    rfl
  have hlen := side.property
  cases hside : side.val with
  | nil =>
    rw [hside] at hlen
    cases hlen
  | cons s rest =>
    simp only [reclaimSide, hcontains]
    rfl

/-- **`side_get` while the mutex is held**: it finds or makes a slot for the key, or it takes the
mutex again. -/
theorem sideGet_held (hpart : store.part = true) (hlock : store.lock = .held) (side : SideTable)
    (key : StoreKey) :
    (∃ i side', sideGet store side key true = .ok (some i, side') ∧ Takes side key side') ∨
      (sideGet store side key true = .error .deadlock ∧ key ∉ owned side.owners ∧
        vacancies side.owners = 0) := by
  unfold sideGet
  cases hf : side.val.findIdx? fun s => s.inUse && s.key == key with
  | some i =>
    left
    obtain ⟨hi, hs, -⟩ := List.findIdx?_eq_some_iff_getElem.mp hf
    rw [Bool.and_eq_true, beq_iff_eq] at hs
    have hmem : key ∈ owned side.owners := by
      rw [mem_owned]
      refine List.mem_map.mpr ⟨side.val[i], List.getElem_mem hi, ?_⟩
      rw [SideState.owner, if_pos hs.1, hs.2]
    exact ⟨i, side, rfl, by rw [Finset.insert_eq_of_mem hmem], fun _ => rfl, fun h => absurd hmem h⟩
  -- no slot has the key: a vacant one is taken, and without one the mutex is
  | none =>
    have hnot : key ∉ owned side.owners := by
      rw [mem_owned]
      intro hmem
      obtain ⟨s, hs, ho⟩ := List.mem_map.mp hmem
      have hno := List.findIdx?_eq_none_iff.mp hf s hs
      unfold SideState.owner at ho
      split at ho
      · next hu =>
        rw [Option.some.injEq] at ho
        rw [hu, Bool.true_and, beq_eq_false_iff_ne] at hno
        exact hno ho
      · cases ho
    cases hv : side.val.findIdx? fun s => !s.inUse with
    | some i =>
      left
      obtain ⟨hi, hs, -⟩ := List.findIdx?_eq_some_iff_getElem.mp hv
      have hvac : side.owners[i]? = some none := by
        have hu : side.val[i].inUse = false := by simpa using hs
        simp [SideTable.owners, SideState.owner, List.getElem?_eq_getElem hi, hu]
      refine ⟨i, side.set i { inUse := true, key }, rfl, ?_, fun h => absurd h hnot, fun _ => ?_⟩
      · rw [SideTable.owners_set]
        exact owned_set hvac
      · rw [SideTable.owners_set]
        exact vacancies_set hvac
    | none =>
      right
      refine ⟨?_, hnot, ?_⟩
      · dsimp only
        rw [reclaimSide_held hpart hlock]
        rfl
      · rw [vacancies_eq_zero]
        intro hmem
        obtain ⟨s, hs, ho⟩ := List.mem_map.mp hmem
        have hu := List.findIdx?_eq_none_iff.mp hv s hs
        unfold SideState.owner at ho
        split at ho
        · cases ho
        · next hu' => simp [hu'] at hu

/-- A store whose mutex is held. -/
def heldStore : StoreState := { mem := fun _ => 0, part := true, lock := .held }

theorem sideGet_eq_heldStore (hpart : store.part = true) (hlock : store.lock = .held)
    (side : SideTable) (key : StoreKey) :
    sideGet store side key true = sideGet heldStore side key true := by
  unfold sideGet
  rw [reclaimSide_held hpart hlock, reclaimSide_held rfl rfl]

theorem Takes.congr {side' side'' : SideTable} (h : Takes side key side')
    (ho : side''.owners = side'.owners) : Takes side key side'' :=
  ⟨ho ▸ h.owns, ho ▸ h.old, ho ▸ h.new⟩

end Side

/-! ## One record of the walk -/

/-- The record makes the walk ask for a slot, unless enough others were sprayed already. -/
def wantsSlot (a : Announce) (tags : List (Bytes 16)) (x : StoreKey × StoreValue) : Bool :=
  if x.2.payload.length ≤ courierDepositorLen then false
  else
    match parseEnvelope (x.2.payload.drop courierDepositorLen) with
    | none => false
    | some envelope =>
      if tagMatches envelope tags then !a.isDirect
      else a.isDirect && a.verified && (if x.2.flags ≠ 0 then x.2.flags else 1) > 1 &&
        x.2.payload.take courierDepositorLen != a.peerId.val

/-- `announce_iter` on one record, with the mutex held. -/
def announceEntry (env : CourierEnv) (a : Announce) (tags : List (Bytes 16)) (ctx : AnnounceCtx)
    (x : StoreKey × StoreValue) : Except StoreFault AnnounceCtx :=
  (announceIter env a tags heldStore x.1 x.2.expiryUnixS x.2.flags x.2.payload ctx).map Prod.snd

section Entry

variable {env : CourierEnv} {a : Announce} {tags : List (Bytes 16)} {ctx : AnnounceCtx}

theorem floodRemote_held {store : StoreState} (hpart : store.part = true)
    (hlock : store.lock = .held) (nowMs : UInt64) (key : StoreKey) (envelope : Envelope) :
    floodRemote env nowMs store ctx key envelope =
      floodRemote env nowMs heldStore ctx key envelope := by
  unfold floodRemote
  rw [sideGet_eq_heldStore hpart hlock]

theorem sprayCarrier_held {store : StoreState} (hpart : store.part = true)
    (hlock : store.lock = .held) (peerId : Bytes 8) (key : StoreKey) (expiryS : UInt32)
    (copies : UInt8) (payload : List UInt8) (envelope : Envelope) :
    sprayCarrier env peerId store ctx key expiryS copies payload envelope =
      sprayCarrier env peerId heldStore ctx key expiryS copies payload envelope := by
  unfold sprayCarrier
  rw [sideGet_eq_heldStore hpart hlock]

theorem announceIter_held {store : StoreState} (hpart : store.part = true)
    (hlock : store.lock = .held) (key : StoreKey) (expiryUnixS : UInt32) (flags : UInt8)
    (payload : List UInt8) :
    announceIter env a tags store key expiryUnixS flags payload ctx =
      (announceEntry env a tags ctx (key, ⟨expiryUnixS, flags, payload⟩)).map
        fun ctx => (true, ctx) := by
  have hgo : ∀ r : Except StoreFault AnnounceCtx,
      (do return (true, ← r) : Except StoreFault (Bool × AnnounceCtx)) =
        ((do return (true, ← r) : Except StoreFault (Bool × AnnounceCtx)).map Prod.snd).map
          fun ctx => (true, ctx) := by
    intro r
    cases r with
    | error e => rfl
    | ok ctx => rfl
  unfold announceEntry announceIter
  simp only [floodRemote_held hpart hlock, sprayCarrier_held hpart hlock]
  generalize (if flags ≠ 0 then flags else 1) = copies
  split
  · rfl
  · split
    · rfl
    · split
      · split
        · rfl
        · exact hgo _
      · split
        · exact hgo _
        · rfl

theorem sendEnvelope_ctx (env : CourierEnv) (ctx : AnnounceCtx) (kind : HandoffKind)
    (key : StoreKey) (envelope : Envelope) (copies : UInt8) :
    (sendEnvelope env ctx kind key envelope copies).2.side = ctx.side ∧
      (sendEnvelope env ctx kind key envelope copies).2.sprayOps = ctx.sprayOps ∧
      (sendEnvelope env ctx kind key envelope copies).2.deliverKeys = ctx.deliverKeys ∧
      ((∀ n, env.sendOk n = false) →
        (sendEnvelope env ctx kind key envelope copies).1 = false) := by
  unfold sendEnvelope
  split
  · exact ⟨rfl, rfl, rfl, fun _ => rfl⟩
  · exact ⟨rfl, rfl, rfl, fun h => h _⟩

theorem deliverMail_ctx (env : CourierEnv) (ctx : AnnounceCtx) (key : StoreKey)
    (envelope : Envelope) :
    (deliverMail env ctx key envelope).side = ctx.side ∧
      (deliverMail env ctx key envelope).sprayOps = ctx.sprayOps := by
  unfold deliverMail
  split
  · obtain ⟨hside, hops, -⟩ := sendEnvelope_ctx env ctx .deliver key envelope 1
    split
    · next ctx' hs =>
      rw [hs] at hside hops
      exact ⟨hside, hops⟩
    · next ctx' hs =>
      rw [hs] at hside hops
      exact ⟨hside, hops⟩
  · exact ⟨rfl, rfl⟩

/-- What becomes of a request for a slot: it is granted, or the mutex is taken again. `quiet`
says that no send goes out. -/
def Asked (quiet : Prop) (ctx : AnnounceCtx) (key : StoreKey) (r : Except StoreFault AnnounceCtx) :
    Prop :=
  (∃ ctx', r = .ok ctx' ∧ Takes ctx.side key ctx'.side ∧
    (quiet → ctx'.sprayOps = ctx.sprayOps)) ∨
  (r = .error .deadlock ∧ key ∉ owned ctx.side.owners ∧ vacancies ctx.side.owners = 0)

theorem floodRemote_asked (env : CourierEnv) (ctx : AnnounceCtx) (nowMs : UInt64) (key : StoreKey) (envelope : Envelope) :
    Asked (∀ n, env.sendOk n = false) ctx key
      (floodRemote env nowMs heldStore ctx key envelope) := by
  have hpart : heldStore.part = true := rfl
  rcases sideGet_held hpart rfl ctx.side key with ⟨i, side', heq, ht⟩ | ⟨heq, h⟩
  · left
    simp only [floodRemote, heq, bind, Except.bind]
    split
    · obtain ⟨hside, hops, -⟩ := sendEnvelope_ctx env
        { ctx with side := side'.set i { side'.slot i with
          lastRemoteS := (nowMs / 1000).toUInt32 } } .flood key envelope 1
      have ht' := ht.congr (SideTable.owners_set_slot
        (s := { side'.slot i with lastRemoteS := (nowMs / 1000).toUInt32 }) rfl)
      split
      · next ctx' hs =>
        rw [hs] at hside hops
        exact ⟨_, rfl, hside ▸ ht', fun _ => hops⟩
      · next ctx' hs =>
        rw [hs] at hside hops
        exact ⟨_, rfl, hside ▸ ht', fun _ => hops⟩
    · exact ⟨_, rfl, ht, fun _ => rfl⟩
  · right
    simp only [floodRemote, heq, bind, Except.bind]
    exact ⟨trivial, h⟩

/-- A flood defers nothing. -/
theorem floodRemote_ok {nowMs : UInt64} {store : StoreState} {key : StoreKey} {envelope : Envelope}
    {ctx' : AnnounceCtx} (h : floodRemote env nowMs store ctx key envelope = .ok ctx') :
    ctx'.deliverKeys = ctx.deliverKeys ∧ ctx'.sprayOps = ctx.sprayOps := by
  unfold floodRemote at h
  cases hs : sideGet store ctx.side key true with
  | error e =>
    rw [hs] at h
    cases h
  | ok x =>
    obtain ⟨slot, side⟩ := x
    simp only [hs, bind, Except.bind, pure, Except.pure] at h
    cases slot with
    | none =>
      cases h
      exact ⟨rfl, rfl⟩
    | some i =>
      dsimp only at h
      split at h
      · obtain ⟨-, hops, hdeliver, -⟩ := sendEnvelope_ctx env
          { ctx with side := side.set i { side.slot i with
            lastRemoteS := (nowMs / 1000).toUInt32 } } .flood key envelope 1
        split at h
        · next ctx1 hsend =>
          rw [hsend] at hops hdeliver
          cases h
          exact ⟨hdeliver, hops⟩
        · next ctx1 hsend =>
          rw [hsend] at hops hdeliver
          cases h
          exact ⟨hdeliver, hops⟩
      · cases h
        exact ⟨rfl, rfl⟩

theorem sprayCarrier_asked (peerId : Bytes 8) (key : StoreKey) (expiryS : UInt32) (copies : UInt8)
    (payload : List UInt8) (envelope : Envelope) :
    Asked (∀ n, env.sendOk n = false) ctx key
      (sprayCarrier env peerId heldStore ctx key expiryS copies payload envelope) := by
  have hpart : heldStore.part = true := rfl
  rcases sideGet_held hpart rfl ctx.side key with ⟨i, side', heq, ht⟩ | ⟨heq, h⟩
  · left
    simp only [sprayCarrier, heq, bind, Except.bind]
    split
    · exact ⟨_, rfl, ht, fun _ => rfl⟩
    · obtain ⟨hside, hops, -, hquiet⟩ := sendEnvelope_ctx env { ctx with side := side' } .spray key
        envelope (copies / 2)
      split
      · next ctx' hs =>
        rw [hs] at hside hops
        exact ⟨_, rfl, hside ▸ ht, fun _ => hops⟩
      · next ctx' hs =>
        rw [hs] at hside hops hquiet
        have ht' := ht.congr (SideTable.owners_set_slot (s := { side'.slot i with
          sprayedMask := (side'.slot i).sprayedMask ||| peerBit peerId }) rfl)
        split
        · exact ⟨_, rfl, ht', fun hq => absurd (hquiet hq) (by simp)⟩
        · exact ⟨_, rfl, ht', fun hq => absurd (hquiet hq) (by simp)⟩
  · right
    simp only [sprayCarrier, heq, bind, Except.bind]
    exact ⟨trivial, h⟩

/-- **One record of the walk**: it leaves the owners of the slots as they are, or it asks for a
slot. A record that wants one does not ask only when the walk has sprayed enough. -/
theorem announceEntry_cases (env : CourierEnv) (a : Announce) (tags : List (Bytes 16))
    (ctx : AnnounceCtx) (x : StoreKey × StoreValue) :
    (∃ ctx', announceEntry env a tags ctx x = .ok ctx' ∧ ctx'.side = ctx.side ∧
      ((∀ n, env.sendOk n = false) → ctx'.sprayOps = ctx.sprayOps) ∧
      (wantsSlot a tags x = true → announceMaxSpray ≤ ctx.sprayOps.length)) ∨
    (wantsSlot a tags x = true ∧
      Asked (∀ n, env.sendOk n = false) ctx x.1 (announceEntry env a tags ctx x)) := by
  have hdo : ∀ r : Except StoreFault AnnounceCtx,
      (do return (true, ← r) : Except StoreFault (Bool × AnnounceCtx)).map Prod.snd = r := by
    intro r
    cases r with
    | error e => rfl
    | ok ctx => rfl
  unfold announceEntry announceIter wantsSlot
  generalize (if x.2.flags ≠ 0 then x.2.flags else 1) = copies
  by_cases hlen : x.2.payload.length ≤ courierDepositorLen
  · simp only [if_pos hlen]
    exact .inl ⟨ctx, rfl, rfl, fun _ => rfl, by simp⟩
  · simp only [if_neg hlen]
    cases hparse : parseEnvelope (x.2.payload.drop courierDepositorLen) with
    | none => exact .inl ⟨ctx, rfl, rfl, fun _ => rfl, by simp⟩
    | some envelope =>
      dsimp only
      by_cases htag : tagMatches envelope tags = true
      · simp only [if_pos htag]
        by_cases hdirect : a.isDirect = true
        · left
          obtain ⟨hside, hops⟩ := deliverMail_ctx env ctx x.1 envelope
          exact ⟨_, by rw [if_pos hdirect]; rfl, hside, fun _ => hops, by simp [hdirect]⟩
        · right
          rw [if_neg hdirect, hdo]
          exact ⟨by simpa using hdirect, floodRemote_asked _ _ _ _ _⟩
      · simp only [if_neg htag]
        split
        · next hspray =>
          right
          rw [hdo]
          refine ⟨?_, sprayCarrier_asked _ _ _ _ _ _⟩
          simp only [Bool.and_eq_true] at hspray ⊢
          exact ⟨hspray.1.1, hspray.2⟩
        · next hspray =>
          refine .inl ⟨ctx, rfl, rfl, fun _ => rfl, fun hw => ?_⟩
          simp only [Bool.and_eq_true, decide_eq_true_eq] at hspray hw
          by_contra hlt
          exact hspray ⟨⟨hw.1, Nat.lt_of_not_le hlt⟩, hw.2⟩

end Entry

/-! ## The whole walk -/

/-- The keys that a walk over `shown` asks a slot for. -/
def wantedKeys (a : Announce) (tags : List (Bytes 16)) (shown : List (StoreKey × StoreValue)) :
    List StoreKey := (shown.filter (wantsSlot a tags)).map Prod.fst

section Fold

variable {env : CourierEnv} {a : Announce} {tags : List (Bytes 16)} {ctx : AnnounceCtx}
  {shown : List (StoreKey × StoreValue)}

/-- With a slot for everyone who will ask and has none the walk ends. By induction on the
records: whoever is given a slot no longer needs one. -/
theorem foldlM_announceEntry_ok (env : CourierEnv) (ctx : AnnounceCtx)
    (h : (homeless (wantedKeys a tags shown) ctx.side.owners).card ≤
      vacancies ctx.side.owners) :
    ∃ ctx', shown.foldlM (announceEntry env a tags) ctx = .ok ctx' := by
  induction shown generalizing ctx with
  | nil => exact ⟨ctx, rfl⟩
  | cons x shown ih =>
    rw [List.foldlM_cons]
    rcases announceEntry_cases env a tags ctx x with
      ⟨ctx', heq, hside, -⟩ | ⟨hw, ⟨ctx', heq, ht, -⟩ | ⟨-, hnot, hfull⟩⟩
    · rw [heq]
      refine ih ctx' ?_
      rw [hside]
      refine Nat.le_trans ?_ h
      unfold wantedKeys
      rw [List.filter_cons]
      split
      · exact card_homeless_le_cons
      · exact Nat.le_refl _
    · rw [heq]
      refine ih ctx' ?_
      rw [wantedKeys, List.filter_cons, if_pos hw, List.map_cons] at h
      by_cases hmem : x.1 ∈ owned ctx.side.owners
      · rw [homeless_cons_of_mem hmem] at h
        rw [ht.old hmem, homeless, ht.owns, Finset.insert_eq_of_mem hmem]
        exact h
      · -- it gets a slot: one fewer needs one, and one fewer is free
        have hcard := card_homeless_cons ((shown.filter (wantsSlot a tags)).map Prod.fst)
          hmem ht.owns
        have hvac := ht.new hmem
        unfold wantedKeys
        omega
    · rw [wantedKeys, List.filter_cons, if_pos hw, List.map_cons, hfull] at h
      -- it needs a slot and none is free, against the assumption
      have hempty := Finset.card_eq_zero.mp (Nat.le_zero.mp h)
      have hin : x.1 ∈ homeless (x.1 :: (shown.filter (wantsSlot a tags)).map Prod.fst)
          ctx.side.owners := by simp [homeless, hnot]
      simp [hempty] at hin

/-- With fewer slots than that it takes the mutex again, if all its sends fail. -/
theorem foldlM_announceEntry_deadlock (env : CourierEnv) (ctx : AnnounceCtx)
    (hquiet : ∀ n, env.sendOk n = false)
    (hops : ctx.sprayOps.length < announceMaxSpray)
    (h : vacancies ctx.side.owners <
      (homeless (wantedKeys a tags shown) ctx.side.owners).card) :
    shown.foldlM (announceEntry env a tags) ctx = .error .deadlock := by
  induction shown generalizing ctx with
  | nil => simp [wantedKeys, homeless] at h
  | cons x shown ih =>
    rw [List.foldlM_cons]
    unfold wantedKeys at h ih
    rw [List.filter_cons] at h
    rcases announceEntry_cases env a tags ctx x with
      ⟨ctx', heq, hside, hsame, hfull⟩ | ⟨hw, ⟨ctx', heq, ht, hsame⟩ | ⟨heq, -⟩⟩
    · have hno : ¬ wantsSlot a tags x = true := fun hw => absurd (hfull hw) (by omega)
      rw [if_neg hno] at h
      rw [heq]
      exact ih ctx' (by rw [hsame hquiet]; exact hops) (by rw [hside]; exact h)
    · rw [if_pos hw, List.map_cons] at h
      rw [heq]
      refine ih ctx' (by rw [hsame hquiet]; exact hops) ?_
      by_cases hmem : x.1 ∈ owned ctx.side.owners
      · rw [homeless_cons_of_mem hmem] at h
        rw [ht.old hmem, homeless, ht.owns, Finset.insert_eq_of_mem hmem]
        exact h
      · have hcard := card_homeless_cons ((shown.filter (wantsSlot a tags)).map Prod.fst)
          hmem ht.owns
        have hvac := ht.new hmem
        omega
    · rw [heq]
      rfl

end Fold

/-! ## The calls -/

/-- **Room for an announce**: the records of the mailbox that will ask the side table for a slot
and have none are at most as many as its free slots. -/
def HasRoom (lib : CourierLib) (env : CourierEnv) (a : Announce) (st : CourierState) : Prop :=
  a.verified = true →
    (homeless (wantedKeys a (candidateTags lib.toCourierHash a.noiseKey a.nowMs)
      (shownRecords (env.flash 0) env.nowUnixS st.store)) st.side.owners).card ≤
      vacancies st.side.owners

section Calls

variable {lib : CourierLib} {env : CourierEnv} {a : Announce} {st : CourierState}

theorem released_applyDeletes {store : StoreState} (h : store.lock ≠ .held) (n : Nat)
    (keys : List StoreKey) : Released id (applyDeletes env n keys store) := by
  induction keys generalizing n store with
  | nil => exact released_ok h
  | cons key keys ih =>
    exact (released_delete h (env.flash n) key).bind fun store' h' => ih h' (n + 1)

theorem released_applySprays {store : StoreState} (h : store.lock ≠ .held) (n : Nat)
    (ops : List SprayOp) : Released id (applySprays lib env n ops store) := by
  induction ops generalizing n store with
  | nil => exact released_ok h
  | cons op ops ih =>
    exact (released_put h (env.flash n) lib.crc32 op.key op.expiryS op.copies op.payload).bind
      fun x h' => ih h' (n + 1)

/-- What is left of an announce after the walk. -/
theorem released_applied {store : StoreState} (h : store.lock ≠ .held) (ctx : AnnounceCtx) :
    Released CourierState.store (do
      let store ← applyDeletes env 1 ctx.deliverKeys store
      let store ← applySprays lib env (1 + ctx.deliverKeys.length) ctx.sprayOps store
      return { store, side := ctx.side } : Except StoreFault CourierState) := by
  refine (released_applyDeletes h 1 ctx.deliverKeys).bind fun store1 h1 => ?_
  refine (released_applySprays h1 (1 + ctx.deliverKeys.length) ctx.sprayOps).bind fun store2 h2 => ?_
  exact released_ok h2

/-- The walk of an announce. -/
theorem iterate_announce (env : CourierEnv) (a : Announce) (h : st.store.lock ≠ .held) (tags : List (Bytes 16)) :
    (bitleStoreIterate (env.flash 0) env.nowUnixS (collect fun _ => true) st.store [] =
        .error .nullLock ∧
      bitleStoreIterate (env.flash 0) env.nowUnixS (announceIter env a tags) st.store
        { side := st.side } = .error .nullLock) ∨
    ∃ store', store'.lock ≠ .held ∧
      bitleStoreIterate (env.flash 0) env.nowUnixS (collect fun _ => true) st.store [] =
        .ok (store', shownRecords (env.flash 0) env.nowUnixS st.store) ∧
      bitleStoreIterate (env.flash 0) env.nowUnixS (announceIter env a tags) st.store
          { side := st.side } =
        ((shownRecords (env.flash 0) env.nowUnixS st.store).foldlM (announceEntry env a tags)
          { side := st.side }).map fun ctx => (store', ctx) :=
  bitleStoreIterate_foldlM _ _ _ (f := announceEntry env a tags)
    (fun _ key expiryUnixS flags payload _ hpart hlock =>
      announceIter_held hpart hlock key expiryUnixS flags payload) h _

/-- **An announce with room** takes no mutex twice. -/
theorem released_announced (h : st.store.lock ≠ .held) (hroom : HasRoom lib env a st) :
    Released CourierState.store (bitleCourierPeerAnnounced lib env a st) := by
  unfold bitleCourierPeerAnnounced
  split
  · exact released_ok h
  · next hgo =>
    have hv : a.verified = true := by
      simp only [Bool.or_eq_true, Bool.not_eq_true', not_or, Bool.not_eq_false] at hgo
      exact hgo.1
    rcases iterate_announce env a h
      (candidateTags lib.toCourierHash a.noiseKey a.nowMs) with ⟨-, heq⟩ | ⟨store', h', -, heq⟩
    · dsimp only
      rw [heq]
      exact ⟨by simp [bind, Except.bind], by simp [bind, Except.bind]⟩
    · obtain ⟨ctx', hctx⟩ := foldlM_announceEntry_ok env { side := st.side } (hroom hv)
      dsimp only
      rw [heq, hctx]
      exact released_applied h' ctx'

/-- **An announce without room** takes the mutex twice when its sends fail. -/
theorem announced_deadlock (h : st.store.lock ≠ .held) (hroom : ¬ HasRoom lib env a st) :
    bitleCourierPeerAnnounced lib { env with sendOk := fun _ => false } a st =
      .error .deadlock := by
  rw [HasRoom, Classical.not_imp, Nat.not_le] at hroom
  obtain ⟨hv, hlt⟩ := hroom
  have hcount : bitleStoreCount st.store ≠ 0 := by
    intro hc
    rw [shownRecords_nil _ _ (List.length_eq_zero_iff.mp hc)] at hlt
    simp [wantedKeys, homeless] at hlt
  unfold bitleCourierPeerAnnounced
  rw [if_neg (by simp [hv, hcount])]
  rcases iterate_announce { env with sendOk := fun _ => false } a h
    (candidateTags lib.toCourierHash a.noiseKey a.nowMs) with ⟨hnull, -⟩ | ⟨store', h', -, heq⟩
  · rw [shownRecords, hnull] at hlt
    simp [wantedKeys, homeless] at hlt
  · have hdead := foldlM_announceEntry_deadlock { env with sendOk := fun _ => false }
      { side := st.side } (fun _ => rfl) (Nat.zero_lt_succ 5) hlt
    dsimp only at heq ⊢
    rw [heq, hdead]
    rfl

/-- The record is a deposit of `depositor`. -/
def depositedBy (depositor : Bytes 8) (x : StoreKey × StoreValue) : Bool :=
  x.2.payload.length > courierDepositorLen &&
    x.2.payload.take courierDepositorLen == depositor.val

/-- The walk that counts a depositor's envelopes asks nothing of the store. -/
theorem iterate_depositorCount {store : StoreState} (h : store.lock ≠ .held) (env : FlashEnv)
    (now : UInt32) (depositor : Bytes 8) :
    (bitleStoreIterate env now (collect fun _ => true) store [] = .error .nullLock ∧
      bitleStoreIterate env now (depositorCountIter depositor) store 0 = .error .nullLock) ∨
    ∃ store', store'.lock ≠ .held ∧
      bitleStoreIterate env now (collect fun _ => true) store [] =
        .ok (store', shownRecords env now store) ∧
      bitleStoreIterate env now (depositorCountIter depositor) store 0 =
        .ok (store', (shownRecords env now store).countP (depositedBy depositor)) := by
  have hfold : ∀ (l : List (StoreKey × StoreValue)) (n : Nat),
      l.foldlM (fun n x => .ok (if depositedBy depositor x then n + 1 else n)) n =
        (.ok (n + l.countP (depositedBy depositor)) : Except StoreFault Nat) := by
    intro l
    induction l with
    | nil => exact fun n => rfl
    | cons x l ih =>
      intro n
      refine (ih _).trans ?_
      rw [List.countP_cons]
      split
      · rw [Nat.add_assoc, Nat.add_comm 1]
      · rfl
  rcases bitleStoreIterate_foldlM env now (depositorCountIter depositor)
    (f := fun n x => .ok (if depositedBy depositor x then n + 1 else n))
    (fun _ _ _ _ _ _ _ _ => rfl) h 0 with hnull | ⟨store', h', hcollect, heq⟩
  · exact .inl hnull
  · refine .inr ⟨store', h', hcollect, ?_⟩
    rw [heq, hfold, Nat.zero_add]
    rfl

/-- What the checks on the deposit itself let through. -/
theorem Deposit.admissible_eq_some {d : Deposit} {envelope : Envelope}
    (h : d.admissible = some envelope) :
    parseEnvelope d.payload = some envelope ∧
      d.payload.length + courierDepositorLen ≤ bitleStorePayloadMax := by
  unfold Deposit.admissible at h
  split at h
  · cases h
  · split at h
    · cases h
    · next env' hparse =>
      split at h
      · cases h
      · split at h
        · cases h
        · split at h
          · cases h
          · next hlen =>
            cases h
            exact ⟨hparse, Nat.not_lt.mp hlen⟩

theorem released_accept (h : st.store.lock ≠ .held) (d : Deposit) :
    Released (fun x => x.2.store) (bitleCourierAccept lib env d st) := by
  unfold bitleCourierAccept
  split
  · exact released_ok h
  · split
    · exact released_ok h
    · refine (released_contains h _).bind fun x h1 => ?_
      obtain ⟨found, store1⟩ := x
      dsimp only at h1 ⊢
      split
      · exact released_ok h1
      · have hcount : Released Prod.fst (bitleStoreIterate (env.flash 0) env.nowUnixS
            (depositorCountIter d.depositor) store1 0) := by
          rcases iterate_depositorCount h1 (env.flash 0) env.nowUnixS d.depositor with
            ⟨-, heq⟩ | ⟨store2, h2, -, heq⟩
          · rw [heq]
            exact ⟨by simp, by simp⟩
          · rw [heq]
            exact released_ok h2
        refine hcount.bind fun y h2 => ?_
        obtain ⟨store2, count⟩ := y
        dsimp only at h2 ⊢
        split
        · exact released_ok h2
        · exact (released_put h2 _ _ _ _ _ _).bind fun z h3 => released_ok h3

end Calls

/-! ## Runs -/

/-- The event finds room, if it is an announce. -/
def EventHasRoom (lib : CourierLib) (env : CourierEnv) (st : CourierState) : CourierEvent → Prop
  | .announced a => HasRoom lib env a st
  | _ => True

/-- Every announce of the run finds room. -/
def RoomAlong (lib : CourierLib) : CourierState → List (CourierEnv × CourierEvent) → Prop
  | _, [] => True
  | st, (env, event) :: rest =>
    EventHasRoom lib env st event ∧
      match courierStep lib st env event with
      | .ok st' => RoomAlong lib st' rest
      | .error _ => True

instance (lib : CourierLib) (env : CourierEnv) (st : CourierState) (event : CourierEvent) :
    Decidable (EventHasRoom lib env st event) :=
  match event with
  | .announced a => inferInstanceAs (Decidable (a.verified = true → _ ≤ _))
  | .boot => .isTrue trivial
  | .accept _ => .isTrue trivial

instance decidableRoomAlong (lib : CourierLib) :
    (st : CourierState) → (events : List (CourierEnv × CourierEvent)) →
      Decidable (RoomAlong lib st events)
  | _, [] => .isTrue trivial
  | st, (env, event) :: rest =>
    match h : courierStep lib st env event with
    | .ok st' =>
      have := decidableRoomAlong lib st' rest
      decidable_of_iff (EventHasRoom lib env st event ∧ RoomAlong lib st' rest)
        (by rw [RoomAlong, h])
    | .error _ =>
      decidable_of_iff (EventHasRoom lib env st event) (by rw [RoomAlong, h, and_true])

theorem courierRun_cons {lib : CourierLib} {env : CourierEnv} {event : CourierEvent}
    {st st' : CourierState}
    {rest : List (CourierEnv × CourierEvent)} (h : courierStep lib st env event = .ok st') :
    courierRun lib st ((env, event) :: rest) = courierRun lib st' rest := by
  rw [courierRun, h]
  rfl

theorem courierRun_append {lib : CourierLib} {xs ys : List (CourierEnv × CourierEvent)}
    {st st' : CourierState}
    (h : courierRun lib st xs = .ok st') :
    courierRun lib st (xs ++ ys) = courierRun lib st' ys := by
  induction xs generalizing st with
  | nil =>
    cases h
    rfl
  | cons x xs ih =>
    obtain ⟨env, event⟩ := x
    cases hstep : courierStep lib st env event with
    | error e =>
      rw [courierRun, hstep] at h
      cases h
    | ok st1 =>
      rw [courierRun_cons hstep] at h
      rw [List.cons_append, courierRun_cons hstep, ih h]

/-- One event. -/
theorem released_step {lib : CourierLib} {env : CourierEnv} {st : CourierState}
    (h : st.store.lock ≠ .held) {event : CourierEvent} (hroom : EventHasRoom lib env st event) :
    Released CourierState.store (courierStep lib st env event) := by
  cases event with
  | boot =>
    have hoff : (powerOn st.store.mem st.store.erased).lock ≠ .held := by simp [powerOn]
    exact released_ok (init_lock hoff (env.flash 0) lib.crc32 env.nowUnixS)
  | accept d => exact (released_accept h d).bind fun x h' => released_ok h'
  | announced a => exact released_announced h hroom

theorem released_run {lib : CourierLib} {st : CourierState} (h : st.store.lock ≠ .held)
    {events : List (CourierEnv × CourierEvent)} (hroom : RoomAlong lib st events) :
    Released CourierState.store (courierRun lib st events) := by
  induction events generalizing st with
  | nil => exact released_ok h
  | cons x events ih =>
    obtain ⟨env, event⟩ := x
    obtain ⟨hevent, hrest⟩ := hroom
    obtain ⟨hne, hlock⟩ := released_step h hevent
    rw [courierRun]
    cases hs : courierStep lib st env event with
    | error e =>
      rw [hs] at hne
      refine ⟨fun hc => hne ?_, fun x hx => by cases hx⟩
      cases hc
      rfl
    | ok st' =>
      rw [hs] at hrest
      exact ih (hlock _ hs) hrest

/-! ## A run that takes the mutex twice

One peer gets 129 letters, one after the other. Each is deposited; the peer is heard through the
mesh, so that the letter gets a slot of the side table; then the peer comes by and collects it.
The slots are not given back, so the last letter finds none. Nothing fails in this run. -/

section Wedge

def wedgeEnv : CourierEnv := { nowUnixS := 1 }

/-- Letter `n`, for the owner of the noise key `zeros 32`. -/
def wedgeMail (hash : CourierHash) (n : Nat) : Envelope where
  recipientTag := tagForDay hash (zeros 32) 0
  expiryMs := 61000
  ciphertext := [UInt8.ofNat n]

def wedgeKey (hash : CourierHash) (n : Nat) : StoreKey := envelopeKey hash (wedgeMail hash n)

def wedgePayload (hash : CourierHash) (n : Nat) : List UInt8 := (wedgeMail hash n).bytes 1

def wedgeDeposit (hash : CourierHash) (n : Nat) : Deposit where
  depositor := zeros 8
  verified := true
  payload := wedgePayload hash n
  nowMs := 1000

/-- The owner announces itself. -/
def wedgeHeard (isDirect : Bool) : Announce where
  connHandle := 1
  peerId := zeros 8
  noiseKey := zeros 32
  verified := true
  isDirect := isDirect
  nowMs := 1000

def wedgeRound (hash : CourierHash) (n : Nat) : List (CourierEnv × CourierEvent) :=
  [(wedgeEnv, .accept (wedgeDeposit hash n)), (wedgeEnv, .announced (wedgeHeard false)),
    (wedgeEnv, .announced (wedgeHeard true))]

def wedgeRun (hash : CourierHash) : List (CourierEnv × CourierEvent) :=
  (wedgeEnv, .boot) :: ((List.range 128).flatMap (wedgeRound hash) ++
    [(wedgeEnv, .accept (wedgeDeposit hash 128)), (wedgeEnv, .announced (wedgeHeard false))])

/-- The letters have different keys. -/
def WedgeDistinct (hash : CourierHash) : Prop :=
  ∀ i, i ≤ 128 → ∀ j, j ≤ 128 → wedgeKey hash i = wedgeKey hash j → i = j

def wedgeValue (hash : CourierHash) (n : Nat) : StoreValue :=
  ⟨61, 1, (zeros 8).val ++ wedgePayload hash n⟩

variable {lib : CourierLib} {st : CourierState} {n : Nat}

theorem length_wedgePayload (hash : CourierHash) (n : Nat) :
    (wedgePayload hash n).length = 34 := by
  rw [wedgePayload, Envelope.bytes_eq]
  simp [tlv, wedgeMail, (tagForDay hash (zeros 32) 0).property]

theorem encodeEnvelope_wedgeMail (hash : CourierHash) (n : Nat) :
    encodeEnvelope (wedgeMail hash n) 1 bitleStorePayloadMax = some (wedgePayload hash n) := by
  have hneed : 3 + courierTagLen + 3 + 8 + 3 + (wedgeMail hash n).ciphertext.length +
      (if (1 : UInt8) > 1 then 4 else 0) +
      (if (wedgeMail hash n).prekeyId.isSome then 7 else 0) = 34 := rfl
  rw [encodeEnvelope, hneed]
  rfl

theorem owned_zero {f : Nat → StoreKey} : owned SideTable.zero.owners = (Finset.range 0).image f := by
  ext k
  rw [mem_owned, SideTable.owners, SideTable.zero, List.map_replicate, List.mem_replicate]
  simp [SideState.owner]

theorem vacancies_zero : vacancies SideTable.zero.owners + 0 = 128 := by
  have hnone : Option.isNone (SideState.owner {}) = true := rfl
  rw [vacancies, SideTable.owners, SideTable.zero, List.map_replicate, List.countP_replicate,
    if_pos hnone, bitleCourierMaxEnvelopes]

theorem parseEnvelope_wedgePayload (hash : CourierHash) (n : Nat) :
    parseEnvelope (wedgePayload hash n) = some (wedgeMail hash n) :=
  parseEnvelope_bytes (wedgeMail hash n) (by decide) (by decide) (by simp [wedgeMail])
    (by simp [wedgeMail])

theorem wedgeMail_matches (hash : CourierHash) (n : Nat) :
    tagMatches (wedgeMail hash n) (candidateTags hash (zeros 32) 1000) = true := by
  simp [tagMatches, candidateTags, wedgeMail]

/-! ### A mailbox known record by record -/

/-- The mailbox holds `mail`, and nothing of it is expired at 1. -/
structure Mailbox (lib : CourierLib) (mail : List (StoreKey × StoreValue)) (store : StoreState) :
    Prop where
  good : StoreGood lib.crc32 1 store
  holds : bindings store = mail
  fresh : ∀ x ∈ mail, x.2.fresh 1 = true

namespace Mailbox

variable {mail : List (StoreKey × StoreValue)} {store : StoreState} {key : StoreKey}

theorem count (h : Mailbox lib mail store) : bitleStoreCount store = mail.length := by
  rw [← length_bindings, h.holds]

theorem mem_iff (h : Mailbox lib mail store) {v : StoreValue} :
    (key, v) ∈ mail ↔ storeMap store key = some v := by
  rw [← h.holds]
  exact h.good.mem_bindings

theorem unknown (h : Mailbox lib mail store) (hkey : key ∉ mail.map Prod.fst) :
    storeMap store key = none := by
  cases hmap : storeMap store key with
  | none => rfl
  | some v => exact absurd (List.mem_map_of_mem (h.mem_iff.mpr hmap)) hkey

theorem of_empty (hg : StoreGood lib.crc32 1 store) (hempty : ∀ k, storeMap store k = none) :
    Mailbox lib [] store := by
  have hlen := length_bindings store
  rw [bitleStoreCount_eq_zero.mpr hempty] at hlen
  exact ⟨hg, List.length_eq_zero_iff.mp hlen, nofun⟩

theorem walk {σ : Type} (h : Mailbox lib mail store) (cb : StoreIterCb σ) (s : σ) :
    bitleStoreIterate .good 1 cb store s =
      (walkList cb { store with lock := .held } mail s).map fun s => (store, s) := by
  rw [h.good.walk_fresh cb (by rw [h.holds]; exact h.fresh), h.holds]

/-- The depositor's count is at most the number of records. -/
theorem walk_count (h : Mailbox lib mail store) (depositor : Bytes 8) :
    ∃ n ≤ mail.length,
      bitleStoreIterate .good 1 (depositorCountIter depositor) store 0 = .ok (store, n) := by
  have hcount : ∀ (l : List (StoreKey × StoreValue)) (s : Nat), ∃ n ≤ s + l.length,
      walkList (depositorCountIter depositor) { store with lock := .held } l s = .ok n := by
    intro l
    induction l with
    | nil => exact fun s => ⟨s, Nat.le_refl _, rfl⟩
    | cons x l ih =>
      intro s
      obtain ⟨n, hn, heq⟩ := ih (if x.2.payload.length > courierDepositorLen &&
        x.2.payload.take courierDepositorLen == depositor.val then s + 1 else s)
      refine ⟨n, ?_, heq⟩
      rw [List.length_cons]
      split at hn <;> omega
  obtain ⟨n, hn, heq⟩ := hcount mail 0
  rw [Nat.zero_add] at hn
  refine ⟨n, hn, ?_⟩
  rw [h.walk, heq]
  rfl

/-- **A deposit** that is taken: its record is the last of the mailbox. -/
theorem accept (h : Mailbox lib mail store) (side : SideTable) {d : Deposit} {envelope : Envelope}
    (hadm : d.admissible = some envelope)
    (hnew : envelopeKey lib.toCourierHash envelope ∉ mail.map Prod.fst)
    (hfew : mail.length < bitleCourierMaxPerDepositor)
    (hplace : mail = [] ∨ fits store.writeOff (32 + (8 + d.payload.length)) = true)
    (hfresh : storeExpired 1 (envelope.expiryMs / 1000).toUInt32 = false) :
    ∃ store', courierStep lib ⟨store, side⟩ wedgeEnv (.accept d) = .ok ⟨store', side⟩ ∧
      Mailbox lib (mail ++ [(envelopeKey lib.toCourierHash envelope,
        ⟨(envelope.expiryMs / 1000).toUInt32, envelope.copies, d.depositor.val ++ d.payload⟩)])
        store' ∧
      store'.writeOff % 4096 = ((if fits store.writeOff (32 + (8 + d.payload.length)) then
        store.writeOff % 4096 else 8) + (32 + (8 + d.payload.length))) % 4096 ∧
      (fits store.writeOff (32 + (8 + d.payload.length)) = true →
        store'.erased = store.erased) := by
  have hunknown := h.unknown hnew
  obtain ⟨n, hn, hwalk⟩ := h.walk_count d.depositor
  have hlen : (d.depositor.val ++ d.payload).length = 8 + d.payload.length := by
    rw [List.length_append, d.depositor.property]
  obtain ⟨-, hsize⟩ := Deposit.admissible_eq_some hadm
  unfold courierDepositorLen at hsize
  have hcount : bitleStoreCount store < bitleStoreMaxRecords := by
    rw [h.count]
    exact Nat.lt_trans hfew (by decide)
  have hnil : mail = [] → store.index = [] := by
    intro hmail
    have hbindings := h.holds
    rw [hmail] at hbindings
    exact List.map_eq_nil_iff.mp hbindings
  rw [← hlen] at hplace ⊢
  obtain ⟨store', hput, hg', hholds, hoff, hsame⟩ := h.good.put_new
    (envelope.expiryMs / 1000).toUInt32 envelope.copies (by omega) (by omega) hunknown hcount
    (hplace.imp_left hnil)
  refine ⟨store', ?_, ⟨hg', by rw [hholds, h.holds], ?_⟩, hoff, hsame⟩
  · -- the limits are not reached, and the key is new
    have hroom : ¬ bitleStoreCount store ≥ bitleCourierMaxEnvelopes := by
      rw [h.count, Nat.not_le]
      exact Nat.lt_trans hfew (by decide)
    have hquota : ¬ n ≥ bitleCourierMaxPerDepositor := Nat.not_le.mpr (Nat.lt_of_le_of_lt hn hfew)
    have hflash : wedgeEnv.flash = fun _ => .good := rfl
    have hnow : wedgeEnv.nowUnixS = 1 := rfl
    rw [courierStep, bitleCourierAccept, hadm]
    dsimp only
    rw [if_neg hroom, h.good.contains_eq, hunknown, hflash, hnow]
    simp only [bind, Except.bind, Option.isSome_none, Bool.false_eq_true, if_false, hwalk]
    rw [if_neg hquota, hput]
    rfl
  · intro x hx
    rcases List.mem_append.mp hx with hx | hx
    · exact h.fresh x hx
    · rw [List.mem_singleton.mp hx, StoreValue.fresh, hfresh]
      rfl

/-- The walk of an announce. -/
theorem announceWalk (h : Mailbox lib mail store) (a : Announce) (tags : List (Bytes 16))
    (ctx : AnnounceCtx) :
    bitleStoreIterate .good 1 (announceIter wedgeEnv a tags) store ctx =
      (mail.foldlM (announceEntry wedgeEnv a tags) ctx).map fun ctx => (store, ctx) := by
  obtain ⟨S, head, hi⟩ := id h.good
  rw [h.walk]
  congr 1
  have hpart : { store with lock := .held }.part = true := hi.part
  exact walkList_foldlM (fun key expiryUnixS flags payload _ =>
    announceIter_held hpart rfl key expiryUnixS flags payload) mail ctx

/-- A verified announce, from its walk to its end. -/
theorem announced (h : Mailbox lib mail store) (side : SideTable) (hsome : mail ≠ [])
    {a : Announce} (hverified : a.verified = true) :
    courierStep lib ⟨store, side⟩ wedgeEnv (.announced a) = (do
      let ctx ← mail.foldlM (announceEntry wedgeEnv a
        (candidateTags lib.toCourierHash a.noiseKey a.nowMs)) { side }
      let store ← applyDeletes wedgeEnv 1 ctx.deliverKeys store
      let store ← applySprays lib wedgeEnv (1 + ctx.deliverKeys.length) ctx.sprayOps store
      return ⟨store, ctx.side⟩) := by
  have hcount : ¬ (bitleStoreCount store == 0) = true := by
    rw [h.count, beq_iff_eq, List.length_eq_zero_iff]
    exact hsome
  have hflash : wedgeEnv.flash 0 = .good := rfl
  have hnow : wedgeEnv.nowUnixS = 1 := rfl
  rw [courierStep, bitleCourierPeerAnnounced, if_neg (by simp [hverified, hcount])]
  dsimp only
  rw [hflash, hnow, h.announceWalk]
  cases mail.foldlM (announceEntry wedgeEnv a
      (candidateTags lib.toCourierHash a.noiseKey a.nowMs)) { side } with
  | error e => rfl
  | ok ctx => rfl

end Mailbox

/-! ### The letters -/

/-- Where letter `n` is written, within its sector: one takes 74 bytes, and 55 fill a sector. -/
def wedgeOff : Nat → Nat
  | 0 => 8
  | n + 1 => 82 + 74 * (n % 55)

theorem wedgeOff_succ (n : Nat) :
    wedgeOff (n + 1) = (if wedgeOff n + 74 ≤ 4096 then wedgeOff n else 8) + 74 := by
  cases n with
  | zero => rfl
  | succ n =>
    rw [wedgeOff, wedgeOff]
    split <;> omega

theorem wedgeOff_bounds (n : Nat) : 8 ≤ wedgeOff n ∧ wedgeOff n < 4096 := by
  cases n with
  | zero => decide
  | succ n =>
    rw [wedgeOff]
    omega

/-- The mailbox is empty and letters `0 .. n - 1` have their slots. -/
structure WedgeEmpty (lib : CourierLib) (n : Nat) (st : CourierState) : Prop where
  box : Mailbox lib [] st.store
  owns : owned st.side.owners = (Finset.range n).image (wedgeKey lib.toCourierHash)
  vacant : vacancies st.side.owners + n = 128
  off : st.store.writeOff % 4096 = wedgeOff n

/-- Letter `n` is all there is in the mailbox. -/
abbrev WedgeHolds (lib : CourierLib) (n : Nat) (store : StoreState) : Prop :=
  Mailbox lib [(wedgeKey lib.toCourierHash n, wedgeValue lib.toCourierHash n)] store

theorem wedgeDeposit_admissible (hash : CourierHash) (n : Nat) :
    (wedgeDeposit hash n).admissible = some (wedgeMail hash n) := by
  have hparse := parseEnvelope_wedgePayload hash n
  have hfuture : ¬ (1000 : UInt64) ≥ 61000 := by decide
  have hcap : ¬ (61000 : UInt64) > 1000 + courierMaxLifetimeS * 1000 := by decide
  have hverified : ¬ (!(wedgeDeposit hash n).verified) = true := by simp [wedgeDeposit]
  have hpayload : (wedgeDeposit hash n).payload = wedgePayload hash n := rfl
  have hnow : (wedgeDeposit hash n).nowMs = 1000 := rfl
  have hexpiry : (wedgeMail hash n).expiryMs = 61000 := rfl
  rw [Deposit.admissible, if_neg hverified, hpayload, hparse, hnow]
  dsimp only
  rw [hexpiry, if_neg hfuture, if_neg hcap, length_wedgePayload, if_neg (by decide)]

/-- A letter is deposited. -/
theorem WedgeEmpty.accept (h : WedgeEmpty lib n st) :
    ∃ store', courierStep lib st wedgeEnv (.accept (wedgeDeposit lib.toCourierHash n)) =
        .ok ⟨store', st.side⟩ ∧ WedgeHolds lib n store' ∧
      store'.writeOff % 4096 = wedgeOff (n + 1) := by
  have hexp : ((wedgeMail lib.toCourierHash n).expiryMs / 1000).toUInt32 = 61 := by
    simp [wedgeMail]
  obtain ⟨store', hstep, hbox, hoff, -⟩ := h.box.accept st.side
    (wedgeDeposit_admissible lib.toCourierHash n) (by simp) (by decide) (.inl rfl)
    (by rw [hexp]; decide)
  rw [hexp] at hbox
  refine ⟨store', hstep, hbox, ?_⟩
  have hlen : 32 + (8 + (wedgeDeposit lib.toCourierHash n).payload.length) = 74 := by
    show 32 + (8 + (wedgePayload lib.toCourierHash n).length) = 74
    rw [length_wedgePayload]
  obtain ⟨hlo, -⟩ := wedgeOff_bounds n
  obtain ⟨-, hhi⟩ := wedgeOff_bounds (n + 1)
  have hfits : fits st.store.writeOff 74 = true ↔ wedgeOff n + 74 ≤ 4096 := by
    rw [fits_iff, h.off]
    omega
  rw [hlen, h.off] at hoff
  rw [wedgeOff_succ] at hhi
  rw [hoff, wedgeOff_succ]
  by_cases hin : wedgeOff n + 74 ≤ 4096
  · rw [if_pos (hfits.mpr hin), if_pos hin]
    rw [if_pos hin] at hhi
    omega
  · rw [if_neg fun hf => hin (hfits.mp hf), if_neg hin]

/-- What an announce makes of the one letter. -/
def wedgeEntry (hash : CourierHash) (n : Nat) (isDirect : Bool) (ctx : AnnounceCtx) :
    Except StoreFault AnnounceCtx :=
  if isDirect then .ok (deliverMail wedgeEnv ctx (wedgeKey hash n) (wedgeMail hash n))
  else floodRemote wedgeEnv 1000 heldStore ctx (wedgeKey hash n) (wedgeMail hash n)

theorem announceEntry_wedge (isDirect : Bool) (ctx : AnnounceCtx) (hash : CourierHash) (n : Nat) :
    announceEntry wedgeEnv (wedgeHeard isDirect) (candidateTags hash (zeros 32) 1000) ctx
        (wedgeKey hash n, wedgeValue hash n) = wedgeEntry hash n isDirect ctx := by
  have hlen : ¬ (wedgeValue hash n).payload.length ≤ courierDepositorLen := by
    simp [wedgeValue, length_wedgePayload, courierDepositorLen, (zeros 8).property]
  have hdrop : (wedgeValue hash n).payload.drop courierDepositorLen = wedgePayload hash n := rfl
  rw [announceEntry, announceIter, if_neg hlen, hdrop, parseEnvelope_wedgePayload]
  dsimp only
  rw [if_pos (wedgeMail_matches hash n)]
  have hnow : (wedgeHeard isDirect).nowMs = 1000 := rfl
  have hdir : (wedgeHeard isDirect).isDirect = isDirect := rfl
  rw [hnow, hdir, wedgeEntry]
  split
  · rfl
  · cases floodRemote wedgeEnv 1000 heldStore ctx (wedgeKey hash n) (wedgeMail hash n) with
    | error e => rfl
    | ok ctx' => rfl

/-- An announce of the owner, with the one letter in the mailbox. -/
theorem WedgeHolds.heard {store : StoreState} (h : WedgeHolds lib n store) (side : SideTable)
    (isDirect : Bool) :
    courierStep lib ⟨store, side⟩ wedgeEnv (.announced (wedgeHeard isDirect)) = (do
      let ctx ← wedgeEntry lib.toCourierHash n isDirect { side }
      let store ← applyDeletes wedgeEnv 1 ctx.deliverKeys store
      let store ← applySprays lib wedgeEnv (1 + ctx.deliverKeys.length) ctx.sprayOps store
      return ⟨store, ctx.side⟩) := by
  have htags : candidateTags lib.toCourierHash (wedgeHeard isDirect).noiseKey
      (wedgeHeard isDirect).nowMs = candidateTags lib.toCourierHash (zeros 32) 1000 := rfl
  rw [Mailbox.announced h side (by simp) rfl, htags, List.foldlM_cons, announceEntry_wedge]
  cases wedgeEntry lib.toCourierHash n isDirect { side } with
  | error e => rfl
  | ok ctx => rfl

/-- The owner is heard through the mesh: the letter gets a slot, if there is one. -/
theorem WedgeHolds.remote {store : StoreState} (h : WedgeHolds lib n store) (side : SideTable) :
    (∃ side', courierStep lib ⟨store, side⟩ wedgeEnv (.announced (wedgeHeard false)) =
      .ok ⟨store, side'⟩ ∧ Takes side (wedgeKey lib.toCourierHash n) side') ∨
    (courierStep lib ⟨store, side⟩ wedgeEnv (.announced (wedgeHeard false)) = .error .deadlock ∧
      wedgeKey lib.toCourierHash n ∉ owned side.owners ∧ vacancies side.owners = 0) := by
  have hstep := h.heard side false
  have hentry : wedgeEntry lib.toCourierHash n false { side } =
      floodRemote wedgeEnv 1000 heldStore { side } (wedgeKey lib.toCourierHash n)
        (wedgeMail lib.toCourierHash n) := rfl
  rcases floodRemote_asked wedgeEnv { side } 1000
    (wedgeKey lib.toCourierHash n) (wedgeMail lib.toCourierHash n) with
    ⟨ctx', heq, ht, -⟩ | ⟨heq, hfull⟩
  · left
    obtain ⟨hdeliver, hops⟩ := floodRemote_ok heq
    refine ⟨ctx'.side, ?_, ht⟩
    rw [hstep, hentry, heq]
    simp only [bind, Except.bind, hdeliver, hops]
    rfl
  · right
    refine ⟨?_, hfull⟩
    rw [hstep, hentry, heq]
    rfl

/-- The owner comes by and takes the letter. -/
theorem WedgeHolds.direct {store : StoreState} (h : WedgeHolds lib n store) (side : SideTable) :
    ∃ store', courierStep lib ⟨store, side⟩ wedgeEnv (.announced (wedgeHeard true)) =
        .ok ⟨store', side⟩ ∧ Mailbox lib [] store' ∧ store'.writeOff = store.writeOff := by
  have hstep := h.heard side true
  obtain ⟨store', hdel, hg', -, hkey, hother⟩ := h.good.delete (wedgeKey lib.toCourierHash n)
  refine ⟨store', ?_, .of_empty hg' fun k => ?_, delete_writeOff hdel⟩
  · have hentry : wedgeEntry lib.toCourierHash n true { side } =
        .ok { side, deliverKeys := [wedgeKey lib.toCourierHash n], sent := 1,
              sends := [⟨.deliver, wedgeKey lib.toCourierHash n, wedgePayload lib.toCourierHash n, 1,
                true⟩] } := by
      rw [wedgeEntry, if_pos rfl, deliverMail, if_pos (by simp [announceMaxDeliver]), sendEnvelope,
        encodeEnvelope_wedgeMail]
      rfl
    have hflash : wedgeEnv.flash 1 = .good := rfl
    rw [hstep, hentry]
    simp only [bind, Except.bind, applyDeletes, hflash, hdel]
    rfl
  · by_cases hk : k = wedgeKey lib.toCourierHash n
    · rw [hk, hkey]
    · rw [hother k hk, h.unknown (by simpa using hk)]

/-- The next letter has no slot. -/
theorem WedgeEmpty.notMem_owned (h : WedgeEmpty lib n st) (hn : n ≤ 128)
    (hd : WedgeDistinct lib.toCourierHash) :
    wedgeKey lib.toCourierHash n ∉ owned st.side.owners := by
  rw [h.owns, Finset.mem_image]
  rintro ⟨i, hi, hkey⟩
  rw [Finset.mem_range] at hi
  have heq := hd i (by omega) n hn hkey
  omega

/-- One letter, from deposit to delivery. -/
theorem WedgeEmpty.round (h : WedgeEmpty lib n st) (hn : n < 128)
    (hd : WedgeDistinct lib.toCourierHash) :
    ∃ st', courierRun lib st (wedgeRound lib.toCourierHash n) = .ok st' ∧
      WedgeEmpty lib (n + 1) st' := by
  obtain ⟨store1, heq1, h1, hoff⟩ := h.accept
  have hnew := h.notMem_owned (Nat.le_of_lt hn) hd
  have hvac := h.vacant
  rcases h1.remote st.side with ⟨side2, heq2, ht⟩ | ⟨-, -, hfull⟩
  · obtain ⟨store3, heq3, h3, hsame⟩ := h1.direct side2
    refine ⟨⟨store3, side2⟩, ?_, h3, ?_, ?_, ?_⟩
    · simp only [wedgeRound, courierRun, heq1, heq2, heq3, bind, Except.bind]
    · show owned side2.owners = _
      rw [ht.owns, h.owns, Finset.range_add_one, Finset.image_insert]
    · have hnext := ht.new hnew
      show vacancies side2.owners + (n + 1) = 128
      omega
    · show store3.writeOff % 4096 = _
      rw [hsame, hoff]
  · omega

theorem WedgeEmpty.rounds (h : WedgeEmpty lib 0 st) (hd : WedgeDistinct lib.toCourierHash)
    {k : Nat} (hk : k ≤ 128) :
    ∃ st', courierRun lib st ((List.range k).flatMap (wedgeRound lib.toCourierHash)) = .ok st' ∧
      WedgeEmpty lib k st' := by
  induction k with
  | zero => exact ⟨st, rfl, h⟩
  | succ k ih =>
    obtain ⟨st1, heq1, h1⟩ := ih (by omega)
    obtain ⟨st2, heq2, h2⟩ := h1.round (by omega) hd
    refine ⟨st2, ?_, h2⟩
    rw [List.range_succ, List.flatMap_append, List.flatMap_singleton, courierRun_append heq1]
    exact heq2

theorem wedgeRounds_quiet (hash : CourierHash) (k : Nat) :
    ∀ e ∈ (List.range k).flatMap (wedgeRound hash), e.1 = wedgeEnv ∧ e.2 ≠ .boot := by
  intro e he
  obtain ⟨n, -, hn⟩ := List.mem_flatMap.mp he
  simp only [wedgeRound, List.mem_cons, List.not_mem_nil, or_false] at hn
  rcases hn with rfl | rfl | rfl
  · exact ⟨rfl, nofun⟩
  · exact ⟨rfl, nofun⟩
  · exact ⟨rfl, nofun⟩

/-- The first boot on an erased partition. -/
theorem wedgeEmpty_boot (lib : CourierLib) :
    ∃ st, courierStep lib (.off blankFlash) wedgeEnv .boot = .ok st ∧ WedgeEmpty lib 0 st := by
  obtain ⟨store0, S, h, hboot, hi, hempty⟩ := storeInv_firstBoot lib.crc32 1
  have hreboot : bitleStoreReboot .good lib.crc32 1 (powerOn blankFlash []) = (.ok, store0) := by
    rw [bitleStoreReboot]
    exact hboot
  have hoff : store0.writeOff = 8 := by
    rw [firstBoot_eq, Prod.mk.injEq] at hboot
    rw [← hboot.2]
    rfl
  refine ⟨⟨store0, .zero⟩, ?_, .of_empty ⟨S, h, hi⟩ fun k => hi.storeMap_eq_none (hempty k),
    owned_zero, vacancies_zero, ?_⟩
  · have hflash : wedgeEnv.flash 0 = .good := rfl
    have hnow : wedgeEnv.nowUnixS = 1 := rfl
    rw [courierStep, bitleCourierInit, hflash, hnow, CourierState.off, hreboot]
  · show store0.writeOff % 4096 = 8
    rw [hoff]

end Wedge

/-! ## The mutex -/

/-- **The store mutex is never taken twice** in a run from any flash contents, with any outcome of
the flash calls and the sends, whose announces all find room; and room is just what a verified
announce needs in a state of such a run to be safe whatever becomes of its sends. -/
theorem announces_with_room_never_relock (lib : CourierLib) (m : Mem)
    (events : List (CourierEnv × CourierEvent)) (hroom : RoomAlong lib (.off m) events) :
    courierRun lib (.off m) events ≠ .error .deadlock ∧
    ∀ st, courierRun lib (.off m) events = .ok st → ∀ env a,
      ((∀ sendOk, bitleCourierPeerAnnounced lib { env with sendOk } a st ≠ .error .deadlock) ↔
        HasRoom lib env a st) := by
  have hoff : (CourierState.off m).store.lock ≠ .held := by simp [CourierState.off, powerOn]
  obtain ⟨hne, hlock⟩ := released_run hoff hroom
  refine ⟨hne, fun st hst env a => ⟨fun hall => ?_, fun hr sendOk => ?_⟩⟩
  · by_contra hno
    exact hall (fun _ => false) (announced_deadlock (hlock st hst) hno)
  · have hr' : HasRoom lib { env with sendOk } a st := hr
    exact (released_announced (hlock st hst) hr').1

/-- A stand-in for the hashes: a string is its own digest, and every tag is zero. -/
def plainLib : CourierLib where
  sha256 l := copyAt 32 l 0
  hmacSha256 _ _ := zeros 32
  crc32 := espCrc32Le

/-- A letter that is deposited, given a slot and collected. -/
theorem announces_with_room_never_relock_letter :
    courierRun plainLib (.off blankFlash)
        ((wedgeEnv, .boot) :: wedgeRound plainLib.toCourierHash 0) ≠ .error .deadlock ∧
    ∀ st, courierRun plainLib (.off blankFlash)
        ((wedgeEnv, .boot) :: wedgeRound plainLib.toCourierHash 0) = .ok st → ∀ env a,
      ((∀ sendOk, bitleCourierPeerAnnounced plainLib { env with sendOk } a st ≠
        .error .deadlock) ↔ HasRoom plainLib env a st) :=
  announces_with_room_never_relock plainLib blankFlash
    ((wedgeEnv, .boot) :: wedgeRound plainLib.toCourierHash 0) (by decide +kernel)

theorem wedgeDistinct_plainLib : WedgeDistinct plainLib.toCourierHash := by
  intro i hi j hj hkey
  have hhead := congrArg (fun k : StoreKey => k.val.head?) hkey
  have hbyte : UInt8.ofNat i = UInt8.ofNat j := Option.some.inj hhead
  have hnat := congrArg UInt8.toNat hbyte
  simp only [UInt8.toNat_ofNat'] at hnat
  omega

/-- **A run that takes the mutex twice**, for every hash that tells the letters apart, and for one
that does. -/
theorem letters_wedge_courier :
    (∀ lib : CourierLib, WedgeDistinct lib.toCourierHash →
      courierRun lib (.off blankFlash) (wedgeRun lib.toCourierHash) = .error .deadlock) ∧
    WedgeDistinct plainLib.toCourierHash := by
  refine ⟨fun lib hd => ?_, wedgeDistinct_plainLib⟩
  obtain ⟨st0, hboot, h0⟩ := wedgeEmpty_boot lib
  obtain ⟨st, heq, hst⟩ := h0.rounds hd (Nat.le_refl 128)
  obtain ⟨store1, heq1, h1, -⟩ := hst.accept
  have hnew := hst.notMem_owned (Nat.le_refl 128) hd
  have hdead : courierStep lib ⟨store1, st.side⟩ wedgeEnv (.announced (wedgeHeard false)) =
      .error .deadlock := by
    rcases h1.remote st.side with ⟨side2, -, ht⟩ | ⟨hdead, -⟩
    · have hvac := hst.vacant
      have hnext := ht.new hnew
      omega
    · exact hdead
  rw [wedgeRun, courierRun_cons hboot, courierRun_append heq,
    courierRun_cons heq1, courierRun, hdead]
  rfl

end Bitle
