import Bitle.Courier.Lock

/-!
# Bitle — the calls of the courier on a working flash (`main/bitle_courier.c`)

What a deposit and an announce do to the map of the store, when the flash calls succeed. The
clock of a call is whatever the call finds: it may go back from one to the next.
-/

namespace Bitle

open Wire Flash

/-- The flash calls of the event succeed. -/
def CourierEnv.FlashGood (env : CourierEnv) : Prop := ∀ n, env.flash n = .good

section Mail

variable {lib : CourierLib} {env : CourierEnv} {t : UInt32}

/-! ## Deposits -/

/-- What `bitle_courier_accept` makes of a deposit. Its walk over the depositor's envelopes drops
what is expired; a `put` may erase sectors (`bases`). -/
inductive Accepted (lib : CourierLib) (env : CourierEnv) (d : Deposit) (store : StoreState) :
    Bool → StoreState → Prop
  | refused {store' : StoreState}
      (why : d.admissible = none ∨ bitleCourierMaxEnvelopes ≤ bitleStoreCount store)
      (map : ∀ k, storeMap store' k = storeMap store k) (erased : store'.erased = store.erased) :
      Accepted lib env d store false store'
  | known {store' : StoreState} {envelope : Envelope} (adm : d.admissible = some envelope)
      (found : (storeMap store (envelopeKey lib.toCourierHash envelope)).isSome = true)
      (map : ∀ k, storeMap store' k = storeMap store k) (erased : store'.erased = store.erased) :
      Accepted lib env d store true store'
  | overQuota {store' : StoreState}
      (mail : ∃ k v, storeMap store k = some v ∧ depositedBy d.depositor (k, v) = true)
      (map : ∀ k, storeMap store' k = (storeMap store k).filter (StoreValue.fresh env.nowUnixS))
      (erased : store'.erased = store.erased) :
      Accepted lib env d store false store'
  | stored {store' : StoreState} {envelope : Envelope} {bases : List Nat}
      (adm : d.admissible = some envelope)
      (unknown : storeMap store (envelopeKey lib.toCourierHash envelope) = none)
      (bound : storeMap store' (envelopeKey lib.toCourierHash envelope) =
        some ⟨(envelope.expiryMs / 1000).toUInt32, envelope.copies, d.depositor.val ++ d.payload⟩)
      (other : ∀ k, k ≠ envelopeKey lib.toCourierHash envelope →
        storeMap store' k = (storeMap store k).filter (StoreValue.fresh env.nowUnixS) ∨
          (bases ≠ [] ∧ storeMap store' k = none))
      (erased : store'.erased = store.erased ++ bases) :
      Accepted lib env d store true store'

/-- **A deposit** on a working flash returns, and keeps the invariant of the store. -/
theorem accept_cases {st : CourierState} (hg : StoreGood lib.crc32 t st.store)
    (henv : env.FlashGood) (d : Deposit) :
    ∃ stored store', bitleCourierAccept lib env d st = .ok (stored, { st with store := store' }) ∧
      StoreGood lib.crc32 t store' ∧ Accepted lib env d st.store stored store' := by
  unfold bitleCourierAccept
  cases hadm : d.admissible with
  | none => exact ⟨false, st.store, rfl, hg, .refused (.inl hadm) (fun _ => rfl) rfl⟩
  | some envelope =>
    dsimp only
    by_cases hfull : bitleStoreCount st.store ≥ bitleCourierMaxEnvelopes
    · rw [if_pos hfull]
      exact ⟨false, st.store, rfl, hg, .refused (.inr hfull) (fun _ => rfl) rfl⟩
    · rw [if_neg hfull]
      obtain ⟨store1, hcontains, hg1, her1, hmap1⟩ :=
        hg.contains (envelopeKey lib.toCourierHash envelope)
      have hmap1' : ∀ k, storeMap store1 k = storeMap st.store k := fun k => by rw [hmap1]
      rw [hcontains]
      simp only [bind, Except.bind]
      by_cases hfound : (storeMap st.store (envelopeKey lib.toCourierHash envelope)).isSome = true
      · rw [if_pos hfound]
        exact ⟨true, store1, rfl, hg1, .known hadm hfound hmap1' her1⟩
      · rw [if_neg hfound]
        have hnone := Option.not_isSome_iff_eq_none.mp hfound
        -- the walk that counts is the one that only collects
        obtain ⟨store2, hcollect, hg2, her2, hmap2, -, hmem2⟩ := hg1.iterate env.nowUnixS
        rcases iterate_depositorCount hg1.lock .good env.nowUnixS d.depositor with
          ⟨hnull, -⟩ | ⟨store', -, hcollect', hcount⟩
        · rw [hnull] at hcollect
          cases hcollect
        · rw [hcollect', Except.ok.injEq, Prod.mk.injEq] at hcollect
          obtain ⟨rfl, -⟩ := hcollect
          rw [henv 0, hcount]
          dsimp only
          by_cases hquota : (shownRecords .good env.nowUnixS store1).countP
              (depositedBy d.depositor) ≥ bitleCourierMaxPerDepositor
          · rw [if_pos hquota]
            refine ⟨false, store', rfl, hg2, .overQuota ?_ (fun k => ?_) (her2.trans her1)⟩
            · obtain ⟨x, hx, hdep⟩ := List.countP_pos_iff.mp (Nat.lt_of_lt_of_le (by decide) hquota)
              exact ⟨x.1, x.2, by rw [← hmap1']; exact ((hmem2 x.1 x.2).mp hx).1, hdep⟩
            · rw [hmap2, hmap1']
          · rw [if_neg hquota, henv 1]
            obtain ⟨hparse, hlen⟩ := Deposit.admissible_eq_some hadm
            have hlen' : (d.depositor.val ++ d.payload).length ≤ bitleStorePayloadMax := by
              rw [List.length_append, d.depositor.property, Nat.add_comm]
              exact hlen
            have hpos : 1 ≤ (d.depositor.val ++ d.payload).length := by
              rw [List.length_append, d.depositor.property]
              omega
            obtain ⟨store3, bases, hput, hg3, her3, hbound, hother⟩ :=
              hg2.put (envelopeKey lib.toCourierHash envelope)
                (envelope.expiryMs / 1000).toUInt32 envelope.copies hpos hlen'
            rw [hput]
            have hother' : ∀ k, k ≠ envelopeKey lib.toCourierHash envelope →
                storeMap store3 k = (storeMap st.store k).filter (StoreValue.fresh env.nowUnixS) ∨
                  (bases ≠ [] ∧ storeMap store3 k = none) := by
              intro k hk
              rw [← hmap1', ← hmap2]
              exact hother k hk
            exact ⟨true, store3, rfl, hg3, .stored hadm hnone hbound hother'
              (by rw [her3, her2, her1])⟩

/-- An empty mailbox takes every admissible deposit. -/
theorem accept_empty {st : CourierState} (hg : StoreGood lib.crc32 t st.store)
    (henv : env.FlashGood) (hempty : ∀ k, storeMap st.store k = none) {d : Deposit}
    {envelope : Envelope} (hadm : d.admissible = some envelope) :
    ∃ st', bitleCourierAccept lib env d st = .ok (true, st') := by
  obtain ⟨stored, store', heq, -, hcases⟩ := accept_cases hg henv d
  cases hcases with
  | refused why =>
    rcases why with hnone | hfull
    · rw [hadm] at hnone
      cases hnone
    · rw [bitleStoreCount_eq_zero.mpr hempty] at hfull
      exact absurd hfull (by decide)
  | known => exact ⟨_, heq⟩
  | overQuota mail =>
    obtain ⟨k, v, hv, -⟩ := mail
    rw [hempty k] at hv
    cases hv
  | stored => exact ⟨_, heq⟩

/-! ## Deferred calls -/

/-- The deletes of an announce. -/
theorem applyDeletes_spec (henv : env.FlashGood) (n : Nat) (keys : List StoreKey)
    {store : StoreState} (hg : StoreGood lib.crc32 t store) :
    ∃ store', applyDeletes env n keys store = .ok store' ∧ StoreGood lib.crc32 t store' ∧
      store'.erased = store.erased ∧
      (∀ k ∈ keys, storeMap store' k = none) ∧
      ∀ k, k ∉ keys → storeMap store' k = storeMap store k := by
  induction keys generalizing n store with
  | nil => exact ⟨store, rfl, hg, rfl, nofun, fun _ _ => rfl⟩
  | cons key keys ih =>
    obtain ⟨store1, hdel, hg1, her1, hkey, hother⟩ := hg.delete key
    obtain ⟨store2, heq, hg2, her2, hdead, hkept⟩ := ih (n + 1) hg1
    refine ⟨store2, ?_, hg2, her2.trans her1, fun k hk => ?_, fun k hk => ?_⟩
    · rw [applyDeletes, henv n, hdel]
      exact heq
    · by_cases hin : k ∈ keys
      · exact hdead k hin
      · rw [hkept k hin, (List.mem_cons.mp hk).resolve_right hin, hkey]
    · rw [hkept k fun hin => hk (List.mem_cons_of_mem _ hin),
        hother k fun heq => hk (heq ▸ List.mem_cons_self)]

/-- What a deferred rewrite binds its key to. -/
def SprayOp.value (op : SprayOp) : StoreValue := ⟨op.expiryS, op.copies, op.payload⟩

/-- One rewrite; the store refuses a payload of a length out of range. -/
theorem put_spray {store : StoreState} (hg : StoreGood lib.crc32 t store) (op : SprayOp) :
    ∃ err store' bases,
      bitleStorePut .good lib.crc32 store op.key op.expiryS op.copies op.payload =
        .ok (err, store') ∧
      StoreGood lib.crc32 t store' ∧ store'.erased = store.erased ++ bases ∧
      (1 ≤ op.payload.length → op.payload.length ≤ bitleStorePayloadMax →
        storeMap store' op.key = some op.value) ∧
      ∀ k, k ≠ op.key → bases = [] → storeMap store' k = storeMap store k := by
  by_cases hlen : 1 ≤ op.payload.length ∧ op.payload.length ≤ 520
  · obtain ⟨store', bases, heq, hg', her, hkey, hother⟩ :=
      hg.put op.key op.expiryS op.copies hlen.1 hlen.2
    refine ⟨_, store', bases, heq, hg', her, fun _ _ => hkey, fun k hk hnil => ?_⟩
    rcases hother k hk with hsame | ⟨hne, -⟩
    · exact hsame
    · exact absurd hnil hne
  · refine ⟨_, store, [], bitleStorePut_invalid hlen, hg, (List.append_nil _).symm,
      fun h1 h2 => absurd ⟨h1, h2⟩ hlen, fun _ _ _ => rfl⟩

/-- The rewrites of an announce, as long as they erase nothing: a key that no rewrite is for
keeps its value, one that a single rewrite is for has it. -/
theorem applySprays_spec (henv : env.FlashGood) (n : Nat) (ops : List SprayOp)
    {store : StoreState} (hg : StoreGood lib.crc32 t store) :
    ∃ store' bases, applySprays lib env n ops store = .ok store' ∧
      StoreGood lib.crc32 t store' ∧ store'.erased = store.erased ++ bases ∧
      (bases = [] → ∀ k,
        (ops.filter (·.key == k) = [] → storeMap store' k = storeMap store k) ∧
        ∀ op, ops.filter (·.key == k) = [op] → 1 ≤ op.payload.length →
          op.payload.length ≤ bitleStorePayloadMax → storeMap store' k = some op.value) := by
  induction ops generalizing n store with
  | nil =>
    exact ⟨store, [], rfl, hg, (List.append_nil _).symm, fun _ k => ⟨fun _ => rfl, nofun⟩⟩
  | cons op ops ih =>
    obtain ⟨err, store1, bases1, hput, hg1, her1, hkey, hother⟩ := put_spray hg op
    obtain ⟨store2, bases2, heq, hg2, her2, hmap⟩ := ih (n + 1) hg1
    refine ⟨store2, bases1 ++ bases2, ?_, hg2, ?_, fun hnil k => ?_⟩
    · rw [applySprays, henv n, hput]
      exact heq
    · rw [her2, her1, List.append_assoc]
    · obtain ⟨hnil1, hnil2⟩ := List.append_eq_nil_iff.mp hnil
      obtain ⟨hkeep, hset⟩ := hmap hnil2 k
      by_cases hk : op.key = k
      · have hfilter : (op :: ops).filter (·.key == k) = op :: ops.filter (·.key == k) :=
          List.filter_cons_of_pos (beq_iff_eq.mpr hk)
        rw [hfilter]
        refine ⟨nofun, fun op' hone h1 h2 => ?_⟩
        obtain ⟨rfl, hrest⟩ := List.cons_eq_cons.mp hone
        rw [hkeep hrest, ← hk]
        exact hkey h1 h2
      · have hfilter : (op :: ops).filter (·.key == k) = ops.filter (·.key == k) :=
          List.filter_cons_of_neg fun h => hk (beq_iff_eq.mp h)
        rw [hfilter]
        have hsame := hother k (Ne.symm hk) hnil1
        exact ⟨fun hrest => (hkeep hrest).trans hsame, hset⟩

/-! ## Announces -/

/-- The walk of an announce, with the mutex held: what `announce_iter` leaves in the context. -/
def announceWalk (lib : CourierLib) (env : CourierEnv) (a : Announce) (st : CourierState) :
    Except StoreFault AnnounceCtx :=
  (shownRecords .good env.nowUnixS st.store).foldlM
    (announceEntry env a (candidateTags lib.toCourierHash a.noiseKey a.nowMs)) { side := st.side }

/-- The walk of an announce that returns. -/
theorem iterate_announceWalk {st : CourierState} {a : Announce} {store1 : StoreState}
    {ctx : AnnounceCtx} (hg : StoreGood lib.crc32 t st.store) (henv : env.FlashGood)
    (heq : bitleStoreIterate (env.flash 0) env.nowUnixS
      (announceIter env a (candidateTags lib.toCourierHash a.noiseKey a.nowMs)) st.store
      { side := st.side } = .ok (store1, ctx)) :
    announceWalk lib env a st = .ok ctx ∧ StoreGood lib.crc32 t store1 ∧
      store1.erased = st.store.erased ∧
      ∀ k, storeMap store1 k = (storeMap st.store k).filter (StoreValue.fresh env.nowUnixS) := by
  obtain ⟨store', hg', her, hmap, hfold⟩ := hg.iterate_foldlM env.nowUnixS
    (announceIter env a (candidateTags lib.toCourierHash a.noiseKey a.nowMs))
    (f := announceEntry env a (candidateTags lib.toCourierHash a.noiseKey a.nowMs))
    (fun _ key expiryUnixS flags payload _ hpart hlock =>
      announceIter_held hpart hlock key expiryUnixS flags payload) { side := st.side }
  rw [henv 0, hfold] at heq
  cases hwalk : announceWalk lib env a st with
  | error e =>
    rw [announceWalk] at hwalk
    rw [hwalk] at heq
    cases heq
  | ok ctx' =>
    rw [announceWalk] at hwalk
    rw [hwalk] at heq
    cases heq
    exact ⟨rfl, hg', her, hmap⟩

/-- The stages of an announce that has something to do. -/
theorem announced_stages {st st' : CourierState} {a : Announce}
    (hbusy : (!a.verified || bitleStoreCount st.store == 0) = false)
    (heq : bitleCourierPeerAnnounced lib env a st = .ok st') :
    ∃ store1 ctx store2,
      bitleStoreIterate (env.flash 0) env.nowUnixS
        (announceIter env a (candidateTags lib.toCourierHash a.noiseKey a.nowMs)) st.store
        { side := st.side } = .ok (store1, ctx) ∧
      applyDeletes env 1 ctx.deliverKeys store1 = .ok store2 ∧
      applySprays lib env (1 + ctx.deliverKeys.length) ctx.sprayOps store2 = .ok st'.store ∧
      st'.side = ctx.side := by
  unfold bitleCourierPeerAnnounced at heq
  rw [if_neg (by rw [hbusy]; decide)] at heq
  dsimp only at heq
  cases hwalk : bitleStoreIterate (env.flash 0) env.nowUnixS
      (announceIter env a (candidateTags lib.toCourierHash a.noiseKey a.nowMs)) st.store
      { side := st.side } with
  | error e =>
    rw [hwalk] at heq
    cases heq
  | ok x =>
    obtain ⟨store1, ctx⟩ := x
    rw [hwalk] at heq
    simp only [bind, Except.bind] at heq
    cases hdel : applyDeletes env 1 ctx.deliverKeys store1 with
    | error e =>
      rw [hdel] at heq
      cases heq
    | ok store2 =>
      rw [hdel] at heq
      dsimp only at heq
      cases hput : applySprays lib env (1 + ctx.deliverKeys.length) ctx.sprayOps store2 with
      | error e =>
        rw [hput] at heq
        cases heq
      | ok store3 =>
        rw [hput] at heq
        cases heq
        exact ⟨store1, ctx, store2, rfl, hdel, hput, rfl⟩

/-- **An announce** that returns, on a working flash: it has nothing to do, or the walk drops what
is expired and the calls it deferred follow. -/
theorem announced_cases {st st' : CourierState} {a : Announce}
    (hg : StoreGood lib.crc32 t st.store) (henv : env.FlashGood)
    (heq : bitleCourierPeerAnnounced lib env a st = .ok st') :
    (st' = st ∧ (!a.verified || bitleStoreCount st.store == 0) = true) ∨
    ((!a.verified || bitleStoreCount st.store == 0) = false ∧
      ∃ ctx bases, announceWalk lib env a st = .ok ctx ∧
        (∃ store1, bitleStoreIterate (env.flash 0) env.nowUnixS
          (announceIter env a (candidateTags lib.toCourierHash a.noiseKey a.nowMs)) st.store
          { side := st.side } = .ok (store1, ctx)) ∧ st'.side = ctx.side ∧
        StoreGood lib.crc32 t st'.store ∧ st'.store.erased = st.store.erased ++ bases ∧
        (bases = [] → ∀ k,
          (ctx.sprayOps.filter (·.key == k) = [] → storeMap st'.store k =
            if k ∈ ctx.deliverKeys then none
            else (storeMap st.store k).filter (StoreValue.fresh env.nowUnixS)) ∧
          ∀ op, ctx.sprayOps.filter (·.key == k) = [op] → 1 ≤ op.payload.length →
            op.payload.length ≤ bitleStorePayloadMax →
            storeMap st'.store k = some op.value)) := by
  by_cases hnothing : (!a.verified || bitleStoreCount st.store == 0) = true
  · unfold bitleCourierPeerAnnounced at heq
    rw [if_pos hnothing] at heq
    cases heq
    exact .inl ⟨rfl, hnothing⟩
  · right
    have hbusy : (!a.verified || bitleStoreCount st.store == 0) = false := by simpa using hnothing
    obtain ⟨store1, ctx, store2, hiterate, hdel, hput, hside⟩ := announced_stages hbusy heq
    obtain ⟨hwalk, hg1, her1, hmap1⟩ := iterate_announceWalk hg henv hiterate
    obtain ⟨store2', hdel', hg2, her2, hdead, hkept⟩ :=
      applyDeletes_spec henv 1 ctx.deliverKeys hg1
    rw [hdel, Except.ok.injEq] at hdel'
    subst hdel'
    obtain ⟨store3, bases, hput', hg3, her3, hmap3⟩ :=
      applySprays_spec henv (1 + ctx.deliverKeys.length) ctx.sprayOps hg2
    rw [hput, Except.ok.injEq] at hput'
    subst hput'
    refine ⟨hbusy, ctx, bases, hwalk, ⟨store1, hiterate⟩, hside, hg3, ?_, fun hnil k => ?_⟩
    · rw [her3, her2, her1]
    · obtain ⟨hkeep, hset⟩ := hmap3 hnil k
      refine ⟨fun hops => ?_, hset⟩
      rw [hkeep hops]
      by_cases hk : k ∈ ctx.deliverKeys
      · rw [if_pos hk, hdead k hk]
      · rw [if_neg hk, hkept k hk, hmap1]

end Mail

end Bitle
