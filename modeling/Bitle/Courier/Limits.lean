import Bitle.Courier.Copies

/-!
# Bitle — the limits of the mailbox (`main/bitle_courier.c`)

`bitle_courier_accept` counts before it stores: the records of the index, and those the depositor
has in it that are not expired. Nothing else in the courier counts, so the limits have to survive
the rest. They do because no other call binds a key that was not bound before, and a rewrite keeps
the expiry and the depositor of the record it replaces (`Inherits`).
-/

namespace Bitle

open Wire Flash Slots

/-! ## Counting records -/

/-- The record starts with the ID of the depositor. -/
def StoreValue.carries (depositor : Bytes 8) (v : StoreValue) : Bool :=
  v.payload.take courierDepositorLen == depositor.val

/-- The indexed records of a depositor that are not expired. -/
def depositorCount (now : UInt32) (depositor : Bytes 8) (st : StoreState) : Nat :=
  (bindings st).countP fun x => x.2.fresh now && x.2.carries depositor

theorem StoreValue.fresh_of_le {now now' : UInt32} {v : StoreValue} (h : now ≤ now')
    (hf : v.fresh now' = true) : v.fresh now = true := by
  rw [fresh, Bool.not_eq_true', ← Bool.not_eq_true] at hf ⊢
  exact fun he => hf (storeExpired_mono h he)

/-- Time only takes records away. -/
theorem depositorCount_mono {now now' : UInt32} (h : now ≤ now') (depositor : Bytes 8)
    (st : StoreState) : depositorCount now' depositor st ≤ depositorCount now depositor st := by
  apply List.countP_mono_left
  intro x _ hx
  rw [Bool.and_eq_true] at hx ⊢
  exact ⟨StoreValue.fresh_of_le h hx.1, hx.2⟩

/-! ## Records that stand for another -/

/-- `v'` may stand where `v` stood: it expires with it and has its depositor. -/
structure SameMail (v v' : StoreValue) : Prop where
  expiry : v'.expiryUnixS = v.expiryUnixS
  depositor : v'.payload.take courierDepositorLen = v.payload.take courierDepositorLen
  long : courierDepositorLen < v.payload.length → courierDepositorLen < v'.payload.length

theorem SameMail.refl (v : StoreValue) : SameMail v v := ⟨rfl, rfl, id⟩

theorem SameMail.trans {v v' v'' : StoreValue} (h : SameMail v v') (h' : SameMail v' v'') :
    SameMail v v'' :=
  ⟨h'.expiry.trans h.expiry, h'.depositor.trans h.depositor, fun hl => h'.long (h.long hl)⟩

/-- Every binding of `store'` stands for one of `store`. -/
def Inherits (store store' : StoreState) : Prop :=
  ∀ k v', storeMap store' k = some v' → ∃ v, storeMap store k = some v ∧ SameMail v v'

/-- A state that has lost bindings. -/
theorem inherits_of_sub {store store' : StoreState}
    (h : ∀ k v, storeMap store' k = some v → storeMap store k = some v) : Inherits store store' :=
  fun k v hk => ⟨v, h k v hk, .refl v⟩

theorem inherits_of_filter {store store' : StoreState} {now : UInt32}
    (h : ∀ k, storeMap store' k = (storeMap store k).filter (StoreValue.fresh now)) :
    Inherits store store' := by
  apply inherits_of_sub
  intro k v hk
  rw [h, Option.filter_eq_some_iff] at hk
  exact hk.1

section Inherits

variable {crc32 : UInt32 → List UInt8 → UInt32} {t t' : UInt32} {store store' : StoreState}

theorem Inherits.count_le (h : Inherits store store') (hg' : StoreGood crc32 t' store')
    (hg : StoreGood crc32 t store) : bitleStoreCount store' ≤ bitleStoreCount store := by
  rw [← length_bindings, ← length_bindings, ← List.countP_true]
  apply countP_le_of_keys hg'.bindings_nodup
  rintro ⟨k, v'⟩ hmem -
  obtain ⟨v, hv, -⟩ := h k v' (hg'.mem_bindings.mp hmem)
  exact ⟨(k, v), hg.mem_bindings.mpr hv, rfl, rfl⟩

theorem SameMail.counted {now : UInt32} {depositor : Bytes 8} {v v' : StoreValue}
    (h : SameMail v v') :
    (v'.fresh now && v'.carries depositor) = (v.fresh now && v.carries depositor) := by
  unfold StoreValue.fresh StoreValue.carries
  rw [h.expiry, h.depositor]

theorem Inherits.depositorCount_le (h : Inherits store store') (hg' : StoreGood crc32 t' store')
    (hg : StoreGood crc32 t store) (now : UInt32) (depositor : Bytes 8) :
    depositorCount now depositor store' ≤ depositorCount now depositor store := by
  apply countP_le_of_keys hg'.bindings_nodup
  rintro ⟨k, v'⟩ hmem hx
  obtain ⟨v, hv, hsame⟩ := h k v' (hg'.mem_bindings.mp hmem)
  refine ⟨(k, v), hg.mem_bindings.mpr hv, ?_, rfl⟩
  rw [← hx]
  exact hsame.counted.symm

end Inherits

/-! ## The puts of the courier -/

/-- A call of `bitle_store_put`: the store it finds, and its arguments. -/
structure PutCall where
  flash : FlashEnv
  store : StoreState
  key : StoreKey
  expiryUnixS : UInt32
  flags : UInt8
  payload : List UInt8

/-- What the call returns. -/
def PutCall.result (crc32 : UInt32 → List UInt8 → UInt32) (p : PutCall) :
    Except StoreFault (EspErr × StoreState) :=
  bitleStorePut p.flash crc32 p.store p.key p.expiryUnixS p.flags p.payload

/-- The state in which the call comes to its quota loop. -/
def PutCall.atQuota (p : PutCall) : StoreState :=
  unbindKey p.flash { p.store with lock := .held } p.key

/-- The puts of an event: that of a deposit which passed every check, and the deferred rewrites of
an announce, one after the other. -/
inductive MakesPut (lib : CourierLib) (env : CourierEnv) (st : CourierState) :
    CourierEvent → PutCall → Prop
  | accept {d : Deposit} {envelope : Envelope} {store1 store2 : StoreState} {count : Nat}
      (adm : d.admissible = some envelope)
      (room : bitleStoreCount st.store < bitleCourierMaxEnvelopes)
      (unknown : bitleStoreContains st.store (envelopeKey lib.toCourierHash envelope) =
        .ok (false, store1))
      (walk : bitleStoreIterate (env.flash 0) env.nowUnixS (depositorCountIter d.depositor)
        store1 0 = .ok (store2, count))
      (share : count < bitleCourierMaxPerDepositor) :
      MakesPut lib env st (.accept d)
        ⟨env.flash 1, store2, envelopeKey lib.toCourierHash envelope,
          (envelope.expiryMs / 1000).toUInt32, envelope.copies, d.depositor.val ++ d.payload⟩
  | spray {a : Announce} {store1 store2 store3 : StoreState} {ctx : AnnounceCtx}
      {before after : List SprayOp} {op : SprayOp}
      (busy : (!a.verified || bitleStoreCount st.store == 0) = false)
      (walk : bitleStoreIterate (env.flash 0) env.nowUnixS
        (announceIter env a (candidateTags lib.toCourierHash a.noiseKey a.nowMs)) st.store
        { side := st.side } = .ok (store1, ctx))
      (deletes : applyDeletes env 1 ctx.deliverKeys store1 = .ok store2)
      (ops : ctx.sprayOps = before ++ op :: after)
      (earlier : applySprays lib env (1 + ctx.deliverKeys.length) before store2 = .ok store3) :
      MakesPut lib env st (.announced a)
        ⟨env.flash (1 + ctx.deliverKeys.length + before.length), store3, op.key, op.expiryS,
          op.copies, op.payload⟩

/-! ## The limits -/

/-- The mailbox is within its limits at `t`. -/
structure Within (t : UInt32) (store : StoreState) : Prop where
  total : bitleStoreCount store ≤ bitleCourierMaxEnvelopes
  share : ∀ depositor, depositorCount t depositor store ≤ bitleCourierMaxPerDepositor
  long : ∀ k v, storeMap store k = some v → courierDepositorLen < v.payload.length

section Within

variable {lib : CourierLib} {t t' : UInt32} {store store' : StoreState}

theorem Within.mono (h : Within t store) (hle : t ≤ t') : Within t' store :=
  ⟨h.total, fun depositor => (depositorCount_mono hle depositor store).trans (h.share depositor),
    h.long⟩

theorem Within.inherits (h : Within t store) (hin : Inherits store store')
    (hg : StoreGood lib.crc32 t store) (hg' : StoreGood lib.crc32 t' store') :
    Within t store' := by
  refine ⟨(hin.count_le hg' hg).trans h.total, fun depositor => ?_, fun k v' hk => ?_⟩
  · exact (hin.depositorCount_le hg' hg t depositor).trans (h.share depositor)
  · obtain ⟨v, hv, hsame⟩ := hin k v' hk
    exact hsame.long (h.long k v hv)

/-! ### Deposits -/

variable {env : CourierEnv} {st st' : CourierState}

theorem parseEnvelope_pos {p : List UInt8} {envelope : Envelope}
    (h : parseEnvelope p = some envelope) : 1 ≤ p.length := by
  cases p with
  | nil => cases h
  | cons b p => exact Nat.succ_pos _

/-- A deposit that was stored under a new key has made its put. -/
theorem accept_makesPut (hg : StoreGood lib.crc32 t st.store) {d : Deposit}
    {envelope : Envelope} (hadm : d.admissible = some envelope)
    (hnone : storeMap st.store (envelopeKey lib.toCourierHash envelope) = none)
    (heq : bitleCourierAccept lib env d st = .ok (true, st')) :
    ∃ p, MakesPut lib env st (.accept d) p := by
  unfold bitleCourierAccept at heq
  rw [hadm] at heq
  dsimp only at heq
  split at heq
  · cases heq
  · next hfull =>
    obtain ⟨store1, hcontains, hg1, -⟩ := hg.contains (envelopeKey lib.toCourierHash envelope)
    rw [hnone] at hcontains
    rw [hcontains] at heq
    simp only [bind, Except.bind] at heq
    rw [if_neg (by decide)] at heq
    rcases iterate_depositorCount hg1.lock (env.flash 0) env.nowUnixS d.depositor with
      ⟨-, hnull⟩ | ⟨store2, -, -, hcount⟩
    · rw [hnull] at heq
      cases heq
    · rw [hcount] at heq
      dsimp only at heq
      split at heq
      · cases heq
      · next hquota =>
        exact ⟨_, .accept hadm (Nat.not_le.mp hfull) hcontains hcount (Nat.not_le.mp hquota)⟩

/-- What such a put means: the mailbox was not full, and the depositor's share of it neither. -/
theorem MakesPut.accept_limits {d : Deposit} {p : PutCall}
    (h : MakesPut lib env st (.accept d) p) (hg : StoreGood lib.crc32 t st.store)
    (henv : env.FlashGood) :
    bitleStoreCount st.store < bitleCourierMaxEnvelopes ∧
      (∃ store1, StoreGood lib.crc32 t store1 ∧ storeMap store1 = storeMap st.store ∧
        (shownRecords .good env.nowUnixS store1).countP (depositedBy d.depositor) <
          bitleCourierMaxPerDepositor) ∧
      StoreGood lib.crc32 t p.store ∧ Inherits st.store p.store := by
  cases h with
  | accept adm room unknown walk share =>
    obtain ⟨store1, hcontains, hg1, -, hmap1⟩ :=
      hg.contains (envelopeKey lib.toCourierHash _)
    rw [hcontains, Except.ok.injEq, Prod.mk.injEq] at unknown
    obtain ⟨-, rfl⟩ := unknown
    obtain ⟨store2, hcollect, hg2, -, hmap2, -⟩ := hg1.iterate env.nowUnixS
    rcases iterate_depositorCount hg1.lock .good env.nowUnixS d.depositor with
      ⟨hnull, -⟩ | ⟨store', -, hcollect', hcount⟩
    · rw [hnull] at hcollect
      cases hcollect
    · rw [hcollect', Except.ok.injEq, Prod.mk.injEq] at hcollect
      obtain ⟨rfl, -⟩ := hcollect
      rw [henv 0, hcount, Except.ok.injEq, Prod.mk.injEq] at walk
      obtain ⟨rfl, rfl⟩ := walk
      rw [hmap1] at hmap2
      exact ⟨room, ⟨store1, hg1, hmap1, share⟩, hg2, inherits_of_filter hmap2⟩

/-- A new record, and the rest inherited. -/
theorem Within.insert (h : Within t store) {key : StoreKey} {w : StoreValue} {depositor : Bytes 8}
    (hother : ∀ k v, k ≠ key → storeMap store' k = some v → storeMap store k = some v)
    (hkey : storeMap store' key = some w) (hw : w.carries depositor = true)
    (hlong : courierDepositorLen < w.payload.length)
    (hfull : bitleStoreCount store < bitleCourierMaxEnvelopes)
    (hshare : depositorCount t depositor store < bitleCourierMaxPerDepositor)
    (hg : StoreGood lib.crc32 t store) (hg' : StoreGood lib.crc32 t' store') :
    Within t store' := by
  have hpartner : ∀ k v, (k, v) ∈ bindings store' → (k, v) ∈ (key, w) :: bindings store := by
    intro k v hmem
    rw [hg'.mem_bindings] at hmem
    by_cases hk : k = key
    · subst hk
      rw [hkey, Option.some.injEq] at hmem
      rw [hmem]
      exact List.mem_cons_self
    · exact List.mem_cons_of_mem _ (hg.mem_bindings.mpr (hother k v hk hmem))
  have hcount : ∀ p : StoreKey × StoreValue → Bool,
      (bindings store').countP p ≤ ((key, w) :: bindings store).countP p := by
    intro p
    apply countP_le_of_keys hg'.bindings_nodup
    rintro ⟨k, v⟩ hmem hp
    exact ⟨(k, v), hpartner k v hmem, hp, rfl⟩
  refine ⟨?_, fun dep => ?_, fun k v hk => ?_⟩
  · have hlen := hcount fun _ => true
    rw [List.countP_true, List.length_cons, length_bindings, length_bindings] at hlen
    omega
  · refine (hcount _).trans ?_
    rw [List.countP_cons]
    by_cases hdep : (w.fresh t && w.carries dep) = true
    · -- only the depositor's own count grows
      have hsame : dep = depositor := by
        rw [Bool.and_eq_true] at hdep
        exact Subtype.ext ((beq_iff_eq.mp hdep.2).symm.trans (beq_iff_eq.mp hw))
      rw [if_pos hdep, hsame]
      exact hshare
    · rw [if_neg hdep]
      exact h.share dep
  · by_cases hk' : k = key
    · subst hk'
      rw [hkey, Option.some.injEq] at hk
      exact hk ▸ hlong
    · exact h.long k v (hother k v hk' hk)

/-- What the walk of a deposit counts is the depositor's share. -/
theorem Within.depositorCount_le (h : Within t store) (depositor : Bytes 8)
    (hg : StoreGood lib.crc32 t store) {store1 : StoreState} (hg1 : StoreGood lib.crc32 t' store1)
    (hmap : storeMap store1 = storeMap store) (now : UInt32) :
    depositorCount now depositor store ≤
      (shownRecords .good now store1).countP (depositedBy depositor) := by
  obtain ⟨-, -, -, -, -, -, hshown⟩ := hg1.iterate now
  apply countP_le_of_keys hg.bindings_nodup
  rintro ⟨k, v⟩ hmem hx
  rw [Bool.and_eq_true] at hx
  have hk := hg.mem_bindings.mp hmem
  refine ⟨(k, v), (hshown k v).mpr ⟨by rw [hmap]; exact hk, hx.1⟩, ?_, rfl⟩
  unfold depositedBy
  rw [decide_eq_true (h.long k v hk), Bool.true_and]
  exact hx.2

/-- **A deposit** keeps the limits. -/
theorem Within.accept (h : Within env.nowUnixS st.store)
    (hg : StoreGood lib.crc32 env.nowUnixS st.store) (henv : env.FlashGood) (d : Deposit)
    (hstep : courierStep lib st env (.accept d) = .ok st') :
    StoreGood lib.crc32 env.nowUnixS st'.store ∧ Within env.nowUnixS st'.store := by
  obtain ⟨stored, store', heq, hg', hcases⟩ := accept_cases hg henv d
  rw [courierStep, heq] at hstep
  cases hstep
  refine ⟨hg', ?_⟩
  cases hcases with
  | refused why map =>
    exact h.inherits (inherits_of_sub fun k v hk => by rw [← map]; exact hk) hg hg'
  | known adm found map =>
    exact h.inherits (inherits_of_sub fun k v hk => by rw [← map]; exact hk) hg hg'
  | overQuota mail map => exact h.inherits (inherits_of_filter map) hg hg'
  | stored adm unknown bound other erased =>
    obtain ⟨p, hp⟩ := accept_makesPut hg adm unknown heq
    obtain ⟨hfull, ⟨store1, hg1, hmap1, hquota⟩, -⟩ := hp.accept_limits hg henv
    obtain ⟨hparse, -⟩ := Deposit.admissible_eq_some adm
    refine h.insert ?_ bound ?_ ?_ hfull
      ((h.depositorCount_le d.depositor hg hg1 hmap1 env.nowUnixS).trans_lt hquota) hg hg'
    · intro k v hk hv
      rcases other k hk with hkept | ⟨-, hlost⟩
      · rw [hkept, Option.filter_eq_some_iff] at hv
        exact hv.1
      · rw [hlost] at hv
        cases hv
    · exact beq_iff_eq.mpr (List.take_left' d.depositor.property)
    · have hpos := parseEnvelope_pos hparse
      rw [List.length_append, d.depositor.property]
      exact Nat.lt_add_of_pos_right hpos

/-! ### Announces -/

/-- The rewrite stands for a record of `store`. -/
def SprayOp.Stands (store : StoreState) (op : SprayOp) : Prop :=
  ∃ v, storeMap store op.key = some v ∧ SameMail v op.value

theorem encodeEnvelope_pos {envelope : Envelope} {copies : UInt8} {outMax : Nat}
    {enc : List UInt8} (h : encodeEnvelope envelope copies outMax = some enc) : 1 ≤ enc.length := by
  rw [encodeEnvelope, Option.ite_none_left_eq_some, Option.some.injEq] at h
  rw [← h.2]
  exact Nat.succ_pos _

/-- The rewrite of a record stands for it. -/
theorem sameMail_spray {v : StoreValue} {envelope : Envelope} {copies : UInt8} {enc : List UInt8}
    {outMax : Nat} (hparse : parseEnvelope (v.payload.drop courierDepositorLen) = some envelope)
    (henc : encodeEnvelope envelope copies outMax = some enc) :
    SameMail v ⟨v.expiryUnixS, copies, v.payload.take courierDepositorLen ++ enc⟩ := by
  have hlong : courierDepositorLen ≤ v.payload.length := by
    have hpos := parseEnvelope_pos hparse
    rw [List.length_drop] at hpos
    omega
  have htake : (v.payload.take courierDepositorLen).length = courierDepositorLen :=
    List.length_take_of_le hlong
  refine ⟨rfl, List.take_left' htake, fun _ => ?_⟩
  rw [List.length_append, htake]
  exact Nat.lt_add_of_pos_right (encodeEnvelope_pos henc)

/-- **The rewrites of a walk** stand for records it has shown, by induction on these. -/
theorem walk_sprayOps {a : Announce} {tags : List (Bytes 16)} {ctx ctx' : AnnounceCtx}
    {l : List (StoreKey × StoreValue)}
    (h : l.foldlM (announceEntry env a tags) ctx = .ok ctx')
    (hl : ∀ x ∈ l, storeMap store x.1 = some x.2) (hctx : ∀ op ∈ ctx.sprayOps, op.Stands store) :
    ∀ op ∈ ctx'.sprayOps, op.Stands store := by
  induction l generalizing ctx with
  | nil =>
    cases h
    exact hctx
  | cons x l ih =>
    rw [List.foldlM_cons] at h
    cases hx : announceEntry env a tags ctx x with
    | error e =>
      rw [hx] at h
      cases h
    | ok ctx1 =>
      rw [hx] at h
      refine ih h (fun y hy => hl y (List.mem_cons_of_mem _ hy)) fun op hop => ?_
      cases (announceEntry_handled hx).1 with
      | quiet deliver ops sends =>
        rw [ops] at hop
        exact hctx op hop
      | delivered envelope payload parse tag direct deliver ops sends =>
        rw [ops] at hop
        exact hctx op hop
      | sprayed envelope payload parse many unmarked marked deliver ops sends =>
        rw [ops, List.mem_append, Option.mem_toList, Option.map_eq_some_iff] at hop
        rcases hop with hop | ⟨enc, henc, rfl⟩
        · exact hctx op hop
        · exact ⟨x.2, hl x List.mem_cons_self, sameMail_spray parse henc⟩

/-- One rewrite. It may find its record erased by an earlier one, and binds the key again. -/
theorem put_inherits {store0 : StoreState} (hg : StoreGood lib.crc32 t store)
    (hin : Inherits store0 store) {op : SprayOp} (hop : op.Stands store0) :
    ∃ err store', bitleStorePut .good lib.crc32 store op.key op.expiryS op.copies op.payload =
        .ok (err, store') ∧
      StoreGood lib.crc32 t store' ∧ Inherits store0 store' := by
  by_cases hlen : 1 ≤ op.payload.length ∧ op.payload.length ≤ 520
  · obtain ⟨store', bases, heq, hg', -, hkey, hother⟩ :=
      hg.put op.key op.expiryS op.copies hlen.1 hlen.2
    refine ⟨.ok, store', heq, hg', fun k v hk => ?_⟩
    by_cases hkey' : k = op.key
    · subst hkey'
      rw [hkey, Option.some.injEq] at hk
      subst hk
      exact hop
    · rcases hother k hkey' with hkept | ⟨-, hlost⟩
      · rw [hkept] at hk
        exact hin k v hk
      · rw [hlost] at hk
        cases hk
  · exact ⟨.invalidArg, store, bitleStorePut_invalid hlen, hg, hin⟩

/-- The rewrites, by induction on them. -/
theorem applySprays_inherits {store0 : StoreState} (henv : env.FlashGood) {n : Nat}
    {ops : List SprayOp} (hops : ∀ op ∈ ops, op.Stands store0) (hg : StoreGood lib.crc32 t store)
    (hin : Inherits store0 store) (heq : applySprays lib env n ops store = .ok store') :
    StoreGood lib.crc32 t store' ∧ Inherits store0 store' := by
  induction ops generalizing n store with
  | nil =>
    cases heq
    exact ⟨hg, hin⟩
  | cons op ops ih =>
    obtain ⟨err, store1, hput, hg1, hin1⟩ := put_inherits hg hin (hops op List.mem_cons_self)
    rw [applySprays, henv n, hput] at heq
    exact ih (fun op hop => hops op (List.mem_cons_of_mem _ hop)) hg1 hin1 heq

/-- What an announce has when it comes to its rewrites. -/
theorem announce_deferred {a : Announce} {store1 store2 : StoreState} {ctx : AnnounceCtx}
    (hg : StoreGood lib.crc32 t st.store) (henv : env.FlashGood)
    (hwalk : bitleStoreIterate (env.flash 0) env.nowUnixS
      (announceIter env a (candidateTags lib.toCourierHash a.noiseKey a.nowMs)) st.store
      { side := st.side } = .ok (store1, ctx))
    (hdel : applyDeletes env 1 ctx.deliverKeys store1 = .ok store2) :
    StoreGood lib.crc32 t store2 ∧
      (∀ k v, storeMap store2 k = some v → storeMap st.store k = some v) ∧
      ∀ op ∈ ctx.sprayOps, op.Stands st.store := by
  obtain ⟨hfold, hg1, -, hmap1⟩ := iterate_announceWalk hg henv hwalk
  obtain ⟨store', hdel', hg2, -, hdead, hkept⟩ := applyDeletes_spec henv 1 ctx.deliverKeys hg1
  rw [hdel, Except.ok.injEq] at hdel'
  subst hdel'
  obtain ⟨-, -, -, -, -, -, hshown⟩ := hg.iterate env.nowUnixS
  refine ⟨hg2, fun k v hk => ?_, walk_sprayOps hfold ?_ nofun⟩
  · by_cases hin : k ∈ ctx.deliverKeys
    · rw [hdead k hin] at hk
      cases hk
    · rw [hkept k hin, hmap1, Option.filter_eq_some_iff] at hk
      exact hk.1
  · rintro ⟨k, v⟩ hmem
    exact ((hshown k v).mp hmem).1

/-- **An announce** keeps the limits. -/
theorem Within.announced (h : Within env.nowUnixS st.store)
    (hg : StoreGood lib.crc32 env.nowUnixS st.store) (henv : env.FlashGood) (a : Announce)
    (hstep : courierStep lib st env (.announced a) = .ok st') :
    StoreGood lib.crc32 env.nowUnixS st'.store ∧ Within env.nowUnixS st'.store := by
  rw [courierStep] at hstep
  by_cases hnothing : (!a.verified || bitleStoreCount st.store == 0) = true
  · unfold bitleCourierPeerAnnounced at hstep
    rw [if_pos hnothing] at hstep
    cases hstep
    exact ⟨hg, h⟩
  · obtain ⟨store1, ctx, store2, hwalk, hdel, hput, -⟩ :=
      announced_stages (by simpa using hnothing) hstep
    obtain ⟨hg2, hsub2, hops⟩ := announce_deferred hg henv hwalk hdel
    obtain ⟨hg3, hin3⟩ := applySprays_inherits henv hops hg2 (inherits_of_sub hsub2) hput
    exact ⟨hg3, h.inherits hin3 hg hg3⟩

/-! ### Boots and runs -/

/-- The limits do not ask who has the mutex. -/
theorem within_giveLock : Within t (giveLock store) ↔ Within t store :=
  ⟨fun h => ⟨h.total, h.share, h.long⟩, fun h => ⟨h.total, h.share, h.long⟩⟩

/-- **One event**, when it is no boot. A walk that blocks has bound nothing. -/
theorem Within.turn {node node' : CourierNode} {event : CourierEvent}
    (h : Within env.nowUnixS node.state.store) (hg : NodeGood lib env.nowUnixS node)
    (hg' : NodeGood lib env.nowUnixS node') (henv : env.FlashGood) (hboot : event ≠ .boot)
    (hturn : NodeTurn lib env node event node') : Within env.nowUnixS node'.state.store := by
  cases hturn with
  | idle blocked => exact h
  | returns awake step =>
    have hgood := hg.storeGood awake
    cases event with
    | boot => exact absurd rfl hboot
    | accept d => exact (h.accept hgood henv d step).2
    | announced a => exact (h.announced hgood henv a step).2
  | blocks awake announced step kept =>
    have hin : Inherits (giveLock node.state.store) (giveLock _) := inherits_of_sub kept
    exact within_giveLock.mp ((within_giveLock.mpr h).inherits hin hg.good hg'.good)

/-- **A boot** keeps the limits. -/
theorem Within.boot {node : CourierNode} (h : Within t node.state.store)
    (hg : NodeGood lib t node) (henv : env.FlashGood) (hle : t ≤ env.nowUnixS) :
    ∃ st', nodeStep lib node env .boot = .ok ⟨st', false⟩ ∧
      StoreGood lib.crc32 env.nowUnixS st'.store ∧ Within env.nowUnixS st'.store := by
  obtain ⟨st', hstep, hg', hmap⟩ := hg.boot henv hle
  have hin : Inherits (giveLock node.state.store) st'.store := inherits_of_filter hmap
  exact ⟨st', hstep, hg', ((within_giveLock.mpr (h.mono hle)).inherits hin (hg.mono hle).good hg')⟩

/-- The events with their times. -/
def timed (events : List (CourierEnv × CourierEvent)) : List (UInt32 × CourierEvent) :=
  events.map fun e => (e.1.nowUnixS, e.2)

/-- **A life**, by induction on its events: each has an outcome. -/
theorem Within.life {node : CourierNode} (h : Within t node.state.store) (hg : NodeGood lib t node)
    {events : List (CourierEnv × CourierEvent)} (hflash : WorkingFlash events)
    (hclock : ClockFrom t (timed events)) :
    ∃ node' log, courierLife lib node events = .ok (node', log) ∧
      NodeGood lib (lastTime t (timed events)) node' ∧
      Within (lastTime t (timed events)) node'.state.store := by
  induction events generalizing t node with
  | nil => exact ⟨node, [], rfl, hg, h⟩
  | cons e events ih =>
    obtain ⟨env, event⟩ := e
    obtain ⟨henv, hflash'⟩ := hflash.uncons
    have hstep : ∃ node1, nodeStep lib node env event = .ok node1 ∧
        NodeGood lib env.nowUnixS node1 ∧ Within env.nowUnixS node1.state.store := by
      by_cases hboot : event = .boot
      · obtain ⟨st1, hstep, hg1, h1⟩ := h.boot hg henv hclock.1
        exact ⟨⟨st1, false⟩, hboot ▸ hstep, StoreGood.node hg1, h1⟩
      · have hgood := hg.mono hclock.1
        obtain ⟨node1, hstep, hturn, hg1, -⟩ := hgood.turn henv hboot
        exact ⟨node1, hstep, hg1, (h.mono hclock.1).turn hgood hg1 henv hboot hturn⟩
    obtain ⟨node1, hstep, hg1, h1⟩ := hstep
    obtain ⟨node', log, hlife, hend⟩ := ih h1 hg1 hflash' hclock.2
    refine ⟨node', nodeSends lib node env event ++ log, ?_, hend⟩
    rw [courierLife_cons hstep, hlife]
    rfl

/-- An empty mailbox. -/
theorem within_of_empty (hempty : ∀ k, storeMap store k = none) : Within t store := by
  have hcount : bitleStoreCount store = 0 := bitleStoreCount_eq_zero.mpr hempty
  refine ⟨?_, fun depositor => ?_, fun k v hk => ?_⟩
  · rw [hcount]
    exact Nat.zero_le _
  · have hle : depositorCount t depositor store ≤ (bindings store).length := List.countP_le_length
    rw [length_bindings, hcount] at hle
    exact hle.trans (Nat.zero_le _)
  · rw [hempty k] at hk
    cases hk

end Within

/-! ## The quota of the store -/

section Puts

variable {lib : CourierLib} {env : CourierEnv} {t : UInt32} {st st' : CourierState}
  {event : CourierEvent} {p : PutCall}

/-- The store a put finds. -/
theorem MakesPut.store_good (h : MakesPut lib env st event p)
    (hg : StoreGood lib.crc32 t st.store) (henv : env.FlashGood) :
    StoreGood lib.crc32 t p.store ∧ Inherits st.store p.store := by
  cases event with
  | boot => cases h
  | accept d =>
    obtain ⟨-, -, hgood⟩ := h.accept_limits hg henv
    exact hgood
  | announced a =>
    cases h with
    | spray busy walk deletes ops earlier =>
      obtain ⟨hg2, hsub2, hops⟩ := announce_deferred hg henv walk deletes
      refine applySprays_inherits henv (fun op hop => ?_) hg2 (inherits_of_sub hsub2) earlier
      exact hops op (ops ▸ List.mem_append_left _ hop)

theorem length_unbindKey_le (env : FlashEnv) (store : StoreState) (key : StoreKey) :
    (unbindKey env store key).index.length ≤ store.index.length := by
  unfold unbindKey tombstoneEntry
  split
  · exact Nat.le_refl _
  · split
    · exact Nat.le_refl _
    · next e he =>
      obtain ⟨hlt, -⟩ := List.getElem?_eq_some_iff.mp he
      show (swapRemove store.index _).length ≤ _
      rw [← length_swapRemove hlt]
      exact Nat.le_succ _

/-- On a working flash a put does not fail for want of a slot. -/
theorem StoreGood.put_returns {store : StoreState} (hg : StoreGood lib.crc32 t store)
    (key : StoreKey) (expiryUnixS : UInt32) (flags : UInt8) (payload : List UInt8) :
    ∃ err store', bitleStorePut .good lib.crc32 store key expiryUnixS flags payload =
      .ok (err, store') ∧ err ≠ .noMem := by
  by_cases hlen : 1 ≤ payload.length ∧ payload.length ≤ 520
  · obtain ⟨store', bases, heq, -⟩ := hg.put key expiryUnixS flags hlen.1 hlen.2
    exact ⟨.ok, store', heq, nofun⟩
  · exact ⟨.invalidArg, store, bitleStorePut_invalid hlen, nofun⟩

theorem MakesPut.flash_good (h : MakesPut lib env st event p) (henv : env.FlashGood) :
    p.flash = .good := by
  cases h with
  | accept => exact henv 1
  | spray => exact henv _

/-- An event that makes no put only takes bindings away. -/
theorem binds_nothing (hg : StoreGood lib.crc32 t st.store) (henv : env.FlashGood)
    (hboot : event ≠ .boot)
    (hstep : courierStep lib st env event = .ok st') (hno : ∀ p, ¬ MakesPut lib env st event p) :
    ∀ k v, storeMap st'.store k = some v → storeMap st.store k = some v := by
  intro k v hk
  cases event with
  | boot => exact absurd rfl hboot
  | accept d =>
    obtain ⟨stored, store', heq, -, hcases⟩ := accept_cases hg henv d
    rw [courierStep, heq] at hstep
    cases hstep
    cases hcases with
    | refused why map =>
      rw [← map]
      exact hk
    | known adm found map =>
      rw [← map]
      exact hk
    | overQuota mail map =>
      rw [map, Option.filter_eq_some_iff] at hk
      exact hk.1
    | stored adm unknown =>
      obtain ⟨p, hp⟩ := accept_makesPut hg adm unknown heq
      exact absurd hp (hno p)
  | announced a =>
    rw [courierStep] at hstep
    by_cases hnothing : (!a.verified || bitleStoreCount st.store == 0) = true
    · unfold bitleCourierPeerAnnounced at hstep
      rw [if_pos hnothing] at hstep
      cases hstep
      exact hk
    · have hbusy : (!a.verified || bitleStoreCount st.store == 0) = false := by
        simpa using hnothing
      obtain ⟨store1, ctx, store2, hwalk, hdel, hput, -⟩ := announced_stages hbusy hstep
      cases hops : ctx.sprayOps with
      | nil =>
        rw [hops] at hput
        cases hput
        exact (announce_deferred hg henv hwalk hdel).2.1 k v hk
      | cons op ops =>
        -- the first rewrite is a put
        have hops' : ctx.sprayOps = [] ++ op :: ops := hops
        exact absurd (MakesPut.spray hbusy hwalk hdel hops' rfl) (hno _)

/-- The quota loop of a put has nothing to do. -/
theorem MakesPut.quota_idle (h : MakesPut lib env st event p)
    (hg : StoreGood lib.crc32 t st.store) (henv : env.FlashGood)
    (htotal : bitleStoreCount st.store ≤ bitleCourierMaxEnvelopes) :
    p.atQuota.index.length < bitleStoreMaxRecords := by
  obtain ⟨hg', hin⟩ := h.store_good hg henv
  calc p.atQuota.index.length
      ≤ bitleStoreCount p.store := length_unbindKey_le _ _ _
    _ ≤ bitleStoreCount st.store := hin.count_le hg' hg
    _ ≤ bitleCourierMaxEnvelopes := htotal
    _ < bitleStoreMaxRecords := by decide

end Puts

/-- **The limits of the mailbox hold in every life of the courier**, from an erased partition on,
with a working flash and a clock that does not go back: deposits, announces and reboots in any
order, some of the announces blocking the task until the next boot. Whatever call an awake task
handles next, none of its puts finds the quota loop of `bitle_store_put` with something to do, or
fails for want of a slot. -/
theorem mailbox_within_limits (lib : CourierLib) (env : CourierEnv)
    (events : List (CourierEnv × CourierEvent)) (hflash : WorkingFlash ((env, .boot) :: events))
    (hclock : ClockFrom env.nowUnixS (timed events)) :
    ∃ node log,
      courierLife lib ⟨.off blankFlash, false⟩ ((env, .boot) :: events) = .ok (node, log) ∧
      bitleStoreCount node.state.store ≤ bitleCourierMaxEnvelopes ∧
      (∀ depositor now, lastTime env.nowUnixS (timed events) ≤ now →
        depositorCount now depositor node.state.store ≤ bitleCourierMaxPerDepositor) ∧
      (node.blocked = false →
        ∀ (env' : CourierEnv) (event : CourierEvent) (p : PutCall), env'.FlashGood →
          MakesPut lib env' node.state event p →
            p.atQuota.index.length < bitleStoreMaxRecords ∧
            ∃ err store', p.result lib.crc32 = .ok (err, store') ∧ err ≠ .noMem) := by
  obtain ⟨henv, hflash'⟩ := hflash.uncons
  obtain ⟨st0, hboot, hg0, hempty⟩ := nodeStep_firstBoot lib henv
  obtain ⟨node, log, hlife, hgood, h⟩ :=
    (within_of_empty hempty).life (StoreGood.node hg0) hflash' hclock
  refine ⟨node, nodeSends lib ⟨.off blankFlash, false⟩ env .boot ++ log, ?_, h.total,
    fun depositor now hnow => ?_, fun hawake env' event p henv' hput => ?_⟩
  · rw [courierLife_cons hboot, hlife]
    rfl
  · exact (h.mono hnow).share depositor
  · have hg := hgood.storeGood hawake
    obtain ⟨hg', -⟩ := hput.store_good hg henv'
    refine ⟨hput.quota_idle hg henv' h.total, ?_⟩
    rw [PutCall.result, hput.flash_good henv']
    exact hg'.put_returns p.key p.expiryUnixS p.flags p.payload

/-! ### The letter with four copies again -/

/-- The letter is deposited; then its carrier is heard. -/
def fourCopiesFlags : Except StoreFault (Option UInt8 × Option UInt8) := do
  let st ← courierRun plainLib (.off blankFlash)
    [(wedgeEnv, .boot), (wedgeEnv, .accept fourCopiesDeposit)]
  let st' ← courierStep plainLib st wedgeEnv (.announced carrierHeard)
  let key := envelopeKey plainLib.toCourierHash fourCopies
  return ((storeMap st.store key).map (·.flags), (storeMap st'.store key).map (·.flags))

theorem mailbox_within_limits_letter :
    ∃ st p,
      courierRun plainLib (.off blankFlash)
        [(wedgeEnv, .boot), (wedgeEnv, .accept fourCopiesDeposit)] = .ok st ∧
      MakesPut plainLib wedgeEnv st (.announced carrierHeard) p ∧
      bitleStoreCount st.store ≤ bitleCourierMaxEnvelopes ∧
      depositorCount 1 fourCopiesDeposit.depositor st.store ≤ bitleCourierMaxPerDepositor ∧
      p.atQuota.index.length < bitleStoreMaxRecords := by
  have hflags : fourCopiesFlags.toOption = some (some 4, some 2) := by decide +kernel
  unfold fourCopiesFlags at hflags
  have hgood : wedgeEnv.FlashGood := fun _ => rfl
  have hflash : WorkingFlash [(wedgeEnv, .boot), (wedgeEnv, .accept fourCopiesDeposit)] :=
    workingFlash_wedge (by simp)
  have hclock : ClockFrom wedgeEnv.nowUnixS (timed [(wedgeEnv, .accept fourCopiesDeposit)]) := by
    decide
  cases hst : courierRun plainLib (.off blankFlash)
      [(wedgeEnv, .boot), (wedgeEnv, .accept fourCopiesDeposit)] with
  | error e => simp [hst, bind, Except.bind, Except.toOption] at hflags
  | ok st =>
    cases hst' : courierStep plainLib st wedgeEnv (.announced carrierHeard) with
    | error e => simp [hst, hst', bind, Except.bind, Except.toOption] at hflags
    | ok st' =>
      simp only [hst, hst', bind, Except.bind, Except.toOption, pure, Except.pure,
        Option.some.injEq, Prod.mk.injEq] at hflags
      obtain ⟨log, hlife⟩ := courierLife_of_run hst
      obtain ⟨node, log', heq, htotal, hshare, hputs⟩ := mailbox_within_limits plainLib wedgeEnv
        [(wedgeEnv, .accept fourCopiesDeposit)] hflash hclock
      rw [hlife, Except.ok.injEq, Prod.mk.injEq] at heq
      obtain ⟨rfl, -⟩ := heq
      -- the letter is rewritten, so there is a put
      have hput : ∃ p, MakesPut plainLib wedgeEnv st (.announced carrierHeard) p := by
        by_contra hno
        obtain ⟨t, hg⟩ := Reached.storeGood ⟨wedgeEnv, _, log, hflash, trivial, hlife⟩
        obtain ⟨v, hv, htwo⟩ := Option.map_eq_some_iff.mp hflags.2
        have hboot : CourierEvent.announced carrierHeard ≠ .boot := by simp
        have hsame := binds_nothing hg hgood hboot hst' (fun p hp => hno ⟨p, hp⟩) _ v hv
        rw [hsame, Option.map_some, htwo] at hflags
        exact absurd hflags.1 (by decide)
      obtain ⟨p, hp⟩ := hput
      exact ⟨st, p, rfl, hp, htotal, hshare _ 1 (by decide), (hputs rfl wedgeEnv _ p hgood hp).1⟩

end Bitle
