import Bitle.Courier.Life

/-!
# Bitle — the copies of an envelope (`main/bitle_courier.c`)

An envelope is deposited with a number of copies. Each spray gives half of what is left to one
carrier, and the rest is written back after the walk; the carriers that got some are marked in the
side table. `Kept` is what holds of an envelope as long as it is in the mailbox: what was given
away and what is left make up what was deposited, and no carrier was given some twice.

The rest is written back only if the walk returns. An announce that finds no slot for a later
record does not, and the copies it has sent by then stay in the mailbox too
(`blocked_announce_keeps_sprayed_copies`); announces that find room conserve them
(`envelope_copies_conserved`).
-/

namespace Bitle

open Wire Flash Slots

/-! ## Who was sprayed -/

/-- The first slot of `key`, as `side_get` finds it. -/
def SideTable.find (side : SideTable) (key : StoreKey) : Option SideState :=
  side.val.find? fun s => s.inUse && s.key == key

/-- The carrier is marked for the envelope. Marks of several carriers may coincide. -/
def SideTable.sprayed (side : SideTable) (key : StoreKey) (peerId : Bytes 8) : Bool :=
  match side.find key with
  | none => false
  | some s => s.sprayedMask &&& peerBit peerId != 0

/-- Marks stay. -/
def MarksStay (side side' : SideTable) : Prop :=
  ∀ key peerId, side.sprayed key peerId = true → side'.sprayed key peerId = true

theorem MarksStay.trans {side side' side'' : SideTable} (h : MarksStay side side')
    (h' : MarksStay side' side'') : MarksStay side side'' :=
  fun key peerId hs => h' key peerId (h key peerId hs)

theorem peerBit_ne_zero (peerId : Bytes 8) : peerBit peerId ≠ 0 := by
  unfold peerBit
  dsimp only
  generalize peerId.val.foldl (fun h b => (h ^^^ b.toUInt32) * 16777619) (2166136261 : UInt32) = h
  intro hzero
  have hlt : (h &&& 31).toNat < 32 := by
    rw [UInt32.toNat_and]
    exact Nat.lt_of_le_of_lt Nat.and_le_right (by decide)
  have hval := congrArg UInt32.toNat hzero
  rw [UInt32.toNat_shiftLeft, Nat.mod_eq_of_lt hlt, show (1 : UInt32).toNat = 1 from rfl,
    Nat.one_shiftLeft, Nat.mod_eq_of_lt (Nat.pow_lt_pow_right (by decide) hlt)] at hval
  exact absurd hval (Nat.ne_of_gt (Nat.two_pow_pos _))

theorem mark_and_ne_zero {mask bit q : UInt32} (h : mask &&& q ≠ 0 ∨ bit &&& q ≠ 0) :
    (mask ||| bit) &&& q ≠ 0 := by
  have hdist : ((mask ||| bit) &&& q).toNat = (mask &&& q).toNat ||| (bit &&& q).toNat := by
    rw [UInt32.toNat_and, UInt32.toNat_or, UInt32.toNat_and, UInt32.toNat_and,
      Nat.and_or_distrib_right]
  intro hzero
  rw [hzero] at hdist
  obtain ⟨h1, h2⟩ := Nat.or_eq_zero_iff.mp hdist.symm
  rcases h with h | h
  · exact h (UInt32.toNat_inj.mp h1)
  · exact h (UInt32.toNat_inj.mp h2)

section Side

variable {side : SideTable} {key : StoreKey} {i : Nat} {s : SideState}

/-- Slot `i` is the first one of `key`, or it is free and there is none. -/
def SideTable.SlotOf (side : SideTable) (key : StoreKey) (i : Nat) : Prop :=
  side.val.findIdx? (fun s => s.inUse && s.key == key) = some i ∨
    (side.find key = none ∧ side.val.findIdx? (fun s => !s.inUse) = some i)

theorem SideTable.find_of_first
    (h : side.val.findIdx? (fun s => s.inUse && s.key == key) = some i) :
    side.find key = some (side.slot i) ∧ (side.slot i).inUse = true ∧
      (side.slot i).key = key := by
  have hget := find?_of_findIdx? h
  obtain ⟨hlt, -⟩ := List.findIdx?_eq_some_iff_findIdx_eq.mp h
  have hslot : side.val[i]? = some (side.slot i) := by
    rw [SideTable.slot, List.getD_eq_getElem?_getD, List.getElem?_eq_getElem hlt, Option.getD_some]
  rw [hslot] at hget
  have hkey := List.find?_some hget
  rw [Bool.and_eq_true] at hkey
  exact ⟨hget, hkey.1, beq_iff_eq.mp hkey.2⟩

/-- A slot of `key` that is written is the first one of `key`. -/
theorem SideTable.first_set (h : side.SlotOf key i) (hs : s.inUse = true ∧ s.key = key) :
    (side.set i s).val.findIdx? (fun s => s.inUse && s.key == key) = some i := by
  apply findIdx?_set_of_pos
  · rcases h with h | ⟨hnone, hfree⟩
    · exact .inl h
    · exact .inr ⟨hnone, (List.findIdx?_eq_some_iff_findIdx_eq.mp hfree).1⟩
  · rw [hs.1, hs.2, beq_self_eq_true]
    rfl

theorem SideTable.find_set_self (h : side.SlotOf key i) (hs : s.inUse = true ∧ s.key = key) :
    (side.set i s).find key = some s := by
  have hfirst := first_set h hs
  obtain ⟨hlt, -⟩ := List.findIdx?_eq_some_iff_findIdx_eq.mp hfirst
  rw [SideTable.set, List.length_set] at hlt
  rw [SideTable.find, find?_of_findIdx? hfirst, SideTable.set, List.getElem?_set_self hlt]

theorem SideTable.find_set_other (h : side.SlotOf key i) (hs : s.key = key) {k : StoreKey}
    (hk : k ≠ key) : (side.set i s).find k = side.find k := by
  have hother : ∀ x : SideState, x.key = key → (x.inUse && x.key == k) = false := by
    intro x hx
    rw [hx, beq_eq_false_iff_ne.mpr (Ne.symm hk), Bool.and_false]
  apply find?_set_of_neg
  · intro b hb
    rcases h with h | ⟨-, hfree⟩
    · -- the slot of `key` is not one of `k`
      have hfound := find?_of_findIdx? h
      rw [hb] at hfound
      have hkey := List.find?_some hfound
      rw [Bool.and_eq_true] at hkey
      exact hother b (beq_iff_eq.mp hkey.2)
    · have hfound := find?_of_findIdx? hfree
      rw [hb] at hfound
      have hidle := List.find?_some hfound
      rw [Bool.not_eq_true'] at hidle
      rw [hidle, Bool.false_and]
  · exact hother s hs

/-- Writing a slot of `key` keeps the marks, if it keeps those of `key`. -/
theorem marksStay_set (h : side.SlotOf key i) (hs : s.inUse = true ∧ s.key = key)
    (hmask : ∀ s', side.find key = some s' → ∀ q, s'.sprayedMask &&& q ≠ 0 →
      s.sprayedMask &&& q ≠ 0) : MarksStay side (side.set i s) := by
  intro k peerId hsprayed
  by_cases hk : k = key
  · subst hk
    rw [SideTable.sprayed] at hsprayed ⊢
    rw [SideTable.find_set_self h hs]
    cases hfind : side.find k with
    | none =>
      rw [hfind] at hsprayed
      cases hsprayed
    | some s' =>
      rw [hfind] at hsprayed
      exact bne_iff_ne.mpr (hmask s' hfind _ (bne_iff_ne.mp hsprayed))
  · rw [SideTable.sprayed, SideTable.find_set_other h hs.2 hk]
    exact hsprayed

/-- Marking a carrier in the slot of `key`. -/
theorem marksStay_mark (h : side.val.findIdx? (fun s => s.inUse && s.key == key) = some i)
    (peerId : Bytes 8) :
    MarksStay side (side.set i { side.slot i with
        sprayedMask := (side.slot i).sprayedMask ||| peerBit peerId }) ∧
      (side.set i { side.slot i with
        sprayedMask := (side.slot i).sprayedMask ||| peerBit peerId }).sprayed key peerId = true := by
  obtain ⟨hfind, huse, hkey⟩ := SideTable.find_of_first h
  generalize hs : ({ side.slot i with
    sprayedMask := (side.slot i).sprayedMask ||| peerBit peerId } : SideState) = s
  have hslot : s.inUse = true ∧ s.key = key := by
    rw [← hs]
    exact ⟨huse, hkey⟩
  have hmask : s.sprayedMask = (side.slot i).sprayedMask ||| peerBit peerId := by rw [← hs]
  refine ⟨marksStay_set (.inl h) hslot ?_, ?_⟩
  · intro s' hs' q hq
    rw [hfind, Option.some.injEq] at hs'
    rw [hmask, hs']
    exact mark_and_ne_zero (.inl hq)
  · rw [SideTable.sprayed, SideTable.find_set_self (.inl h) hslot]
    apply bne_iff_ne.mpr
    rw [hmask]
    apply mark_and_ne_zero
    right
    rw [UInt32.and_self]
    exact peerBit_ne_zero peerId

/-- **`side_get`**, with the mutex held: the slot it returns is the first one of `key`, and no
mark is lost. -/
theorem sideGet_spec {j : Option Nat} {side' : SideTable}
    (h : sideGet heldStore side key true = .ok (j, side')) :
    MarksStay side side' ∧ ∀ i, j = some i →
      side'.val.findIdx? (fun s => s.inUse && s.key == key) = some i := by
  unfold sideGet at h
  cases hfind : side.val.findIdx? fun s => s.inUse && s.key == key with
  | some i =>
    rw [hfind] at h
    cases h
    refine ⟨fun _ _ hs => hs, fun i' hi => ?_⟩
    cases hi
    exact hfind
  | none =>
    have hnone : side.find key = none := by
      rw [SideTable.find, List.find?_eq_none]
      intro x hx
      rw [List.findIdx?_eq_none_iff.mp hfind x hx]
      decide
    rw [hfind] at h
    dsimp only at h
    rw [if_neg (by decide)] at h
    cases hfree : side.val.findIdx? fun s => !s.inUse with
    | some i =>
      rw [hfree] at h
      cases h
      have hslot : side.SlotOf key i := .inr ⟨hnone, hfree⟩
      refine ⟨marksStay_set hslot ⟨rfl, rfl⟩ ?_, fun i' hi => ?_⟩
      · intro s' hs'
        rw [hnone] at hs'
        cases hs'
      · cases hi
        exact SideTable.first_set hslot ⟨rfl, rfl⟩
    | none =>
      -- no slot is free: the search for one to reclaim takes the mutex again
      rw [hfree, reclaimSide_held rfl rfl] at h
      cases h

/-- A key that has no slot gets a free one, with no mark in it. -/
theorem sideGet_new (store : StoreState) (hnot : key ∉ owned side.owners)
    (hvac : vacancies side.owners ≠ 0) :
    ∃ i side', sideGet store side key true = .ok (some i, side') ∧
      (side'.slot i).sprayedMask = 0 := by
  -- no slot has the key
  have hnone : side.val.findIdx? (fun s => s.inUse && s.key == key) = none := by
    rw [List.findIdx?_eq_none_iff]
    intro s hs
    by_contra hfound
    rw [Bool.not_eq_false, Bool.and_eq_true, beq_iff_eq] at hfound
    apply hnot
    rw [mem_owned]
    refine List.mem_map.mpr ⟨s, hs, ?_⟩
    rw [SideState.owner, if_pos hfound.1, hfound.2]
  unfold sideGet
  rw [hnone]
  dsimp only
  rw [if_neg (by decide)]
  cases hfree : side.val.findIdx? fun s => !s.inUse with
  | none =>
    exfalso
    apply hvac
    rw [vacancies_eq_zero]
    intro hmem
    obtain ⟨s, hs, howner⟩ := List.mem_map.mp hmem
    have huse := List.findIdx?_eq_none_iff.mp hfree s hs
    rw [Bool.not_eq_false'] at huse
    rw [SideState.owner, if_pos huse] at howner
    cases howner
  | some i =>
    refine ⟨i, side.set i { inUse := true, key }, rfl, ?_⟩
    obtain ⟨hlt, -⟩ := List.findIdx?_eq_some_iff_findIdx_eq.mp hfree
    have hget : (side.set i { inUse := true, key }).val[i]? = some { inUse := true, key } := by
      rw [SideTable.set, List.getElem?_set_self hlt]
    rw [SideTable.slot, List.getD_eq_getElem?_getD, hget]
    rfl

end Side

/-! ## One record of the walk -/

/-- The copies of a record: its flags, which are never zero for a deposit. -/
def recordCopies (v : StoreValue) : UInt8 := if v.flags ≠ 0 then v.flags else 1

theorem recordCopies_of_pos {v : StoreValue} (h : 1 ≤ v.flags) : recordCopies v = v.flags := by
  apply if_pos
  intro hzero
  rw [hzero, UInt8.le_iff_toNat_le] at h
  exact absurd h (by decide)

/-- What a spray leaves of the copies. -/
theorem toNat_rest (copies : UInt8) :
    (copies - copies / 2).toNat = copies.toNat - copies.toNat / 2 := by
  have hdiv : (copies / 2).toNat = copies.toNat / 2 := UInt8.toNat_div copies 2
  have hhalf : copies / 2 ≤ copies := by
    rw [UInt8.le_iff_toNat_le, hdiv]
    omega
  rw [UInt8.toNat_sub_of_le _ _ hhalf, hdiv]

theorem rest_le (copies : UInt8) : copies - copies / 2 ≤ copies := by
  rw [UInt8.le_iff_toNat_le, toNat_rest]
  exact Nat.sub_le _ _

/-- What the walk does with the record `x`: nothing that lasts, a delivery, or a spray. A flood
and a failed send leave no more than an entry in `sends`. -/
inductive Handled (a : Announce) (tags : List (Bytes 16)) (ctx : AnnounceCtx)
    (x : StoreKey × StoreValue) (ctx' : AnnounceCtx) : Prop
  | quiet (deliver : ctx'.deliverKeys = ctx.deliverKeys) (ops : ctx'.sprayOps = ctx.sprayOps)
      (sends : ∃ new, ctx'.sends = ctx.sends ++ new ∧
        ∀ s ∈ new, s.key = x.1 ∧ ¬ (s.kind = .spray ∧ s.ok = true))
  | delivered (envelope : Envelope) (payload : List UInt8)
      (parse : parseEnvelope (x.2.payload.drop courierDepositorLen) = some envelope)
      (tag : tagMatches envelope tags = true) (direct : a.isDirect = true)
      (deliver : ctx'.deliverKeys = ctx.deliverKeys ++ [x.1]) (ops : ctx'.sprayOps = ctx.sprayOps)
      (sends : ctx'.sends = ctx.sends ++ [⟨.deliver, x.1, payload, 1, true⟩])
  | sprayed (envelope : Envelope) (payload : List UInt8)
      (parse : parseEnvelope (x.2.payload.drop courierDepositorLen) = some envelope)
      (many : recordCopies x.2 > 1)
      (unmarked : ctx.side.sprayed x.1 a.peerId = false)
      (marked : ctx'.side.sprayed x.1 a.peerId = true)
      (deliver : ctx'.deliverKeys = ctx.deliverKeys)
      (ops : ctx'.sprayOps = ctx.sprayOps ++
        ((encodeEnvelope envelope (recordCopies x.2 - recordCopies x.2 / 2)
          (bitleStorePayloadMax - courierDepositorLen)).map fun enc =>
            ⟨x.1, x.2.expiryUnixS, recordCopies x.2 - recordCopies x.2 / 2,
              x.2.payload.take courierDepositorLen ++ enc⟩).toList)
      (sends : ctx'.sends =
        ctx.sends ++ [⟨.spray, x.1, payload, recordCopies x.2 / 2, true⟩])

/-- A send is recorded once it is encoded, and changes nothing else. -/
theorem sendEnvelope_cases {env : CourierEnv} {ctx ctx' : AnnounceCtx} {kind : HandoffKind}
    {key : StoreKey} {envelope : Envelope} {copies : UInt8} {ok : Bool}
    (h : sendEnvelope env ctx kind key envelope copies = (ok, ctx')) :
    (ok = false ∧ ctx' = ctx) ∨
      ∃ payload, ctx' = { ctx with sends := ctx.sends ++ [⟨kind, key, payload, copies, ok⟩] } := by
  unfold sendEnvelope at h
  split at h
  · cases h
    exact .inl ⟨rfl, rfl⟩
  · next payload _ =>
    cases h
    exact .inr ⟨payload, rfl⟩

section Entry

variable {env : CourierEnv} {a : Announce} {tags : List (Bytes 16)} {ctx ctx' : AnnounceCtx}
  {x : StoreKey × StoreValue} {envelope : Envelope}

theorem deliverMail_handled
    (parse : parseEnvelope (x.2.payload.drop courierDepositorLen) = some envelope)
    (tag : tagMatches envelope tags = true) (direct : a.isDirect = true) :
    Handled a tags ctx x (deliverMail env ctx x.1 envelope) ∧
      MarksStay ctx.side (deliverMail env ctx x.1 envelope).side := by
  have hstay : MarksStay ctx.side (deliverMail env ctx x.1 envelope).side := by
    rw [(deliverMail_ctx env ctx x.1 envelope).1]
    exact fun _ _ hs => hs
  refine ⟨?_, hstay⟩
  unfold deliverMail
  split
  · split
    · next ctx1 hsend =>
      rcases sendEnvelope_cases hsend with ⟨hfalse, -⟩ | ⟨payload, rfl⟩
      · cases hfalse
      · exact .delivered envelope payload parse tag direct rfl rfl rfl
    · next ctx1 hsend =>
      rcases sendEnvelope_cases hsend with ⟨-, rfl⟩ | ⟨payload, rfl⟩
      · exact .quiet rfl rfl ⟨[], (List.append_nil _).symm, nofun⟩
      · refine .quiet rfl rfl ⟨_, rfl, fun s hs => ?_⟩
        rw [List.mem_singleton.mp hs]
        exact ⟨rfl, nofun⟩
  · exact .quiet rfl rfl ⟨[], (List.append_nil _).symm, nofun⟩

theorem floodRemote_handled
    (h : floodRemote env a.nowMs heldStore ctx x.1 envelope = .ok ctx') :
    Handled a tags ctx x ctx' ∧ MarksStay ctx.side ctx'.side := by
  unfold floodRemote at h
  cases hget : sideGet heldStore ctx.side x.1 true with
  | error e =>
    rw [hget] at h
    cases h
  | ok r =>
    obtain ⟨slot, side⟩ := r
    obtain ⟨hstay, hslot⟩ := sideGet_spec hget
    simp only [hget, bind, Except.bind, pure, Except.pure] at h
    cases slot with
    | none =>
      cases h
      exact ⟨.quiet rfl rfl ⟨[], (List.append_nil _).symm, nofun⟩, hstay⟩
    | some i =>
      dsimp only at h
      have hfirst := hslot i rfl
      obtain ⟨hfind, huse, hkey⟩ := SideTable.find_of_first hfirst
      -- the cooldown is written, the mark is not touched
      have hset : MarksStay ctx.side
          (side.set i { side.slot i with lastRemoteS := (a.nowMs / 1000).toUInt32 }) := by
        refine hstay.trans (marksStay_set (.inl hfirst) ⟨huse, hkey⟩ ?_)
        intro s' hs' q hq
        rw [hfind, Option.some.injEq] at hs'
        subst hs'
        exact hq
      split at h
      · split at h
        · next ctx1 hsend =>
          cases h
          rcases sendEnvelope_cases hsend with ⟨hfalse, -⟩ | ⟨payload, rfl⟩
          · cases hfalse
          · refine ⟨.quiet rfl rfl ⟨_, rfl, fun s hs => ?_⟩, hset⟩
            rw [List.mem_singleton.mp hs]
            exact ⟨rfl, fun hk => nomatch hk.1⟩
        · next ctx1 hsend =>
          cases h
          rcases sendEnvelope_cases hsend with ⟨-, rfl⟩ | ⟨payload, rfl⟩
          · exact ⟨.quiet rfl rfl ⟨[], (List.append_nil _).symm, nofun⟩, hset⟩
          · refine ⟨.quiet rfl rfl ⟨_, rfl, fun s hs => ?_⟩, hset⟩
            rw [List.mem_singleton.mp hs]
            exact ⟨rfl, fun hk => nomatch hk.1⟩
      · cases h
        exact ⟨.quiet rfl rfl ⟨[], (List.append_nil _).symm, nofun⟩, hstay⟩

theorem sprayCarrier_handled
    (parse : parseEnvelope (x.2.payload.drop courierDepositorLen) = some envelope)
    (many : recordCopies x.2 > 1)
    (h : sprayCarrier env a.peerId heldStore ctx x.1 x.2.expiryUnixS (recordCopies x.2)
      x.2.payload envelope = .ok ctx') :
    Handled a tags ctx x ctx' ∧ MarksStay ctx.side ctx'.side := by
  unfold sprayCarrier at h
  cases hget : sideGet heldStore ctx.side x.1 true with
  | error e =>
    rw [hget] at h
    cases h
  | ok r =>
    obtain ⟨slot, side⟩ := r
    obtain ⟨hstay, hslot⟩ := sideGet_spec hget
    simp only [hget, bind, Except.bind, pure, Except.pure] at h
    cases slot with
    | none =>
      cases h
      exact ⟨.quiet rfl rfl ⟨[], (List.append_nil _).symm, nofun⟩, hstay⟩
    | some i =>
      dsimp only at h
      have hfirst := hslot i rfl
      obtain ⟨hfind, huse, hkey⟩ := SideTable.find_of_first hfirst
      split at h
      · cases h
        exact ⟨.quiet rfl rfl ⟨[], (List.append_nil _).symm, nofun⟩, hstay⟩
      · next hmask =>
        have hmask' : (side.slot i).sprayedMask &&& peerBit a.peerId = 0 := not_not.mp hmask
        split at h
        · next ctx1 hsend =>
          cases h
          rcases sendEnvelope_cases hsend with ⟨-, rfl⟩ | ⟨payload, rfl⟩
          · exact ⟨.quiet rfl rfl ⟨[], (List.append_nil _).symm, nofun⟩, hstay⟩
          · refine ⟨.quiet rfl rfl ⟨_, rfl, fun s hs => ?_⟩, hstay⟩
            rw [List.mem_singleton.mp hs]
            exact ⟨rfl, fun hk => nomatch hk.2⟩
        · next ctx1 hsend =>
          rcases sendEnvelope_cases hsend with ⟨hfalse, -⟩ | ⟨payload, rfl⟩
          · cases hfalse
          · -- the carrier had no mark, or `side_get` would have shown it
            have hunmarked : ctx.side.sprayed x.1 a.peerId = false := by
              by_contra hs
              have hmarked := hstay _ _ (by simpa using hs)
              rw [SideTable.sprayed, hfind] at hmarked
              exact bne_iff_ne.mp hmarked hmask'
            obtain ⟨hset, hmarked⟩ := marksStay_mark hfirst a.peerId
            have hmarks := hstay.trans hset
            split at h
            · next henc =>
              cases h
              refine ⟨.sprayed envelope payload parse many hunmarked hmarked rfl ?_ rfl, hmarks⟩
              rw [henc]
              exact (List.append_nil _).symm
            · next enc henc =>
              cases h
              refine ⟨.sprayed envelope payload parse many hunmarked hmarked rfl ?_ rfl, hmarks⟩
              rw [henc]
              rfl

/-- **One record of the walk.** -/
theorem announceEntry_handled (h : announceEntry env a tags ctx x = .ok ctx') :
    Handled a tags ctx x ctx' ∧ MarksStay ctx.side ctx'.side := by
  have hdo : ∀ r : Except StoreFault AnnounceCtx,
      (do return (true, ← r) : Except StoreFault (Bool × AnnounceCtx)).map Prod.snd = r := by
    intro r
    cases r with
    | error e => rfl
    | ok ctx => rfl
  have hquiet : Handled a tags ctx x ctx ∧ MarksStay ctx.side ctx.side :=
    ⟨.quiet rfl rfl ⟨[], (List.append_nil _).symm, nofun⟩, fun _ _ hs => hs⟩
  unfold announceEntry announceIter at h
  split at h
  · cases h
    exact hquiet
  · split at h
    · cases h
      exact hquiet
    · next envelope parse =>
      dsimp only at h
      rw [show (if x.2.flags ≠ 0 then x.2.flags else 1) = recordCopies x.2 from rfl] at h
      split at h
      · next tag =>
        split at h
        · next direct =>
          cases h
          exact deliverMail_handled parse tag direct
        · rw [hdo] at h
          exact floodRemote_handled h
      · split at h
        · next hspray =>
          rw [hdo] at h
          simp only [Bool.and_eq_true, decide_eq_true_eq] at hspray
          exact sprayCarrier_handled parse hspray.1.1.2 h
        · cases h
          exact hquiet

end Entry

/-! ## The whole walk -/

/-- What the context holds about `k`. -/
def AnnounceCtx.about (ctx : AnnounceCtx) (k : StoreKey) :
    List StoreKey × List SprayOp × List CourierSend :=
  (ctx.deliverKeys.filter (· == k), ctx.sprayOps.filter (·.key == k),
    ctx.sends.filter (·.key == k))

section Walk

variable {env : CourierEnv} {a : Announce} {tags : List (Bytes 16)} {ctx ctx' : AnnounceCtx}
  {k : StoreKey}

/-- A record of another key adds nothing about `k`. -/
theorem Handled.about_other {x : StoreKey × StoreValue} (h : Handled a tags ctx x ctx')
    (hk : x.1 ≠ k) : ctx'.about k = ctx.about k := by
  have hbeq : (x.1 == k) = false := beq_eq_false_iff_ne.mpr hk
  unfold AnnounceCtx.about
  cases h with
  | quiet deliver ops sends =>
    obtain ⟨new, hsends, hnew⟩ := sends
    have hnil : new.filter (·.key == k) = [] := by
      rw [List.filter_eq_nil_iff]
      intro s hs
      rw [(hnew s hs).1, hbeq]
      decide
    rw [deliver, ops, hsends, List.filter_append, hnil, List.append_nil]
  | delivered envelope payload parse tag direct deliver ops sends =>
    rw [deliver, ops, sends, List.filter_append, List.filter_append, List.filter_singleton,
      List.filter_singleton, hbeq]
    simp
  | sprayed envelope payload parse many unmarked marked deliver ops sends =>
    rw [deliver, ops, sends, List.filter_append, List.filter_append, List.filter_singleton, hbeq]
    cases encodeEnvelope envelope (recordCopies x.2 - recordCopies x.2 / 2)
        (bitleStorePayloadMax - courierDepositorLen) with
    | none => simp
    | some enc =>
      have hval : x.1.val ≠ k.val := fun heq => hk (Subtype.ext heq)
      simp [hval]

/-- The walk over records of other keys, by induction on them. -/
theorem walk_other {l : List (StoreKey × StoreValue)}
    (h : l.foldlM (announceEntry env a tags) ctx = .ok ctx') (hk : k ∉ l.map Prod.fst) :
    ctx'.about k = ctx.about k ∧ MarksStay ctx.side ctx'.side := by
  induction l generalizing ctx with
  | nil =>
    cases h
    exact ⟨rfl, fun _ _ hs => hs⟩
  | cons x l ih =>
    rw [List.map_cons, List.mem_cons, not_or] at hk
    rw [List.foldlM_cons] at h
    cases hx : announceEntry env a tags ctx x with
    | error e =>
      rw [hx] at h
      cases h
    | ok ctx1 =>
      rw [hx] at h
      obtain ⟨hhandled, hmarks⟩ := announceEntry_handled hx
      obtain ⟨habout, hmarks'⟩ := ih h hk.2
      exact ⟨habout.trans (hhandled.about_other (Ne.symm hk.1)), hmarks.trans hmarks'⟩

/-- The walk comes to `k` once. -/
theorem walk_one {l : List (StoreKey × StoreValue)} {v : StoreValue}
    (h : l.foldlM (announceEntry env a tags) ctx = .ok ctx') (hmem : (k, v) ∈ l)
    (hnodup : (l.map Prod.fst).Nodup) :
    ∃ ctx1 ctx2, ctx1.about k = ctx.about k ∧ MarksStay ctx.side ctx1.side ∧
      Handled a tags ctx1 (k, v) ctx2 ∧ MarksStay ctx1.side ctx2.side ∧
      ctx'.about k = ctx2.about k ∧ MarksStay ctx2.side ctx'.side := by
  induction l generalizing ctx with
  | nil => cases hmem
  | cons x l ih =>
    rw [List.map_cons, List.nodup_cons] at hnodup
    rw [List.foldlM_cons] at h
    cases hx : announceEntry env a tags ctx x with
    | error e =>
      rw [hx] at h
      cases h
    | ok ctx1 =>
      rw [hx] at h
      obtain ⟨hhandled, hmarks⟩ := announceEntry_handled hx
      rcases List.mem_cons.mp hmem with rfl | hmem
      · obtain ⟨habout, hmarks'⟩ := walk_other h hnodup.1
        exact ⟨ctx, ctx1, rfl, fun _ _ hs => hs, hhandled, hmarks, habout, hmarks'⟩
      · have hne : x.1 ≠ k := by
          rintro rfl
          exact hnodup.1 (List.mem_map.mpr ⟨(x.1, v), hmem, rfl⟩)
        obtain ⟨ctx2, ctx3, h1, h2, h3, h4, h5, h6⟩ := ih h hmem hnodup.2
        exact ⟨ctx2, ctx3, h1.trans (hhandled.about_other hne), hmarks.trans h2, h3, h4, h5, h6⟩

end Walk

/-! ## What becomes of an envelope -/

/-- The successful sprays of an envelope: the carrier and the copies it was given. -/
def sprays (key : StoreKey) (log : List (Bytes 8 × CourierSend)) : List (Bytes 8 × UInt8) :=
  (log.filter fun x => x.2.key == key && (x.2.kind == .spray && x.2.ok)).map
    fun x => (x.1, x.2.copies)

/-- The envelope is in the mailbox as it was deposited, with `copies` left: these and the copies
sprayed since make up what was deposited, and no carrier was sprayed twice. -/
structure Kept (lib : CourierLib) (d : Deposit) (envelope : Envelope) (store : StoreState)
    (log : List (Bytes 8 × CourierSend)) (copies : UInt8) (p : List UInt8) : Prop where
  bound : storeMap store (envelopeKey lib.toCourierHash envelope) =
    some ⟨(envelope.expiryMs / 1000).toUInt32, copies, d.depositor.val ++ p⟩
  same : parseEnvelope p = some { envelope with copies }
  pos : 1 ≤ copies
  balance : copies.toNat + ((sprays (envelopeKey lib.toCourierHash envelope) log).map
    fun x => x.2.toNat).sum = envelope.copies.toNat
  once : ((sprays (envelopeKey lib.toCourierHash envelope) log).map Prod.fst).Nodup

/-- Why an event takes the envelope out of the mailbox: it is expired, or the announce of its
owner, on a direct link, got it sent. -/
def Leaves (lib : CourierLib) (envelope : Envelope) (st : CourierState) (env : CourierEnv)
    (event : CourierEvent) : Prop :=
  storeExpired env.nowUnixS (envelope.expiryMs / 1000).toUInt32 = true ∨
    ∃ a, event = .announced a ∧ a.verified = true ∧ a.isDirect = true ∧
      tagMatches envelope (candidateTags lib.toCourierHash a.noiseKey a.nowMs) = true ∧
      ∃ s ∈ announceSends lib env a st, s.kind = .deliver ∧
        s.key = envelopeKey lib.toCourierHash envelope ∧ s.ok = true

section Step

variable {lib : CourierLib} {env : CourierEnv} {t : UInt32} {st st' : CourierState} {d : Deposit}
  {envelope : Envelope} {log : List (Bytes 8 × CourierSend)}

theorem sprays_append (key : StoreKey) (log log' : List (Bytes 8 × CourierSend)) :
    sprays key (log ++ log') = sprays key log ++ sprays key log' := by
  unfold sprays
  rw [List.filter_append, List.map_append]

/-- The sprays of an announce are among its sends about the envelope. -/
theorem sprays_sends (key : StoreKey) (peerId : Bytes 8) (sends : List CourierSend) :
    sprays key (sends.map fun s => (peerId, s)) =
      ((sends.filter (·.key == key)).filter fun s => s.kind == .spray && s.ok).map
        fun s => (peerId, s.copies) := by
  unfold sprays
  rw [List.filter_map, List.map_map, List.filter_filter]
  congr 1
  apply List.filter_congr
  intro s _
  show (s.key == key && (s.kind == .spray && s.ok)) = _
  rw [Bool.and_comm]

/-- What carries the envelope from one event to the next: it is kept, small enough to be written
again, and every carrier that was sprayed is marked. -/
structure Carried (lib : CourierLib) (d : Deposit) (envelope : Envelope) (st : CourierState)
    (log : List (Bytes 8 × CourierSend)) : Prop where
  kept : ∃ copies p, Kept lib d envelope st.store log copies p ∧
    p.length + courierDepositorLen ≤ bitleStorePayloadMax
  marks : ∀ x ∈ sprays (envelopeKey lib.toCourierHash envelope) log,
    st.side.sprayed (envelopeKey lib.toCourierHash envelope) x.1 = true

/-- The mailbox keeps the record, and no spray of it is added. -/
theorem Carried.same (h : Carried lib d envelope st log) {new : List (Bytes 8 × CourierSend)}
    (hmap : storeMap st'.store (envelopeKey lib.toCourierHash envelope) =
      storeMap st.store (envelopeKey lib.toCourierHash envelope))
    (hnew : sprays (envelopeKey lib.toCourierHash envelope) new = [])
    (hmarks : MarksStay st.side st'.side) : Carried lib d envelope st' (log ++ new) := by
  obtain ⟨⟨copies, p, hk, hsize⟩, hmarked⟩ := h
  have hsprays : sprays (envelopeKey lib.toCourierHash envelope) (log ++ new) =
      sprays (envelopeKey lib.toCourierHash envelope) log := by
    rw [sprays_append, hnew, List.append_nil]
  refine ⟨⟨copies, p, ⟨hmap.trans hk.bound, hk.same, hk.pos, ?_, ?_⟩, hsize⟩, ?_⟩
  · rw [hsprays]
    exact hk.balance
  · rw [hsprays]
    exact hk.once
  · rw [hsprays]
    exact fun x hx => hmarks _ _ (hmarked x hx)

/-- The record is not expired, or it is. -/
theorem Carried.filter (h : Carried lib d envelope st log) (now : UInt32) :
    (storeMap st.store (envelopeKey lib.toCourierHash envelope)).filter (StoreValue.fresh now) =
        storeMap st.store (envelopeKey lib.toCourierHash envelope) ∨
      ((storeMap st.store (envelopeKey lib.toCourierHash envelope)).filter
          (StoreValue.fresh now) = none ∧
        storeExpired now (envelope.expiryMs / 1000).toUInt32 = true) := by
  obtain ⟨⟨copies, p, hk, -⟩, -⟩ := h
  rw [hk.bound]
  cases hexp : storeExpired now (envelope.expiryMs / 1000).toUInt32 with
  | false =>
    left
    apply Option.filter_some_pos
    rw [StoreValue.fresh, hexp]
    rfl
  | true =>
    right
    refine ⟨Option.filter_some_neg ?_, rfl⟩
    rw [StoreValue.fresh, hexp]
    rfl

/-- Another deposit, or the same one again, leaves the record; the walk of a deposit drops it only
when it is expired. -/
theorem Carried.accept (h : Carried lib d envelope st log) (hg : StoreGood lib.crc32 t st.store)
    (henv : env.FlashGood) {d' : Deposit} (hstep : courierStep lib st env (.accept d') = .ok st')
    (her : st'.store.erased = st.store.erased) :
    Carried lib d envelope st' log ∨
      (storeMap st'.store (envelopeKey lib.toCourierHash envelope) = none ∧
        Leaves lib envelope st env (.accept d')) := by
  obtain ⟨stored, store', heq, -, hcases⟩ := accept_cases hg henv d'
  rw [courierStep, heq] at hstep
  cases hstep
  have hsame : storeMap store' (envelopeKey lib.toCourierHash envelope) =
      storeMap st.store (envelopeKey lib.toCourierHash envelope) →
      Carried lib d envelope { st with store := store' } log := by
    intro hmap
    have hcarried : Carried lib d envelope { st with store := store' } (log ++ []) :=
      h.same hmap rfl fun _ _ hs => hs
    rwa [List.append_nil] at hcarried
  have hwalk : storeMap store' (envelopeKey lib.toCourierHash envelope) =
      (storeMap st.store (envelopeKey lib.toCourierHash envelope)).filter
        (StoreValue.fresh env.nowUnixS) →
      Carried lib d envelope { st with store := store' } log ∨
        (storeMap store' (envelopeKey lib.toCourierHash envelope) = none ∧
          Leaves lib envelope st env (.accept d')) := by
    intro hmap
    rcases h.filter env.nowUnixS with hfresh | ⟨hnone, hexp⟩
    · exact .inl (hsame (hmap.trans hfresh))
    · exact .inr ⟨hmap.trans hnone, .inl hexp⟩
  cases hcases with
  | refused why map => exact .inl (hsame (map _))
  | known adm found map => exact .inl (hsame (map _))
  | overQuota mail map => exact hwalk (map _)
  | @stored _ envelope' bases adm unknown bound other erased =>
    -- the new record has another key, since ours is bound
    have hne : envelopeKey lib.toCourierHash envelope ≠
        envelopeKey lib.toCourierHash envelope' := by
      intro hkey
      obtain ⟨⟨copies, p, hk, -⟩, -⟩ := h
      rw [← hkey, hk.bound] at unknown
      cases unknown
    have hnil : bases = [] := by
      have hlen := congrArg List.length (erased.symm.trans her)
      rw [List.length_append] at hlen
      exact List.length_eq_zero_iff.mp (by omega)
    rcases other _ hne with hmap | ⟨hbases, -⟩
    · exact hwalk hmap
    · exact absurd hnil hbases

/-- Nothing is about a key when the walk starts. -/
theorem about_init (side : SideTable) (k : StoreKey) :
    ({ side } : AnnounceCtx).about k = ([], [], []) := rfl

/-- What a spray leaves is no longer than what was stored, so it encodes and can be put. -/
theorem Kept.rest_fits {store : StoreState} {copies : UInt8} {p : List UInt8}
    (hk : Kept lib d envelope store log copies p)
    (hsize : p.length + courierDepositorLen ≤ bitleStorePayloadMax) :
    encodeEnvelope { envelope with copies } (copies - copies / 2)
        (bitleStorePayloadMax - courierDepositorLen) =
        some (envelope.bytes (copies - copies / 2)) ∧
      1 ≤ (d.depositor.val ++ envelope.bytes (copies - copies / 2)).length ∧
      (d.depositor.val ++ envelope.bytes (copies - copies / 2)).length ≤
        bitleStorePayloadMax := by
  obtain ⟨-, -, -, hbytes⟩ := parseEnvelope_wf hk.same
  have hlen : (envelope.bytes (copies - copies / 2)).length ≤ p.length := hbytes _ (rest_le copies)
  constructor
  · apply encodeEnvelope_of_le
    · exact Nat.le_trans hlen (Nat.le_sub_of_add_le hsize)
    · decide
  · rw [List.length_append, d.depositor.property]
    unfold courierDepositorLen at hsize
    omega

/-- **A spray**: half of the copies go out, the rest is written back. -/
theorem Carried.spray (h : Carried lib d envelope st log) {copies : UInt8} {p : List UInt8}
    (hk : Kept lib d envelope st.store log copies p)
    (hsize : p.length + courierDepositorLen ≤ bitleStorePayloadMax) (hmany : copies > 1)
    {peerId : Bytes 8} {side1 : SideTable} (hmarks1 : MarksStay st.side side1)
    (hunmarked : side1.sprayed (envelopeKey lib.toCourierHash envelope) peerId = false)
    (hmarks : MarksStay st.side st'.side)
    (hmarked : st'.side.sprayed (envelopeKey lib.toCourierHash envelope) peerId = true)
    (hmap : storeMap st'.store (envelopeKey lib.toCourierHash envelope) =
      some ⟨(envelope.expiryMs / 1000).toUInt32, copies - copies / 2,
        d.depositor.val ++ envelope.bytes (copies - copies / 2)⟩)
    {new : List (Bytes 8 × CourierSend)}
    (hnew : sprays (envelopeKey lib.toCourierHash envelope) new = [(peerId, copies / 2)]) :
    Carried lib d envelope st' (log ++ new) := by
  obtain ⟨-, hmarkedOld⟩ := h
  obtain ⟨-, hle8, hne, hbytes⟩ := parseEnvelope_wf hk.same
  have hmanyNat : 1 < copies.toNat := UInt8.lt_iff_toNat_lt.mp hmany
  have hrest : (copies - copies / 2).toNat = copies.toNat - copies.toNat / 2 := toNat_rest copies
  have hrest1 : 1 ≤ copies - copies / 2 := by
    have hone : (1 : UInt8).toNat = 1 := rfl
    rw [UInt8.le_iff_toNat_le, hrest, hone]
    omega
  have hlen : (envelope.bytes (copies - copies / 2)).length ≤ p.length := hbytes _ (rest_le copies)
  have hct : envelope.ciphertext.length < 65536 := by
    rw [Envelope.length_bytes] at hlen
    unfold bitleStorePayloadMax at hsize
    omega
  have hsprays : sprays (envelopeKey lib.toCourierHash envelope) (log ++ new) =
      sprays (envelopeKey lib.toCourierHash envelope) log ++ [(peerId, copies / 2)] := by
    rw [sprays_append, hnew]
  refine ⟨⟨_, _, ⟨hmap, ?_, hrest1, ?_, ?_⟩, by omega⟩, ?_⟩
  · exact parseEnvelope_bytes envelope hrest1 (Std.le_trans (rest_le copies) hle8) hne hct
  · have hbalance := hk.balance
    have hhalf : (copies / 2).toNat = copies.toNat / 2 := UInt8.toNat_div copies 2
    rw [hsprays, List.map_append, List.sum_append, List.map_singleton, List.sum_singleton, hrest]
    dsimp only
    rw [hhalf]
    omega
  · rw [hsprays, List.map_append, List.map_singleton, List.nodup_append]
    refine ⟨hk.once, List.nodup_singleton _, ?_⟩
    intro q hq q' hq' heq
    rw [List.mem_singleton] at hq'
    subst hq' heq
    -- a carrier of an earlier spray would be marked
    obtain ⟨x, hx, hpeer⟩ := List.mem_map.mp hq
    have hold := hmarks1 _ _ (hmarkedOld x hx)
    rw [hpeer, hunmarked] at hold
    cases hold
  · intro x hx
    rw [hsprays, List.mem_append, List.mem_singleton] at hx
    rcases hx with hx | rfl
    · exact hmarks _ _ (hmarkedOld x hx)
    · exact hmarked

/-- The parts of what a context holds about a key. -/
theorem AnnounceCtx.about_eq {ctx : AnnounceCtx} {k : StoreKey} {keys : List StoreKey}
    {ops : List SprayOp} {sends : List CourierSend} (h : ctx.about k = (keys, ops, sends)) :
    (k ∈ ctx.deliverKeys ↔ keys ≠ []) ∧ ctx.sprayOps.filter (·.key == k) = ops ∧
      ctx.sends.filter (·.key == k) = sends := by
  unfold about at h
  rw [Prod.mk.injEq, Prod.mk.injEq] at h
  refine ⟨?_, h.2.1, h.2.2⟩
  rw [← h.1, Ne, List.filter_eq_nil_iff]
  constructor
  · intro hmem hall
    exact hall k hmem (beq_self_eq_true k)
  · intro hsome
    by_contra hmem
    apply hsome
    intro x hx hbeq
    exact hmem (beq_iff_eq.mp hbeq ▸ hx)

/-- An announce keeps the record, takes copies from it, or hands it to its owner. -/
theorem Carried.announced (h : Carried lib d envelope st log) (hg : StoreGood lib.crc32 t st.store)
    (henv : env.FlashGood) {a : Announce}
    (hstep : courierStep lib st env (.announced a) = .ok st')
    (her : st'.store.erased = st.store.erased) :
    Carried lib d envelope st' (log ++ eventSends lib st env (.announced a)) ∨
      (storeMap st'.store (envelopeKey lib.toCourierHash envelope) = none ∧
        Leaves lib envelope st env (.announced a)) := by
  rcases announced_cases hg henv hstep with
    ⟨rfl, hnothing⟩ | ⟨hgo, ctx, bases, hwalk, ⟨store1, hiterate⟩, hside, -, herased, hmap⟩
  · left
    apply h.same rfl _ fun _ _ hs => hs
    rw [eventSends, announceSends, if_pos hnothing]
    rfl
  · have hsends : announceSends lib env a st = ctx.sends := announceSends_of_walk hgo hiterate
    -- nothing is erased, so the map after the walk is the deferred changes on the one before
    have hnil : bases = [] := by
      have hlen := congrArg List.length (herased.symm.trans her)
      rw [List.length_append] at hlen
      exact List.length_eq_zero_iff.mp (by omega)
    obtain ⟨hkeep, hset⟩ := hmap hnil (envelopeKey lib.toCourierHash envelope)
    obtain ⟨-, -, -, -, -, hnodup, hshown⟩ := hg.iterate env.nowUnixS
    rw [announceWalk] at hwalk
    rcases h.filter env.nowUnixS with hfresh | ⟨hnone, hexp⟩
    · obtain ⟨⟨copies, p, hk, hsize⟩, -⟩ := id h
      have hflags : recordCopies ⟨(envelope.expiryMs / 1000).toUInt32, copies,
          d.depositor.val ++ p⟩ = copies := recordCopies_of_pos hk.pos
      have hdrop : (d.depositor.val ++ p).drop courierDepositorLen = p :=
        List.drop_left' d.depositor.property
      have hmem : (envelopeKey lib.toCourierHash envelope,
          (⟨(envelope.expiryMs / 1000).toUInt32, copies, d.depositor.val ++ p⟩ : StoreValue)) ∈
          shownRecords .good env.nowUnixS st.store := by
        rw [hshown]
        refine ⟨hk.bound, ?_⟩
        rw [hk.bound] at hfresh
        exact (Option.filter_eq_some_iff.mp hfresh).2
      -- the walk as seen by this record: before it, its own step, after it
      obtain ⟨ctx1, ctx2, habout1, hmarks1, hhandled, hmarks2, habout2, hmarks3⟩ :=
        walk_one hwalk hmem hnodup
      have hmarks : MarksStay st.side st'.side := by
        rw [hside]
        exact hmarks1.trans (hmarks2.trans hmarks3)
      rw [about_init] at habout1
      obtain ⟨hdel1, hops1, hsends1⟩ := AnnounceCtx.about_eq habout1
      cases hhandled with
      | quiet deliver ops sends =>
        left
        obtain ⟨new, hnew, hquiet⟩ := sends
        obtain ⟨hdel, hops, hsent⟩ := AnnounceCtx.about_eq habout2
        -- skipped, or flooded without copies leaving
        have hundelivered : envelopeKey lib.toCourierHash envelope ∉ ctx.deliverKeys := by
          rw [hdel, deliver, ← (Prod.mk.inj habout1).1]
          exact not_not_intro rfl
        apply h.same _ _ hmarks
        · rw [hkeep (by rw [hops, ops, hops1]), if_neg hundelivered, hfresh]
        · rw [eventSends, hsends, sprays_sends, hsent, hnew, List.filter_append, hsends1,
            List.nil_append]
          rw [List.map_eq_nil_iff, List.filter_eq_nil_iff]
          intro s hs hspray
          rw [Bool.and_eq_true, beq_iff_eq] at hspray
          exact (hquiet s (List.mem_of_mem_filter hs)).2 hspray
      | delivered envelope' payload parse tag direct deliver ops sends =>
        right
        obtain ⟨hdel, hops, hsent⟩ := AnnounceCtx.about_eq habout2
        -- handed to its recipient: the record is deleted after the walk
        have hdelivered : envelopeKey lib.toCourierHash envelope ∈ ctx.deliverKeys := by
          rw [hdel, deliver, List.filter_append]
          simp
        dsimp only at parse
        rw [hdrop, hk.same, Option.some.injEq] at parse
        subst parse
        refine ⟨?_, .inr ⟨a, rfl, ?_, direct, tag, ⟨.deliver, envelopeKey lib.toCourierHash envelope,
          payload, 1, true⟩, ?_, rfl, rfl, rfl⟩⟩
        · rw [hkeep (by rw [hops, ops, hops1]), if_pos hdelivered]
        · rw [Bool.or_eq_false_iff, Bool.not_eq_false'] at hgo
          exact hgo.1
        · rw [hsends]
          have hlast : ⟨.deliver, envelopeKey lib.toCourierHash envelope, payload, 1, true⟩ ∈
              ctx2.sends.filter (·.key == envelopeKey lib.toCourierHash envelope) := by
            rw [sends, List.filter_append, List.mem_append]
            right
            rw [List.mem_filter]
            exact ⟨List.mem_singleton_self _, beq_self_eq_true _⟩
          rw [← hsent] at hlast
          exact List.mem_of_mem_filter hlast
      | sprayed envelope' payload parse many unmarked marked deliver ops sends =>
        left
        dsimp only at parse many
        rw [hdrop, hk.same, Option.some.injEq] at parse
        subst parse
        rw [hflags] at many ops sends
        obtain ⟨hdel, hops, hsent⟩ := AnnounceCtx.about_eq habout2
        obtain ⟨henc, hpos, hmax⟩ := hk.rest_fits hsize
        rw [henc] at ops
        have htake : (d.depositor.val ++ p).take courierDepositorLen = d.depositor.val :=
          List.take_left' d.depositor.property
        -- sprayed: the record is rewritten with what is left after the walk
        have hop : ctx.sprayOps.filter (·.key == envelopeKey lib.toCourierHash envelope) =
            [⟨envelopeKey lib.toCourierHash envelope, (envelope.expiryMs / 1000).toUInt32,
              copies - copies / 2, d.depositor.val ++ envelope.bytes (copies - copies / 2)⟩] := by
          rw [hops, ops, List.filter_append, hops1, List.nil_append, Option.map_some,
            Option.toList_some]
          dsimp only
          rw [htake]
          exact List.filter_cons_of_pos (beq_self_eq_true _)
        refine h.spray hk hsize many hmarks1 unmarked hmarks ?_ (hset _ hop hpos hmax) ?_
        · rw [hside]
          exact hmarks3 _ _ marked
        · rw [eventSends, hsends, sprays_sends, hsent, sends, List.filter_append, hsends1,
            List.nil_append]
          simp
    · -- an expired record is not shown, and nothing is deferred for it
      right
      have hunshown : envelopeKey lib.toCourierHash envelope ∉
          (shownRecords .good env.nowUnixS st.store).map Prod.fst := by
        intro hmem
        obtain ⟨x, hx, hkey⟩ := List.mem_map.mp hmem
        obtain ⟨hbound, hfresh⟩ := (hshown x.1 x.2).mp hx
        rw [hkey] at hbound
        rw [hbound] at hnone
        exact absurd (Option.filter_some_pos hfresh) (by rw [hnone]; simp)
      obtain ⟨habout, -⟩ := walk_other hwalk hunshown
      rw [about_init] at habout
      obtain ⟨hdel, hops, -⟩ := AnnounceCtx.about_eq habout
      refine ⟨?_, .inl hexp⟩
      rw [hkeep hops, if_neg (by rw [hdel]; exact not_not_intro rfl), hnone]

/-- **One event** that erases nothing: the envelope is carried on, or it leaves for a reason. -/
theorem Carried.step (h : Carried lib d envelope st log) (hg : StoreGood lib.crc32 t st.store)
    (henv : env.FlashGood) {event : CourierEvent} (hboot : event ≠ .boot)
    (hstep : courierStep lib st env event = .ok st')
    (her : st'.store.erased = st.store.erased) :
    Carried lib d envelope st' (log ++ eventSends lib st env event) ∨
      (storeMap st'.store (envelopeKey lib.toCourierHash envelope) = none ∧
        Leaves lib envelope st env event) := by
  cases event with
  | boot => exact absurd rfl hboot
  | accept d' =>
    rw [eventSends, List.append_nil]
    exact h.accept hg henv hstep her
  | announced a => exact h.announced hg henv hstep her

end Step

/-! ## Runs -/

/-- The envelope was kept through the first events, and the next one took it for a reason. -/
def Left (lib : CourierLib) (d : Deposit) (envelope : Envelope) (node : CourierNode)
    (log : List (Bytes 8 × CourierSend)) (events : List (CourierEnv × CourierEvent)) : Prop :=
  ∃ before env event after node1 log1 node2, events = before ++ (env, event) :: after ∧
    courierLife lib node before = .ok (node1, log1) ∧
    (∃ copies p, Kept lib d envelope node1.state.store (log ++ log1) copies p) ∧
    nodeStep lib node1 env event = .ok node2 ∧
    storeMap node2.state.store (envelopeKey lib.toCourierHash envelope) = none ∧
    Leaves lib envelope node1.state env event

/-- **The copies are conserved** over `events`, which lead from `node` to `node'`: the envelope is
in the mailbox as it was deposited, with at least one copy; the copies left and the copies sprayed
make up those deposited, and no carrier was sprayed twice. Or it left by expiry or by a successful
send to its owner on a direct link. -/
def Conserved (lib : CourierLib) (d : Deposit) (envelope : Envelope) (node node' : CourierNode)
    (log : List (Bytes 8 × CourierSend)) (events : List (CourierEnv × CourierEvent)) : Prop :=
  (1 ≤ envelope.copies ∧ envelope.copies ≤ courierMaxCopies) ∧
    ((∃ copies p, Kept lib d envelope node'.state.store log copies p) ∨
      Left lib d envelope node [] events)

section Runs

variable {lib : CourierLib} {t : UInt32} {st st' : CourierState}

theorem erased_run (hg : StoreGood lib.crc32 t st.store)
    {events : List (CourierEnv × CourierEvent)} (hflash : WorkingFlash events)
    (hboot : ∀ e ∈ events, e.2 ≠ .boot) (hrun : courierRun lib st events = .ok st') :
    ∃ bases, st'.store.erased = st.store.erased ++ bases := by
  induction events generalizing st with
  | nil =>
    cases hrun
    exact ⟨[], (List.append_nil _).symm⟩
  | cons e events ih =>
    obtain ⟨env, event⟩ := e
    obtain ⟨henv, hflash'⟩ := hflash.uncons
    obtain ⟨hevent, hboot'⟩ := List.forall_mem_cons.mp hboot
    obtain ⟨st1, hstep, hg1, ⟨bases1, her1⟩, hrest⟩ := courierRun_uncons hg henv hevent hrun
    obtain ⟨bases2, her2⟩ := ih hg1 hflash' hboot' hrest
    exact ⟨bases1 ++ bases2, by rw [her2, her1, List.append_assoc]⟩

/-- **A run** that erases nothing, by induction on its events: the envelope is kept to its end,
or it left. -/
theorem Carried.run {d : Deposit} {envelope : Envelope} {log : List (Bytes 8 × CourierSend)}
    (h : Carried lib d envelope st log) (hg : StoreGood lib.crc32 t st.store)
    {events : List (CourierEnv × CourierEvent)} (hflash : WorkingFlash events)
    (hboot : ∀ e ∈ events, e.2 ≠ .boot) (hrun : courierRun lib st events = .ok st')
    (her : st'.store.erased = st.store.erased) :
    ∃ log', courierLife lib ⟨st, false⟩ events = .ok (⟨st', false⟩, log') ∧
      ((∃ copies p, Kept lib d envelope st'.store (log ++ log') copies p) ∨
        Left lib d envelope ⟨st, false⟩ log events) := by
  induction events generalizing st log with
  | nil =>
    cases hrun
    obtain ⟨⟨copies, p, hk, -⟩, -⟩ := h
    refine ⟨[], rfl, .inl ⟨copies, p, ?_⟩⟩
    rw [List.append_nil]
    exact hk
  | cons e events ih =>
    obtain ⟨env, event⟩ := e
    obtain ⟨henv, hflash'⟩ := hflash.uncons
    obtain ⟨hevent, hboot'⟩ := List.forall_mem_cons.mp hboot
    obtain ⟨st1, hstep, hg1, ⟨bases1, her1⟩, hrest⟩ := courierRun_uncons hg henv hevent hrun
    obtain ⟨bases2, her2⟩ := erased_run hg1 hflash' hboot' hrest
    -- the whole run erases nothing, so its first step and its rest do not
    have hlen := congrArg List.length (her2.symm.trans her)
    rw [her1, List.length_append, List.length_append] at hlen
    have hnil1 : bases1 = [] := List.length_eq_zero_iff.mp (by omega)
    have hnil2 : bases2 = [] := List.length_eq_zero_iff.mp (by omega)
    rw [hnil1, List.append_nil] at her1
    rw [hnil2, List.append_nil] at her2
    rcases h.step hg henv hevent hstep her1 with hnext | ⟨hgone, hleaves⟩
    · -- still carried after the first event
      obtain ⟨log', hlife, hend⟩ := ih hnext hg1 hflash' hboot' hrest her2
      refine ⟨eventSends lib st env event ++ log', ?_, ?_⟩
      · rw [courierLife_cons (nodeStep_of_ok hstep), hlife]
        rfl
      · rw [← List.append_assoc]
        rcases hend with hk | ⟨before, env', event', after, node1, log1, node2, rfl, hbefore, hk,
          htail⟩
        · exact .inl hk
        · right
          refine ⟨(env, event) :: before, env', event', after, node1,
            eventSends lib st env event ++ log1, node2, rfl, ?_, ?_, htail⟩
          · rw [courierLife_cons (nodeStep_of_ok hstep), hbefore]
            rfl
          · rw [← List.append_assoc]
            exact hk
    · obtain ⟨⟨copies, p, hk, -⟩, -⟩ := h
      -- it left in the first event
      obtain ⟨log', hlife⟩ := courierLife_of_run hrest
      refine ⟨eventSends lib st env event ++ log', ?_, .inr ⟨[], env, event, events, ⟨st, false⟩,
        [], ⟨st1, false⟩, rfl, rfl, ⟨copies, p, ?_⟩, nodeStep_of_ok hstep, hgone, hleaves⟩⟩
      · rw [courierLife_cons (nodeStep_of_ok hstep), hlife]
        rfl
      · rw [List.append_nil]
        exact hk

/-- A deposit that puts a new envelope into the mailbox. -/
structure Deposited (lib : CourierLib) (d : Deposit) (envelope : Envelope)
    (st st' : CourierState) : Prop where
  step : ∃ env : CourierEnv, env.FlashGood ∧ courierStep lib st env (.accept d) = .ok st'
  parse : parseEnvelope d.payload = some envelope
  before : storeMap st.store (envelopeKey lib.toCourierHash envelope) = none
  after : (storeMap st'.store (envelopeKey lib.toCourierHash envelope)).isSome = true

theorem Deposited.carried {d : Deposit} {envelope : Envelope}
    (h : Deposited lib d envelope st st') (hg : StoreGood lib.crc32 t st.store) :
    StoreGood lib.crc32 t st'.store ∧ Carried lib d envelope st' [] := by
  obtain ⟨⟨env, henv, hstep⟩, hparse, hbefore, hafter⟩ := h
  obtain ⟨stored, store', heq, hg', hcases⟩ := accept_cases hg henv d
  rw [courierStep, heq] at hstep
  cases hstep
  refine ⟨hg', ?_⟩
  cases hcases with
  | refused why map =>
    rw [map, hbefore] at hafter
    cases hafter
  | known adm found map =>
    rw [map, hbefore] at hafter
    cases hafter
  | overQuota mail map =>
    rw [map, hbefore] at hafter
    cases hafter
  | stored adm unknown bound other erased =>
    obtain ⟨hadm, hsize⟩ := Deposit.admissible_eq_some adm
    rw [hparse, Option.some.injEq] at hadm
    subst hadm
    obtain ⟨hpos, -⟩ := parseEnvelope_wf hparse
    exact ⟨⟨envelope.copies, d.payload, ⟨bound, hparse, hpos, rfl, List.nodup_nil⟩, hsize⟩,
      fun _ h => absurd h List.not_mem_nil⟩

end Runs

/-- **Copies are conserved while the announces find room.** After any life of the courier with a
working flash, an envelope is deposited; then follow deposits and announces that all find room,
with sends of any outcome, whatever the clock says. All of them return, and as long as no sector is
erased the copies of the envelope are conserved. -/
theorem envelope_copies_conserved (lib : CourierLib) (st st1 : CourierState) (d : Deposit)
    (envelope : Envelope) (events : List (CourierEnv × CourierEvent)) (hreached : Reached lib st)
    (hdeposit : Deposited lib d envelope st st1) (hflash : WorkingFlash events)
    (hboot : ∀ e ∈ events, e.2 ≠ .boot) (hroom : RoomAlong lib st1 events) :
    ∃ st2 log, courierLife lib ⟨st1, false⟩ events = .ok (⟨st2, false⟩, log) ∧
      (st2.store.erased = st1.store.erased →
        Conserved lib d envelope ⟨st1, false⟩ ⟨st2, false⟩ log events) := by
  obtain ⟨t, hg⟩ := hreached.storeGood
  obtain ⟨hg1, hcarried⟩ := hdeposit.carried hg
  obtain ⟨hpos, hle, -⟩ := parseEnvelope_wf hdeposit.parse
  obtain ⟨st2, hrun⟩ := courierRun_of_room hg1 hflash hboot hroom
  obtain ⟨log, hlife⟩ := courierLife_of_run hrun
  refine ⟨st2, log, hlife, fun herased => ⟨⟨hpos, hle⟩, ?_⟩⟩
  obtain ⟨log', hlife', hend⟩ := hcarried.run hg1 hflash hboot hrun herased
  rw [hlife, Except.ok.injEq, Prod.mk.injEq] at hlife'
  obtain ⟨-, rfl⟩ := hlife'
  exact hend

/-! ### A letter with four copies -/

/-- In `wedgeEnv` the flash works. -/
theorem workingFlash_wedge {events : List (CourierEnv × CourierEvent)}
    (h : ∀ e ∈ events, e.1 = wedgeEnv) : WorkingFlash events := by
  intro e he
  rw [h e he]
  exact fun _ => rfl

def fourCopies : Envelope where
  recipientTag := ⟨List.replicate 16 1, rfl⟩
  expiryMs := 61000
  ciphertext := [7]
  copies := 4

def fourCopiesDeposit : Deposit where
  depositor := zeros 8
  verified := true
  payload := fourCopies.bytes 4
  nowMs := 1000

/-- A carrier that is not the owner, on a direct link. -/
def carrierHeard : Announce where
  connHandle := 1
  peerId := ⟨List.replicate 8 2, rfl⟩
  noiseKey := zeros 32
  verified := true
  isDirect := true
  nowMs := 1000

/-- The carrier is heard twice, and gets two of the copies once. -/
def carrierTwice : List (CourierEnv × CourierEvent) :=
  [(wedgeEnv, .announced carrierHeard), (wedgeEnv, .announced carrierHeard)]

def fourCopiesLife : Except StoreFault (Bool × Bool × Bool × Bool × Bool) := do
  let st ← courierRun plainLib (.off blankFlash) [(wedgeEnv, .boot)]
  let st1 ← courierStep plainLib st wedgeEnv (.accept fourCopiesDeposit)
  let (node2, log) ← courierLife plainLib ⟨st1, false⟩ carrierTwice
  let key := envelopeKey plainLib.toCourierHash fourCopies
  return ((storeMap st.store key).isNone, (storeMap st1.store key).isSome,
    decide (RoomAlong plainLib st1 carrierTwice),
    node2.state.store.erased == st1.store.erased, sprays key log == [(carrierHeard.peerId, 2)])

theorem envelope_copies_conserved_spray :
    ∃ st st1 st2 log, Reached plainLib st ∧
      Deposited plainLib fourCopiesDeposit fourCopies st st1 ∧
      RoomAlong plainLib st1 carrierTwice ∧
      courierLife plainLib ⟨st1, false⟩ carrierTwice = .ok (⟨st2, false⟩, log) ∧
      sprays (envelopeKey plainLib.toCourierHash fourCopies) log = [(carrierHeard.peerId, 2)] ∧
      Conserved plainLib fourCopiesDeposit fourCopies ⟨st1, false⟩ ⟨st2, false⟩ log
        carrierTwice := by
  -- the run itself is evaluated, the rest puts the theorem on it
  have hevaluated : fourCopiesLife.toOption = some (true, true, true, true, true) := by
    decide +kernel
  unfold fourCopiesLife at hevaluated
  cases hst : courierRun plainLib (.off blankFlash) [(wedgeEnv, .boot)] with
  | error e => simp [hst, bind, Except.bind, Except.toOption] at hevaluated
  | ok st =>
    cases hst1 : courierStep plainLib st wedgeEnv (.accept fourCopiesDeposit) with
    | error e => simp [hst, hst1, bind, Except.bind, Except.toOption] at hevaluated
    | ok st1 =>
      have hflash : wedgeEnv.FlashGood := fun _ => rfl
      have hreached : Reached plainLib st := by
        obtain ⟨log, hlife⟩ := courierLife_of_run hst
        exact ⟨wedgeEnv, [], log, workingFlash_wedge (by simp), trivial, hlife⟩
      have hcarrier : ∀ e ∈ carrierTwice, e = (wedgeEnv, .announced carrierHeard) := by
        intro e he
        rcases List.mem_cons.mp he with rfl | he
        · rfl
        · exact List.mem_singleton.mp he
      cases hlife : courierLife plainLib ⟨st1, false⟩ carrierTwice with
      | error e => simp [hst, hst1, hlife, bind, Except.bind, Except.toOption] at hevaluated
      | ok r =>
        obtain ⟨node2, log⟩ := r
        simp only [hst, hst1, hlife, bind, Except.bind, Except.toOption, pure, Except.pure,
          Option.some.injEq, Prod.mk.injEq, decide_eq_true_eq] at hevaluated
        obtain ⟨hbefore, hafter, hroom, herased, hsprays⟩ := hevaluated
        have hdeposit : Deposited plainLib fourCopiesDeposit fourCopies st st1 :=
          ⟨⟨wedgeEnv, hflash, hst1⟩, parseEnvelope_bytes fourCopies (by decide) (by decide)
            (by decide) (by decide), Option.isNone_iff_eq_none.mp hbefore, hafter⟩
        obtain ⟨st2, log', heq, hconserved⟩ := envelope_copies_conserved plainLib st st1
          fourCopiesDeposit fourCopies carrierTwice hreached hdeposit
          (workingFlash_wedge fun e he => by rw [hcarrier e he])
          (fun e he => by rw [hcarrier e he]; exact nofun) hroom
        rw [hlife, Except.ok.injEq, Prod.mk.injEq] at heq
        obtain ⟨rfl, rfl⟩ := heq
        exact ⟨st, st1, st2, log, hreached, hdeposit, hroom, hlife, beq_iff_eq.mp hsprays,
          hconserved (beq_iff_eq.mp herased)⟩

/-! ### A spray that is not written back -/

section Spare

/-- A letter with four copies for somebody who is not there. -/
def spareMail (b : UInt8) : Envelope := { fourCopies with ciphertext := [b] }

def spareDeposit (b : UInt8) : Deposit where
  depositor := zeros 8
  verified := true
  payload := (spareMail b).bytes 4
  nowMs := 1000

def spareKey (lib : CourierLib) (b : UInt8) : StoreKey :=
  envelopeKey lib.toCourierHash (spareMail b)

def spareValue (b : UInt8) : StoreValue := ⟨61, 4, (zeros 8).val ++ (spareMail b).bytes 4⟩

/-- One letter follows another, and then a carrier comes by. -/
def spareEvents : List (CourierEnv × CourierEvent) :=
  [(wedgeEnv, .accept (spareDeposit 201)), (wedgeEnv, .announced carrierHeard)]

/-- The letters have keys of their own, and the carrier is not their owner. -/
structure SpareDistinct (lib : CourierLib) : Prop where
  wedge : WedgeDistinct lib.toCourierHash
  spare : ∀ i, i < 127 → wedgeKey lib.toCourierHash i ≠ spareKey lib 200 ∧
    wedgeKey lib.toCourierHash i ≠ spareKey lib 201
  other : spareKey lib 201 ≠ spareKey lib 200
  foreign : tagMatches fourCopies (candidateTags lib.toCourierHash (zeros 32) 1000) = false

variable {lib : CourierLib} {b : UInt8} {ctx : AnnounceCtx} {store : StoreState}

theorem length_spareBytes (b : UInt8) : ((spareMail b).bytes 4).length = 38 := by
  rw [Envelope.length_bytes]
  rfl

theorem parseEnvelope_spare (b : UInt8) :
    parseEnvelope ((spareMail b).bytes 4) = some (spareMail b) :=
  parseEnvelope_bytes (spareMail b) (by decide) (by decide) (by simp [spareMail])
    (by simp [spareMail])

theorem spareDeposit_admissible (b : UInt8) :
    (spareDeposit b).admissible = some (spareMail b) := by
  have hpayload : (spareDeposit b).payload = (spareMail b).bytes 4 := rfl
  have hnow : (spareDeposit b).nowMs = 1000 := rfl
  have hexpiry : (spareMail b).expiryMs = 61000 := rfl
  have hfuture : ¬ (1000 : UInt64) ≥ 61000 := by decide
  have hcap : ¬ (61000 : UInt64) > 1000 + courierMaxLifetimeS * 1000 := by decide
  rw [Deposit.admissible, if_neg (by simp [spareDeposit]), hpayload, parseEnvelope_spare, hnow]
  dsimp only
  rw [hexpiry, if_neg hfuture, if_neg hcap, length_spareBytes, if_neg (by decide)]

/-- A letter is deposited behind those that are there. -/
theorem accept_spare {mail : List (StoreKey × StoreValue)} (h : Mailbox lib mail store)
    (side : SideTable) (hnew : spareKey lib b ∉ mail.map Prod.fst) (hfew : mail.length < 8)
    (hplace : mail = [] ∨ fits store.writeOff 78 = true) :
    ∃ store', courierStep lib ⟨store, side⟩ wedgeEnv (.accept (spareDeposit b)) =
        .ok ⟨store', side⟩ ∧ Mailbox lib (mail ++ [(spareKey lib b, spareValue b)]) store' ∧
      store'.writeOff % 4096 =
        ((if fits store.writeOff 78 then store.writeOff % 4096 else 8) + 78) % 4096 ∧
      (fits store.writeOff 78 = true → store'.erased = store.erased) := by
  have hlen : 32 + (8 + (spareDeposit b).payload.length) = 78 := by
    show 32 + (8 + ((spareMail b).bytes 4).length) = 78
    rw [length_spareBytes]
  have hexp : ((spareMail b).expiryMs / 1000).toUInt32 = 61 := by simp [spareMail, fourCopies]
  have hacc := h.accept side (spareDeposit_admissible b) hnew hfew
  rw [hlen, hexp] at hacc
  exact hacc hplace (by decide)

/-- The carrier asks for a slot, for any such letter. -/
theorem announceEntry_spare (hd : SpareDistinct lib) (hops : ctx.sprayOps.length < announceMaxSpray) :
    announceEntry wedgeEnv carrierHeard (candidateTags lib.toCourierHash (zeros 32) 1000) ctx
        (spareKey lib b, spareValue b) =
      sprayCarrier wedgeEnv carrierHeard.peerId heldStore ctx (spareKey lib b) 61 4
        (spareValue b).payload (spareMail b) := by
  have hlen : ¬ (spareValue b).payload.length ≤ courierDepositorLen := by
    simp [spareValue, length_spareBytes, courierDepositorLen, (zeros 8).property]
  have hdrop : (spareValue b).payload.drop courierDepositorLen = (spareMail b).bytes 4 := rfl
  have htag : tagMatches (spareMail b)
      (candidateTags lib.toCourierHash (zeros 32) 1000) = false := hd.foreign
  have htake : (spareValue b).payload.take courierDepositorLen = (zeros 8).val := rfl
  have hother : ((zeros 8).val != carrierHeard.peerId.val) = true := by decide
  rw [announceEntry, announceIter, if_neg hlen, hdrop, parseEnvelope_spare]
  dsimp only
  rw [htag, htake, hother, decide_eq_true hops]
  generalize sprayCarrier wedgeEnv carrierHeard.peerId heldStore ctx (spareKey lib b) = f
  show ((do return (true, ← f 61 4 (spareValue b).payload (spareMail b)) :
    Except StoreFault (Bool × AnnounceCtx))).map Prod.snd = _
  cases f 61 4 (spareValue b).payload (spareMail b) with
  | error e => rfl
  | ok ctx' => rfl

/-- With a slot free the carrier gets two of the copies. -/
theorem sprayCarrier_spare (ctx : AnnounceCtx)
    (hnot : spareKey lib b ∉ owned ctx.side.owners) (hvac : vacancies ctx.side.owners ≠ 0) :
    ∃ ctx' p, sprayCarrier wedgeEnv carrierHeard.peerId heldStore ctx (spareKey lib b) 61 4
        (spareValue b).payload (spareMail b) = .ok ctx' ∧
      ctx'.sends = ctx.sends ++ [⟨.spray, spareKey lib b, p, 2, true⟩] ∧
      ctx'.sprayOps.length ≤ ctx.sprayOps.length + 1 ∧
      Takes ctx.side (spareKey lib b) ctx'.side := by
  obtain ⟨i, side', hget, hmask⟩ := sideGet_new heldStore hnot hvac
  have hunmarked : ¬ (side'.slot i).sprayedMask &&& peerBit carrierHeard.peerId ≠ 0 := by
    rw [hmask, UInt32.zero_and]
    exact not_not.mpr rfl
  -- half of the copies go out, which encode
  have henc : encodeEnvelope (spareMail b) (4 / 2) bitleStorePayloadMax =
      some ((spareMail b).bytes 2) := by
    apply encodeEnvelope_of_le
    · rw [Envelope.length_bytes]
      show 33 + 1 + (if (4 : UInt8) / 2 > 1 then 4 else 0) + 0 ≤ 520
      decide
    · decide
  have hasked : Asked (∀ n, wedgeEnv.sendOk n = false) ctx (spareKey lib b)
      (sprayCarrier wedgeEnv carrierHeard.peerId heldStore ctx (spareKey lib b) 61 4
        (spareValue b).payload (spareMail b)) := sprayCarrier_asked _ _ _ _ _ _
  have hspray : ∃ ctx', sprayCarrier wedgeEnv carrierHeard.peerId heldStore ctx (spareKey lib b)
        61 4 (spareValue b).payload (spareMail b) = .ok ctx' ∧
      ctx'.sends = ctx.sends ++ [⟨.spray, spareKey lib b, (spareMail b).bytes 2, 2, true⟩] ∧
      ctx'.sprayOps.length ≤ ctx.sprayOps.length + 1 := by
    simp only [sprayCarrier, hget, bind, Except.bind]
    rw [if_neg hunmarked, sendEnvelope, henc]
    dsimp only [wedgeEnv]
    split
    · exact ⟨_, rfl, rfl, Nat.le_succ _⟩
    · exact ⟨_, rfl, rfl, Nat.le_of_eq (List.length_append ..)⟩
  obtain ⟨ctx', heq, hsends, hops⟩ := hspray
  rcases hasked with ⟨ctx'', hok, htakes, -⟩ | ⟨hdead, -⟩
  · rw [heq, Except.ok.injEq] at hok
    subst hok
    exact ⟨ctx', _, heq, hsends, hops, htakes⟩
  · rw [heq] at hdead
    cases hdead

/-- **The announce** of the carrier, with one slot for two letters: the first is sprayed, and the
second blocks the task. -/
theorem announced_spare (hd : SpareDistinct lib) (st : CourierState) {c : UInt8}
    (hbc : spareKey lib c ≠ spareKey lib b)
    (h : Mailbox lib [(spareKey lib b, spareValue b), (spareKey lib c, spareValue c)] st.store)
    (hb : spareKey lib b ∉ owned st.side.owners) (hc : spareKey lib c ∉ owned st.side.owners)
    (hvac : vacancies st.side.owners = 1) :
    courierStep lib st wedgeEnv (.announced carrierHeard) = .error .deadlock ∧
      ∃ ctx p, announceUntil lib wedgeEnv carrierHeard st = .ok (st.store, ctx, true) ∧
        ctx.sends = [⟨.spray, spareKey lib b, p, 2, true⟩] := by
  obtain ⟨ctx, p, hfirst, hsends, hops, htakes⟩ := sprayCarrier_spare { side := st.side } hb
    (by rw [hvac]; decide)
  have hno : ({ side := st.side } : AnnounceCtx).sprayOps.length < announceMaxSpray :=
    Nat.zero_lt_succ 5
  rw [← announceEntry_spare hd hno] at hfirst
  have hops' : ctx.sprayOps.length < announceMaxSpray :=
    Nat.lt_of_le_of_lt hops (Nat.succ_lt_succ (Nat.zero_lt_succ 4))
  -- the first letter takes the only slot, so the second finds none
  have hfull : vacancies ctx.side.owners = 0 := by
    have hnew : vacancies ctx.side.owners + 1 = vacancies st.side.owners := htakes.new hb
    omega
  have hnone : spareKey lib c ∉ owned ctx.side.owners := by
    rw [htakes.owns, Finset.mem_insert, not_or]
    exact ⟨hbc, hc⟩
  have hsecond : announceEntry wedgeEnv carrierHeard
      (candidateTags lib.toCourierHash (zeros 32) 1000) ctx (spareKey lib c, spareValue c) =
      .error .deadlock := by
    rw [announceEntry_spare hd hops']
    have hasked : Asked (∀ n, wedgeEnv.sendOk n = false) ctx (spareKey lib c)
        (sprayCarrier wedgeEnv carrierHeard.peerId heldStore ctx (spareKey lib c) 61 4
          (spareValue c).payload (spareMail c)) := sprayCarrier_asked _ _ _ _ _ _
    rcases hasked with ⟨ctx', -, htakes', -⟩ | ⟨hdead, -⟩
    · have hnew := htakes'.new hnone
      omega
    · exact hdead
  have htags : candidateTags lib.toCourierHash carrierHeard.noiseKey carrierHeard.nowMs =
      candidateTags lib.toCourierHash (zeros 32) 1000 := rfl
  refine ⟨?_, ctx, p, ?_, hsends⟩
  · rw [Mailbox.announced h st.side (by simp) rfl, htags, List.foldlM_cons, hfirst]
    show (List.foldlM _ ctx [_]) >>= _ = _
    rw [List.foldlM_cons, hsecond]
    rfl
  · -- the walk until the fault keeps what the first letter did
    obtain ⟨S, head, hi⟩ := id h.good
    have hpart : { st.store with lock := .held }.part = true := hi.part
    have hbefore : [(spareKey lib b, spareValue b)].foldlM (announceEntry wedgeEnv carrierHeard
        (candidateTags lib.toCourierHash (zeros 32) 1000)) { side := st.side } = .ok ctx := by
      rw [List.foldlM_cons, hfirst]
      rfl
    have hwalk : walkList (untilFault (announceIter wedgeEnv carrierHeard
          (candidateTags lib.toCourierHash (zeros 32) 1000))) { st.store with lock := .held }
        ([(spareKey lib b, spareValue b)] ++ (spareKey lib c, spareValue c) :: [])
        ({ side := st.side }, false) = .ok (ctx, true) :=
      walkList_untilFault (fun key expiryUnixS flags payload _ =>
        announceIter_held hpart rfl key expiryUnixS flags payload) hbefore hsecond
    rw [announceUntil, htags]
    refine (h.walk _ _).trans ?_
    rw [List.singleton_append] at hwalk
    rw [hwalk]
    rfl

/-- 127 slots are taken, and the mailbox is empty. -/
theorem spare_reached (hd : SpareDistinct lib) : ∃ st, Reached lib st ∧ WedgeEmpty lib 127 st := by
  obtain ⟨st0, hboot, h0⟩ := wedgeEmpty_boot lib
  obtain ⟨st, hrounds, h⟩ := h0.rounds hd.wedge (Nat.le_succ 127)
  have hquiet := wedgeRounds_quiet lib.toCourierHash 127
  obtain ⟨log, hlife⟩ := courierLife_of_run ((courierRun_cons hboot).trans hrounds)
  have hflash : WorkingFlash ((wedgeEnv, .boot) ::
      (List.range 127).flatMap (wedgeRound lib.toCourierHash)) :=
    workingFlash_wedge (List.forall_mem_cons.mpr ⟨rfl, fun e he => (hquiet e he).1⟩)
  exact ⟨st, ⟨wedgeEnv, _, log, hflash, bootsFrom_of_none fun e he => (hquiet e he).2, hlife⟩, h⟩

/-- The two deposits, in one sector. -/
theorem spare_deposits (hd : SpareDistinct lib) {st : CourierState} (h : WedgeEmpty lib 127 st) :
    ∃ store1 store2,
      courierStep lib st wedgeEnv (.accept (spareDeposit 200)) = .ok ⟨store1, st.side⟩ ∧
      courierStep lib ⟨store1, st.side⟩ wedgeEnv (.accept (spareDeposit 201)) =
        .ok ⟨store2, st.side⟩ ∧
      Mailbox lib [(spareKey lib 200, spareValue 200)] store1 ∧
      Mailbox lib [(spareKey lib 200, spareValue 200), (spareKey lib 201, spareValue 201)] store2 ∧
      store2.erased = store1.erased := by
  obtain ⟨store1, hstep1, hbox1, hoff1, -⟩ := accept_spare (b := 200) h.box st.side (by simp)
    (by decide) (.inl rfl)
  have hfits : fits store1.writeOff 78 = true := by
    have hoff : wedgeOff 127 = 1266 := rfl
    rw [h.off, hoff] at hoff1
    rw [fits_iff]
    split at hoff1 <;> omega
  obtain ⟨store2, hstep2, hbox2, -, herased⟩ := accept_spare (b := 201) hbox1 st.side
    (by simpa using hd.other) (by simp) (.inr hfits)
  exact ⟨store1, store2, hstep1, hstep2, hbox1, hbox2, herased hfits⟩

theorem spareEvents_quiet : ∀ e ∈ spareEvents, e.1 = wedgeEnv ∧ e.2 ≠ .boot := by
  intro e he
  rcases List.mem_cons.mp he with rfl | he
  · exact ⟨rfl, nofun⟩
  · rw [List.mem_singleton.mp he]
    exact ⟨rfl, nofun⟩

/-- A letter that is there after every event has not left. -/
theorem spare_notLeft {d : Deposit} {envelope : Envelope} {node node1 node2 : CourierNode}
    {log : List (Bytes 8 × CourierSend)} {v v' : StoreValue}
    (hstep1 : nodeStep lib node wedgeEnv (.accept (spareDeposit 201)) = .ok node1)
    (hstep2 : nodeStep lib node1 wedgeEnv (.announced carrierHeard) = .ok node2)
    (hbound1 : storeMap node1.state.store (envelopeKey lib.toCourierHash envelope) = some v)
    (hbound2 : storeMap node2.state.store (envelopeKey lib.toCourierHash envelope) = some v') :
    ¬ Left lib d envelope node log spareEvents := by
  rintro ⟨before, env, event, after, nodeA, logA, nodeB, hsplit, hbefore, -, hstep, hnone, -⟩
  match before with
  | [] =>
    cases hsplit
    cases hbefore
    rw [hstep1, Except.ok.injEq] at hstep
    subst hstep
    rw [hbound1] at hnone
    cases hnone
  | [x] =>
    cases hsplit
    rw [courierLife_cons hstep1] at hbefore
    cases hbefore
    rw [hstep2, Except.ok.injEq] at hstep
    subst hstep
    rw [hbound2] at hnone
    cases hnone
  | x :: y :: before => simp [spareEvents] at hsplit

theorem spareDistinct_plainLib : SpareDistinct plainLib where
  wedge := wedgeDistinct_plainLib
  spare := by decide +kernel
  other := by decide +kernel
  foreign := by decide +kernel

end Spare

/-- **An announce that blocks has already sprayed.** One slot is left, and there are two letters
with four copies. Their carrier is heard: it gets two copies of the first one, the second one
blocks the task, and the first is never written back, so it has six. -/
theorem blocked_announce_keeps_sprayed_copies :
    (∀ lib : CourierLib, SpareDistinct lib →
      ∃ st st1 node log, Reached lib st ∧
        Deposited lib (spareDeposit 200) (spareMail 200) st st1 ∧
        WorkingFlash spareEvents ∧ (∀ e ∈ spareEvents, e.2 ≠ .boot) ∧
        courierLife lib ⟨st1, false⟩ spareEvents = .ok (node, log) ∧
        node.state.store.erased = st1.store.erased ∧
        storeMap node.state.store (spareKey lib 200) = some (spareValue 200) ∧
        sprays (spareKey lib 200) log = [(carrierHeard.peerId, 2)] ∧
        ¬ Conserved lib (spareDeposit 200) (spareMail 200) ⟨st1, false⟩ node log spareEvents) ∧
    SpareDistinct plainLib := by
  refine ⟨fun lib hd => ?_, spareDistinct_plainLib⟩
  have hgood : wedgeEnv.FlashGood := fun _ => rfl
  obtain ⟨st, hreached, h⟩ := spare_reached hd
  obtain ⟨store1, store2, hstep1, hstep2, hbox1, hbox2, herased⟩ := spare_deposits hd h
  have hbound1 : storeMap store1 (spareKey lib 200) = some (spareValue 200) :=
    hbox1.mem_iff.mp (by simp)
  have hbound2 : storeMap store2 (spareKey lib 200) = some (spareValue 200) :=
    hbox2.mem_iff.mp (by simp)
  have hdeposit : Deposited lib (spareDeposit 200) (spareMail 200) st ⟨store1, st.side⟩ := by
    refine ⟨⟨wedgeEnv, hgood, hstep1⟩, parseEnvelope_spare 200, h.box.unknown (by simp), ?_⟩
    show (storeMap store1 (spareKey lib 200)).isSome = true
    rw [hbound1]
    rfl
  -- the announce: no wedge letter has given its slot back
  have hunowned : spareKey lib 200 ∉ owned st.side.owners ∧
      spareKey lib 201 ∉ owned st.side.owners := by
    rw [h.owns]
    simp only [Finset.mem_image, Finset.mem_range, not_exists, not_and]
    exact ⟨fun i hi => (hd.spare i hi).1, fun i hi => (hd.spare i hi).2⟩
  have hvac : vacancies st.side.owners = 1 := by
    have hvacant := h.vacant
    omega
  obtain ⟨hdead, ctx, p, huntil, hsends⟩ := announced_spare hd ⟨store2, st.side⟩ hd.other hbox2
    hunowned.1 hunowned.2 hvac
  have hnode1 := nodeStep_of_ok hstep2
  have hnode2 := nodeStep_of_deadlock hdead huntil
  have hsent : announceSends lib wedgeEnv carrierHeard ⟨store2, st.side⟩ =
      [⟨.spray, spareKey lib 200, p, 2, true⟩] := by
    have hcount : bitleStoreCount store2 = 2 := hbox2.count
    rw [announceSends, if_neg (by rw [hcount]; decide), huntil]
    exact hsends
  have hlife : courierLife lib ⟨⟨store1, st.side⟩, false⟩ spareEvents =
      .ok (⟨⟨{ store2 with lock := .held }, ctx.side⟩, true⟩,
        [(carrierHeard.peerId, ⟨.spray, spareKey lib 200, p, 2, true⟩)]) := by
    rw [spareEvents, courierLife_cons hnode1, courierLife_cons hnode2]
    show Except.ok (_, [] ++ (((announceSends lib wedgeEnv carrierHeard
      ⟨store2, st.side⟩).map fun s => (carrierHeard.peerId, s)) ++ [])) = _
    rw [hsent]
    rfl
  have hsprays : sprays (spareKey lib 200)
      [(carrierHeard.peerId, (⟨.spray, spareKey lib 200, p, 2, true⟩ : CourierSend))] =
      [(carrierHeard.peerId, 2)] := by simp [sprays]
  refine ⟨st, ⟨store1, st.side⟩, _, _, hreached, hdeposit,
    workingFlash_wedge fun e he => (spareEvents_quiet e he).1,
    fun e he => (spareEvents_quiet e he).2, hlife, herased, hbound2, hsprays, ?_⟩
  · rintro ⟨-, ⟨copies, p', hk⟩ | hleft⟩
    · -- four are left and two are sprayed, of four
      have hbound := hbound2.symm.trans hk.bound
      have hflags : (4 : UInt8) = copies := congrArg StoreValue.flags (Option.some.inj hbound)
      have hbalance : copies.toNat +
          ((sprays (spareKey lib 200) _).map fun x => x.2.toNat).sum = 4 := hk.balance
      rw [hsprays, ← hflags] at hbalance
      exact absurd hbalance (by decide)
    · exact spare_notLeft hnode1 hnode2 hbound2 hbound2 hleft

end Bitle
