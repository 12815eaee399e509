import Bitle.Courier.Mail

/-!
# Bitle — the life of the courier (`main/bitle_courier.c`)

A task that takes the mutex it holds does not return. It stays in the walk of its announce, with
the sends it has made and the side table as it was at that record; the deletes and rewrites it
has deferred are never made, and no call of the courier is handled before the next boot.
`CourierNode` is the courier with that outcome, and `courierLife` a run of it with its sends.
-/

namespace Bitle

open Wire Flash

/-- The courier, and whether its task is blocked. -/
structure CourierNode where
  state : CourierState
  blocked : Bool := false

/-- The walk of an announce up to the call of `announce_iter` that does not return. -/
def announceUntil (lib : CourierLib) (env : CourierEnv) (a : Announce) (st : CourierState) :
    Except StoreFault (StoreState × AnnounceCtx × Bool) :=
  bitleStoreIterate (env.flash 0) env.nowUnixS
    (untilFault (announceIter env a (candidateTags lib.toCourierHash a.noiseKey a.nowMs))) st.store
    ({ side := st.side }, false)

/-- The sends of an announce. -/
def announceSends (lib : CourierLib) (env : CourierEnv) (a : Announce) (st : CourierState) :
    List CourierSend :=
  if !a.verified || bitleStoreCount st.store == 0 then []
  else
    match announceUntil lib env a st with
    | .ok (_, ctx, _) => ctx.sends
    | .error _ => []

/-- The sends of an event, each with the peer it went to. -/
def eventSends (lib : CourierLib) (st : CourierState) (env : CourierEnv) :
    CourierEvent → List (Bytes 8 × CourierSend)
  | .announced a => (announceSends lib env a st).map fun s => (a.peerId, s)
  | .accept _ | .boot => []

/-- One event. A blocked task takes part in none but a boot. -/
def nodeStep (lib : CourierLib) (node : CourierNode) (env : CourierEnv) :
    CourierEvent → Except StoreFault CourierNode
  | .boot => .ok ⟨(bitleCourierInit lib env node.state).2, false⟩
  | .accept d =>
    if node.blocked then .ok node
    else do
      let (_, st) ← bitleCourierAccept lib env d node.state
      return ⟨st, false⟩
  | .announced a =>
    if node.blocked then .ok node
    else
      match bitleCourierPeerAnnounced lib env a node.state with
      | .ok st => .ok ⟨st, false⟩
      | .error .deadlock => do
        let (store, ctx, _) ← announceUntil lib env a node.state
        return ⟨⟨{ store with lock := .held }, ctx.side⟩, true⟩
      | .error e => .error e

def nodeSends (lib : CourierLib) (node : CourierNode) (env : CourierEnv) (event : CourierEvent) :
    List (Bytes 8 × CourierSend) :=
  if node.blocked then [] else eventSends lib node.state env event

/-- A run and its sends. -/
def courierLife (lib : CourierLib) : CourierNode → List (CourierEnv × CourierEvent) →
    Except StoreFault (CourierNode × List (Bytes 8 × CourierSend))
  | node, [] => .ok (node, [])
  | node, (env, event) :: rest => do
    let node' ← nodeStep lib node env event
    let (node'', log) ← courierLife lib node' rest
    return (node'', nodeSends lib node env event ++ log)

section Steps

variable {lib : CourierLib} {env : CourierEnv} {event : CourierEvent} {node node' : CourierNode}
  {st st' : CourierState} {events : List (CourierEnv × CourierEvent)}
  {log : List (Bytes 8 × CourierSend)}

/-- An event that returns. -/
theorem nodeStep_of_ok (h : courierStep lib st env event = .ok st') :
    nodeStep lib ⟨st, false⟩ env event = .ok ⟨st', false⟩ := by
  cases event with
  | boot =>
    cases h
    rfl
  | accept d =>
    rw [courierStep] at h
    cases hacc : bitleCourierAccept lib env d st with
    | error e =>
      rw [hacc] at h
      cases h
    | ok x =>
      rw [hacc] at h
      cases h
      simp only [nodeStep, hacc]
      rfl
  | announced a =>
    rw [courierStep] at h
    simp only [nodeStep, h]
    rfl

/-- An announce that blocks. -/
theorem nodeStep_of_deadlock {a : Announce} {store : StoreState} {ctx : AnnounceCtx} {b : Bool}
    (h : courierStep lib st env (.announced a) = .error .deadlock)
    (huntil : announceUntil lib env a st = .ok (store, ctx, b)) :
    nodeStep lib ⟨st, false⟩ env (.announced a) =
      .ok ⟨⟨{ store with lock := .held }, ctx.side⟩, true⟩ := by
  rw [courierStep] at h
  simp only [nodeStep, h, huntil]
  rfl

theorem announceUntil_of_walk {a : Announce} {store1 : StoreState} {ctx : AnnounceCtx}
    (h : bitleStoreIterate (env.flash 0) env.nowUnixS
      (announceIter env a (candidateTags lib.toCourierHash a.noiseKey a.nowMs)) st.store
      { side := st.side } = .ok (store1, ctx)) :
    announceUntil lib env a st = .ok (store1, ctx, false) := by
  rcases bitleStoreIterate_untilFault (env.flash 0) env.nowUnixS
    (announceIter env a (candidateTags lib.toCourierHash a.noiseKey a.nowMs)) st.store
    { side := st.side } with ⟨store', ctx', hwalk, huntil⟩ | ⟨e, hwalk, -⟩
  · rw [h] at hwalk
    cases hwalk
    exact huntil
  · rw [h] at hwalk
    cases hwalk

/-- The sends of a walk that returns. -/
theorem announceSends_of_walk {a : Announce} {store1 : StoreState} {ctx : AnnounceCtx}
    (hbusy : (!a.verified || bitleStoreCount st.store == 0) = false)
    (h : bitleStoreIterate (env.flash 0) env.nowUnixS
      (announceIter env a (candidateTags lib.toCourierHash a.noiseKey a.nowMs)) st.store
      { side := st.side } = .ok (store1, ctx)) : announceSends lib env a st = ctx.sends := by
  rw [announceSends, if_neg (by rw [hbusy]; decide), announceUntil_of_walk h]

theorem courierLife_cons (hstep : nodeStep lib node env event = .ok node') :
    courierLife lib node ((env, event) :: events) =
      (courierLife lib node' events).map fun r => (r.1, nodeSends lib node env event ++ r.2) := by
  rw [courierLife, hstep]
  cases hrest : courierLife lib node' events with
  | error e => simp only [bind, Except.bind, hrest, Except.map]
  | ok r => simp only [bind, Except.bind, hrest, Except.map, pure, Except.pure]

/-- A run with its first event taken off. -/
theorem courierLife_uncons
    (h : courierLife lib node ((env, event) :: events) = .ok (node', log)) :
    ∃ node1 log1, nodeStep lib node env event = .ok node1 ∧
      courierLife lib node1 events = .ok (node', log1) ∧
      log = nodeSends lib node env event ++ log1 := by
  cases hstep : nodeStep lib node env event with
  | error e =>
    rw [courierLife, hstep] at h
    cases h
  | ok node1 =>
    rw [courierLife_cons hstep] at h
    cases hrest : courierLife lib node1 events with
    | error e =>
      rw [hrest] at h
      cases h
    | ok r =>
      rw [hrest] at h
      cases h
      exact ⟨node1, r.2, rfl, hrest, rfl⟩

/-- **A run that returns** from every call is a life that does not block. -/
theorem courierLife_of_run (h : courierRun lib st events = .ok st') :
    ∃ log, courierLife lib ⟨st, false⟩ events = .ok (⟨st', false⟩, log) := by
  induction events generalizing st with
  | nil =>
    cases h
    exact ⟨[], rfl⟩
  | cons e events ih =>
    obtain ⟨env, event⟩ := e
    cases hstep : courierStep lib st env event with
    | error e =>
      rw [courierRun, hstep] at h
      cases h
    | ok st1 =>
      rw [courierRun_cons hstep] at h
      obtain ⟨log, hlife⟩ := ih h
      rw [courierLife_cons (nodeStep_of_ok hstep), hlife]
      exact ⟨_, rfl⟩

end Steps

/-! ## On a working flash -/

section Good

variable {lib : CourierLib} {env : CourierEnv} {t : UInt32} {st : CourierState}

/-- The walk of an announce fails for one reason only. -/
theorem walk_error {a : Announce} {tags : List (Bytes 16)} {l : List (StoreKey × StoreValue)}
    {ctx : AnnounceCtx} {e : StoreFault} (h : l.foldlM (announceEntry env a tags) ctx = .error e) :
    e = .deadlock := by
  induction l generalizing ctx with
  | nil => cases h
  | cons x l ih =>
    rw [List.foldlM_cons] at h
    rcases announceEntry_cases env a tags ctx x with
      ⟨ctx', heq, -⟩ | ⟨-, ⟨ctx', heq, -⟩ | ⟨heq, -⟩⟩
    · rw [heq] at h
      exact ih h
    · rw [heq] at h
      exact ih h
    · rw [heq] at h
      cases h
      rfl

/-- **An announce that does not return** is blocked in its walk, which has dropped nothing but
what is expired. -/
theorem announced_blocks (hg : StoreGood lib.crc32 t st.store) (henv : env.FlashGood)
    {a : Announce} {e : StoreFault} (h : bitleCourierPeerAnnounced lib env a st = .error e) :
    e = .deadlock ∧ ∃ store ctx, announceUntil lib env a st = .ok (store, ctx, true) ∧
      StoreGood lib.crc32 t store ∧ store.erased = st.store.erased ∧
      ∀ k v, storeMap store k = some v → storeMap st.store k = some v := by
  have hcb : ∀ (store : StoreState) (key : StoreKey) (expiryUnixS : UInt32) (flags : UInt8)
      (payload : List UInt8) (ctx : AnnounceCtx), store.part = true → store.lock = .held →
      announceIter env a (candidateTags lib.toCourierHash a.noiseKey a.nowMs) store key
          expiryUnixS flags payload ctx =
        (announceEntry env a (candidateTags lib.toCourierHash a.noiseKey a.nowMs) ctx
          (key, ⟨expiryUnixS, flags, payload⟩)).map fun ctx => (true, ctx) :=
    fun _ key expiryUnixS flags payload _ hpart hlock =>
      announceIter_held hpart hlock key expiryUnixS flags payload
  obtain ⟨store1, hg1, -, -, hfold⟩ := hg.iterate_foldlM env.nowUnixS _ hcb { side := st.side }
  unfold bitleCourierPeerAnnounced at h
  split at h
  · cases h
  · dsimp only at h
    rw [henv 0] at h
    cases hctx : (shownRecords .good env.nowUnixS st.store).foldlM
        (announceEntry env a (candidateTags lib.toCourierHash a.noiseKey a.nowMs))
        { side := st.side } with
    | ok ctx =>
      -- what follows the walk returns
      rw [hctx] at hfold
      obtain ⟨store2, hdel, hg2, -⟩ := applyDeletes_spec henv 1 ctx.deliverKeys hg1
      obtain ⟨store3, -, hput, -⟩ :=
        applySprays_spec henv (1 + ctx.deliverKeys.length) ctx.sprayOps hg2
      rw [hfold] at h
      simp only [bind, Except.bind, Except.map, hdel, hput] at h
      cases h
    | error e' =>
      rw [hctx] at hfold
      rw [hfold] at h
      cases h
      refine ⟨walk_error hctx, ?_⟩
      obtain ⟨store, seen, r, huntil, -, hg', her, hkept⟩ :=
        hg.walked env.nowUnixS hcb { side := st.side }
      rcases bitleStoreIterate_untilFault .good env.nowUnixS
        (announceIter env a (candidateTags lib.toCourierHash a.noiseKey a.nowMs)) st.store
        { side := st.side } with ⟨store', ctx', hwalk, -⟩ | ⟨-, -, hflag⟩
      · rw [hfold] at hwalk
        cases hwalk
      · obtain ⟨ctx, b⟩ := r
        obtain rfl : b = true := hflag store (ctx, b) huntil
        refine ⟨store, ctx, ?_, hg', her, hkept⟩
        rw [announceUntil, henv 0]
        exact huntil

/-- The store is good once the mutex is given back, and a task that is not blocked has done so. -/
structure NodeGood (lib : CourierLib) (t : UInt32) (node : CourierNode) : Prop where
  good : StoreGood lib.crc32 t (giveLock node.state.store)
  free : node.blocked = false → giveLock node.state.store = node.state.store

theorem NodeGood.storeGood {node : CourierNode} (h : NodeGood lib t node)
    (hawake : node.blocked = false) : StoreGood lib.crc32 t node.state.store :=
  h.free hawake ▸ h.good

theorem StoreGood.giveLock_eq {store : StoreState} (hg : StoreGood lib.crc32 t store) :
    giveLock store = store := by
  obtain ⟨S, head, hi⟩ := hg
  rw [giveLock, ← hi.lock]

theorem StoreGood.node (hg : StoreGood lib.crc32 t st.store) : NodeGood lib t ⟨st, false⟩ :=
  ⟨hg.giveLock_eq.symm ▸ hg, fun _ => hg.giveLock_eq⟩

theorem NodeGood.mono {t' : UInt32} {node : CourierNode} (h : NodeGood lib t node) (hle : t ≤ t') :
    NodeGood lib t' node := by
  obtain ⟨S, head, hi⟩ := h.good
  exact ⟨⟨S, head, hi.mono hle⟩, h.free⟩

/-- What becomes of an event that is not a boot. -/
inductive NodeTurn (lib : CourierLib) (env : CourierEnv) (node : CourierNode)
    (event : CourierEvent) : CourierNode → Prop
  | idle (blocked : node.blocked = true) : NodeTurn lib env node event node
  | returns {st' : CourierState} (awake : node.blocked = false)
      (step : courierStep lib node.state env event = .ok st') :
      NodeTurn lib env node event ⟨st', false⟩
  | blocks {a : Announce} {store : StoreState} {ctx : AnnounceCtx} (awake : node.blocked = false)
      (announced : event = .announced a)
      (step : courierStep lib node.state env event = .error .deadlock)
      (kept : ∀ k v, storeMap store k = some v → storeMap node.state.store k = some v) :
      NodeTurn lib env node event ⟨⟨{ store with lock := .held }, ctx.side⟩, true⟩

/-- **One event** on a working flash: it has an outcome, which keeps the invariant of the store
and only adds to the erased sectors. -/
theorem NodeGood.turn {node : CourierNode} (h : NodeGood lib t node) (henv : env.FlashGood)
    {event : CourierEvent} (hboot : event ≠ .boot) :
    ∃ node', nodeStep lib node env event = .ok node' ∧ NodeTurn lib env node event node' ∧
      NodeGood lib t node' ∧
      ∃ bases, node'.state.store.erased = node.state.store.erased ++ bases := by
  obtain ⟨st, blocked⟩ := node
  cases blocked with
  | true =>
    refine ⟨⟨st, true⟩, ?_, .idle rfl, h, [], (List.append_nil _).symm⟩
    cases event with
    | boot => exact absurd rfl hboot
    | accept d => rfl
    | announced a => rfl
  | false =>
    have hg : StoreGood lib.crc32 t st.store := h.storeGood rfl
    cases event with
    | boot => exact absurd rfl hboot
    | accept d =>
      obtain ⟨stored, store', heq, hg', hcases⟩ := accept_cases hg henv d
      have hstep : courierStep lib st env (.accept d) = .ok ⟨store', st.side⟩ := by
        rw [courierStep, heq]
        rfl
      refine ⟨_, nodeStep_of_ok hstep, .returns rfl hstep, StoreGood.node hg', ?_⟩
      cases hcases with
      | refused why map erased => exact ⟨[], erased.trans (List.append_nil _).symm⟩
      | known adm found map erased => exact ⟨[], erased.trans (List.append_nil _).symm⟩
      | overQuota mail map erased => exact ⟨[], erased.trans (List.append_nil _).symm⟩
      | stored adm unknown bound other erased => exact ⟨_, erased⟩
    | announced a =>
      cases hstep : courierStep lib st env (.announced a) with
      | ok st' =>
        refine ⟨_, nodeStep_of_ok hstep, .returns rfl hstep, ?_⟩
        rcases announced_cases hg henv hstep with
          ⟨rfl, -⟩ | ⟨-, ctx, bases, -, -, -, hg', herased, -⟩
        · exact ⟨StoreGood.node hg, [], (List.append_nil _).symm⟩
        · exact ⟨StoreGood.node hg', bases, herased⟩
      | error e =>
        -- the walk blocks: nothing it deferred has reached the store
        obtain ⟨rfl, store, ctx, huntil, hg', herased, hkept⟩ := announced_blocks hg henv hstep
        have hgood : StoreGood lib.crc32 t (giveLock { store with lock := .held }) :=
          hg'.giveLock_eq.symm ▸ hg'
        refine ⟨_, nodeStep_of_deadlock hstep huntil, .blocks rfl rfl hstep hkept, ⟨hgood, ?_⟩,
          [], herased.trans (List.append_nil _).symm⟩
        intro hawake
        cases hawake

/-- **A boot** on a working flash ends a block. -/
theorem NodeGood.boot {node : CourierNode} (h : NodeGood lib t node) (henv : env.FlashGood)
    (hle : t ≤ env.nowUnixS) :
    ∃ st', nodeStep lib node env .boot = .ok ⟨st', false⟩ ∧
      StoreGood lib.crc32 env.nowUnixS st'.store ∧
      ∀ k, storeMap st'.store k =
        (storeMap node.state.store k).filter (StoreValue.fresh env.nowUnixS) := by
  obtain ⟨S, head, hi⟩ := h.good
  obtain ⟨store', head', heq, hi', -, hbound⟩ := (hi.mono hle).reboot
  have hreboot : bitleStoreReboot .good lib.crc32 env.nowUnixS node.state.store =
      (.ok, store') := heq
  refine ⟨⟨store', .zero⟩, ?_, ⟨S, head', hi'⟩,
    fun k => storeMap_filter hi.toRing hi'.toRing (hbound k)⟩
  rw [nodeStep, bitleCourierInit, henv 0, hreboot]

/-- An event that finds room returns. -/
theorem NodeGood.returns (hg : StoreGood lib.crc32 t st.store) (henv : env.FlashGood)
    {event : CourierEvent} (hboot : event ≠ .boot) (hroom : EventHasRoom lib env st event) :
    ∃ st', courierStep lib st env event = .ok st' := by
  obtain ⟨node', -, hturn, -⟩ := (StoreGood.node hg).turn henv hboot
  cases hturn with
  | idle blocked => cases blocked
  | returns awake step => exact ⟨_, step⟩
  | blocks awake announced step => exact absurd step (released_step hg.lock hroom).1

variable (lib) in
/-- The first boot of a device with an erased partition. -/
theorem nodeStep_firstBoot (henv : env.FlashGood) :
    ∃ st, nodeStep lib ⟨.off blankFlash, false⟩ env .boot = .ok ⟨st, false⟩ ∧
      StoreGood lib.crc32 env.nowUnixS st.store ∧ ∀ k, storeMap st.store k = none := by
  obtain ⟨store0, S, head, hboot, hi, hempty⟩ := storeInv_firstBoot lib.crc32 env.nowUnixS
  have hreboot : bitleStoreReboot .good lib.crc32 env.nowUnixS (powerOn blankFlash []) =
      (.ok, store0) := by
    rw [bitleStoreReboot]
    exact hboot
  refine ⟨⟨store0, .zero⟩, ?_, ⟨S, head, hi⟩, fun k => hi.storeMap_eq_none (hempty k)⟩
  rw [nodeStep, bitleCourierInit, henv 0, CourierState.off, hreboot]

end Good

/-! ## Reached states -/

/-- The flash calls of every event succeed. -/
def WorkingFlash (events : List (CourierEnv × CourierEvent)) : Prop :=
  ∀ e ∈ events, e.1.FlashGood

/-- The boots among the events do not go back in time, from one at `t` on. -/
def BootsFrom : UInt32 → List (CourierEnv × CourierEvent) → Prop
  | _, [] => True
  | t, (env, .boot) :: rest => t ≤ env.nowUnixS ∧ BootsFrom env.nowUnixS rest
  | t, (_, .accept _) :: rest | t, (_, .announced _) :: rest => BootsFrom t rest

theorem bootsFrom_of_none {t : UInt32} {events : List (CourierEnv × CourierEvent)}
    (h : ∀ e ∈ events, e.2 ≠ .boot) : BootsFrom t events := by
  induction events with
  | nil => trivial
  | cons e events ih =>
    obtain ⟨env, event⟩ := e
    have hrest := ih fun e he => h e (List.mem_cons_of_mem _ he)
    cases event with
    | boot => exact absurd rfl (h _ List.mem_cons_self)
    | accept d => exact hrest
    | announced a => exact hrest

theorem WorkingFlash.uncons {env : CourierEnv} {event : CourierEvent}
    {events : List (CourierEnv × CourierEvent)} (h : WorkingFlash ((env, event) :: events)) :
    env.FlashGood ∧ WorkingFlash events :=
  List.forall_mem_cons.mp h

/-- An event that is no boot leaves the time of the last boot. -/
theorem BootsFrom.tail {t : UInt32} {env : CourierEnv} {event : CourierEvent}
    {events : List (CourierEnv × CourierEvent)} (h : BootsFrom t ((env, event) :: events))
    (hne : event ≠ .boot) : BootsFrom t events := by
  cases event with
  | boot => exact absurd rfl hne
  | accept d => exact h
  | announced a => exact h

/-- A state between two calls of the courier, after any life with a working flash from an erased
partition on. -/
def Reached (lib : CourierLib) (st : CourierState) : Prop :=
  ∃ env events log, WorkingFlash ((env, .boot) :: events) ∧ BootsFrom env.nowUnixS events ∧
    courierLife lib ⟨.off blankFlash, false⟩ ((env, .boot) :: events) = .ok (⟨st, false⟩, log)

section Reached

variable {lib : CourierLib} {t : UInt32} {node node' : CourierNode} {st : CourierState}

/-- **A life**, by induction on its events. -/
theorem NodeGood.life (h : NodeGood lib t node) {events : List (CourierEnv × CourierEvent)}
    (hflash : WorkingFlash events) (hboots : BootsFrom t events)
    {log : List (Bytes 8 × CourierSend)}
    (hlife : courierLife lib node events = .ok (node', log)) : ∃ t', NodeGood lib t' node' := by
  induction events generalizing t node log with
  | nil =>
    cases hlife
    exact ⟨t, h⟩
  | cons e events ih =>
    obtain ⟨env, event⟩ := e
    obtain ⟨henv, hrest⟩ := hflash.uncons
    obtain ⟨node1, log1, hstep, hlife', -⟩ := courierLife_uncons hlife
    by_cases hboot : event = .boot
    · subst hboot
      obtain ⟨st', hboot, hg, -⟩ := h.boot henv hboots.1
      rw [hstep, Except.ok.injEq] at hboot
      subst hboot
      exact ih (StoreGood.node hg) hrest hboots.2 hlife'
    · obtain ⟨node2, hstep2, -, h2, -⟩ := h.turn henv hboot
      rw [hstep, Except.ok.injEq] at hstep2
      subst hstep2
      exact ih h2 hrest (hboots.tail hboot) hlife'

theorem Reached.storeGood (h : Reached lib st) : ∃ t, StoreGood lib.crc32 t st.store := by
  obtain ⟨env, events, log, hflash, hboots, hlife⟩ := h
  obtain ⟨henv, hflash'⟩ := hflash.uncons
  obtain ⟨st0, hboot, hg, -⟩ := nodeStep_firstBoot lib henv
  obtain ⟨node1, log1, hstep, hrest, -⟩ := courierLife_uncons hlife
  rw [hboot, Except.ok.injEq] at hstep
  subst hstep
  obtain ⟨t, hgood⟩ := (StoreGood.node hg).life hflash' hboots hrest
  exact ⟨t, hgood.storeGood rfl⟩

/-- A run with its first event taken off. -/
theorem courierRun_uncons {st' : CourierState} {env : CourierEnv} {event : CourierEvent}
    {events : List (CourierEnv × CourierEvent)} (hg : StoreGood lib.crc32 t st.store)
    (henv : env.FlashGood) (hboot : event ≠ .boot)
    (hrun : courierRun lib st ((env, event) :: events) = .ok st') :
    ∃ st1, courierStep lib st env event = .ok st1 ∧ StoreGood lib.crc32 t st1.store ∧
      (∃ bases, st1.store.erased = st.store.erased ++ bases) ∧
      courierRun lib st1 events = .ok st' := by
  cases hstep : courierStep lib st env event with
  | error e =>
    rw [courierRun, hstep] at hrun
    cases hrun
  | ok st1 =>
    rw [courierRun_cons hstep] at hrun
    obtain ⟨node', hnode, -, hgood, herased⟩ := (StoreGood.node hg).turn henv hboot
    rw [nodeStep_of_ok hstep, Except.ok.injEq] at hnode
    subst hnode
    exact ⟨st1, rfl, hgood.storeGood rfl, herased, hrun⟩

/-- A run whose announces find room returns from every call. -/
theorem courierRun_of_room (hg : StoreGood lib.crc32 t st.store)
    {events : List (CourierEnv × CourierEvent)} (hflash : WorkingFlash events)
    (hboot : ∀ e ∈ events, e.2 ≠ .boot) (hroom : RoomAlong lib st events) :
    ∃ st', courierRun lib st events = .ok st' := by
  induction events generalizing st with
  | nil => exact ⟨st, rfl⟩
  | cons e events ih =>
    obtain ⟨env, event⟩ := e
    obtain ⟨henv, hflash'⟩ := hflash.uncons
    obtain ⟨hevent, hboot'⟩ := List.forall_mem_cons.mp hboot
    obtain ⟨hhere, hnext⟩ := hroom
    obtain ⟨st1, hstep⟩ := NodeGood.returns hg henv hevent hhere
    rw [hstep] at hnext
    obtain ⟨node', hnode, -, hgood, -⟩ := (StoreGood.node hg).turn henv hevent
    rw [nodeStep_of_ok hstep, Except.ok.injEq] at hnode
    subst hnode
    rw [courierRun_cons hstep]
    exact ih (hgood.storeGood rfl) hflash' hboot' hnext

end Reached

end Bitle
