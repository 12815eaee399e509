import Bitle.Ble.Conn
import Bitle.Lib.Run

/-!
# Bitle — links follow subscriptions (`main/bitchat_ble.c`, `main/bitle_link.c`)

The mesh sends through the link table, and `ble_link_send_cb` reads the connection table when it is
called. The two tables are written by different steps, and the trunk has an entry in the first one.
`Coherent` says how they fit: the link table has an entry for a handle exactly if a connection of
that handle is subscribed, and there is always room for one more. So a broadcast offers a frame to
the subscribed connections and the trunk, and to nobody else.
-/

namespace Bitle.Ble

open Wire Bitle.Link

variable {F S C : Type}

/-- The entry of a subscribed connection in the link table. -/
def bleEntry (cb : F) (handle : UInt16) : Link.LinkEntry F S C :=
  { inUse := true, adapter := legacyAdapter handle .ble, legacySendFn := some cb }

/-- What the connection table is for: a finite map from handles to connections. -/
abbrev ConnMap : Type := Finmap fun _ : UInt16 => BleConnState

/-- The link a handle should have. -/
def connLink (cb : F) (conns : ConnMap) (handle : UInt16) : Option (Link.LinkEntry F S C) :=
  (conns.lookup handle).bind fun c => if c.subscribed then some (bleEntry cb handle) else none

/-- The two tables fit together. -/
structure Coherent (cb : F) (s : BleState F S C) (conns : ConnMap) (m : LinkRegistry F S C) :
    Prop where
  length : s.connections.length = bitleBleMaxConnections
  refines : Table.Refines BleConnState.inUse BleConnState.connHandle s.connections conns
  links : HoldsRegistry s.links m
  low : ∀ h ∈ conns, h < bitleLinkBroadcastBase
  link : ∀ h, h ≠ bitleLoraLinkHandle → m.lookup h = connLink cb conns h

/-! ## What a connection is -/

section Tables

variable {cb : F} {s s' : BleState F S C} {conns : ConnMap} {m : LinkRegistry F S C}
  {handle : UInt16} {i : Nat} {c c' : BleConnState}

/-- Only the two tables matter. -/
theorem Coherent.congr (h : Coherent cb s conns m) (hconns : s'.connections = s.connections)
    (hlinks : s'.links = s.links) : Coherent cb s' conns m where
  length := hconns ▸ h.length
  refines := hconns ▸ h.refines
  links := hlinks ▸ h.links
  low := h.low
  link := h.link

/-- A connection found by its handle. -/
theorem Coherent.conn?_some (h : Coherent cb s conns m) (hconn : s.conn? handle = some (i, c)) :
    s.connections.findIdx? (Table.isAt BleConnState.inUse BleConnState.connHandle handle) = some i ∧
      c.inUse = true ∧ c.connHandle = handle ∧ conns.lookup handle = some c := by
  obtain ⟨j, hfind, hslot⟩ := Option.bind_eq_some_iff.mp hconn
  obtain ⟨d, hd, hpair⟩ := Option.map_eq_some_iff.mp hslot
  obtain ⟨rfl, rfl⟩ := Prod.mk.inj hpair
  obtain ⟨y, hy, hused, hhandle, hlookup⟩ := h.refines.slot hfind
  obtain rfl : y = d := Option.some.inj (hy.symm.trans hd)
  exact ⟨hfind, hused, hhandle, hlookup⟩

theorem Coherent.conn?_none (h : Coherent cb s conns m) (hconn : s.conn? handle = none) :
    conns.lookup handle = none := by
  cases hfind : findConn s.connections handle with
  | none => exact h.refines.lookup_eq_none hfind
  | some j =>
    obtain ⟨y, hy, -, -, -⟩ := h.refines.slot hfind
    unfold BleState.conn? at hconn
    rw [hfind, Option.bind_some, hy] at hconn
    cases hconn

theorem Coherent.ne_trunk (h : Coherent cb s conns m) (hmem : handle ∈ conns) :
    handle ≠ bitleLoraLinkHandle := by
  rintro rfl
  exact absurd (h.low _ hmem) (by decide)

theorem mem_of_lookup (h : conns.lookup handle = some c) : handle ∈ conns :=
  Finmap.lookup_isSome.mp (by rw [h]; rfl)

/-- **There is always room** for another link: six connections and the trunk. -/
theorem Coherent.room (h : Coherent cb s conns m) : m.keys.card < bitleLinkMax := by
  have hsub : m.keys ⊆ insert bitleLoraLinkHandle conns.keys := by
    intro k hk
    rw [Finset.mem_insert, Finmap.mem_keys]
    by_cases htrunk : k = bitleLoraLinkHandle
    · exact .inl htrunk
    · right
      rw [Finmap.mem_keys, ← Finmap.lookup_isSome, h.link k htrunk] at hk
      unfold connLink at hk
      cases hlookup : conns.lookup k with
      | none =>
        rw [hlookup] at hk
        cases hk
      | some c => exact mem_of_lookup hlookup
  have hconns := h.refines.card_le
  rw [h.length] at hconns
  have hcard := (Finset.card_le_card hsub).trans (Finset.card_insert_le _ _)
  show m.keys.card < 8
  unfold bitleBleMaxConnections at hconns
  omega

/-- A registration of the older kind, where there is room. -/
theorem holdsRegistry_register {links : List (Link.LinkEntry F S C)} (h : HoldsRegistry links m)
    (hne : handle ≠ bitleLinkNone) (hroom : m.keys.card < bitleLinkMax) (type : LinkType) (fn : F) :
    HoldsRegistry (bitleLinkRegister links handle type (some fn)).2 (m.insert handle
      { inUse := true, adapter := legacyAdapter handle type, legacySendFn := some fn }) := by
  have hentry : LinkCall.entry? (LinkCall.register handle type (some fn) : LinkCall F S C) =
      some { inUse := true, adapter := legacyAdapter handle type, legacySendFn := some fn } :=
    if_neg hne
  have hstep := (h.step (.register handle type (some fn))).2
  rw [registryStep_of_entry hentry, if_pos (.inr hroom)] at hstep
  exact hstep

/-! ## What a step does to the tables -/

/-- A connection is overwritten, and its link with it. -/
theorem Coherent.write (h : Coherent cb s conns m) (hconn : s.conn? handle = some (i, c))
    (hused : c'.inUse = true) (hhandle : c'.connHandle = handle)
    {links : List (Link.LinkEntry F S C)} {m' : LinkRegistry F S C} (hlinks : HoldsRegistry links m')
    (hself : m'.lookup handle = if c'.subscribed then some (bleEntry cb handle) else none)
    (hother : ∀ k, k ≠ handle → m'.lookup k = m.lookup k) :
    Coherent cb { s.setConn i c' with links := links } (conns.insert handle c') m' := by
  obtain ⟨hfind, -, -, hlookup⟩ := h.conn?_some hconn
  subst hhandle
  refine ⟨List.length_set.trans h.length, h.refines.set hfind hused, hlinks, ?_, ?_⟩
  · intro k hk
    rcases Finmap.mem_insert.mp hk with rfl | hk
    · exact h.low _ (mem_of_lookup hlookup)
    · exact h.low k hk
  · intro k htrunk
    unfold connLink
    by_cases hk : k = c'.connHandle
    · rw [hk, Finmap.lookup_insert, hself]
      rfl
    · rw [Finmap.lookup_insert_of_ne _ hk, hother k hk]
      exact h.link k htrunk

/-- A change that leaves the subscription alone. -/
theorem Coherent.setConn (h : Coherent cb s conns m) (hconn : s.conn? handle = some (i, c))
    (c' : BleConnState) (hused : c'.inUse = c.inUse) (hhandle : c'.connHandle = c.connHandle)
    (hsub : c'.subscribed = c.subscribed) :
    Coherent cb (s.setConn i c') (conns.insert handle c') m := by
  obtain ⟨-, hc, hch, hlookup⟩ := h.conn?_some hconn
  refine h.write hconn (hused.trans hc) (hhandle.trans hch) h.links ?_ fun _ _ => rfl
  rw [h.link handle (h.ne_trunk (mem_of_lookup hlookup)), connLink, hlookup, Option.bind_some, hsub]

theorem Coherent.subscribe (h : Coherent cb s conns m) (hconn : s.conn? handle = some (i, c))
    (c' : BleConnState) (hused : c'.inUse = c.inUse) (hhandle : c'.connHandle = c.connHandle)
    (hsub : c'.subscribed = true) :
    Coherent cb ((s.setConn i c').register cb handle) (conns.insert handle c')
      (m.insert handle (bleEntry cb handle)) := by
  obtain ⟨-, hc, hch, hlookup⟩ := h.conn?_some hconn
  have hlow := h.low handle (mem_of_lookup hlookup)
  have hne : handle ≠ bitleLinkNone := by
    rintro rfl
    exact absurd hlow (by decide)
  refine h.write hconn (hused.trans hc) (hhandle.trans hch)
    (holdsRegistry_register h.links hne h.room .ble cb) ?_ fun k hk => Finmap.lookup_insert_of_ne _ hk
  rw [hsub, if_pos rfl, Finmap.lookup_insert]

theorem Coherent.unsubscribe (h : Coherent cb s conns m) (hconn : s.conn? handle = some (i, c))
    (c' : BleConnState) (hused : c'.inUse = c.inUse) (hhandle : c'.connHandle = c.connHandle)
    (hsub : c'.subscribed = false) :
    Coherent cb ((s.setConn i c').unregister handle) (conns.insert handle c') (m.erase handle) := by
  obtain ⟨-, hc, hch, -⟩ := h.conn?_some hconn
  refine h.write hconn (hused.trans hc) (hhandle.trans hch) (h.links.unregister handle) ?_
    fun k hk => Finmap.lookup_erase_ne hk
  rw [hsub, if_neg Bool.false_ne_true, Finmap.lookup_erase]

/-- A connection goes away, and its link with it. -/
theorem Coherent.dropConn (h : Coherent cb s conns m) (handle : UInt16) :
    ∃ conns' m', Coherent cb (dropConn s handle) conns' m' := by
  unfold Ble.dropConn
  cases hfind : findConn s.connections handle with
  | none => exact ⟨conns, m, h⟩
  | some i =>
    have hdrop := h.refines.drop (show ({} : BleConnState).inUse = false from rfl) handle
    have hset : Table.drop BleConnState.inUse BleConnState.connHandle {} handle s.connections =
        s.connections.set i {} := by
      have hidx : s.connections.findIdx?
          (Table.isAt BleConnState.inUse BleConnState.connHandle handle) = some i := hfind
      unfold Table.drop
      rw [hidx]
    rw [hset] at hdrop
    refine ⟨conns.erase handle, m.erase handle, List.length_set.trans h.length, hdrop,
      h.links.unregister handle, ?_, ?_⟩
    · intro k hk
      exact h.low k (Finmap.mem_erase.mp hk).2
    · intro k htrunk
      unfold connLink
      by_cases hk : k = handle
      · rw [hk, Finmap.lookup_erase, Finmap.lookup_erase]
        rfl
      · rw [Finmap.lookup_erase_ne hk, Finmap.lookup_erase_ne hk]
        exact h.link k htrunk

theorem conn?_of_slot (hfind : s.connections.findIdx?
      (Table.isAt BleConnState.inUse BleConnState.connHandle handle) = some i)
    (hslot : s.connections[i]? = some c) : s.conn? handle = some (i, c) := by
  have hconn : findConn s.connections handle = some i := hfind
  unfold BleState.conn?
  rw [hconn, Option.bind_some, hslot]
  rfl

/-- A slot for a connection: its own, or a free one. -/
theorem Coherent.alloc (h : Coherent cb s conns m) (hlow : handle < bitleLinkBroadcastBase)
    {connections : List BleConnState} (halloc : allocConn s.connections handle = some (i, connections)) :
    ∃ c conns', ({ s with connections := connections } : BleState F S C).conn? handle = some (i, c) ∧
      Coherent cb { s with connections := connections } conns' m := by
  unfold allocConn at halloc
  cases hfind : findConn s.connections handle with
  | some j =>
    rw [hfind] at halloc
    obtain ⟨rfl, rfl⟩ := Prod.mk.inj (Option.some.inj halloc)
    obtain ⟨c, hslot, -, -, -⟩ := h.refines.slot hfind
    exact ⟨c, conns, conn?_of_slot hfind hslot, h⟩
  | none =>
    rw [hfind] at halloc
    cases hfree : s.connections.findIdx? fun c => !c.inUse with
    | none =>
      rw [hfree] at halloc
      cases halloc
    | some j =>
      -- the connection is new: it is put into the table at a slot that is free
      rw [hfree] at halloc
      obtain ⟨rfl, rfl⟩ := Prod.mk.inj (Option.some.inj halloc)
      have hidx : s.connections.findIdx?
          (Table.isAt BleConnState.inUse BleConnState.connHandle handle) = none := hfind
      have hnone := h.refines.lookup_eq_none hidx
      have hlt : j < s.connections.length := (List.findIdx?_eq_some_iff_getElem.mp hfree).1
      have hput := h.refines.put
        (show ({ inUse := true, connHandle := handle } : BleConnState).inUse = true from rfl)
      have hslot : Table.put BleConnState.inUse BleConnState.connHandle
          { inUse := true, connHandle := handle } s.connections =
            some (s.connections.set j { inUse := true, connHandle := handle }) := by
        unfold Table.put Table.slotFor
        rw [show s.connections.findIdx? (Table.isAt BleConnState.inUse BleConnState.connHandle
          ({ inUse := true, connHandle := handle } : BleConnState).connHandle) = none from hidx,
          Option.none_or, hfree]
        rfl
      rw [hslot] at hput
      obtain ⟨-, hlen, hrefines⟩ := hput
      refine ⟨{ inUse := true, connHandle := handle }, _, conn?_of_slot ?_ ?_,
        hlen.trans h.length, hrefines, h.links, ?_, ?_⟩
      · refine Slots.findIdx?_set_of_pos (.inr ⟨?_, hlt⟩) (Table.isAt_iff.mpr ⟨rfl, rfl⟩)
        rw [h.refines.lookup]
        exact hnone
      · exact List.getElem?_set_self hlt
      · intro k hk
        rcases Finmap.mem_insert.mp hk with rfl | hk
        · exact hlow
        · exact h.low k hk
      · intro k htrunk
        unfold connLink
        -- a new connection has no link yet, and the links of the others are the same
        by_cases hk : k = handle
        · rw [hk, Finmap.lookup_insert, h.link handle (hk ▸ htrunk), connLink, hnone]
          rfl
        · rw [Finmap.lookup_insert_of_ne _ hk]
          exact h.link k htrunk

end Tables

/-! ## One step -/

/-- The tables fit, whatever they hold. -/
def Fits (cb : F) (s : BleState F S C) : Prop := ∃ conns m, Coherent cb s conns m

section Step

variable {cb : F} {s s' : BleState F S C} (env : BleEnv)

theorem Fits.congr (h : Fits cb s) (hconns : s'.connections = s.connections)
    (hlinks : s'.links = s.links) : Fits cb s' := by
  obtain ⟨conns, m, h⟩ := h
  exact ⟨conns, m, h.congr hconns hlinks⟩

theorem Fits.call (h : Fits cb s) (c : BleCall) : Fits cb (s.call c) := h.congr rfl rfl

theorem Fits.discFailed (h : Fits cb s) (connHandle : UInt16) :
    Fits cb (centralDiscFailed env s connHandle) := by
  unfold centralDiscFailed
  refine Fits.call ?_ _
  split
  · exact h
  · exact h.congr rfl rfl

theorem Fits.tryStart (h : Fits cb s) (connHandle : UInt16) (c : BleCall) :
    Fits cb (Ble.tryStart env s connHandle c) := by
  unfold Ble.tryStart
  split
  · exact h.call c
  · exact (h.call c).discFailed env connHandle

theorem Fits.setConn (h : Fits cb s) {connHandle : UInt16} {i : Nat} {c : BleConnState}
    (hconn : s.conn? connHandle = some (i, c)) (c' : BleConnState) (hused : c'.inUse = c.inUse)
    (hhandle : c'.connHandle = c.connHandle) (hsub : c'.subscribed = c.subscribed) :
    Fits cb (s.setConn i c') := by
  obtain ⟨conns, m, h⟩ := h
  exact ⟨_, m, h.setConn hconn c' hused hhandle hsub⟩

theorem Fits.cccdWritten (h : Fits cb s) (connHandle status : UInt16) :
    Fits cb (centralCccdWritten cb env s connHandle status) := by
  unfold centralCccdWritten
  split
  · exact h.discFailed env connHandle
  · split
    · exact h
    · next c hconn =>
      obtain ⟨conns, m, h⟩ := h
      exact Fits.call ⟨_, _, h.subscribe hconn { c with subscribed := true } rfl rfl rfl⟩ _

theorem Fits.dsc (h : Fits cb s) (connHandle status : UInt16)
    (dsc : Option (Option UInt16 × UInt16)) : Fits cb (centralDscCb env s connHandle status dsc) := by
  unfold centralDscCb
  split
  · exact h
  · split
    · exact h.tryStart env connHandle _
    · split
      · exact h
      · exact h.discFailed env connHandle
  · split
    · exact h
    · exact h.discFailed env connHandle

theorem Fits.chr (h : Fits cb s) (connHandle status : UInt16) (valHandle : Option UInt16) :
    Fits cb (centralChrCb env s connHandle status valHandle) := by
  have hdone : ∀ c, Fits cb (centralChrCb.chrDone env connHandle status s c) := by
    intro c
    unfold centralChrCb.chrDone
    split
    · split
      · exact h.discFailed env connHandle
      · exact h.tryStart env connHandle _
    · exact h.discFailed env connHandle
  unfold centralChrCb
  split
  · exact h
  · next hconn =>
    split
    · split
      · exact h.setConn hconn _ rfl rfl rfl
      · exact hdone _
    · exact hdone _

theorem Fits.svc (h : Fits cb s) (connHandle status : UInt16)
    (service : Option (UInt16 × UInt16)) :
    Fits cb (centralSvcCb env s connHandle status service) := by
  have hdone : ∀ c, Fits cb (centralSvcCb.svcDone env connHandle status s c) := by
    intro c
    unfold centralSvcCb.svcDone
    split
    · split
      · exact h.discFailed env connHandle
      · exact h
    · exact h.discFailed env connHandle
  unfold centralSvcCb
  split
  · exact h
  · next hconn =>
    split
    · split
      · refine Fits.tryStart env ?_ connHandle _
        exact h.setConn hconn _ rfl rfl rfl
      · exact hdone _
    · exact hdone _

theorem Fits.connected (h : Fits cb s) {connHandle : UInt16}
    (hlow : connHandle < bitleLinkBroadcastBase) : Fits cb (gapConnected env s connHandle) := by
  unfold gapConnected
  cases halloc : allocConn s.connections connHandle with
  | none => exact h.call _
  | some x =>
    obtain ⟨i, connections⟩ := x
    obtain ⟨conns, m, h⟩ := h
    obtain ⟨c, conns', hconn, hco⟩ := h.alloc hlow halloc
    have hslot : connections[i]? = some c := by
      obtain ⟨j, -, hj⟩ := Option.bind_eq_some_iff.mp hconn
      obtain ⟨d, hd, hpair⟩ := Option.map_eq_some_iff.mp hj
      obtain ⟨rfl, rfl⟩ := Prod.mk.inj hpair
      exact hd
    dsimp only
    rw [hslot, Option.getD_some]
    have hset : ∀ c' : BleConnState, c'.inUse = c.inUse → c'.connHandle = c.connHandle →
        c'.subscribed = c.subscribed → Fits cb ((if c'.isCentral = true then
          Ble.tryStart env { s with connections := connections.set i c' } connHandle
            (.discService connHandle)
          else { s with connections := connections.set i c' }).call .advertise) := by
      intro c' hused hhandle hsub
      have hc' : Fits cb { s with connections := connections.set i c' } :=
        Fits.setConn ⟨_, _, hco⟩ hconn c' hused hhandle hsub
      refine Fits.call ?_ _
      split
      · exact hc'.tryStart env connHandle _
      · exact hc'
    split
    · exact hset _ rfl rfl rfl
    · exact hset _ rfl rfl rfl

theorem Fits.subscribed (h : Fits cb s) (connHandle : UInt16) (curNotify curIndicate : Bool) :
    Fits cb (gapSubscribe cb s connHandle curNotify curIndicate) := by
  unfold gapSubscribe
  split
  · exact h
  · next i c hconn =>
    dsimp only
    cases hsub : (curNotify || curIndicate) with
    | true =>
      cases hwas : c.subscribed with
      | true => exact h.setConn hconn _ rfl rfl hwas.symm
      | false =>
        obtain ⟨conns, m, h⟩ := h
        exact Fits.call ⟨_, _, h.subscribe hconn { c with subscribed := true } rfl rfl rfl⟩ _
    | false =>
      cases hwas : c.subscribed with
      | true =>
        obtain ⟨conns, m, h⟩ := h
        exact ⟨_, _, h.unsubscribe hconn { c with subscribed := false } rfl rfl rfl⟩
      | false => exact h.setConn hconn _ rfl rfl hwas.symm

theorem Fits.polled (h : Fits cb s) : Fits cb (bitchatBlePoll env s) := by
  have hscan : ∀ s : BleState F S C, Fits cb s → Fits cb (maybeStartScan env s) := by
    intro s h
    unfold maybeStartScan
    repeat' split
    · exact h
    · exact h
    · exact h
    · exact h.congr rfl rfl
  unfold bitchatBlePoll
  refine hscan _ ?_
  obtain ⟨conns, m, h⟩ := h
  -- a restamped slot has the same handle and the same subscription
  have hkeep : ∀ c, (if overdue env.nowMs c then { c with connectedAtMs := env.nowMs } else c).inUse =
        c.inUse ∧
      (if overdue env.nowMs c then { c with connectedAtMs := env.nowMs } else c).connHandle =
        c.connHandle ∧
      (if overdue env.nowMs c then { c with connectedAtMs := env.nowMs } else c).subscribed =
        c.subscribed := by
    intro c
    split
    · exact ⟨rfl, rfl, rfl⟩
    · exact ⟨rfl, rfl, rfl⟩
  obtain ⟨conns', hrefines, hlookup⟩ :=
    h.refines.map (fun c => (hkeep c).1) fun c => (hkeep c).2.1
  refine ⟨conns', m, (List.length_map _).trans h.length, hrefines, h.links, ?_, ?_⟩
  · intro k hk
    rw [← Finmap.lookup_isSome, hlookup, Option.isSome_map, Finmap.lookup_isSome] at hk
    exact h.low k hk
  · intro k htrunk
    rw [h.link k htrunk]
    unfold connLink
    rw [hlookup]
    cases conns.lookup k with
    | none => rfl
    | some c =>
      rw [Option.map_some, Option.bind_some, Option.bind_some, (hkeep c).2.2]

theorem Fits.trunk (h : Fits cb s) (fn : F) :
    Fits cb { s with
      links := (bitleLinkRegister s.links bitleLoraLinkHandle .lora (some fn)).2 } := by
  obtain ⟨conns, m, h⟩ := h
  refine ⟨conns, _, h.length, h.refines,
    holdsRegistry_register h.links (by decide) h.room .lora fn, h.low, ?_⟩
  intro k htrunk
  rw [Finmap.lookup_insert_of_ne _ htrunk]
  exact h.link k htrunk

/-- The handles of BLE connections lie below those of broadcast links. -/
def BleEvent.LowHandle : BleEvent F → Prop
  | .connect _ connHandle => connHandle < bitleLinkBroadcastBase
  | _ => True

/-- **One step** keeps the tables together. -/
theorem Fits.step (h : Fits cb s) {e : BleEvent F} (he : e.LowHandle) :
    Fits cb (bleStep cb env s e) := by
  cases e with
  | sync => exact h.congr rfl rfl
  | connect status connHandle =>
    show Fits cb (if status = 0 then gapConnected env s connHandle else s.call .advertise)
    split
    · exact h.connected env he
    · exact h.call _
  | disconnect connHandle =>
    obtain ⟨conns, m, h⟩ := h.call (.resetConnection connHandle)
    exact Fits.call (h.dropConn connHandle) _
  | disc name addr =>
    show Fits cb (maybeConnectToBitle env s name addr)
    unfold maybeConnectToBitle
    repeat' split
    · exact h
    · exact h
    · exact h
    · exact h.call _
  | subscribe connHandle curNotify curIndicate => exact h.subscribed connHandle _ _
  | cccdWritten connHandle status => exact h.cccdWritten env connHandle status
  | dsc connHandle status dsc => exact h.dsc env connHandle status dsc
  | chr connHandle status valHandle => exact h.chr env connHandle status valHandle
  | svc connHandle status service => exact h.svc env connHandle status service
  | received connHandle data =>
    show Fits cb (received s connHandle data)
    unfold received
    split
    · exact h
    · exact h.call _
  | poll => exact h.polled env
  | hangUp connHandle => exact h.discFailed env connHandle
  | trunk loraLinkSend => exact h.trunk loraLinkSend

end Step

/-! ## Runs -/

section Runs

variable (cb : F)

/-- A run of the module. -/
def bleRun (s : BleState F S C) (inputs : List (BleEnv × BleEvent F)) : BleState F S C :=
  Run.final (fun s x => bleStep cb x.1 s x.2) s inputs

theorem fits_boot : Fits cb ({} : BleState F S C) := by
  refine ⟨∅, ∅, List.length_replicate, Table.Refines.empty ?_, holdsRegistry_linkTable, ?_, ?_⟩
  · intro c hc
    rw [List.eq_of_mem_replicate hc]
  · intro k hk
    exact absurd hk Finmap.notMem_empty
  · intro k _
    rfl

theorem fits_run {inputs : List (BleEnv × BleEvent F)} (hlow : ∀ x ∈ inputs, x.2.LowHandle) :
    Fits cb (bleRun cb ({} : BleState F S C) inputs) :=
  (Run.along_of_forall hlow).invariant (fun _ x h hx => h.step x.1 hx) (fits_boot cb)

variable {cb}

/-- The connection of a handle is in the table, subscribed. -/
def Subscribed (s : BleState F S C) (handle : UInt16) (c : BleConnState) : Prop :=
  c ∈ s.connections ∧ c.inUse = true ∧ c.connHandle = handle ∧ c.subscribed = true

/-- A handle has a link exactly if its connection is subscribed. -/
theorem Coherent.link_isSome {s : BleState F S C} {conns : ConnMap} {m : LinkRegistry F S C}
    (h : Coherent cb s conns m) {handle : UInt16} (htrunk : handle ≠ bitleLoraLinkHandle) :
    (∃ c, Subscribed s handle c) ↔ m.lookup handle = some (bleEntry cb handle) := by
  rw [h.link handle htrunk]
  unfold connLink
  constructor
  · rintro ⟨c, hmem, hused, rfl, hsub⟩
    have hlookup := (h.refines.mem_filter.mp (List.mem_filter.mpr ⟨hmem, hused⟩)).2
    rw [hlookup, Option.bind_some, hsub, if_pos rfl]
  · intro hlink
    obtain ⟨c, hlookup, hc⟩ := Option.bind_eq_some_iff.mp hlink
    rw [← h.refines.lookup] at hlookup
    obtain ⟨hused, hhandle⟩ := Table.isAt_iff.mp (List.find?_some hlookup)
    refine ⟨c, List.mem_of_find?_eq_some hlookup, hused, hhandle, ?_⟩
    by_contra hsub
    rw [if_neg hsub] at hc
    cases hc

/-- A send on a link reaches its connection. -/
theorem Coherent.send {s : BleState F S C} {conns : ConnMap} {m : LinkRegistry F S C}
    (h : Coherent cb s conns m) {handle : UInt16} {c : BleConnState} (hc : Subscribed s handle c)
    (data : List UInt8) : bleLinkSendCb s handle data = linkSend c data := by
  obtain ⟨hmem, hused, rfl, hsub⟩ := hc
  have hlookup := (h.refines.mem_filter.mp (List.mem_filter.mpr ⟨hmem, hused⟩)).2
  unfold bleLinkSendCb
  cases hconn : s.conn? c.connHandle with
  | none =>
    rw [h.conn?_none hconn] at hlookup
    cases hlookup
  | some x =>
    obtain ⟨i, d⟩ := x
    obtain ⟨-, -, -, hd⟩ := h.conn?_some hconn
    obtain rfl : d = c := Option.some.inj (hd.symm.trans hlookup)
    dsimp only
    rw [hsub, if_pos rfl]

/-- **Links follow subscriptions.** Whatever connects, subscribes, fails to be discovered, is hung
up or goes away, in any order, and whether the trunk is up or not: the handles in the link table are
those of the subscribed connections, besides the trunk's. A broadcast of a frame offers it to each
of them but the excluded one, once, and to nobody else, through a send that finds its connection. -/
theorem links_follow_subscriptions {W : Type} (cb : F) (inputs : List (BleEnv × BleEvent F))
    (hlow : ∀ x ∈ inputs, x.2.LowHandle) (t : LinkSends F S C W) (excludeHandle : UInt16)
    (data : List UInt8) {len : UInt16} (hpos : 0 < len) (hmtu : len ≤ bitleLinkLegacyMtu) (w : W) :
    (∀ handle, handle ≠ bitleLoraLinkHandle →
      ((findLocked (bleRun cb ({} : BleState F S C) inputs).links handle).isSome ↔
        ∃ c, Subscribed (bleRun cb ({} : BleState F S C) inputs) handle c)) ∧
    ∃ sent w' offers,
      Link.bitleLinkBroadcast (recorded t) (bleRun cb ({} : BleState F S C) inputs).links
        excludeHandle (some data) len (w, []) = .ok (sent, w', offers) ∧
      (offers.map fun o => o.target.handle).Nodup ∧
      (∀ handle, handle ≠ bitleLoraLinkHandle →
        (handle ∈ offers.map (fun o => o.target.handle) ↔
          handle ≠ excludeHandle ∧
            ∃ c, Subscribed (bleRun cb ({} : BleState F S C) inputs) handle c)) ∧
      ∀ o ∈ offers, o.target.handle ≠ bitleLoraLinkHandle →
        o.target = .legacy cb o.target.handle ∧
          ∃ c, Subscribed (bleRun cb ({} : BleState F S C) inputs) o.target.handle c ∧
            bleLinkSendCb (bleRun cb ({} : BleState F S C) inputs) o.target.handle data =
              linkSend c data := by
  obtain ⟨conns, m, h⟩ := fits_run (S := S) (C := C) cb hlow
  generalize bleRun cb ({} : BleState F S C) inputs = s at h
  -- apart from the trunk every entry of the table is the adapter of a connection
  have hlink : ∀ handle, handle ≠ bitleLoraLinkHandle → ∀ e, m.lookup handle = some e →
      e = bleEntry cb handle := by
    intro handle htrunk e he
    rw [h.link handle htrunk] at he
    obtain ⟨c, -, hc⟩ := Option.bind_eq_some_iff.mp he
    split at hc
    · exact (Option.some.inj hc).symm
    · cases hc
  obtain ⟨sent, w', offers, hrun, -, hb⟩ := h.links.broadcasts t excludeHandle (some data) len w
  refine ⟨?_, sent, w', offers, hrun, hb.once, ?_, ?_⟩
  · intro handle htrunk
    have hslot : (findLocked s.links handle).isSome = (m.lookup handle).isSome :=
      h.links.refines.isSome_slot
    rw [h.link_isSome htrunk, hslot, Option.isSome_iff_exists]
    constructor
    · rintro ⟨e, he⟩
      exact (hlink handle htrunk e he) ▸ he
    · exact fun he => ⟨_, he⟩
  · intro handle htrunk
    rw [hb.offered handle, h.link_isSome htrunk]
    constructor
    · rintro ⟨hne, e, he, -⟩
      exact ⟨hne, (hlink handle htrunk e he) ▸ he⟩
    · rintro ⟨hne, he⟩
      exact ⟨hne, _, he, rfl, hpos, hmtu⟩
  · intro o ho htrunk
    obtain ⟨-, -, e, he, htarget⟩ := hb.frame o ho
    obtain rfl := hlink _ htrunk e he
    obtain ⟨c, hc⟩ := (h.link_isSome htrunk).mpr he
    exact ⟨(Option.some.inj htarget).symm, c, hc, h.send hc data⟩

/-- A phone connects and subscribes, and the trunk comes up. -/
theorem links_follow_subscriptions_phone :
    ∃ sent w' offers,
      Link.bitleLinkBroadcast (recorded ⟨fun _ _ _ _ w => (0, w), fun _ _ _ _ w => (0, w)⟩)
        (bleRun true ({} : BleState Bool Unit Unit)
          [({}, .connect 0 1), ({}, .subscribe 1 true false), ({}, .trunk false)]).links
        bitleLinkNone (some [7]) 1 ((), []) = .ok (sent, w', offers) ∧
      1 ∈ offers.map fun o => o.target.handle := by
  obtain ⟨-, sent, w', offers, hrun, -, hoffered, -⟩ :=
    links_follow_subscriptions (S := Unit) (C := Unit) true
      [({}, .connect 0 1), ({}, .subscribe 1 true false), ({}, .trunk false)]
      (by simp [BleEvent.LowHandle, bitleLinkBroadcastBase])
      ⟨fun _ _ _ _ w => (0, w), fun _ _ _ _ w => (0, w)⟩ bitleLinkNone [7]
      (show (0 : UInt16) < 1 by decide) (by decide) ()
  refine ⟨sent, w', offers, hrun, (hoffered 1 (by decide)).mpr ⟨by decide, ?_⟩⟩
  exact ⟨{ inUse := true, subscribed := true, connHandle := 1 }, by decide, rfl, rfl, rfl⟩

end Runs

end Bitle.Ble
