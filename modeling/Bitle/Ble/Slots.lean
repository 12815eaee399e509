import Bitle.Ble.Deny

/-!
# Bitle — who holds a connection, and for how long (`main/bitchat_ble.c`)

There are six slots for phones and for the nodes this one dials. The scanner stops dialing at two
links, and the watchdog of the poll hangs up on a peer that does not subscribe. Both depend on what
a connection is from its start: its handle, who dialed, and when it came up (`ident`). Only three
steps change that, and the discovery and the subscription are not among them.
-/

namespace Bitle.Ble

open Wire Bitle.Link

variable {F S C : Type}

/-! ## What a connection is from its start -/

/-- A connection without what its discovery and its subscription have come to. -/
def BleConnState.ident (c : BleConnState) : BleConnState :=
  { c with subscribed := false, remoteValHandle := 0, svcEndHandle := 0 }

/-- The connections, as they came up. -/
def BleState.idents (s : BleState F S C) : List BleConnState :=
  s.connections.map BleConnState.ident

section Ident

variable {cb : F} {env : BleEnv} {s : BleState F S C} {handle connHandle : UInt16} {i : Nat}
  {c c' : BleConnState}

theorem slot_of_conn? (hconn : s.conn? handle = some (i, c)) :
    s.connections[i]? = some c ∧ c.inUse = true ∧ c.connHandle = handle := by
  obtain ⟨j, hfind, hslot⟩ := Option.bind_eq_some_iff.mp hconn
  obtain ⟨d, hd, hpair⟩ := Option.map_eq_some_iff.mp hslot
  obtain ⟨rfl, rfl⟩ := Prod.mk.inj hpair
  obtain ⟨hlt, hat, -⟩ := List.findIdx?_eq_some_iff_getElem.mp hfind
  obtain ⟨_, hget⟩ := List.getElem?_eq_some_iff.mp hd
  rw [hget, Bool.and_eq_true, beq_iff_eq] at hat
  exact ⟨hd, hat.1, hat.2⟩

/-- A write to a slot that only what `g` reads is compared at. -/
theorem map_set_of_eq {β : Type} {g : BleConnState → β} {l : List BleConnState}
    (hslot : l[i]? = some c) (hg : g c' = g c) : (l.set i c').map g = l.map g := by
  obtain ⟨hlt, hget⟩ := List.getElem?_eq_some_iff.mp hslot
  rw [List.map_set, hg, ← hget]
  refine List.ext_getElem? fun j => ?_
  rw [List.getElem?_set]
  split
  · next hij =>
    subst hij
    rw [List.length_map, if_pos hlt, List.getElem?_map, List.getElem?_eq_getElem hlt]
    rfl
  · rfl

theorem idents_setConn (hconn : s.conn? handle = some (i, c)) (hident : c'.ident = c.ident) :
    (s.setConn i c').idents = s.idents :=
  map_set_of_eq (slot_of_conn? hconn).1 hident

theorem idents_discFailed (s : BleState F S C) (connHandle : UInt16) :
    (centralDiscFailed env s connHandle).idents = s.idents := by
  unfold centralDiscFailed
  split
  · rfl
  · rfl

theorem idents_tryStart (s : BleState F S C) (connHandle : UInt16) (c : BleCall) :
    (tryStart env s connHandle c).idents = s.idents := by
  unfold tryStart
  split
  · rfl
  · exact idents_discFailed (s.call c) connHandle

theorem idents_gapSubscribe (s : BleState F S C) (connHandle : UInt16)
    (curNotify curIndicate : Bool) :
    (gapSubscribe cb s connHandle curNotify curIndicate).idents = s.idents := by
  unfold gapSubscribe
  split
  · rfl
  · next hconn =>
    dsimp only
    split
    · exact idents_setConn hconn rfl
    · split
      · exact idents_setConn hconn rfl
      · exact idents_setConn hconn rfl

theorem idents_cccdWritten (s : BleState F S C) (connHandle status : UInt16) :
    (centralCccdWritten cb env s connHandle status).idents = s.idents := by
  unfold centralCccdWritten
  split
  · exact idents_discFailed s connHandle
  · split
    · rfl
    · next hconn => exact idents_setConn hconn rfl

theorem idents_dsc (s : BleState F S C) (connHandle status : UInt16)
    (dsc : Option (Option UInt16 × UInt16)) :
    (centralDscCb env s connHandle status dsc).idents = s.idents := by
  unfold centralDscCb
  split
  · rfl
  · split
    · exact idents_tryStart s connHandle _
    · split
      · rfl
      · exact idents_discFailed s connHandle
  · split
    · rfl
    · exact idents_discFailed s connHandle

theorem idents_chr (s : BleState F S C) (connHandle status : UInt16) (valHandle : Option UInt16) :
    (centralChrCb env s connHandle status valHandle).idents = s.idents := by
  have hdone : ∀ c, (centralChrCb.chrDone env connHandle status s c).idents = s.idents := by
    intro c
    unfold centralChrCb.chrDone
    split
    · split
      · exact idents_discFailed s connHandle
      · exact idents_tryStart s connHandle _
    · exact idents_discFailed s connHandle
  unfold centralChrCb
  split
  · rfl
  · next hconn =>
    split
    · split
      · exact idents_setConn hconn rfl
      · exact hdone _
    · exact hdone _

theorem idents_svc (s : BleState F S C) (connHandle status : UInt16)
    (service : Option (UInt16 × UInt16)) :
    (centralSvcCb env s connHandle status service).idents = s.idents := by
  have hdone : ∀ c, (centralSvcCb.svcDone env connHandle status s c).idents = s.idents := by
    intro c
    unfold centralSvcCb.svcDone
    split
    · split
      · exact idents_discFailed s connHandle
      · rfl
    · exact idents_discFailed s connHandle
  unfold centralSvcCb
  split
  · rfl
  · next hconn =>
    split
    · split
      · exact (idents_tryStart _ connHandle _).trans (idents_setConn hconn rfl)
      · exact hdone _
    · exact hdone _

/-- The steps after which the slots hold other connections, or other times. -/
def BleEvent.Renews : BleEvent F → Prop
  | .connect _ _ | .disconnect _ | .poll => True
  | _ => False

variable (cb env) in
/-- **The discovery and the subscription** leave the slots to whom they belong. -/
theorem idents_step {e : BleEvent F} (he : ¬ e.Renews) (s : BleState F S C) :
    (bleStep cb env s e).idents = s.idents := by
  cases e with
  | connect status connHandle => exact absurd trivial he
  | disconnect connHandle => exact absurd trivial he
  | poll => exact absurd trivial he
  | sync => rfl
  | disc name addr =>
    show (maybeConnectToBitle env s name addr).idents = s.idents
    unfold maybeConnectToBitle
    repeat' split
    all_goals rfl
  | subscribe connHandle curNotify curIndicate => exact idents_gapSubscribe s _ _ _
  | cccdWritten connHandle status => exact idents_cccdWritten s _ _
  | dsc connHandle status dsc => exact idents_dsc s _ _ _
  | chr connHandle status valHandle => exact idents_chr s _ _ _
  | svc connHandle status service => exact idents_svc s _ _ _
  | received connHandle data =>
    show (received s connHandle data).idents = s.idents
    unfold received
    split
    · rfl
    · rfl
  | hangUp connHandle => exact idents_discFailed s connHandle
  | trunk loraLinkSend => rfl

/-- A connection goes away: its slot is blank. -/
theorem connections_dropConn (s : BleState F S C) (connHandle : UInt16) :
    (dropConn s connHandle).connections = s.connections ∨
      ∃ i c, s.connections[i]? = some c ∧ c.inUse = true ∧ c.connHandle = connHandle ∧
        (dropConn s connHandle).connections = s.connections.set i {} := by
  unfold dropConn
  cases hfind : findConn s.connections connHandle with
  | none => exact .inl rfl
  | some i =>
    obtain ⟨hlt, hat, -⟩ := List.findIdx?_eq_some_iff_getElem.mp hfind
    rw [Bool.and_eq_true, beq_iff_eq] at hat
    exact .inr ⟨i, _, List.getElem?_eq_getElem hlt, hat.1, hat.2, rfl⟩

/-- A connection that comes up, with the time and what NimBLE knows of it. -/
def comesUp (env : BleEnv) (connHandle : UInt16) (c : BleConnState) : BleConnState :=
  match env.connFind connHandle with
  | none => { c with connectedAtMs := env.nowMs }
  | some (addr, master) =>
    { c with connectedAtMs := env.nowMs, peerAddr := addr, isCentral := master }

variable (env) in
theorem comesUp_fields (connHandle : UInt16) (c : BleConnState) :
    (comesUp env connHandle c).inUse = c.inUse ∧
      (comesUp env connHandle c).connHandle = c.connHandle ∧
      (comesUp env connHandle c).connectedAtMs = env.nowMs := by
  unfold comesUp
  split
  · exact ⟨rfl, rfl, rfl⟩
  · exact ⟨rfl, rfl, rfl⟩

variable (env) in
/-- A connection comes up in its own slot or in a free one, unless there is none. -/
theorem idents_gapConnected (s : BleState F S C) (connHandle : UInt16) :
    (findConn s.connections connHandle = none ∧ (∀ c ∈ s.connections, c.inUse = true) ∧
      (gapConnected env s connHandle).connections = s.connections) ∨
    ∃ i c c', s.connections[i]? = some c ∧
      (c.inUse = true ∧ c.connHandle = connHandle ∧ c' = c ∨
        c.inUse = false ∧ c' = { inUse := true, connHandle := connHandle }) ∧
      (gapConnected env s connHandle).idents =
        (s.connections.set i (comesUp env connHandle c')).map BleConnState.ident := by
  have hset : ∀ (connections : List BleConnState) (dialed : Bool),
      ((if dialed = true then
          tryStart env { s with connections := connections } connHandle (.discService connHandle)
        else { s with connections := connections }).call .advertise).idents =
      connections.map BleConnState.ident := by
    intro connections dialed
    show (if dialed = true then
          tryStart env { s with connections := connections } connHandle (.discService connHandle)
        else { s with connections := connections }).idents = _
    split
    · exact idents_tryStart _ connHandle _
    · rfl
  unfold gapConnected allocConn
  -- the slot the handle has already
  cases hfind : findConn s.connections connHandle with
  | some i =>
    obtain ⟨hlt, hat, -⟩ := List.findIdx?_eq_some_iff_getElem.mp hfind
    rw [Bool.and_eq_true, beq_iff_eq] at hat
    have hslot := List.getElem?_eq_getElem hlt
    refine .inr ⟨i, _, _, hslot, .inl ⟨hat.1, hat.2, rfl⟩, ?_⟩
    dsimp only
    rw [hslot, Option.getD_some]
    unfold comesUp
    cases env.connFind connHandle with
    | none => exact hset _ _
    | some x => exact hset _ _
  | none =>
    -- a new handle takes the first free slot
    cases hfree : s.connections.findIdx? fun c => !c.inUse with
    | none =>
      refine .inl ⟨rfl, ?_, rfl⟩
      intro c hc
      have hused := List.findIdx?_eq_none_iff.mp hfree c hc
      rwa [Bool.not_eq_false'] at hused
    | some i =>
      obtain ⟨hlt, hat, -⟩ := List.findIdx?_eq_some_iff_getElem.mp hfree
      rw [Bool.not_eq_true'] at hat
      refine .inr ⟨i, _, _, List.getElem?_eq_getElem hlt, .inr ⟨hat, rfl⟩, ?_⟩
      dsimp only
      rw [List.getElem?_set_self hlt, Option.getD_some]
      unfold comesUp
      cases env.connFind connHandle with
      | none => exact (hset _ _).trans (by rw [List.set_set])
      | some x => exact (hset _ _).trans (by rw [List.set_set])

/-- The connection that came up is found, with the time. -/
theorem findConn_comesUp {s s' : BleState F S C} (hslot : s.connections[i]? = some c)
    (hc' : c.inUse = true ∧ c.connHandle = connHandle ∧ c' = c ∨
      c.inUse = false ∧ c' = { inUse := true, connHandle := connHandle })
    (hidents : s'.idents =
      (s.connections.set i (comesUp env connHandle c')).map BleConnState.ident) :
    findConn s'.connections connHandle ≠ none ∧
      ∃ d ∈ s'.connections, d.inUse = true ∧ d.connHandle = connHandle ∧
        d.connectedAtMs = env.nowMs := by
  have hmem : (comesUp env connHandle c').ident ∈ s'.idents := by
    rw [hidents]
    exact List.mem_map_of_mem (List.mem_set (List.getElem?_eq_some_iff.mp hslot).1 _)
  obtain ⟨d, hd, hident⟩ := List.mem_map.mp hmem
  obtain ⟨hused, hhandle, hstamp⟩ := comesUp_fields env connHandle c'
  have hc'' : c'.inUse = true ∧ c'.connHandle = connHandle := by
    obtain ⟨hused, hhandle, rfl⟩ | ⟨-, rfl⟩ := hc'
    · exact ⟨hused, hhandle⟩
    · exact ⟨rfl, rfl⟩
  have hdused : d.inUse = true :=
    (congrArg BleConnState.inUse hident).trans (hused.trans hc''.1)
  have hdhandle : d.connHandle = connHandle :=
    (congrArg BleConnState.connHandle hident).trans (hhandle.trans hc''.2)
  refine ⟨?_, d, hd, hdused, hdhandle, (congrArg BleConnState.connectedAtMs hident).trans hstamp⟩
  intro hnone
  have hnot := List.findIdx?_eq_none_iff.mp hnone d hd
  rw [hdused, hdhandle, Bool.true_and, beq_self_eq_true] at hnot
  exact absurd hnot (by decide)

end Ident

/-! ## The links this node dials -/

/-- A connection that this node dialed. -/
def dialed (c : BleConnState) : Bool := c.inUse && c.isCentral

/-- The step brings up a connection that this node dialed. -/
def BleEvent.Completes (env : BleEnv) : BleEvent F → Bool
  | .connect status connHandle =>
    status == 0 && (env.connFind connHandle).any fun x => x.2
  | _ => false

section Dial

variable {cb : F} {env : BleEnv} {s : BleState F S C}

theorem countP_idents {p : BleConnState → Bool} (hp : ∀ c, p c.ident = p c) (s : BleState F S C) :
    s.idents.countP p = s.connections.countP p := by
  unfold BleState.idents
  rw [List.countP_map]
  exact List.countP_congr fun c _ => by rw [Function.comp_apply, hp]

theorem countP_set_add {p : BleConnState → Bool} {l : List BleConnState} {i : Nat}
    {c : BleConnState} (hslot : l[i]? = some c) (c' : BleConnState) :
    (l.set i c').countP p + (p c).toNat = l.countP p + (p c').toNat := by
  obtain ⟨hlt, hget⟩ := List.getElem?_eq_some_iff.mp hslot
  rw [List.countP_set hlt, hget]
  cases hp : p c with
  | false => cases p c' <;> rfl
  | true =>
    have hpos : 0 < l.countP p := List.countP_pos_iff.mpr ⟨c, hget ▸ List.getElem_mem hlt, hp⟩
    cases p c' <;> simp only [if_true, Bool.toNat_true, Bool.toNat_false, Bool.false_eq_true,
      if_false] <;> omega

variable (env) in
theorem dialed_comesUp (connHandle : UInt16) (c : BleConnState) :
    (dialed (comesUp env connHandle c)).toNat ≤
      (dialed c).toNat + ((BleEvent.connect 0 connHandle : BleEvent F).Completes env).toNat := by
  have hcomp : (BleEvent.connect 0 connHandle : BleEvent F).Completes env =
      (env.connFind connHandle).any fun x => x.2 := Bool.true_and _
  rw [hcomp]
  unfold comesUp
  cases env.connFind connHandle with
  | none => exact Nat.le_add_right _ _
  | some x =>
    obtain ⟨addr, master⟩ := x
    cases master with
    | true => exact (Bool.toNat_le _).trans (Nat.le_add_left 1 _)
    | false =>
      show (c.inUse && false).toNat ≤ _
      rw [Bool.and_false]
      exact Nat.zero_le _

/-- The connections of a step that brings none up are the same, or fewer. -/
structure Dials (n : Nat) (s s' : BleState F S C) : Prop where
  length : s'.connections.length = s.connections.length
  count : s'.connections.countP dialed ≤ s.connections.countP dialed + n

theorem dials_of_idents {s' : BleState F S C} {connections : List BleConnState} {n : Nat}
    (hidents : s'.idents = connections.map BleConnState.ident)
    (hlen : connections.length = s.connections.length)
    (hcount : connections.countP dialed ≤ s.connections.countP dialed + n) : Dials n s s' := by
  constructor
  · have heq := congrArg List.length hidents
    rw [BleState.idents, List.length_map, List.length_map] at heq
    exact heq.trans hlen
  · rw [← countP_idents (fun _ => rfl) s', hidents, List.countP_map]
    exact hcount

variable (cb env) in
/-- **One step** brings up at most the connection it completes. -/
theorem dials_step (s : BleState F S C) (e : BleEvent F) :
    Dials (e.Completes env).toNat s (bleStep cb env s e) := by
  by_cases hrenews : e.Renews
  · cases e with
    | connect status connHandle =>
      show Dials _ s (if status = 0 then gapConnected env s connHandle else s.call .advertise)
      split
      · next hstatus =>
        subst hstatus
        -- only the slot of the handle changes, and what it held before counted for no more
        obtain ⟨-, -, hsame⟩ | ⟨i, c, c', hslot, hc', hidents⟩ :=
          idents_gapConnected env s connHandle
        · exact ⟨by rw [hsame], by rw [hsame]; exact Nat.le_add_right _ _⟩
        · refine dials_of_idents hidents List.length_set ?_
          have hset := countP_set_add (p := dialed) hslot (comesUp env connHandle c')
          have hup := dialed_comesUp (F := F) env connHandle c'
          have hold : (dialed c').toNat ≤ (dialed c).toNat := by
            obtain ⟨-, -, rfl⟩ | ⟨-, rfl⟩ := hc'
            · exact Nat.le_refl _
            · exact Nat.zero_le _
          omega
      · exact ⟨rfl, Nat.le_add_right _ _⟩
    | disconnect connHandle =>
      obtain hsame | ⟨i, c, hslot, -, -, hset⟩ :=
        connections_dropConn (s.call (.resetConnection connHandle)) connHandle
      · exact ⟨congrArg List.length hsame, (congrArg (List.countP dialed) hsame).le⟩
      · have hslot' : s.connections[i]? = some c := hslot
        have hadd := countP_set_add (p := dialed) hslot' {}
        have hblank : (dialed {}).toNat = 0 := rfl
        refine ⟨(congrArg List.length hset).trans List.length_set, ?_⟩
        exact (congrArg (List.countP dialed) hset).le.trans
          (show (s.connections.set i {}).countP dialed ≤ _ by omega)
    | poll =>
      obtain ⟨-, -, -, -, hpolled⟩ := poll_calls env s
      -- the watchdog restamps a slot and leaves its role
      have hmap : ∀ c, dialed (if overdue env.nowMs c then { c with connectedAtMs := env.nowMs }
          else c) = dialed c := by
        intro c
        split
        · rfl
        · rfl
      refine ⟨(congrArg List.length hpolled).trans (List.length_map _), ?_⟩
      refine (congrArg (List.countP dialed) hpolled).le.trans ?_
      rw [List.countP_map]
      exact (List.countP_congr fun c _ => by rw [Function.comp_apply, hmap]).le
    | _ => exact absurd hrenews id
  · have hidents := idents_step cb env hrenews s
    exact dials_of_idents hidents rfl (Nat.le_add_right _ _)

variable (cb) in
/-- One step, with whether this node has started a dial since the last one that came up. -/
def dialStep (x : BleState F S C × Bool) (input : BleEnv × BleEvent F) : BleState F S C × Bool :=
  let s' := bleStep cb input.1 x.1 input.2
  (s', match input.2 with
    | .disc _ addr =>
      x.2 || ((s'.log.drop x.1.log.length).contains (.connect addr) &&
        input.1.starts (.connect addr))
    | e => x.2 && !e.Completes input.1)

/-- NimBLE dials one peer at a time: what comes up as dialed is the dial that was started. -/
def OneDial (x : BleState F S C × Bool) (input : BleEnv × BleEvent F) : Prop :=
  input.2.Completes input.1 = true → x.2 = true

instance (x : BleState F S C × Bool) (input : BleEnv × BleEvent F) : Decidable (OneDial x input) :=
  inferInstanceAs (Decidable (_ → _))

/-- What the slots hold, with the dial that is under way. -/
structure DialBound (x : BleState F S C × Bool) : Prop where
  length : x.1.connections.length = bitleBleMaxConnections
  bound : x.1.connections.countP dialed + x.2.toNat ≤ bitleCentralMaxLinks

/-- A dial is only started while there is room. -/
theorem room_of_dial (env : BleEnv) (s : BleState F S C) (name : Option (List UInt8))
    (addr : BleAddr)
    (hdial : ((maybeConnectToBitle env s name addr).log.drop s.log.length).contains
      (.connect addr) = true) :
    s.connections.countP dialed < bitleCentralMaxLinks := by
  have hquiet : (s.log.drop s.log.length).contains (.connect addr) ≠ true := by
    rw [List.drop_length]
    exact Bool.false_ne_true
  unfold maybeConnectToBitle at hdial
  split at hdial
  · exact absurd hdial hquiet
  · split at hdial
    · exact absurd hdial hquiet
    · split at hdial
      · exact absurd hdial hquiet
      · next hfull =>
        unfold centralsFull at hfull
        rw [Bool.not_eq_true, Bool.or_eq_false_iff, decide_eq_false_iff_not, Nat.not_le] at hfull
        exact hfull.1

theorem DialBound.step {x : BleState F S C × Bool} (h : DialBound x)
    {input : BleEnv × BleEvent F} (hone : OneDial x input) : DialBound (dialStep cb x input) := by
  obtain ⟨s, dialing⟩ := x
  obtain ⟨env, e⟩ := input
  obtain ⟨hlen, hcount⟩ := dials_step cb env s e
  refine ⟨hlen.trans h.length, ?_⟩
  have hbound : s.connections.countP dialed + dialing.toNat ≤ 2 := h.bound
  by_cases hdisc : ∃ name addr, e = .disc name addr
  · obtain ⟨name, addr, rfl⟩ := hdisc
    have hroom := room_of_dial env s name addr
    show (maybeConnectToBitle env s name addr).connections.countP dialed + (dialing ||
      (((maybeConnectToBitle env s name addr).log.drop s.log.length).contains (.connect addr) &&
        env.starts (.connect addr))).toNat ≤ 2
    have hsame : (maybeConnectToBitle env s name addr).connections.countP dialed ≤
        s.connections.countP dialed := hcount
    cases hdial : ((maybeConnectToBitle env s name addr).log.drop s.log.length).contains
      (.connect addr) with
    | false =>
      rw [Bool.false_and, Bool.or_false]
      omega
    | true =>
      have hlt : s.connections.countP dialed < 2 := hroom hdial
      have hle := Bool.toNat_le (dialing || (true && env.starts (.connect addr)))
      omega
  · have hnext : (dialStep cb (s, dialing) (env, e)).2 = (dialing && !e.Completes env) := by
      cases e with
      | disc name addr => exact absurd ⟨name, addr, rfl⟩ hdisc
      | _ => rfl
    rw [hnext]
    show (bleStep cb env s e).connections.countP dialed + _ ≤ 2
    cases hcomp : e.Completes env with
    | false =>
      rw [hcomp, Bool.toNat_false] at hcount
      rw [Bool.not_false, Bool.and_true]
      omega
    | true =>
      -- the dial that was under way has come up
      obtain rfl : dialing = true := hone hcomp
      rw [hcomp, Bool.toNat_true] at hcount
      rw [Bool.not_true, Bool.and_false, Bool.toNat_false]
      rw [Bool.toNat_true] at hbound
      omega

theorem dialBound_run {inputs : List (BleEnv × BleEvent F)}
    (hdials : Run.Along (dialStep cb) OneDial (({}, false) : BleState F S C × Bool) inputs) :
    DialBound (Run.final (dialStep cb) (({}, false) : BleState F S C × Bool) inputs) :=
  hdials.invariant (fun _ _ h hone => h.step hone)
    ⟨List.length_replicate,
      show (List.replicate bitleBleMaxConnections {}).countP dialed + 0 ≤ 2 by decide⟩

/-- **Phones have room.** Whoever connects, subscribes and goes away, and whatever the scans find:
this node has at most two dialed links, and it turns a connection away only while four peers that
connected to it hold slots. -/
theorem phones_have_room (cb : F) {inputs : List (BleEnv × BleEvent F)}
    (hdials : Run.Along (dialStep cb) OneDial (({}, false) : BleState F S C × Bool) inputs)
    {s : BleState F S C} {dialing : Bool}
    (hrun : Run.final (dialStep cb) ({}, false) inputs = (s, dialing)) :
    countConnections s.connections true ≤ bitleCentralMaxLinks ∧
    ∀ env connHandle,
      findConn (bleStep cb env s (.connect 0 connHandle)).connections connHandle = none →
        bitleBleMaxConnections - bitleCentralMaxLinks ≤
          s.connections.countP fun c => c.inUse && !c.isCentral := by
  have hbound := dialBound_run hdials
  rw [hrun] at hbound
  have hcentrals : s.connections.countP dialed ≤ bitleCentralMaxLinks :=
    Nat.le_of_add_right_le hbound.bound
  refine ⟨hcentrals, ?_⟩
  intro env connHandle hnone
  obtain ⟨-, hfull, -⟩ | ⟨i, c, c', hslot, hc', hidents⟩ :=
    idents_gapConnected env s connHandle
  · have hsplit := List.length_eq_countP_add_countP dialed (l := s.connections)
    have hrest : s.connections.countP (fun c => ¬ dialed c = true) =
        s.connections.countP fun c => c.inUse && !c.isCentral := by
      refine List.countP_congr fun c hc => ?_
      rw [dialed, hfull c hc, Bool.true_and, Bool.true_and, decide_eq_true_eq, Bool.not_eq_true,
        Bool.not_eq_true']
    have hlen := hbound.length
    dsimp only at hlen
    omega
  · exact absurd hnone (findConn_comesUp hslot hc' hidents).1

/-- Two dials and four phones fill the slots; a fifth phone is turned away. -/
def fullHouse : List (BleEnv × BleEvent Bool) :=
  [.disc (some bitleDeviceName) { type := 1 }, .connect 0 1,
    .disc (some bitleDeviceName) { type := 2 }, .connect 0 2,
    .connect 0 3, .connect 0 4, .connect 0 5, .connect 0 6].map fun e =>
      ({ connFind := fun h => some ({ type := h.toUInt8 }, h ≤ 2) }, e)

theorem phones_have_room_full :
    bitleBleMaxConnections - bitleCentralMaxLinks ≤
      (Run.final (dialStep true) (({}, false) : BleState Bool Unit Unit × Bool)
        fullHouse).1.connections.countP fun c => c.inUse && !c.isCentral := by
  have hdials : Run.Along (dialStep true) OneDial
      (({}, false) : BleState Bool Unit Unit × Bool) fullHouse := by
    decide
  exact (phones_have_room true hdials rfl).2 {} 7 (by decide)

end Dial

/-! ## The watchdog -/

/-- When the connection of a handle came up, or was hung up on since. -/
def stamp (handle : UInt16) (c : BleConnState) : Option UInt64 :=
  if c.inUse && c.connHandle == handle then some c.connectedAtMs else none

/-- The connection of the handle comes up or goes away. -/
def BleEvent.Touches (handle : UInt16) : BleEvent F → Prop
  | .connect _ connHandle => connHandle = handle
  | .disconnect connHandle => connHandle = handle
  | _ => False

section Watchdog

variable {cb : F} {env : BleEnv} {s s' : BleState F S C} {handle : UInt16} {t now now' u : UInt64}
  {n : Nat} {c : BleConnState}

theorem stamp_eq_some :
    stamp handle c = some u ↔ (c.inUse = true ∧ c.connHandle = handle) ∧ c.connectedAtMs = u := by
  unfold stamp
  split
  · next hat =>
    rw [Bool.and_eq_true, beq_iff_eq] at hat
    exact ⟨fun hu => ⟨hat, Option.some.inj hu⟩, fun hu => congrArg some hu.2⟩
  · next hat =>
    constructor
    · intro hu
      cases hu
    · rintro ⟨⟨hused, hhandle⟩, -⟩
      rw [hused, hhandle, Bool.true_and, beq_self_eq_true] at hat
      exact absurd rfl hat

theorem stamp_eq_none (h : c.inUse = true → c.connHandle ≠ handle) : stamp handle c = none := by
  cases hstamp : stamp handle c with
  | none => rfl
  | some u =>
    obtain ⟨⟨hused, hhandle⟩, -⟩ := stamp_eq_some.mp hstamp
    exact absurd hhandle (h hused)

theorem mem_stamps :
    some u ∈ s.connections.map (stamp handle) ↔
      ∃ c ∈ s.connections, (c.inUse = true ∧ c.connHandle = handle) ∧ c.connectedAtMs = u := by
  rw [List.mem_map]
  exact exists_congr fun c => and_congr_right fun _ => stamp_eq_some

theorem stamps_of_idents {connections : List BleConnState}
    (hidents : s'.idents = connections.map BleConnState.ident) :
    s'.connections.map (stamp handle) = connections.map (stamp handle) := by
  have hmap := congrArg (List.map (stamp handle)) hidents
  rw [BleState.idents, List.map_map, List.map_map] at hmap
  exact hmap

variable (cb env) in
/-- **Steps that do not touch the handle**, other than a poll, leave its time alone. -/
theorem stamps_step {e : BleEvent F} (htouch : ¬ e.Touches handle) (hpoll : e ≠ .poll)
    (s : BleState F S C) :
    (bleStep cb env s e).connections.map (stamp handle) = s.connections.map (stamp handle) := by
  by_cases hrenews : e.Renews
  · cases e with
    | connect status connHandle =>
      have hne : connHandle ≠ handle := htouch
      show (if status = 0 then gapConnected env s connHandle
        else s.call .advertise).connections.map _ = _
      split
      · obtain ⟨-, -, hsame⟩ | ⟨i, c, c', hslot, hc', hidents⟩ :=
          idents_gapConnected env s connHandle
        · rw [hsame]
        · -- a slot for another handle: neither before nor after is it stamped for this one
          rw [stamps_of_idents hidents]
          refine map_set_of_eq hslot ?_
          obtain ⟨hused, hhandle, -⟩ := comesUp_fields env connHandle c'
          obtain ⟨hcused, hchandle, rfl⟩ | ⟨hfree, rfl⟩ := hc'
          · rw [stamp_eq_none fun _ => by rw [hhandle, hchandle]; exact hne,
              stamp_eq_none fun _ => by rw [hchandle]; exact hne]
          · rw [stamp_eq_none fun _ => by rw [hhandle]; exact hne,
              stamp_eq_none fun hc => by rw [hfree] at hc; cases hc]
      · rfl
    | disconnect connHandle =>
      have hne : connHandle ≠ handle := htouch
      obtain hsame | ⟨i, c, hslot, -, hchandle, hset⟩ :=
        connections_dropConn (s.call (.resetConnection connHandle)) connHandle
      · exact congrArg (List.map (stamp handle)) hsame
      · refine (congrArg (List.map (stamp handle)) hset).trans (map_set_of_eq hslot ?_)
        have hold : stamp handle c = none := stamp_eq_none fun _ => by rw [hchandle]; exact hne
        exact hold.symm
    | poll => exact absurd rfl hpoll
    | _ => exact absurd hrenews id
  · exact stamps_of_idents (idents_step cb env hrenews s)

/-- The connection of the handle came up at `t`, when the log had `n` calls: its slot still has that
time, or it was hung up on since. -/
structure Watched (handle : UInt16) (t now : UInt64) (n : Nat) (s : BleState F S C) : Prop where
  held : ∃ u, some u ∈ s.connections.map (stamp handle)
  stamped : ∀ u, some u ∈ s.connections.map (stamp handle) →
    t ≤ u ∧ u ≤ now ∧ (u = t ∨ .terminate handle ∈ s.log.drop n)
  logged : n ≤ s.log.length

theorem Watched.later (h : Watched handle t now n s) (hle : now ≤ now') :
    Watched handle t now' n s where
  held := h.held
  stamped u hu := by
    obtain ⟨hlow, hhigh, hkept⟩ := h.stamped u hu
    exact ⟨hlow, UInt64.le_trans hhigh hle, hkept⟩
  logged := h.logged

theorem Watched.poll (h : Watched handle t env.nowMs n s) :
    Watched handle t env.nowMs n (bitchatBlePoll env s) := by
  obtain ⟨scan, hlog, -, -, hconns⟩ := poll_calls env s
  have hdrop : (bitchatBlePoll env s).log.drop n = s.log.drop n ++
      (((s.connections.filter (overdue env.nowMs)).map fun c => .terminate c.connHandle) ++
        scan) := by
    rw [hlog, List.append_assoc, List.drop_append_of_le_length h.logged]
  -- the watchdog restamps a slot and leaves its connection
  have hat : ∀ c : BleConnState, (if overdue env.nowMs c then { c with connectedAtMs := env.nowMs }
      else c).inUse = c.inUse ∧ (if overdue env.nowMs c then { c with connectedAtMs := env.nowMs }
      else c).connHandle = c.connHandle := by
    intro c
    split
    · exact ⟨rfl, rfl⟩
    · exact ⟨rfl, rfl⟩
  refine ⟨?_, ?_, ?_⟩
  · obtain ⟨u, hu⟩ := h.held
    obtain ⟨c, hc, ⟨hused, hhandle⟩, -⟩ := mem_stamps.mp hu
    refine ⟨_, mem_stamps.mpr ⟨_, ?_, ⟨(hat c).1.trans hused, (hat c).2.trans hhandle⟩, rfl⟩⟩
    rw [hconns]
    exact List.mem_map_of_mem hc
  · intro u hu
    obtain ⟨d, hd, ⟨hused, hhandle⟩, rfl⟩ := mem_stamps.mp hu
    rw [hconns] at hd
    obtain ⟨c, hc, rfl⟩ := List.mem_map.mp hd
    rw [(hat c).1] at hused
    rw [(hat c).2] at hhandle
    obtain ⟨hlow, hhigh, hkept⟩ := h.stamped _ (mem_stamps.mpr ⟨c, hc, ⟨hused, hhandle⟩, rfl⟩)
    rw [hdrop]
    split
    · next hover =>
      -- a slot that is restamped has just been hung up
      refine ⟨UInt64.le_trans hlow hhigh, UInt64.le_refl _, .inr ?_⟩
      apply List.mem_append_right
      apply List.mem_append_left
      exact List.mem_map.mpr ⟨c, List.mem_filter.mpr ⟨hc, hover⟩, by rw [hhandle]⟩
    · exact ⟨hlow, hhigh, hkept.imp_right (List.mem_append_left _)⟩
  · rw [hlog, List.append_assoc, List.length_append]
    exact h.logged.trans (Nat.le_add_right _ _)

theorem Watched.step (h : Watched handle t env.nowMs n s) {e : BleEvent F}
    (htouch : ¬ e.Touches handle) : Watched handle t env.nowMs n (bleStep cb env s e) := by
  by_cases hpoll : e = .poll
  · subst hpoll
    exact h.poll
  · obtain ⟨calls, hlog, -⟩ := denies_step cb env s hpoll
    have hstamps := stamps_step cb env htouch hpoll s
    refine ⟨hstamps ▸ h.held, ?_, ?_⟩
    · intro u hu
      rw [hstamps] at hu
      obtain ⟨hlow, hhigh, hkept⟩ := h.stamped u hu
      rw [hlog, List.drop_append_of_le_length h.logged]
      exact ⟨hlow, hhigh, hkept.imp_right (List.mem_append_left _)⟩
    · rw [hlog, List.length_append]
      exact h.logged.trans (Nat.le_add_right _ _)

/-- A connection that comes up. -/
theorem watched_connect (hfits : Fits cb (bleStep cb env s (.connect 0 handle)))
    (hslot : findConn (bleStep cb env s (.connect 0 handle)).connections handle ≠ none) :
    Watched handle env.nowMs env.nowMs (bleStep cb env s (.connect 0 handle)).log.length
      (bleStep cb env s (.connect 0 handle)) := by
  obtain ⟨hnone, -, hsame⟩ | ⟨i, c, c', hc, hc', hidents⟩ :=
    idents_gapConnected env s handle
  · refine absurd ?_ hslot
    show findConn (gapConnected env s handle).connections handle = none
    rw [hsame]
    exact hnone
  · obtain ⟨-, d, hd, hused, hhandle, hstamp⟩ := findConn_comesUp hc hc' hidents
    refine ⟨⟨_, mem_stamps.mpr ⟨d, hd, ⟨hused, hhandle⟩, hstamp⟩⟩, ?_, Nat.le_refl _⟩
    -- it is the only connection of its handle
    intro u hu
    obtain ⟨d', hd', ⟨hused', hhandle'⟩, rfl⟩ := mem_stamps.mp hu
    obtain ⟨conns, m, hco⟩ := hfits
    have hlookup := (hco.refines.mem_filter.mp (List.mem_filter.mpr ⟨hd, hused⟩)).2
    have hlookup' := (hco.refines.mem_filter.mp (List.mem_filter.mpr ⟨hd', hused'⟩)).2
    rw [hhandle] at hlookup
    rw [hhandle', hlookup] at hlookup'
    obtain rfl : d = d' := Option.some.inj hlookup'
    rw [hstamp]
    exact ⟨UInt64.le_refl _, UInt64.le_refl _, .inl rfl⟩

/-- The times go on from the connection to the end of the run. -/
theorem Watched.run (h : Watched handle t env.nowMs n s) {inputs : List (BleEnv × BleEvent F)}
    {last : BleEnv} {e : BleEvent F} (hclock : Clocked ((env, e) :: inputs))
    (hlast : ∀ x ∈ (env, e) :: inputs, x.1.nowMs ≤ last.nowMs)
    (hstays : ∀ x ∈ inputs, ¬ x.2.Touches handle) :
    Watched handle t last.nowMs n (bleRun cb s inputs) := by
  induction inputs generalizing env e s with
  | nil => exact h.later (hlast _ List.mem_cons_self)
  | cons x inputs ih =>
    obtain ⟨hfirst, hrest⟩ := List.pairwise_cons.mp hclock
    have hnext : Watched handle t x.1.nowMs n (bleStep cb x.1 s x.2) :=
      (h.later (hfirst x List.mem_cons_self)).step (hstays x List.mem_cons_self)
    exact ih hnext hrest (fun y hy => hlast y (List.mem_cons_of_mem _ hy))
      fun y hy => hstays y (List.mem_cons_of_mem _ hy)

/-- **The watchdog.** A poll more than 30 seconds after a connection came up finds it subscribed, or
it has been hung up on by then. It is never hung up on by a poll sooner than that, or while it is
subscribed. -/
theorem watchdog_hangs_up (cb : F) {before after : List (BleEnv × BleEvent F)} {up poll : BleEnv}
    {handle : UInt16} (hlow : ∀ x ∈ before ++ [(up, .connect 0 handle)], x.2.LowHandle)
    (hclock : Clocked ((up, .connect 0 handle) :: after ++ [(poll, .poll)]))
    (hstays : ∀ x ∈ after, ¬ x.2.Touches handle) {s s' : BleState F S C}
    (hup : bleRun cb {} (before ++ [(up, .connect 0 handle)]) = s)
    (hslot : findConn s.connections handle ≠ none) (hrun : bleRun cb s after = s') :
    (up.nowMs ≠ 0 → up.nowMs.toNat + bitleSubscribeTimeoutMs.toNat < poll.nowMs.toNat →
      (∃ c, Subscribed s' handle c) ∨
        .terminate handle ∈ (bleStep cb poll s' .poll).log.drop s.log.length) ∧
    (.terminate handle ∈ (bleStep cb poll s' .poll).log.drop s'.log.length →
      up.nowMs.toNat + bitleSubscribeTimeoutMs.toNat < poll.nowMs.toNat ∧
        ∃ c ∈ s'.connections, c.inUse = true ∧ c.connHandle = handle ∧ c.subscribed = false) := by
  have hfits := fits_run (S := S) (C := C) cb hlow
  rw [hup] at hfits
  have hstep : s = bleStep cb up (bleRun cb {} before) (.connect 0 handle) := by
    rw [← hup]
    exact Run.final_append ..
  have hwatched : Watched handle up.nowMs up.nowMs s.log.length s := by
    rw [hstep] at hfits hslot ⊢
    exact watched_connect hfits hslot
  obtain ⟨hbefore, -, hcross⟩ := List.pairwise_append.mp hclock
  have hend : Watched handle up.nowMs poll.nowMs s.log.length s' := by
    rw [← hrun]
    exact hwatched.run hbefore (fun x hx => hcross x hx (poll, .poll) List.mem_cons_self) hstays
  obtain ⟨scan, hlog, hscan, -, -⟩ := poll_calls poll s'
  have hcalls : ∀ n ≤ s'.log.length, (bleStep cb poll s' .poll).log.drop n = s'.log.drop n ++
      (((s'.connections.filter (overdue poll.nowMs)).map fun c => .terminate c.connHandle) ++
        scan) := by
    intro n hn
    show (bitchatBlePoll poll s').log.drop n = _
    rw [hlog, List.append_assoc, List.drop_append_of_le_length hn]
  -- no slot is stamped after the poll, so the difference does not wrap
  have hdue : ∀ c ∈ s'.connections, c.inUse = true ∧ c.connHandle = handle →
      (poll.nowMs - c.connectedAtMs).toNat = poll.nowMs.toNat - c.connectedAtMs.toNat := by
    intro c hc hat
    obtain ⟨-, hle, -⟩ := hend.stamped _ (mem_stamps.mpr ⟨c, hc, hat, rfl⟩)
    exact UInt64.toNat_sub_of_le _ _ hle
  constructor
  · intro hzero hlong
    obtain ⟨u, hu⟩ := hend.held
    obtain ⟨c, hc, hat, rfl⟩ := mem_stamps.mp hu
    obtain ⟨-, -, htime | hgone⟩ := hend.stamped _ hu
    · by_cases hsub : c.subscribed = true
      · exact .inl ⟨c, hc, hat.1, hat.2, hsub⟩
      · -- its time is up
        right
        have hover : overdue poll.nowMs c = true := by
          unfold overdue
          rw [hat.1, Bool.eq_false_iff.mpr hsub, htime, Bool.not_true, Bool.false_or, Bool.false_or,
            beq_eq_false_iff_ne.mpr hzero, Bool.not_false, Bool.true_and, decide_eq_true_eq,
            gt_iff_lt, UInt64.lt_iff_toNat_lt, ← htime, hdue c hc hat, htime]
          omega
        rw [hcalls _ hend.logged]
        apply List.mem_append_right
        apply List.mem_append_left
        exact List.mem_map.mpr ⟨c, List.mem_filter.mpr ⟨hc, hover⟩, by rw [hat.2]⟩
    · right
      rw [hcalls _ hend.logged]
      exact List.mem_append_left _ hgone
  · intro hmem
    rw [hcalls _ (Nat.le_refl _), List.drop_length, List.nil_append] at hmem
    rcases List.mem_append.mp hmem with hmem | hmem
    · obtain ⟨c, hc, hcall⟩ := List.mem_map.mp hmem
      obtain ⟨hc, hover⟩ := List.mem_filter.mp hc
      have hhandle : c.connHandle = handle := BleCall.terminate.inj hcall
      unfold overdue at hover
      rw [Bool.and_eq_true, Bool.not_eq_true', Bool.or_eq_false_iff, Bool.or_eq_false_iff,
        Bool.not_eq_false', decide_eq_true_eq] at hover
      obtain ⟨⟨⟨hused, hsub⟩, -⟩, hlong⟩ := hover
      refine ⟨?_, c, hc, hused, hhandle, hsub⟩
      obtain ⟨hlow, -, -⟩ := hend.stamped _ (mem_stamps.mpr ⟨c, hc, ⟨hused, hhandle⟩, rfl⟩)
      have hlong' := UInt64.lt_iff_toNat_lt.mp hlong
      rw [hdue c hc ⟨hused, hhandle⟩] at hlong'
      have hle := UInt64.le_iff_toNat_le.mp hlow
      omega
    · rcases hscan with rfl | rfl
      · cases hmem
      · cases List.mem_singleton.mp hmem

/-- A phone connects and does not subscribe. -/
def mutePhone : BleEnv × BleEvent Bool := ({ nowMs := 5 }, .connect 0 1)

theorem watchdog_hangs_up_mute :
    .terminate 1 ∈ (bleStep true { nowMs := 40000 }
      (bleRun true ({} : BleState Bool Unit Unit) [mutePhone]) .poll).log := by
  have hlow : ∀ x ∈ [] ++ [mutePhone], x.2.LowHandle := by
    simp [mutePhone, BleEvent.LowHandle, bitleLinkBroadcastBase]
  have hclock : Clocked (mutePhone :: [] ++ [(({ nowMs := 40000 } : BleEnv), .poll)]) := by decide
  have hslot : findConn (bleRun true ({} : BleState Bool Unit Unit)
      ([] ++ [mutePhone])).connections 1 ≠ none := by
    decide
  have hmute : ∀ c ∈ (bleRun true ({} : BleState Bool Unit Unit) [mutePhone]).connections,
      c.subscribed = false := by
    decide
  obtain ⟨c, hc, -, -, hsub⟩ | hgone :=
    (watchdog_hangs_up true hlow hclock (by simp) rfl hslot rfl).1 (by decide) (by decide)
  · rw [hmute c hc] at hsub
    cases hsub
  · exact List.mem_of_mem_drop hgone

end Watchdog

end Bitle.Ble
