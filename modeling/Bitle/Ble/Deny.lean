import Bitle.Ble.Links
import Bitle.Lib.Recent

/-!
# Bitle — peers that are not dialed again (`main/bitchat_ble.c`)

A peer that this node hung up on, or whose discovery failed, is put on the deny list for two
minutes. The list has four slots and does not look whether the peer is there already. As a memory of
the peers that were hung up on (`Recent`) it loses one before its time only to four others.
-/

namespace Bitle.Ble

open Wire Bitle.Link Recent

variable {F S C : Type}

/-! ## The list as a memory -/

/-- What a slot of the list remembers, and until when. -/
def DenyEntry.slot (e : DenyEntry) : Option (BleAddr × Nat) :=
  if e.inUse then some (e.addr, e.untilMs.toNat) else none

section List

variable {deny : List DenyEntry} {now : UInt64}

theorem slot_eq_some {e : DenyEntry} {x : BleAddr × Nat} :
    e.slot = some x ↔ e.inUse = true ∧ (e.addr, e.untilMs.toNat) = x := by
  unfold DenyEntry.slot
  cases e.inUse with
  | true => simp only [if_true, Option.some.injEq, true_and]
  | false => simp only [Bool.false_eq_true, if_false, reduceCtorEq, false_and]

/-- A peer is denied while a slot remembers it. -/
theorem addrDenied_iff {addr : BleAddr} :
    addrDenied deny addr now = true ↔
      ∃ til, some (addr, til) ∈ deny.map DenyEntry.slot ∧ now.toNat < til := by
  unfold addrDenied
  rw [List.any_eq_true]
  constructor
  · rintro ⟨e, he, hdenied⟩
    simp only [Bool.and_eq_true, decide_eq_true_eq, beq_iff_eq] at hdenied
    obtain ⟨⟨hused, hlt⟩, rfl⟩ := hdenied
    exact ⟨e.untilMs.toNat, List.mem_map.mpr ⟨e, he, slot_eq_some.mpr ⟨hused, rfl⟩⟩,
      UInt64.lt_iff_toNat_lt.mp hlt⟩
  · rintro ⟨til, hmem, hlt⟩
    obtain ⟨e, he, hslot⟩ := List.mem_map.mp hmem
    obtain ⟨hused, hx⟩ := slot_eq_some.mp hslot
    obtain ⟨rfl, rfl⟩ := Prod.mk.inj hx
    refine ⟨e, he, ?_⟩
    rw [hused, beq_self_eq_true, Bool.true_and, Bool.and_true]
    exact decide_eq_true (UInt64.lt_iff_toNat_lt.mpr hlt)

/-- **The loop of `deny_addr`**, from a point on before which every slot is live and lasts at least
as long as the best one so far. -/
theorem denySlot_spec {pre es : List DenyEntry} {slot : Nat × UInt64}
    (hslot : ∃ e, (pre ++ es)[slot.1]? = some e ∧ e.untilMs = slot.2)
    (hpre : ∀ e ∈ pre, e.inUse = true ∧ now < e.untilMs ∧ slot.2 ≤ e.untilMs) :
    ∃ e, (pre ++ es)[denySlot now es pre.length slot]? = some e ∧
      ((e.inUse = true ∧ now < e.untilMs) →
        ∀ e' ∈ pre ++ es, e'.inUse = true ∧ now < e'.untilMs ∧ e.untilMs ≤ e'.untilMs) := by
  induction es generalizing pre slot with
  | nil =>
    obtain ⟨e, he, huntil⟩ := hslot
    refine ⟨e, he, ?_⟩
    intro _ e' he'
    rw [List.append_nil] at he'
    rw [huntil]
    exact hpre e' he'
  | cons e es ih =>
    have hsplit : pre ++ e :: es = (pre ++ [e]) ++ es := by rw [List.append_assoc]; rfl
    have hat : (pre ++ e :: es)[pre.length]? = some e := by
      rw [List.getElem?_append_right (Nat.le_refl _), Nat.sub_self]
      rfl
    unfold denySlot
    split
    · next hfree =>
      -- a free slot is taken
      refine ⟨e, hat, ?_⟩
      rintro ⟨hused, hlt⟩
      rw [hused, Bool.not_true, Bool.false_or, decide_eq_true_eq] at hfree
      exact absurd hfree (UInt64.not_le.mpr hlt)
    · next hlive =>
      rw [Bool.not_eq_true, Bool.or_eq_false_iff, Bool.not_eq_false', decide_eq_false_iff_not,
        UInt64.not_le] at hlive
      have hlen : pre.length + 1 = (pre ++ [e]).length := by
        rw [List.length_append, List.length_singleton]
      rw [hlen, hsplit]
      apply ih
      · rw [← hsplit]
        split
        · exact ⟨e, hat, rfl⟩
        · exact hslot
      · intro e' he'
        rcases List.mem_append.mp he' with he' | he'
        · obtain ⟨hused, hlt, hle⟩ := hpre e' he'
          refine ⟨hused, hlt, ?_⟩
          split
          · next hless => exact UInt64.le_trans (UInt64.le_of_lt hless) hle
          · exact hle
        · rw [List.mem_singleton.mp he']
          refine ⟨hlive.1, hlive.2, ?_⟩
          split
          · exact UInt64.le_refl _
          · next hless => exact UInt64.not_lt.mp hless

/-- `deny_addr` overwrites a slot that may be overwritten. -/
theorem denyAddr_spec (hne : deny ≠ []) (addr : BleAddr) (now : UInt64) :
    ∃ i, Victim now.toNat (deny.map DenyEntry.slot) i ∧
      (denyAddr deny addr now).map DenyEntry.slot =
        (deny.map DenyEntry.slot).set i (some (addr, (now + bitleDenyTtlMs).toNat)) := by
  refine ⟨denySlot now deny 0 (0, (deny.headD {}).untilMs), ?_, List.map_set⟩
  have hstart : ∃ e, ([] ++ deny)[(0, (deny.headD {}).untilMs).1]? = some e ∧
      e.untilMs = (0, (deny.headD {}).untilMs).2 := by
    cases deny with
    | nil => exact absurd rfl hne
    | cons d ds => exact ⟨d, rfl, rfl⟩
  obtain ⟨e, he, hlast⟩ := @denySlot_spec now [] deny _ hstart
    fun e he => absurd he List.not_mem_nil
  constructor
  · rw [List.length_map]
    exact (List.getElem?_eq_some_iff.mp he).1
  · intro x hx hlt y hy
    rw [List.getElem?_map] at hx
    obtain ⟨d, hd, hslot⟩ := Option.map_eq_some_iff.mp hx
    obtain rfl : d = e := Option.some.inj (hd.symm.trans he)
    obtain ⟨hused, rfl⟩ := slot_eq_some.mp hslot
    obtain ⟨e', he', rfl⟩ := List.mem_map.mp hy
    obtain ⟨hused', hlt', hle'⟩ := hlast ⟨hused, UInt64.lt_iff_toNat_lt.mpr hlt⟩ e' he'
    exact ⟨(e'.addr, e'.untilMs.toNat), slot_eq_some.mpr ⟨hused', rfl⟩,
      UInt64.lt_iff_toNat_lt.mp hlt', UInt64.le_iff_toNat_le.mp hle'⟩

end List

/-! ## What a step does to the list -/

/-- The peer of a connection that is terminated. -/
def hungUpAt (s : BleState F S C) : BleCall → Option BleAddr
  | .terminate connHandle => (s.conn? connHandle).map fun x => x.2.peerAddr
  | _ => none

/-- Whom a step hung up on: the watchdog only wants the peer to connect again. -/
def hungUp (s s' : BleState F S C) : BleEvent F → Option BleAddr
  | .poll => none
  | _ => (s'.log.drop s.log.length).findSome? (hungUpAt s')

/-- The calls of a step, and the deny list after them. -/
def Denies (now : UInt64) (s s' : BleState F S C) : Prop :=
  ∃ calls, s'.log = s.log ++ calls ∧
    s'.deny = match calls.findSome? (hungUpAt s') with
      | none => s.deny
      | some addr => denyAddr s.deny addr now

section Step

variable {cb : F} {env : BleEnv} {s s' s'' : BleState F S C}

theorem hungUpAt_eq_none {c : BleCall} (hc : ∀ connHandle, c ≠ .terminate connHandle) :
    hungUpAt s c = none := by
  cases c with
  | terminate connHandle => exact absurd rfl (hc connHandle)
  | _ => rfl

/-- Calls that terminate nothing. -/
theorem denies_quiet {now : UInt64} (calls : List BleCall) (hlog : s'.log = s.log ++ calls)
    (hcalls : ∀ c ∈ calls, ∀ connHandle, c ≠ .terminate connHandle) (hdeny : s'.deny = s.deny) :
    Denies now s s' := by
  refine ⟨calls, hlog, ?_⟩
  rw [List.findSome?_eq_none_iff.mpr fun c hc => hungUpAt_eq_none (hcalls c hc)]
  exact hdeny

theorem Denies.refl (now : UInt64) (s : BleState F S C) : Denies now s s :=
  denies_quiet [] (List.append_nil _).symm (fun _ hc => absurd hc List.not_mem_nil) rfl

theorem Denies.call {now : UInt64} (h : Denies now s s') {c : BleCall}
    (hc : ∀ connHandle, c ≠ .terminate connHandle) : Denies now s (s'.call c) := by
  obtain ⟨calls, hlog, hdeny⟩ := h
  refine ⟨calls ++ [c], ?_, ?_⟩
  · rw [← List.append_assoc, ← hlog]
    rfl
  · have hat : hungUpAt (s'.call c) = hungUpAt s' := rfl
    rw [List.findSome?_append, List.findSome?_cons, hungUpAt_eq_none hc, hat, List.findSome?_nil,
      Option.or_none]
    exact hdeny

/-- What does not touch the list or the log may come first. -/
theorem Denies.after {now : UInt64} (h : Denies now s' s'') (hlog : s'.log = s.log)
    (hdeny : s'.deny = s.deny) : Denies now s s'' := by
  obtain ⟨calls, hcalls, hlist⟩ := h
  exact ⟨calls, by rw [hcalls, hlog], by rw [hlist, hdeny]⟩

theorem denies_discFailed (s : BleState F S C) (connHandle : UInt16) :
    Denies env.nowMs s (centralDiscFailed env s connHandle) := by
  refine ⟨[.terminate connHandle], ?_, ?_⟩
  · unfold centralDiscFailed
    split
    · rfl
    · rfl
  · have hat : hungUpAt (centralDiscFailed env s connHandle) (.terminate connHandle) =
        (s.conn? connHandle).map fun x => x.2.peerAddr := by
      unfold centralDiscFailed
      split
      · rfl
      · rfl
    rw [List.findSome?_cons, hat]
    unfold centralDiscFailed
    cases hconn : s.conn? connHandle with
    | none => rfl
    | some x => rfl

theorem denies_tryStart (s : BleState F S C) (connHandle : UInt16) {c : BleCall}
    (hc : ∀ connHandle, c ≠ .terminate connHandle) :
    Denies env.nowMs s (tryStart env s connHandle c) := by
  unfold tryStart
  split
  · exact (Denies.refl env.nowMs s).call hc
  · have hfailed : Denies env.nowMs (s.call c) (centralDiscFailed env (s.call c) connHandle) :=
      denies_discFailed _ _
    obtain ⟨calls, hlog, hdeny⟩ := hfailed
    refine ⟨c :: calls, ?_, ?_⟩
    · rw [hlog]
      exact List.append_assoc ..
    · rw [List.findSome?_cons, hungUpAt_eq_none hc]
      exact hdeny

theorem denies_gapConnected (s : BleState F S C) (connHandle : UInt16) :
    Denies env.nowMs s (gapConnected env s connHandle) := by
  unfold gapConnected
  cases halloc : allocConn s.connections connHandle with
  | none =>
    -- a connection without a slot is not remembered
    have hnone : s.conn? connHandle = none := by
      unfold allocConn at halloc
      unfold BleState.conn?
      cases hfind : findConn s.connections connHandle with
      | none => rfl
      | some i =>
        rw [hfind] at halloc
        cases halloc
    refine ⟨[.terminate connHandle], rfl, ?_⟩
    have hat : hungUpAt (s.call (.terminate connHandle)) (.terminate connHandle) = none := by
      show (s.conn? connHandle).map _ = none
      rw [hnone]
      rfl
    rw [List.findSome?_cons, hat]
    rfl
  | some x =>
    obtain ⟨i, connections⟩ := x
    dsimp only
    have hset : ∀ c' : BleConnState, Denies env.nowMs s ((if c'.isCentral = true then
        tryStart env { s with connections := connections.set i c' } connHandle
          (.discService connHandle)
        else { s with connections := connections.set i c' }).call .advertise) := by
      intro c'
      refine Denies.call ?_ (c := .advertise) (by simp)
      split
      · refine (denies_tryStart _ connHandle (by simp)).after ?_ ?_
        · rfl
        · rfl
      · exact denies_quiet [] (List.append_nil _).symm (by simp) rfl
    split
    · exact hset _
    · exact hset _

theorem denies_gapSubscribe (s : BleState F S C) (connHandle : UInt16)
    (curNotify curIndicate : Bool) :
    Denies env.nowMs s (gapSubscribe cb s connHandle curNotify curIndicate) := by
  unfold gapSubscribe
  split
  · exact Denies.refl _ s
  · dsimp only
    split
    · exact denies_quiet [.notifySubscribed connHandle] rfl (by simp) rfl
    · split
      · exact denies_quiet [] (List.append_nil _).symm (by simp) rfl
      · exact denies_quiet [] (List.append_nil _).symm (by simp) rfl

theorem denies_cccdWritten (s : BleState F S C) (connHandle status : UInt16) :
    Denies env.nowMs s (centralCccdWritten cb env s connHandle status) := by
  unfold centralCccdWritten
  split
  · exact denies_discFailed s connHandle
  · split
    · exact Denies.refl _ s
    · exact denies_quiet [.notifySubscribed connHandle] rfl (by simp) rfl

theorem denies_dsc (s : BleState F S C) (connHandle status : UInt16)
    (dsc : Option (Option UInt16 × UInt16)) :
    Denies env.nowMs s (centralDscCb env s connHandle status dsc) := by
  unfold centralDscCb
  split
  · exact Denies.refl _ s
  · split
    · exact denies_tryStart s connHandle (by simp)
    · split
      · exact Denies.refl _ s
      · exact denies_discFailed s connHandle
  · split
    · exact Denies.refl _ s
    · exact denies_discFailed s connHandle

theorem denies_chr (s : BleState F S C) (connHandle status : UInt16) (valHandle : Option UInt16) :
    Denies env.nowMs s (centralChrCb env s connHandle status valHandle) := by
  have hdone : ∀ c, Denies env.nowMs s (centralChrCb.chrDone env connHandle status s c) := by
    intro c
    unfold centralChrCb.chrDone
    split
    · split
      · exact denies_discFailed s connHandle
      · exact denies_tryStart s connHandle (by simp)
    · exact denies_discFailed s connHandle
  unfold centralChrCb
  split
  · exact Denies.refl _ s
  · split
    · split
      · exact denies_quiet [] (List.append_nil _).symm (by simp) rfl
      · exact hdone _
    · exact hdone _

theorem denies_svc (s : BleState F S C) (connHandle status : UInt16)
    (service : Option (UInt16 × UInt16)) :
    Denies env.nowMs s (centralSvcCb env s connHandle status service) := by
  have hdone : ∀ c, Denies env.nowMs s (centralSvcCb.svcDone env connHandle status s c) := by
    intro c
    unfold centralSvcCb.svcDone
    split
    · split
      · exact denies_discFailed s connHandle
      · exact Denies.refl _ s
    · exact denies_discFailed s connHandle
  unfold centralSvcCb
  split
  · exact Denies.refl _ s
  · split
    · split
      · refine (denies_tryStart _ connHandle (by simp)).after ?_ ?_
        · rfl
        · rfl
      · exact hdone _
    · exact hdone _

variable (cb env) in
/-- **One step**, other than a poll. -/
theorem denies_step (s : BleState F S C) {e : BleEvent F} (he : e ≠ .poll) :
    Denies env.nowMs s (bleStep cb env s e) := by
  cases e with
  | sync => exact denies_quiet [.advertise] rfl (by simp) rfl
  | connect status connHandle =>
    show Denies env.nowMs s (if status = 0 then gapConnected env s connHandle else s.call .advertise)
    split
    · exact denies_gapConnected s connHandle
    · exact denies_quiet [.advertise] rfl (by simp) rfl
  | disconnect connHandle =>
    refine denies_quiet [.resetConnection connHandle, .advertise] ?_ (by simp) ?_
    · show (dropConn (s.call (.resetConnection connHandle)) connHandle).log ++ [.advertise] = _
      unfold dropConn
      split
      · exact List.append_assoc ..
      · exact List.append_assoc ..
    · show (dropConn (s.call (.resetConnection connHandle)) connHandle).deny = _
      unfold dropConn
      split
      · rfl
      · rfl
  -- dialing a peer reads the deny list and leaves it
  | disc name addr =>
    show Denies env.nowMs s (maybeConnectToBitle env s name addr)
    unfold maybeConnectToBitle
    repeat' split
    · exact Denies.refl _ s
    · exact Denies.refl _ s
    · exact Denies.refl _ s
    · exact denies_quiet [.connect addr] rfl (by simp) rfl
  | subscribe connHandle curNotify curIndicate => exact denies_gapSubscribe s _ _ _
  | cccdWritten connHandle status => exact denies_cccdWritten s _ _
  | dsc connHandle status dsc => exact denies_dsc s _ _ _
  | chr connHandle status valHandle => exact denies_chr s _ _ _
  | svc connHandle status service => exact denies_svc s _ _ _
  | received connHandle data =>
    show Denies env.nowMs s (received s connHandle data)
    unfold received
    split
    · exact Denies.refl _ s
    · exact denies_quiet [.inbound connHandle data] rfl (by simp) rfl
  | poll => exact absurd rfl he
  | hangUp connHandle => exact denies_discFailed s connHandle
  | trunk loraLinkSend => exact denies_quiet [] (List.append_nil _).symm (by simp) rfl

variable (env) in
/-- A poll hangs up on the connections that are overdue, and may start a scan. -/
theorem poll_calls (s : BleState F S C) :
    ∃ scan, (bitchatBlePoll env s).log = s.log ++
        ((s.connections.filter (overdue env.nowMs)).map fun c => .terminate c.connHandle) ++ scan ∧
      (scan = [] ∨ scan = [.scan]) ∧ (bitchatBlePoll env s).deny = s.deny ∧
      (bitchatBlePoll env s).connections = s.connections.map fun c =>
        if overdue env.nowMs c then { c with connectedAtMs := env.nowMs } else c := by
  unfold bitchatBlePoll maybeStartScan
  repeat' split
  · exact ⟨[], (List.append_nil _).symm, .inl rfl, rfl, rfl⟩
  · exact ⟨[], (List.append_nil _).symm, .inl rfl, rfl, rfl⟩
  · exact ⟨[], (List.append_nil _).symm, .inl rfl, rfl, rfl⟩
  · exact ⟨[.scan], rfl, .inr rfl, rfl, rfl⟩

variable (cb env) in
/-- A step denies the peer it hung up on, and no other. -/
theorem deny_step (s : BleState F S C) (e : BleEvent F) :
    (bleStep cb env s e).deny = match hungUp s (bleStep cb env s e) e with
      | none => s.deny
      | some addr => denyAddr s.deny addr env.nowMs := by
  by_cases he : e = .poll
  · subst he
    obtain ⟨-, -, -, hdeny, -⟩ := poll_calls env s
    exact hdeny
  · obtain ⟨calls, hlog, hdeny⟩ := denies_step cb env s he
    have hhung : hungUp s (bleStep cb env s e) e =
        calls.findSome? (hungUpAt (bleStep cb env s e)) := by
      unfold hungUp
      split
      · exact absurd rfl he
      · rw [hlog, List.drop_left]
    rw [hhung]
    exact hdeny

end Step

/-! ## Runs -/

section Runs

variable (cb : F)

/-- One step, with whom the node hung up on so far and when, latest first. -/
def denyStep (x : BleState F S C × List (BleAddr × UInt64)) (input : BleEnv × BleEvent F) :
    BleState F S C × List (BleAddr × UInt64) :=
  let s' := bleStep cb input.1 x.1 input.2
  (s', match hungUp x.1 s' input.2 with
    | none => x.2
    | some addr => (addr, input.1.nowMs) :: x.2)

/-- A run of the module from boot, with whom it hung up on. -/
def denyRun (inputs : List (BleEnv × BleEvent F)) : BleState F S C × List (BleAddr × UInt64) :=
  Run.final (denyStep cb) ({}, []) inputs

/-- The clock does not run backwards. -/
def Clocked (inputs : List (BleEnv × BleEvent F)) : Prop :=
  inputs.Pairwise fun x y => x.1.nowMs ≤ y.1.nowMs

instance (inputs : List (BleEnv × BleEvent F)) : Decidable (Clocked inputs) :=
  inferInstanceAs (Decidable (List.Pairwise _ _))

/-- Until when the list should remember a peer that the node hung up on. -/
def denied (ttl : Nat) (e : BleAddr × UInt64) : BleAddr × Nat := (e.1, e.2.toNat + ttl)

theorem countP_denied (ttl : Nat) (t : UInt64) (hungUps : List (BleAddr × UInt64)) :
    ((hungUps.map (denied ttl)).countP fun e => t.toNat + ttl ≤ e.2) =
      hungUps.countP fun e => t ≤ e.2 := by
  rw [List.countP_map]
  apply List.countP_congr
  intro e _
  rw [Function.comp_apply, decide_eq_true_eq, decide_eq_true_eq, UInt64.le_iff_toNat_le]
  exact Nat.add_le_add_iff_right

/-- The deny list remembers whom the node hung up on. -/
structure DenyMemory (now : UInt64) (x : BleState F S C × List (BleAddr × UInt64)) : Prop where
  length : x.1.deny.length = 4
  remembers : Recent.Remembers now.toNat (x.2.map (denied bitleDenyTtlMs.toNat)) (x.1.deny.map DenyEntry.slot)
  past : ∀ e ∈ x.2, e.2 ≤ now

variable {cb} {now now' : UInt64} {x : BleState F S C × List (BleAddr × UInt64)}

theorem denyMemory_boot : DenyMemory now (({}, []) : BleState F S C × List (BleAddr × UInt64)) := by
  refine ⟨List.length_replicate, remembers_nil _ ?_, fun e he => absurd he List.not_mem_nil⟩
  intro y hy
  obtain ⟨d, hd, rfl⟩ := List.mem_map.mp hy
  rw [List.eq_of_mem_replicate hd]
  rfl

theorem DenyMemory.later (h : DenyMemory now x) (hle : now ≤ now') : DenyMemory now' x :=
  ⟨h.length, h.remembers.later (UInt64.le_iff_toNat_le.mp hle),
    fun e he => UInt64.le_trans (h.past e he) hle⟩

theorem DenyMemory.step {env : BleEnv} (h : DenyMemory env.nowMs x)
    (hfar : env.nowMs.toNat + bitleDenyTtlMs.toNat < 2 ^ 64) (e : BleEvent F) :
    DenyMemory env.nowMs (denyStep cb x (env, e)) := by
  have hdeny := deny_step cb env x.1 e
  unfold denyStep
  dsimp only
  cases hhung : hungUp x.1 (bleStep cb env x.1 e) e with
  | none =>
    rw [hhung] at hdeny
    exact ⟨hdeny ▸ h.length, hdeny ▸ h.remembers, h.past⟩
  | some addr =>
    rw [hhung] at hdeny
    have hne : x.1.deny ≠ [] := by
      intro hnil
      have hlen := h.length
      rw [hnil] at hlen
      cases hlen
    obtain ⟨i, hvictim, hslots⟩ := denyAddr_spec hne addr env.nowMs
    have htil : (env.nowMs + bitleDenyTtlMs).toNat = env.nowMs.toNat + bitleDenyTtlMs.toNat := by
      rw [UInt64.toNat_add, Nat.mod_eq_of_lt hfar]
    refine ⟨?_, ?_, ?_⟩
    · rw [hdeny]
      exact List.length_set.trans h.length
    · rw [hdeny, hslots, htil]
      refine h.remembers.remember (Nat.le_refl _) hvictim addr ?_
      intro y hy
      obtain ⟨d, hd, rfl⟩ := List.mem_map.mp hy
      exact Nat.add_le_add_right (UInt64.le_iff_toNat_le.mp (h.past d hd)) _
    · intro d hd
      rcases List.mem_cons.mp hd with rfl | hd
      · exact UInt64.le_refl _
      · exact h.past d hd

variable (cb) in
/-- **The run lemma**: the list remembers up to any time after the run. -/
theorem denyMemory_run {inputs : List (BleEnv × BleEvent F)} (hclock : Clocked inputs)
    (hnow : ∀ x ∈ inputs, x.1.nowMs ≤ now)
    (hfar : now.toNat + bitleDenyTtlMs.toNat < 2 ^ 64) :
    DenyMemory now (denyRun cb inputs : BleState F S C × List (BleAddr × UInt64)) := by
  induction inputs using List.reverseRecOn generalizing now with
  | nil => exact denyMemory_boot
  | append_singleton inputs input ih =>
    obtain ⟨hbefore, -, hcross⟩ := List.pairwise_append.mp hclock
    have hlast := hnow input (List.mem_append_right _ List.mem_cons_self)
    have hfar' : input.1.nowMs.toNat + bitleDenyTtlMs.toNat < 2 ^ 64 :=
      Nat.lt_of_le_of_lt (Nat.add_le_add_right (UInt64.le_iff_toNat_le.mp hlast) _) hfar
    have hmem := ih hbefore (fun x hx => hcross x hx input List.mem_cons_self) hfar'
    unfold denyRun
    rw [Run.final_append]
    exact (hmem.step hfar' input.2).later hlast

/-- **Who was hung up on is not dialed again** for two minutes, whatever else happens, unless four
others were hung up on at the same time or later. -/
theorem hung_up_not_redialed (cb : F) {inputs : List (BleEnv × BleEvent F)} {env : BleEnv}
    {name : Option (List UInt8)} {addr : BleAddr}
    (hclock : Clocked (inputs ++ [(env, .disc name addr)]))
    (hfar : env.nowMs.toNat + bitleDenyTtlMs.toNat < 2 ^ 64) {x : BleState F S C}
    {hungUps : List (BleAddr × UInt64)} (hrun : denyRun cb inputs = (x, hungUps))
    (hdial : (bleStep cb env x (.disc name addr)).log ≠ x.log) {t : UInt64}
    (hhung : (addr, t) ∈ hungUps) (hsoon : env.nowMs.toNat < t.toNat + bitleDenyTtlMs.toNat) :
    5 ≤ hungUps.countP fun e => t ≤ e.2 := by
  obtain ⟨hbefore, -, hcross⟩ := List.pairwise_append.mp hclock
  have hmem := denyMemory_run (S := S) (C := C) cb hbefore
    (fun y hy => hcross y hy (env, .disc name addr) List.mem_cons_self) hfar
  rw [hrun] at hmem
  -- no slot knows the peer
  have hfree : addrDenied x.deny addr env.nowMs = false := by
    rw [← Bool.not_eq_true]
    intro hdenied
    refine hdial ?_
    show (maybeConnectToBitle env x name addr).log = x.log
    unfold maybeConnectToBitle
    rw [hdenied, Bool.true_or, if_pos rfl, ite_self]
  have hlost : some (denied bitleDenyTtlMs.toNat (addr, t)) ∉ x.deny.map DenyEntry.slot := by
    intro hslot
    exact Bool.eq_false_iff.mp hfree (addrDenied_iff.mpr ⟨_, hslot, hsoon⟩)
  have hremembers := hmem.remembers
  generalize bitleDenyTtlMs.toNat = ttl at hremembers hsoon hlost
  have hcount := hremembers.forgotten (List.mem_map_of_mem hhung) hsoon hlost
  rw [List.length_map, hmem.length] at hcount
  exact hcount.trans_eq (countP_denied ttl t hungUps)

/-- Five peers connect, are hung up on and go. -/
def fivePeers : List (BleEnv × BleEvent Bool) :=
  (List.range 5).map (fun i =>
    ({ connFind := fun h => some ({ type := h.toUInt8 }, false) }, .connect 0 i.toUInt16)) ++
  (List.range 5).map (fun i => (({} : BleEnv), .hangUp i.toUInt16)) ++
  (List.range 5).map fun i => (({} : BleEnv), .disconnect i.toUInt16)

/-- The first of the five is dialed again at once. -/
theorem hung_up_not_redialed_five :
    5 ≤ (denyRun true fivePeers : BleState Bool Unit Unit × _).2.countP fun e =>
      (0 : UInt64) ≤ e.2 := by
  have hclock : Clocked (fivePeers ++ [(({} : BleEnv), .disc (some bitleDeviceName) {})]) := by
    decide
  have hdial : (bleStep true {} (denyRun true fivePeers : BleState Bool Unit Unit × _).1
      (.disc (some bitleDeviceName) {})).log ≠
        (denyRun true fivePeers : BleState Bool Unit Unit × _).1.log := by
    decide
  have hhung : (({} : BleAddr), (0 : UInt64)) ∈
      (denyRun true fivePeers : BleState Bool Unit Unit × _).2 := by
    decide
  exact hung_up_not_redialed true hclock (by decide) rfl hdial hhung (by decide)

end Runs

end Bitle.Ble
