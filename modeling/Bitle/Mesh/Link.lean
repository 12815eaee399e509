import Bitle.Lib.Table
import Bitle.Mesh.Network

/-!
# Bitle — the link registry (`main/bitle_link.c`)

The mesh core sends through a table of links without knowing what a link is. The table has eight
entries, reused after a link goes away, and two ways in: an adapter with a vtable, and the older
call with a bare send function. `LinkRegistry` is what the table is for, a finite map from handles
to entries, and `linkRun_refines` follows it through every sequence of calls.

A send function may do anything to the world, the registry included: `bitle_link_broadcast` works
on the snapshot it took under the lock. `recorded` notes every call of a send function, which is
how the offers of a broadcast are counted.

`Network` has the table only as far as a relay reads it; `HoldsRegistry.relayView` says that it
reads it right.
-/

namespace Bitle.Link

def bitleLinkNone : UInt16 := 0xFFFF

def bitleLinkLegacyMtu : UInt16 := 520

def bitleLinkBroadcastBase : UInt16 := 0x4000

/-- `bitle_link_type_t`. -/
inductive LinkType where
  | ble
  | lora
  | inMemory
  deriving DecidableEq, Repr

/-- `bitle_link_reliability_t`. -/
inductive LinkReliability where
  | bestEffort
  | acknowledged
  deriving DecidableEq, Repr

/-- `bitle_link_capabilities_t`. -/
structure LinkCapabilities where
  id : UInt16 := 0
  kind : LinkType := .ble
  mtu : UInt16 := 0
  broadcast : Bool := false
  unicast : Bool := false
  reliability : LinkReliability := .bestEffort
  background : Bool := false
  maxConnections : UInt8 := 0
  cost : UInt16 := 0
  deriving DecidableEq, Repr

/-- `bitle_link_vtable_t`, whose `send` may be `NULL`. -/
structure LinkVtable (S : Type) where
  send : Option S

/-- `bitle_link_t`. -/
structure LinkAdapter (S C : Type) where
  capabilities : LinkCapabilities := {}
  vtable : Option (LinkVtable S) := none
  context : Option C := none

/-- `link_entry_t`; the default is what `memset` leaves. -/
structure LinkEntry (F S C : Type) where
  inUse : Bool := false
  adapter : LinkAdapter S C := {}
  legacySendFn : Option F := none

/-- The error codes of the module. -/
inductive LinkErr where
  | ok
  | fail
  | invalidArg
  | invalidState
  | noMem
  deriving DecidableEq, Repr

/-- What can go wrong in a send: a vtable or a send function that is `NULL`. -/
inductive LinkFault where
  | nullVtable
  deriving DecidableEq, Repr

/-- The send functions of the transports, of the older kind and in vtables. -/
structure LinkSends (F S C W : Type) where
  legacy : F → UInt16 → List UInt8 → UInt16 → W → Int × W
  vtable : S → LinkAdapter S C → List UInt8 → UInt16 → W → Int × W

/-- A call that changes the table. -/
inductive LinkCall (F S C : Type) where
  | register (handle : UInt16) (type : LinkType) (sendFn : Option F)
  | registerAdapter (link : Option (LinkAdapter S C))
  | unregister (handle : UInt16)

variable {F S C W : Type}

/-! ## The table -/

def LinkEntry.id (e : LinkEntry F S C) : UInt16 := e.adapter.capabilities.id

/-- `s_links` at boot. -/
def linkTable : List (LinkEntry F S C) := List.replicate bitleLinkMax {}

def findLocked (links : List (LinkEntry F S C)) (handle : UInt16) : Option Nat :=
  links.findIdx? fun e => e.inUse && e.adapter.capabilities.id == handle

def capabilitiesValid (capabilities : LinkCapabilities) : Bool :=
  capabilities.id != bitleLinkNone && decide (0 < capabilities.mtu) &&
    (capabilities.broadcast || capabilities.unicast) && decide (0 < capabilities.maxConnections)

def registerLocked (links : List (LinkEntry F S C)) (adapter : LinkAdapter S C)
    (legacySendFn : Option F) : LinkErr × List (LinkEntry F S C) :=
  match (findLocked links adapter.capabilities.id).or (links.findIdx? fun e => !e.inUse) with
  | none => (.noMem, links)
  | some i => (.ok, links.set i { inUse := true, adapter, legacySendFn })

def bitleLinkRegisterAdapter (links : List (LinkEntry F S C)) :
    Option (LinkAdapter S C) → LinkErr × List (LinkEntry F S C)
  | none => (.invalidArg, links)
  | some link =>
    if capabilitiesValid link.capabilities then
      match link.vtable with
      | some { send := some _ } => registerLocked links link none
      | _ => (.invalidArg, links)
    else (.invalidArg, links)

/-- The adapter that `bitle_link_register` makes up for a bare send function. -/
def legacyAdapter (handle : UInt16) (type : LinkType) : LinkAdapter S C where
  capabilities :=
    { id := handle
      kind := type
      mtu := bitleLinkLegacyMtu
      broadcast := decide (type = .lora) || decide (bitleLinkBroadcastBase ≤ handle)
      unicast := decide (type ≠ .lora)
      reliability := if type = .lora then .acknowledged else .bestEffort
      background := true
      maxConnections := if type = .ble then 8 else 1
      cost := if type = .ble then 10 else 50 }

def bitleLinkRegister (links : List (LinkEntry F S C)) (handle : UInt16) (type : LinkType) :
    Option F → LinkErr × List (LinkEntry F S C)
  | none => (.invalidArg, links)
  | some sendFn =>
    if handle = bitleLinkNone then (.invalidArg, links)
    else registerLocked links (legacyAdapter handle type) (some sendFn)

def bitleLinkUnregister (links : List (LinkEntry F S C)) (handle : UInt16) :
    List (LinkEntry F S C) :=
  match findLocked links handle with
  | none => links
  | some i => links.set i {}

/-- One call; `bitle_link_unregister` returns nothing, here `ok`. -/
def linkStep (links : List (LinkEntry F S C)) : LinkCall F S C → LinkErr × List (LinkEntry F S C)
  | .register handle type sendFn => bitleLinkRegister links handle type sendFn
  | .registerAdapter link => bitleLinkRegisterAdapter links link
  | .unregister handle => (.ok, bitleLinkUnregister links handle)

/-- A sequence of calls: what each returns, and the table at the end. -/
def linkRun (links : List (LinkEntry F S C)) :
    List (LinkCall F S C) → List LinkErr × List (LinkEntry F S C)
  | [] => ([], links)
  | c :: cs =>
    let (err, links) := linkStep links c
    let (errs, links) := linkRun links cs
    (err :: errs, links)

/-! ## Sending -/

def entrySend (t : LinkSends F S C W) (entry : LinkEntry F S C) (data : Option (List UInt8))
    (len : UInt16) (w : W) : Except LinkFault (Int × W) :=
  match data with
  | none => .ok (-1, w)
  | some data =>
    if len = 0 ∨ entry.adapter.capabilities.mtu < len then .ok (-1, w)
    else
      match entry.legacySendFn, entry.adapter.vtable with
      | some fn, _ => .ok (t.legacy fn entry.adapter.capabilities.id data len w)
      | none, some { send := some fn } => .ok (t.vtable fn entry.adapter data len w)
      | none, _ => .error .nullVtable

/-- The loop over the snapshot; `sent` counts the sends that returned 0. -/
def broadcastLoop (t : LinkSends F S C W) (data : Option (List UInt8)) (len : UInt16) :
    List (LinkEntry F S C) → Nat → W → Except LinkFault (Nat × W)
  | [], sent, w => .ok (sent, w)
  | entry :: targets, sent, w => do
    let (rc, w) ← entrySend t entry data len w
    broadcastLoop t data len targets (if rc = 0 then sent + 1 else sent) w

def bitleLinkBroadcast (t : LinkSends F S C W) (links : List (LinkEntry F S C))
    (excludeHandle : UInt16) (data : Option (List UInt8)) (len : UInt16) (w : W) :
    Except LinkFault (Nat × W) :=
  broadcastLoop t data len
    (links.filter fun e => e.inUse && e.adapter.capabilities.id != excludeHandle) 0 w

/-- The function a send to an entry calls, and what it is told about the link. -/
inductive LinkTarget (F S C : Type) where
  | legacy (fn : F) (handle : UInt16)
  | vtable (fn : S) (adapter : LinkAdapter S C)

def LinkTarget.handle : LinkTarget F S C → UInt16
  | .legacy _ handle => handle
  | .vtable _ adapter => adapter.capabilities.id

/-- One call of a send function. -/
structure LinkOffer (F S C : Type) where
  target : LinkTarget F S C
  data : List UInt8
  len : UInt16
  rc : Int

/-- The transports `t`, with a note of every call in the world. -/
def recorded (t : LinkSends F S C W) : LinkSends F S C (W × List (LinkOffer F S C)) where
  legacy fn handle data len s :=
    let (rc, w) := t.legacy fn handle data len s.1
    (rc, w, s.2 ++ [⟨.legacy fn handle, data, len, rc⟩])
  vtable fn adapter data len s :=
    let (rc, w) := t.vtable fn adapter data len s.1
    (rc, w, s.2 ++ [⟨.vtable fn adapter, data, len, rc⟩])

/-- The transports answer by the handle alone. -/
structure AnswersBy (ok : UInt16 → Bool) (t : LinkSends F S C W) : Prop where
  legacy : ∀ fn handle data len w, (t.legacy fn handle data len w).1 = 0 ↔ ok handle = true
  vtable : ∀ fn adapter data len w,
    (t.vtable fn adapter data len w).1 = 0 ↔ ok adapter.capabilities.id = true

/-- The table as far as a relay reads it. -/
def relayView (links : List (LinkEntry F S C)) : List Bitle.LinkEntry :=
  links.map fun e => { inUse := e.inUse, id := e.id, mtu := e.adapter.capabilities.mtu.toNat }

theorem length_relayView (links : List (LinkEntry F S C)) :
    (relayView links).length = links.length :=
  List.length_map _

/-! ## The registry as a map -/

/-- What the table is for: a finite map from handles to the entries registered last. -/
abbrev LinkRegistry (F S C : Type) : Type := Finmap fun _ : UInt16 => LinkEntry F S C

/-- The entry a registration asks for; none when its arguments are invalid. -/
def LinkCall.entry? : LinkCall F S C → Option (LinkEntry F S C)
  | .register handle type (some sendFn) =>
    if handle = bitleLinkNone then none
    else some { inUse := true, adapter := legacyAdapter handle type, legacySendFn := some sendFn }
  | .registerAdapter (some link) =>
    if capabilitiesValid link.capabilities && (link.vtable.bind LinkVtable.send).isSome then
      some { inUse := true, adapter := link }
    else none
  | _ => none

/-- What a call does to the registry. -/
def registryStep (m : LinkRegistry F S C) : LinkCall F S C → LinkErr × LinkRegistry F S C
  | .unregister handle => (.ok, m.erase handle)
  | c =>
    match c.entry? with
    | none => (.invalidArg, m)
    | some e =>
      if e.id ∈ m ∨ m.keys.card < bitleLinkMax then (.ok, m.insert e.id e) else (.noMem, m)

def registryRun (m : LinkRegistry F S C) :
    List (LinkCall F S C) → List LinkErr × LinkRegistry F S C
  | [] => ([], m)
  | c :: cs =>
    let (err, m) := registryStep m c
    let (errs, m) := registryRun m cs
    (err :: errs, m)

/-- The function a send to an entry calls: the older kind first, then the vtable's. -/
def LinkEntry.target (e : LinkEntry F S C) : Option (LinkTarget F S C) :=
  match e.legacySendFn with
  | some fn => some (.legacy fn e.id)
  | none => (e.adapter.vtable.bind LinkVtable.send).map fun fn => .vtable fn e.adapter

/-- There is a frame, and the link's MTU admits it. -/
def LinkEntry.admits (e : LinkEntry F S C) (data : Option (List UInt8)) (len : UInt16) : Prop :=
  data.isSome ∧ 0 < len ∧ len ≤ e.adapter.capabilities.mtu

instance (e : LinkEntry F S C) (data : Option (List UInt8)) (len : UInt16) :
    Decidable (e.admits data len) :=
  inferInstanceAs (Decidable (_ ∧ _))

/-- The table holds the registry: every entry in one slot under its own handle, with a function to
send through. -/
structure HoldsRegistry (links : List (LinkEntry F S C)) (m : LinkRegistry F S C) : Prop where
  length : links.length = bitleLinkMax
  refines : Table.Refines LinkEntry.inUse LinkEntry.id links m
  target : ∀ e ∈ links, e.inUse = true → e.target.isSome

/-- `offers` are the calls a broadcast should make, each link but the excluded one that is in the
registry and takes the frame once, and `sent` of them succeeded. -/
structure Broadcasts (m : LinkRegistry F S C) (excludeHandle : UInt16) (data : Option (List UInt8))
    (len : UInt16) (sent : Nat) (offers : List (LinkOffer F S C)) : Prop where
  sent_eq : sent = offers.countP fun o => o.rc = 0
  once : (offers.map fun o => o.target.handle).Nodup
  offered : ∀ h, h ∈ offers.map (fun o => o.target.handle) ↔
    h ≠ excludeHandle ∧ ∃ e, m.lookup h = some e ∧ e.admits data len
  frame : ∀ o ∈ offers, data = some o.data ∧ o.len = len ∧
    ∃ e, m.lookup o.target.handle = some e ∧ e.target = some o.target

/-! ## The table holds the registry -/

section Step

variable {links : List (LinkEntry F S C)} {m : LinkRegistry F S C}

theorem holdsRegistry_linkTable :
    HoldsRegistry (linkTable : List (LinkEntry F S C)) (∅ : LinkRegistry F S C) := by
  have hfree : ∀ e ∈ (linkTable : List (LinkEntry F S C)), e.inUse = false := by
    intro e he
    rw [List.eq_of_mem_replicate he]
  refine ⟨List.length_replicate, Table.Refines.empty hfree, fun e he hused => ?_⟩
  rw [hfree e he] at hused
  cases hused

theorem registerLocked_eq (links : List (LinkEntry F S C)) (adapter : LinkAdapter S C)
    (fn : Option F) :
    registerLocked links adapter fn =
      match Table.put LinkEntry.inUse LinkEntry.id
        { inUse := true, adapter, legacySendFn := fn } links with
      | none => (.noMem, links)
      | some links => (.ok, links) := by
  have hslot : Table.slotFor LinkEntry.inUse LinkEntry.id links adapter.capabilities.id =
      (findLocked links adapter.capabilities.id).or (links.findIdx? fun e => !e.inUse) := rfl
  rw [registerLocked, Table.put, LinkEntry.id, hslot]
  cases (findLocked links adapter.capabilities.id).or (links.findIdx? fun e => !e.inUse) with
  | none => rfl
  | some i => rfl

theorem bitleLinkUnregister_eq (links : List (LinkEntry F S C)) (handle : UInt16) :
    bitleLinkUnregister links handle =
      Table.drop LinkEntry.inUse LinkEntry.id {} handle links := rfl

variable (links) in
/-- A registration with valid arguments is `register_locked` of the entry it asks for. -/
theorem linkStep_of_entry {c : LinkCall F S C} {e : LinkEntry F S C} (h : c.entry? = some e) :
    linkStep links c = registerLocked links e.adapter e.legacySendFn ∧ e.inUse = true ∧
      e.target.isSome ∧ ∀ handle, c ≠ .unregister handle := by
  cases c with
  | register handle type sendFn =>
    cases sendFn with
    | none => cases h
    | some fn =>
      rw [LinkCall.entry?] at h
      split at h
      · cases h
      · next hne =>
        cases h
        refine ⟨?_, rfl, rfl, fun _ hc => nomatch hc⟩
        show bitleLinkRegister links handle type (some fn) = _
        rw [bitleLinkRegister, if_neg hne]
  | registerAdapter link =>
    cases link with
    | none => cases h
    | some link =>
      obtain ⟨caps, vtable, context⟩ := link
      rw [LinkCall.entry?] at h
      split at h
      · next hvalid =>
        cases h
        rw [Bool.and_eq_true] at hvalid
        refine ⟨?_, rfl, ?_, fun _ hc => nomatch hc⟩
        · show bitleLinkRegisterAdapter links (some ⟨caps, vtable, context⟩) = _
          rw [bitleLinkRegisterAdapter, if_pos hvalid.1]
          match vtable, hvalid.2 with
          | some ⟨some fn⟩, _ => rfl
        · rw [LinkEntry.target, Option.isSome_map]
          exact hvalid.2
      · cases h
  | unregister handle => cases h

/-- A registration with invalid arguments does nothing. -/
theorem linkStep_of_invalid {c : LinkCall F S C} (h : c.entry? = none)
    (hc : ∀ handle, c ≠ .unregister handle) : linkStep links c = (.invalidArg, links) := by
  cases c with
  | register handle type sendFn =>
    cases sendFn with
    | none => rfl
    | some fn =>
      rw [LinkCall.entry?] at h
      split at h
      · next hnone =>
        show bitleLinkRegister links handle type (some fn) = _
        rw [bitleLinkRegister, if_pos hnone]
      · cases h
  | registerAdapter link =>
    cases link with
    | none => rfl
    | some link =>
      obtain ⟨caps, vtable, context⟩ := link
      rw [LinkCall.entry?] at h
      split at h
      · cases h
      · -- invalid capabilities, or a vtable without a send function
        next hinvalid =>
        show bitleLinkRegisterAdapter links (some ⟨caps, vtable, context⟩) = _
        rw [bitleLinkRegisterAdapter]
        split
        · next hcaps =>
          match vtable with
          | none => rfl
          | some ⟨none⟩ => rfl
          | some ⟨some fn⟩ => exact absurd (Bool.and_eq_true_iff.mpr ⟨hcaps, rfl⟩) hinvalid
        · rfl
  | unregister handle => exact absurd rfl (hc handle)

theorem registryStep_of_entry {c : LinkCall F S C} {e : LinkEntry F S C} (h : c.entry? = some e) :
    registryStep m c =
      if e.id ∈ m ∨ m.keys.card < bitleLinkMax then (.ok, m.insert e.id e) else (.noMem, m) := by
  cases c with
  | register handle type sendFn =>
    rw [registryStep, h]
    exact fun _ hc => nomatch hc
  | registerAdapter link =>
    rw [registryStep, h]
    exact fun _ hc => nomatch hc
  | unregister handle => cases h

theorem registryStep_of_invalid {c : LinkCall F S C} (h : c.entry? = none)
    (hc : ∀ handle, c ≠ .unregister handle) : registryStep m c = (.invalidArg, m) := by
  cases c with
  | register handle type sendFn =>
    rw [registryStep, h]
    exact fun _ hc => nomatch hc
  | registerAdapter link =>
    rw [registryStep, h]
    exact fun _ hc => nomatch hc
  | unregister handle => exact absurd rfl (hc handle)

/-- Putting a good entry, or blanking one, leaves only good ones. -/
theorem forall_set {P : LinkEntry F S C → Prop} {i : Nat} {e : LinkEntry F S C}
    (h : ∀ x ∈ links, P x) (he : P e) : ∀ x ∈ links.set i e, P x := by
  intro x hx
  rcases List.mem_or_eq_of_mem_set hx with hmem | rfl
  · exact h x hmem
  · exact he

/-- A registration with valid arguments puts its entry, while there is room for its handle. -/
theorem HoldsRegistry.register (h : HoldsRegistry links m) {c : LinkCall F S C}
    {e : LinkEntry F S C} (he : c.entry? = some e) :
    (linkStep links c).1 = (registryStep m c).1 ∧
      HoldsRegistry (linkStep links c).2 (registryStep m c).2 := by
  obtain ⟨hstep, hused, htarget, -⟩ := linkStep_of_entry links he
  have hput := h.refines.put hused
  have heq : ({ inUse := true, adapter := e.adapter, legacySendFn := e.legacySendFn } :
      LinkEntry F S C) = e := by
    obtain ⟨used, adapter, fn⟩ := e
    cases hused
    rfl
  rw [hstep, registerLocked_eq, heq, registryStep_of_entry he]
  cases hl : Table.put LinkEntry.inUse LinkEntry.id e links with
  | none =>
    -- no slot: eight other handles
    rw [hl, h.length] at hput
    have hfull : ¬ (e.id ∈ m ∨ m.keys.card < bitleLinkMax) := by
      rintro (hmem | hlt)
      · exact hput.1 hmem
      · exact absurd hput.2 hlt.ne
    rw [if_neg hfull]
    exact ⟨rfl, h⟩
  | some links' =>
    rw [hl] at hput
    obtain ⟨hroom, hlen, href⟩ := hput
    rw [h.length] at hroom hlen
    rw [if_pos hroom]
    refine ⟨rfl, hlen, href, ?_⟩
    rw [Table.put, Option.map_eq_some_iff] at hl
    obtain ⟨i, -, rfl⟩ := hl
    exact forall_set h.target fun _ => htarget

/-- An unregistration blanks the slot of the handle. -/
theorem HoldsRegistry.unregister (h : HoldsRegistry links m) (handle : UInt16) :
    HoldsRegistry (bitleLinkUnregister links handle) (m.erase handle) := by
  rw [bitleLinkUnregister_eq]
  refine ⟨(Table.length_drop _ _ _).trans h.length, h.refines.drop rfl handle, ?_⟩
  rw [Table.drop]
  split
  · exact h.target
  · exact forall_set h.target fun hused => absurd hused Bool.false_ne_true

/-- **One call** does to the table what it does to the registry, and returns the same. -/
theorem HoldsRegistry.step (h : HoldsRegistry links m) (c : LinkCall F S C) :
    (linkStep links c).1 = (registryStep m c).1 ∧
      HoldsRegistry (linkStep links c).2 (registryStep m c).2 := by
  cases he : c.entry? with
  | some e => exact h.register he
  | none =>
    by_cases hc : ∀ handle, c ≠ .unregister handle
    · -- a registration with invalid arguments
      rw [linkStep_of_invalid he hc, registryStep_of_invalid he hc]
      exact ⟨rfl, h⟩
    · rw [not_forall] at hc
      obtain ⟨handle, hc⟩ := hc
      rw [not_not] at hc
      subst hc
      exact ⟨rfl, h.unregister handle⟩

theorem HoldsRegistry.run (h : HoldsRegistry links m) (cs : List (LinkCall F S C)) :
    (linkRun links cs).1 = (registryRun m cs).1 ∧
      HoldsRegistry (linkRun links cs).2 (registryRun m cs).2 := by
  induction cs generalizing links m with
  | nil => exact ⟨rfl, h⟩
  | cons c cs ih =>
    obtain ⟨herr, hnext⟩ := h.step c
    obtain ⟨herrs, hend⟩ := ih hnext
    exact ⟨congrArg₂ List.cons herr herrs, hend⟩

end Step

/-! ## A broadcast offers the frame once to each link -/

section Broadcast

variable {e : LinkEntry F S C} {data : Option (List UInt8)} {len : UInt16}

/-- The call `o` is the send of the frame to the entry `e`. -/
def Offers (data : Option (List UInt8)) (len : UInt16) (e : LinkEntry F S C)
    (o : LinkOffer F S C) : Prop :=
  e.target = some o.target ∧ data = some o.data ∧ o.len = len

theorem LinkEntry.handle_of_target {target : LinkTarget F S C} (h : e.target = some target) :
    target.handle = e.id := by
  rw [LinkEntry.target] at h
  split at h
  · cases h
    rfl
  · rw [Option.map_eq_some_iff] at h
    obtain ⟨fn, -, rfl⟩ := h
    rfl

/-- A frame that is missing, empty or too long for the link is not offered to it. -/
theorem entrySend_of_not_admits (t : LinkSends F S C W) (h : ¬ e.admits data len) (w : W) :
    entrySend t e data len w = .ok (-1, w) := by
  cases data with
  | none => rfl
  | some data =>
    have hlen : len = 0 ∨ e.adapter.capabilities.mtu < len := by
      by_contra hlen
      rw [not_or, UInt16.not_lt] at hlen
      exact h ⟨rfl, UInt16.pos_iff_ne_zero.mpr hlen.1, hlen.2⟩
    rw [entrySend, if_pos hlen]

/-- Any other frame is, by one call. -/
theorem entrySend_recorded (t : LinkSends F S C W) (htarget : e.target.isSome)
    (h : e.admits data len) (w : W) (log : List (LinkOffer F S C)) :
    ∃ o w', entrySend (recorded t) e data len (w, log) = .ok (o.rc, w', log ++ [o]) ∧
      Offers data len e o ∧
      ∀ ok, AnswersBy ok t → (o.rc = 0 ↔ ok o.target.handle = true) := by
  obtain ⟨hdata, hpos, hle⟩ := h
  obtain ⟨data, rfl⟩ := Option.isSome_iff_exists.mp hdata
  have hlen : ¬ (len = 0 ∨ e.adapter.capabilities.mtu < len) := by
    rw [not_or, UInt16.not_lt]
    exact ⟨UInt16.pos_iff_ne_zero.mp hpos, hle⟩
  rw [entrySend, if_neg hlen]
  obtain ⟨used, ⟨caps, vtable, context⟩, fn⟩ := e
  match fn, vtable, htarget with
  | some fn, _, _ =>
    exact ⟨⟨.legacy fn caps.id, data, len, _⟩, _, rfl, ⟨rfl, rfl, rfl⟩,
      fun ok hok => hok.legacy fn caps.id data len w⟩
  | none, some ⟨some fn⟩, _ =>
    exact ⟨⟨.vtable fn ⟨caps, some ⟨some fn⟩, context⟩, data, len, _⟩, _, rfl, ⟨rfl, rfl, rfl⟩,
      fun ok hok => hok.vtable fn _ data len w⟩

variable (data len) in
theorem broadcastLoop_recorded (t : LinkSends F S C W) {targets : List (LinkEntry F S C)}
    (h : ∀ e ∈ targets, e.target.isSome) (sent : Nat) (w : W) (log : List (LinkOffer F S C)) :
    ∃ w' offers, broadcastLoop (recorded t) data len targets sent (w, log) =
        .ok (sent + offers.countP fun o => o.rc = 0, w', log ++ offers) ∧
      List.Forall₂ (Offers data len) (targets.filter fun e => e.admits data len) offers ∧
      ∀ ok, AnswersBy ok t → ∀ o ∈ offers, (o.rc = 0 ↔ ok o.target.handle = true) := by
  induction targets generalizing sent w log with
  | nil =>
    exact ⟨w, [], by rw [broadcastLoop, List.append_nil]; rfl, .nil, fun _ _ _ ho => nomatch ho⟩
  | cons e targets ih =>
    have htargets : ∀ e ∈ targets, e.target.isSome := fun e he => h e (List.mem_cons_of_mem _ he)
    by_cases hadm : e.admits data len
    · obtain ⟨o, w₁, hsend, hoffer, hrc⟩ := entrySend_recorded t (h e List.mem_cons_self) hadm w log
      obtain ⟨w', offers, hloop, hall, hrcs⟩ :=
        ih htargets (if o.rc = 0 then sent + 1 else sent) w₁ (log ++ [o])
      refine ⟨w', o :: offers, ?_, ?_, fun ok hok => ?_⟩
      · have hcount : (if o.rc = 0 then sent + 1 else sent) + offers.countP (fun o => o.rc = 0) =
            sent + (o :: offers).countP fun o => o.rc = 0 := by
          rw [List.countP_cons]
          by_cases hrc : o.rc = 0
          · rw [if_pos hrc, if_pos (decide_eq_true hrc)]
            omega
          · rw [if_neg hrc, if_neg (by rw [decide_eq_false hrc]; decide)]
            omega
        rw [broadcastLoop, hsend]
        show broadcastLoop (recorded t) data len targets _ (w₁, log ++ [o]) = _
        rw [hloop, hcount, List.append_assoc]
        rfl
      · rw [List.filter_cons_of_pos (p := fun x : LinkEntry F S C => decide (x.admits data len))
          (decide_eq_true hadm)]
        exact .cons hoffer hall
      · exact List.forall_mem_cons.mpr ⟨hrc ok hok, hrcs ok hok⟩
    · -- not offered, and not a success
      obtain ⟨w', offers, hloop, hall, hrcs⟩ := ih htargets sent w log
      refine ⟨w', offers, ?_, ?_, hrcs⟩
      · rw [broadcastLoop, entrySend_of_not_admits _ hadm]
        exact hloop
      · rw [List.filter_cons_of_neg (p := fun x : LinkEntry F S C => decide (x.admits data len))
          (by rw [decide_eq_false hadm]; decide)]
        exact hall

variable (data len) in
/-- The note of the calls changes nothing. -/
theorem broadcastLoop_of_recorded (t : LinkSends F S C W) (targets : List (LinkEntry F S C))
    (sent : Nat) (s : W × List (LinkOffer F S C)) :
    (broadcastLoop (recorded t) data len targets sent s).map (fun r => (r.1, r.2.1)) =
      broadcastLoop t data len targets sent s.1 := by
  induction targets generalizing sent s with
  | nil => rfl
  | cons e targets ih =>
    have hsend : (entrySend (recorded t) e data len s).map (fun r => (r.1, r.2.1)) =
        entrySend t e data len s.1 := by
      rw [entrySend.eq_def, entrySend.eq_def]
      split
      · rfl
      · split
        · rfl
        · split <;> rfl
    rw [broadcastLoop, broadcastLoop, ← hsend]
    cases entrySend (recorded t) e data len s with
    | error err => rfl
    | ok r => exact ih _ r.2

/-- The handles of the offers are those of the links that take the frame, in their order. -/
theorem handles_of_offers {es : List (LinkEntry F S C)} {offers : List (LinkOffer F S C)}
    (h : List.Forall₂ (Offers data len) es offers) :
    offers.map (fun o => o.target.handle) = es.map LinkEntry.id := by
  induction h with
  | nil => rfl
  | cons hoffer _ ih =>
    rw [List.map_cons, List.map_cons, ih, LinkEntry.handle_of_target hoffer.1]

theorem exists_of_offers {es : List (LinkEntry F S C)} {offers : List (LinkOffer F S C)}
    (h : List.Forall₂ (Offers data len) es offers) {o : LinkOffer F S C} (ho : o ∈ offers) :
    ∃ e ∈ es, Offers data len e o := by
  induction h with
  | nil => cases ho
  | cons hoffer _ ih =>
    rcases List.mem_cons.mp ho with rfl | ho
    · exact ⟨_, List.mem_cons_self, hoffer⟩
    · obtain ⟨e, he, hoffer⟩ := ih ho
      exact ⟨e, List.mem_cons_of_mem _ he, hoffer⟩

variable {links : List (LinkEntry F S C)} {m : LinkRegistry F S C}

theorem HoldsRegistry.mem_targets (h : HoldsRegistry links m) {excludeHandle : UInt16} :
    e ∈ (links.filter fun e => e.inUse && e.adapter.capabilities.id != excludeHandle).filter
        (fun e => e.admits data len) ↔
      e.inUse = true ∧ m.lookup e.id = some e ∧ e.id ≠ excludeHandle ∧ e.admits data len := by
  have hmem := h.refines.mem_filter (x := e)
  rw [List.mem_filter] at hmem
  rw [List.mem_filter, List.mem_filter, Bool.and_eq_true, bne_iff_ne, decide_eq_true_iff,
    ← and_assoc, hmem, and_assoc, and_assoc]
  rfl

theorem HoldsRegistry.targets (h : HoldsRegistry links m) (excludeHandle : UInt16) :
    ∀ e ∈ links.filter fun e => e.inUse && e.adapter.capabilities.id != excludeHandle,
      e.target.isSome := by
  intro e he
  rw [List.mem_filter, Bool.and_eq_true] at he
  exact h.target e he.1 he.2.1

theorem HoldsRegistry.inUse (h : HoldsRegistry links m) {handle : UInt16}
    (he : m.lookup handle = some e) : e.inUse = true ∧ e.id = handle := by
  rw [← h.refines.lookup] at he
  exact Table.isAt_iff.mp (List.find?_some he)

theorem HoldsRegistry.broadcasts (h : HoldsRegistry links m) (t : LinkSends F S C W)
    (excludeHandle : UInt16) (data : Option (List UInt8)) (len : UInt16) (w : W) :
    ∃ sent w' offers,
      bitleLinkBroadcast (recorded t) links excludeHandle data len (w, []) =
        .ok (sent, w', offers) ∧
      bitleLinkBroadcast t links excludeHandle data len w = .ok (sent, w') ∧
      Broadcasts m excludeHandle data len sent offers := by
  have htargets := h.targets excludeHandle
  obtain ⟨w', offers, hloop, hall, -⟩ := broadcastLoop_recorded data len t htargets 0 w []
  have hhandles := handles_of_offers hall
  have hplain := broadcastLoop_of_recorded data len t
    (links.filter fun e => e.inUse && e.adapter.capabilities.id != excludeHandle) 0 (w, [])
  rw [hloop] at hplain
  rw [Nat.zero_add] at hloop hplain
  refine ⟨_, w', offers, hloop, hplain.symm, rfl, ?_, fun handle => ?_, fun o ho => ?_⟩
  · -- the handles are some of the table's keys, and these are distinct
    rw [hhandles]
    refine h.refines.nodup.sublist (List.Sublist.map _ (List.filter_sublist.trans ?_))
    exact List.monotone_filter_right _ fun e he => (Bool.and_eq_true_iff.mp he).1
  · rw [hhandles, List.mem_map]
    constructor
    · rintro ⟨e, he, rfl⟩
      obtain ⟨-, hlookup, hne, hadm⟩ := h.mem_targets.mp he
      exact ⟨hne, e, hlookup, hadm⟩
    · rintro ⟨hne, e, hlookup, hadm⟩
      obtain ⟨hused, rfl⟩ := h.inUse hlookup
      exact ⟨e, h.mem_targets.mpr ⟨hused, hlookup, hne, hadm⟩, rfl⟩
  · obtain ⟨e, he, htarget, hdata, hlen⟩ := exists_of_offers hall ho
    refine ⟨hdata, hlen, e, ?_, htarget⟩
    rw [LinkEntry.handle_of_target htarget]
    exact (h.mem_targets.mp he).2.1

/-- What a relay reads of a broadcast: where transports answer by the handle, the links it succeeds
on are those of `Bitle.bitleLinkBroadcast` on the view of the table. -/
theorem HoldsRegistry.relayView (h : HoldsRegistry links m) {t : LinkSends F S C W}
    {ok : UInt16 → Bool} (hok : AnswersBy ok t) (excludeHandle : UInt16) {data : List UInt8}
    {len : UInt16} (hlen : len.toNat = data.length) (w : W) :
    ∃ sent w' offers,
      bitleLinkBroadcast (recorded t) links excludeHandle (some data) len (w, []) =
        .ok (sent, w', offers) ∧
      ((offers.filter fun o => o.rc = 0).map fun o => o.target.handle) =
        Bitle.bitleLinkBroadcast ⟨Link.relayView links, (length_relayView links).trans h.length⟩
          excludeHandle data ok := by
  obtain ⟨w', offers, hloop, hall, hrcs⟩ :=
    broadcastLoop_recorded (some data) len t (h.targets excludeHandle) 0 w []
  refine ⟨_, w', offers, hloop, ?_⟩
  have hfilter : offers.filter (fun o => o.rc = 0) = offers.filter fun o => ok o.target.handle := by
    apply List.filter_congr
    intro o ho
    rw [Bool.eq_iff_iff, decide_eq_true_iff]
    exact hrcs ok hok o ho
  have hadmits : ∀ e : LinkEntry F S C, decide (e.admits (some data) len) =
      (data.length != 0 && decide (data.length ≤ e.adapter.capabilities.mtu.toNat)) := by
    intro e
    rw [Bool.eq_iff_iff, decide_eq_true_iff, Bool.and_eq_true, bne_iff_ne, decide_eq_true_iff,
      ← hlen, ← UInt16.le_iff_toNat_le]
    constructor
    · rintro ⟨-, hpos, hle⟩
      exact ⟨(UInt16.lt_iff_toNat_lt.mp hpos).ne', hle⟩
    · rintro ⟨hne, hle⟩
      exact ⟨rfl, UInt16.lt_iff_toNat_lt.mpr (Nat.pos_of_ne_zero hne), hle⟩
  have hmap : (offers.filter fun o => ok o.target.handle).map (fun o => o.target.handle) =
      (offers.map fun o => o.target.handle).filter ok := List.filter_map.symm
  rw [hfilter, hmap, handles_of_offers hall, List.filter_map, List.filter_filter]
  unfold Bitle.bitleLinkBroadcast Link.relayView
  dsimp only
  rw [List.filter_map, List.filter_map, List.map_map]
  refine congrArg (List.map LinkEntry.id) (List.filter_congr fun e _ => ?_)
  show (ok e.id && decide (e.admits (some data) len)) = (data.length != 0 &&
    decide (data.length ≤ e.adapter.capabilities.mtu.toNat) && ok e.id)
  rw [hadmits, Bool.and_comm]

end Broadcast

/-- `find_locked` is the lookup of the map. -/
theorem HoldsRegistry.findLocked {links : List (LinkEntry F S C)} {m : LinkRegistry F S C}
    (h : HoldsRegistry links m) (handle : UInt16) :
    (findLocked links handle).bind (links[·]?) = m.lookup handle := by
  rw [← h.refines.lookup]
  show (links.findIdx? (Table.isAt LinkEntry.inUse LinkEntry.id handle)).bind _ = _
  cases hfind : links.findIdx? (Table.isAt LinkEntry.inUse LinkEntry.id handle) with
  | some i => exact (Slots.find?_of_findIdx? hfind).symm
  | none =>
    symm
    rw [Option.bind_none, List.find?_eq_none]
    intro e he
    rw [List.findIdx?_eq_none_iff.mp hfind e he]
    decide

/-- A registration fails only for its arguments or because eight other handles are registered. -/
theorem HoldsRegistry.fails {links : List (LinkEntry F S C)} {m : LinkRegistry F S C}
    (h : HoldsRegistry links m) {c : LinkCall F S C} (hfail : (linkStep links c).1 ≠ .ok) :
    (linkStep links c).2 = links ∧
      (c.entry? = none ∨ ∃ e, c.entry? = some e ∧ (m.keys.erase e.id).card = bitleLinkMax) := by
  cases he : c.entry? with
  | none =>
    have hc : ∀ handle, c ≠ .unregister handle := by
      rintro handle rfl
      exact hfail rfl
    rw [linkStep_of_invalid he hc]
    exact ⟨rfl, .inl rfl⟩
  | some e =>
    obtain ⟨hstep, -⟩ := linkStep_of_entry links he
    have herr : (registryStep m c).1 ≠ .ok := fun hok => hfail ((h.step c).1.trans hok)
    constructor
    · rw [hstep, registerLocked] at hfail ⊢
      split
      · rfl
      · next hslot =>
        rw [hslot] at hfail
        exact absurd rfl hfail
    · rw [registryStep_of_entry he] at herr
      split at herr
      · exact absurd rfl herr
      · next hroom =>
        rw [not_or, Nat.not_lt] at hroom
        have hle : m.keys.card ≤ bitleLinkMax := h.length ▸ h.refines.card_le
        refine .inr ⟨e, rfl, ?_⟩
        rw [Finset.erase_eq_of_notMem (fun hmem => hroom.1 (Finmap.mem_keys.mp hmem))]
        exact Nat.le_antisymm hle hroom.2

/-- Through every sequence of calls the table is a finite map from handles to the entries
registered last, with room for eight. A registration fails only if its arguments are invalid or
eight other handles are registered, and then changes nothing. A broadcast offers a frame exactly
once to each registered link but the excluded one whose MTU admits it, and to no other, and
returns the number of successes. -/
theorem linkRun_refines (t : LinkSends F S C W) (cs : List (LinkCall F S C)) :
    let links := (linkRun linkTable cs).2
    let m := (registryRun ∅ cs).2
    (linkRun linkTable cs).1 = (registryRun ∅ cs).1 ∧
    (∀ handle, (findLocked links handle).bind (links[·]?) = m.lookup handle) ∧
    m.keys.card ≤ bitleLinkMax ∧ ((links.filter LinkEntry.inUse).map LinkEntry.id).Nodup ∧
    (∀ c, (linkStep links c).1 ≠ .ok → (linkStep links c).2 = links ∧
      (c.entry? = none ∨ ∃ e, c.entry? = some e ∧ (m.keys.erase e.id).card = bitleLinkMax)) ∧
    ∀ excludeHandle data len w, ∃ sent w' offers,
      bitleLinkBroadcast (recorded t) links excludeHandle data len (w, []) =
        .ok (sent, w', offers) ∧
      bitleLinkBroadcast t links excludeHandle data len w = .ok (sent, w') ∧
      Broadcasts m excludeHandle data len sent offers := by
  have h := holdsRegistry_linkTable.run cs
  have hheld := h.2
  exact ⟨h.1, hheld.findLocked, hheld.length ▸ hheld.refines.card_le, hheld.refines.nodup,
    fun c hfail => hheld.fails hfail, hheld.broadcasts t⟩

end Bitle.Link
