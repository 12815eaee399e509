import Bitle.Sync.Request
import Mathlib.Data.Finset.Card

/-!
# Bitle — the limits per connection (`main/bitle_sync.c`)

`bitle_sync_tick` and `bitle_sync_handle_request` limit each connection by an entry of
`s_peers`, found by `peer_state`. An entry with handle 0 counts as free, and 0 is a connection
handle like any other.

So the limits are private to a handle (`sync_limits_private`) as long as no handle turns up for
the first time after handle 0 was used: such a handle takes the entry of handle 0 and wipes it
(`tick_forgets_handle_zero`). A second gap is at uptime 0, recorded as 1: a second tick at
uptime 0 sees an elapsed time that wraps around and sends again.
-/

namespace Bitle

open Wire Run

/-- A call of the module that may use the table. The environment and the store are those of the
moment of the call. -/
inductive SyncCall where
  | request (env : SyncEnv) (st : SyncStore) (nowMs : UInt64) (connHandle : UInt16)
      (packet : BitchatPacket)
  | tick (connHandle : UInt16) (uptimeMs : UInt64)

/-- What is limited: the time a request arrives, or the uptime at a tick. -/
inductive SyncOp where
  | request (nowMs : UInt64)
  | tick (uptimeMs : UInt64)
  deriving DecidableEq

/-- A use of the table: whether the request went on to the signature check, or the tick sent. -/
structure SyncUse where
  connHandle : UInt16
  op : SyncOp
  passed : Bool
  deriving DecidableEq

/-- The table and every use of it so far. -/
structure SyncRun where
  peers : SyncPeers
  uses : List SyncUse

def SyncRun.init : SyncRun := ⟨SyncPeers.init, []⟩

/-- The signature of the request was checked. -/
def SyncOutcome.verified : SyncOutcome → Bool
  | .ignored => false
  | .limited => false
  | .badSignature => true
  | .badRequest => true
  | .replay _ => true

/-- One call. A request that is ignored does not get to the table. -/
def syncStep (s : SyncRun) : SyncCall → SyncRun
  | .request env st nowMs connHandle packet =>
    let (peers, outcome) := bitleSyncHandleRequest env st s.peers nowMs connHandle packet
    { peers := peers
      uses :=
        if outcome = .ignored then s.uses
        else s.uses ++ [⟨connHandle, .request nowMs, outcome.verified⟩] }
  | .tick connHandle uptimeMs =>
    let (peers, sent) := bitleSyncTick s.peers connHandle uptimeMs
    { peers := peers, uses := s.uses ++ [⟨connHandle, .tick uptimeMs, sent⟩] }

/-! ## What the limits promise -/

/-- The uptimes of the requests sent to a handle. -/
def sentTimes (uses : List SyncUse) (connHandle : UInt16) : List Nat :=
  uses.filterMap fun u =>
    match u.op with
    | .tick uptimeMs => if u.connHandle = connHandle ∧ u.passed then some uptimeMs.toNat else none
    | .request _ => none

/-- The times of the requests of a handle whose signature was checked. -/
def verifiedTimes (uses : List SyncUse) (connHandle : UInt16) : List Nat :=
  uses.filterMap fun u =>
    match u.op with
    | .request nowMs => if u.connHandle = connHandle ∧ u.passed then some nowMs.toNat else none
    | .tick _ => none

/-- The window a handle is in and the number of requests checked in it: the first window starts
at 0, the next ones with the first request more than `RATE_WINDOW_MS` after the start. -/
def windowAfter (times : List Nat) : Nat × Nat :=
  times.foldl (fun w t => if t - w.1 > rateWindowMs.toNat then (t, 1) else (w.1, w.2 + 1)) (0, 0)

/-- The limits on one handle, over the uses so far. -/
def HandleLimited (uses : List SyncUse) (connHandle : UInt16) : Prop :=
  (sentTimes uses connHandle).Pairwise (fun u v => u + requestIntervalMs.toNat ≤ v) ∧
    (windowAfter (verifiedTimes uses connHandle)).2 ≤ rateMaxResponses.toNat

/-! ## The calls -/

/-- The handle and the operation with which a call gets to the table. -/
def SyncCall.use? : SyncCall → Option (UInt16 × SyncOp)
  | .request env _ nowMs connHandle packet =>
    if packet.ttl = 0 ∧ ((env.peerIdentity connHandle).map Prod.snd).getD false then
      some (connHandle, .request nowMs)
    else none
  | .tick connHandle uptimeMs => some (connHandle, .tick uptimeMs)

/-- The handles in use so far. -/
def usedHandles (uses : List SyncUse) : List UInt16 := uses.map (·.connHandle)

/-- Neither clock runs backwards. -/
def SyncOp.After (uses : List SyncUse) : SyncOp → Prop
  | .request nowMs => ∀ u ∈ uses, ∀ t, u.op = .request t → t ≤ nowMs
  | .tick uptimeMs => ∀ u ∈ uses, ∀ t, u.op = .tick t → t ≤ uptimeMs

/-- At most 8 handles, and clocks that do not decrease. -/
def CallLegal (s : SyncRun) (call : SyncCall) : Prop :=
  ∀ h op, call.use? = some (h, op) →
    (h :: usedHandles s.uses).toFinset.card ≤ 8 ∧ op.After s.uses

/-- No handle is new once handle 0 was used, and no handle is ticked again at uptime 0. -/
def CallSafe (s : SyncRun) (call : SyncCall) : Prop :=
  ∀ h op, call.use? = some (h, op) →
    (0 ∈ usedHandles s.uses → h ∈ usedHandles s.uses) ∧
      (op = .tick 0 → ∀ u ∈ s.uses, u.connHandle = h → ∀ t, u.op ≠ .tick t)

/-! ## One use of the table -/

/-- The limit on one entry. -/
def limitEntry (peer : SyncPeer) : SyncOp → SyncPeer × Bool
  | .request nowMs => rateLimit peer nowMs
  | .tick uptimeMs =>
    if peer.lastRequestMs ≠ 0 ∧ uptimeMs - peer.lastRequestMs < requestIntervalMs then
      (peer, false)
    else ({ peer with lastRequestMs := if uptimeMs ≠ 0 then uptimeMs else 1 }, true)

/-- Look the entry up and apply the limit to it. -/
def useTable (peers : SyncPeers) (connHandle : UInt16) (op : SyncOp) : SyncPeers × Bool :=
  let (i, peers) := peerState peers connHandle
  let (peer, passed) := limitEntry (peers.get i) op
  (peers.set i peer, passed)

theorem SyncPeers.set_get (peers : SyncPeers) (i : Nat) : peers.set i (peers.get i) = peers := by
  apply Subtype.ext
  show peers.val.set i (peers.val.getD i {}) = peers.val
  apply List.ext_getElem?
  intro j
  rw [List.getElem?_set]
  split
  · next hij =>
      subst hij
      split
      · next hi => rw [List.getD_eq_getElem?_getD, List.getElem?_eq_getElem hi]; rfl
      · next hi => rw [List.getElem?_eq_none (by omega)]
  · rfl

/-- A call leaves everything alone, or is one use of the table. -/
theorem syncStep_cases (s : SyncRun) (call : SyncCall) :
    (call.use? = none ∧ syncStep s call = s) ∨
    ∃ h op, call.use? = some (h, op) ∧
      syncStep s call =
        { peers := (useTable s.peers h op).1
          uses := s.uses ++ [⟨h, op, (useTable s.peers h op).2⟩] } := by
  cases call with
  | tick h uptimeMs =>
    refine .inr ⟨h, .tick uptimeMs, rfl, ?_⟩
    simp only [syncStep, bitleSyncTick, useTable, limitEntry]
    generalize peerState s.peers h = r
    obtain ⟨i, peers⟩ := r
    dsimp only
    split
    · rw [SyncPeers.set_get]
    · rfl
  | request env st nowMs h packet =>
    by_cases httl : packet.ttl = 0
    · rcases hid : env.peerIdentity h with _ | ⟨signKey, verified⟩
      · exact .inl ⟨by simp [SyncCall.use?, hid], by simp [syncStep, bitleSyncHandleRequest, hid]⟩
      · cases verified with
        | false =>
          exact .inl ⟨by simp [SyncCall.use?, hid], by simp [syncStep, bitleSyncHandleRequest, hid]⟩
        | true =>
          refine .inr ⟨h, .request nowMs, by simp [SyncCall.use?, hid, httl], ?_⟩
          simp only [syncStep, bitleSyncHandleRequest, useTable, limitEntry, httl, hid, ne_eq,
            not_true_eq_false, if_false]
          generalize peerState s.peers h = r
          obtain ⟨i, peers⟩ := r
          dsimp only
          rcases rateLimit (peers.get i) nowMs with ⟨peer, allowed⟩
          -- every outcome behind the limit counts as checked
          cases allowed with
          | false => rfl
          | true =>
            cases env.verifyPacketSignature packet signKey with
            | false => rfl
            | true => cases parseRequest packet.payload.val <;> rfl
    · exact .inl ⟨by simp [SyncCall.use?, httl], by simp [syncStep, bitleSyncHandleRequest, httl]⟩

theorem limitEntry_connHandle (peer : SyncPeer) (op : SyncOp) :
    (limitEntry peer op).1.connHandle = peer.connHandle := by
  cases op with
  | request nowMs =>
    simp only [limitEntry, rateLimit]
    split <;> split <;> rfl
  | tick uptimeMs =>
    simp only [limitEntry]
    split <;> rfl

/-! ## The table as one entry a handle -/

/-- The entry of a handle, blank when it has none. -/
def peerOf (peers : SyncPeers) (h : UInt16) : SyncPeer :=
  (peers.val.find? fun a => a.connHandle == h).getD { connHandle := h }

theorem peerOf_connHandle (peers : SyncPeers) (h : UInt16) : (peerOf peers h).connHandle = h := by
  rw [peerOf]
  cases hf : peers.val.find? fun a => a.connHandle == h with
  | none => rfl
  | some a =>
    have ha := List.find?_some hf
    exact beq_iff_eq.mp ha

/-- Which handles have entries: the used ones other than 0, each its own; and until handle 0 is
used, the entries with handle 0 are blank. -/
structure TableInv (peers : SyncPeers) (used : List UInt16) : Prop where
  distinct : ∀ (i j : Nat) (a b : SyncPeer), peers.val[i]? = some a → peers.val[j]? = some b →
    a.connHandle = b.connHandle → a.connHandle ≠ 0 → i = j
  used_of_mem : ∀ a ∈ peers.val, a.connHandle ≠ 0 → a.connHandle ∈ used
  mem_of_used : ∀ h ∈ used, h ≠ 0 → ∃ a ∈ peers.val, a.connHandle = h
  blank : 0 ∉ used → ∀ a ∈ peers.val, a.connHandle = 0 → a = {}

theorem TableInv.init : TableInv SyncPeers.init [] where
  distinct := by
    intro i j a b ha _ _ hne
    have hmem := List.mem_of_getElem? ha
    rw [List.eq_of_mem_replicate hmem] at hne
    exact absurd rfl hne
  used_of_mem := by
    intro a ha hne
    rw [List.eq_of_mem_replicate ha] at hne
    exact absurd rfl hne
  mem_of_used := by
    intro h hh
    cases hh
  blank := by
    intro _ a ha _
    exact List.eq_of_mem_replicate ha

theorem peerVictim_free {peers : SyncPeers} {l : List SyncPeer} {k : Nat}
    (h : l.findIdx? (fun a => a.connHandle == 0) = some k) (i victim : Nat) :
    peerVictim peers l i victim = i + k := by
  induction l generalizing i victim k with
  | nil => cases h
  | cons a l ih =>
    rw [List.findIdx?_cons] at h
    by_cases ha : a.connHandle = 0
    · rw [if_pos (beq_iff_eq.mpr ha)] at h
      cases h
      rw [peerVictim, if_pos ha]
      rfl
    · rw [if_neg (by simpa using ha), Option.map_eq_some_iff] at h
      obtain ⟨k, hk, rfl⟩ := h
      rw [peerVictim, if_neg ha]
      split
      · rw [ih hk]
        omega
      · rw [ih hk]
        omega

/-- With a handle to spare there is a free entry. -/
theorem TableInv.exists_free {peers : SyncPeers} {used : List UInt16} (hinv : TableInv peers used)
    {h : UInt16} (hcard : (h :: used).toFinset.card ≤ 8)
    (hnone : ∀ a ∈ peers.val, a.connHandle ≠ h) : ∃ a ∈ peers.val, a.connHandle = 0 := by
  by_contra hfree
  have hne : ∀ a ∈ peers.val, a.connHandle ≠ 0 := fun a ha h0 => hfree ⟨a, ha, h0⟩
  -- otherwise the eight entries hold eight used handles, none of them `h`
  have hnodup : (h :: peers.val.map (·.connHandle)).Nodup := by
    apply List.nodup_cons.mpr
    constructor
    · intro hmem
      obtain ⟨a, ha, hah⟩ := List.mem_map.mp hmem
      exact hnone a ha hah
    · apply List.pairwise_iff_getElem.mpr
      intro i j hi hj hij heq
      rw [List.length_map] at hi hj
      rw [List.getElem_map, List.getElem_map] at heq
      have := hinv.distinct i j _ _ (List.getElem?_eq_getElem hi) (List.getElem?_eq_getElem hj) heq
        (hne _ (List.getElem_mem hi))
      omega
  have hsub : (h :: peers.val.map (·.connHandle)).toFinset ⊆ (h :: used).toFinset := by
    intro x hx
    rw [List.mem_toFinset, List.mem_cons] at hx ⊢
    rcases hx with rfl | hx
    · exact .inl rfl
    · obtain ⟨a, ha, rfl⟩ := List.mem_map.mp hx
      exact .inr (hinv.used_of_mem a ha (hne a ha))
  have hle := Finset.card_le_card hsub
  rw [List.toFinset_card_of_nodup hnodup, List.length_cons, List.length_map, peers.property] at hle
  omega

/-- **One use.** Under the condition, a use applies the limit to the handle's own entry, kept
where it was, or for a new handle in an entry that was blank. -/
theorem TableInv.useTable_spec {peers : SyncPeers} {used : List UInt16}
    (hinv : TableInv peers used) {h : UInt16} (op : SyncOp)
    (hcard : (h :: used).toFinset.card ≤ 8) (hsafe : 0 ∈ used → h ∈ used) :
    (useTable peers h op).2 = (limitEntry (peerOf peers h) op).2 ∧
    ∃ (i : Nat) (a : SyncPeer), peers.val[i]? = some a ∧
      (useTable peers h op).1 = peers.set i (limitEntry (peerOf peers h) op).1 ∧
      ((peers.val.findIdx? (fun a => a.connHandle == h) = some i ∧ a.connHandle = h) ∨
        ((∀ b ∈ peers.val, b.connHandle ≠ h) ∧ a = {} ∧ 0 ∉ used)) := by
  cases hfind : peers.val.findIdx? fun a => a.connHandle == h with
  | some i =>
    obtain ⟨hi, hp, -⟩ := List.findIdx?_eq_some_iff_getElem.mp hfind
    have hget : peers.get i = peerOf peers h := by
      rw [peerOf, Slots.find?_of_findIdx? hfind, SyncPeers.get, List.getD_eq_getElem?_getD,
        List.getElem?_eq_getElem hi]
      rfl
    have huse : useTable peers h op =
        (peers.set i (limitEntry (peerOf peers h) op).1, (limitEntry (peerOf peers h) op).2) := by
      rw [useTable, peerState, hfind]
      dsimp only
      rw [hget]
    rw [huse]
    exact ⟨rfl, i, peers.val[i], List.getElem?_eq_getElem hi, rfl, .inl ⟨rfl, beq_iff_eq.mp hp⟩⟩
  | none =>
    have hnone : ∀ a ∈ peers.val, a.connHandle ≠ h := by
      intro a ha
      have := List.findIdx?_eq_none_iff.mp hfind a ha
      simpa using this
    obtain ⟨a, ha, ha0⟩ := hinv.exists_free hcard hnone
    -- `h` has no entry, so it is new, and handle 0 is not in use yet
    have hh0 : h ≠ 0 := by
      rintro rfl
      exact hnone a ha ha0
    have hnew : h ∉ used := by
      intro hused
      obtain ⟨b, hb, hbh⟩ := hinv.mem_of_used h hused hh0
      exact hnone b hb hbh
    have h0 : 0 ∉ used := fun h0 => hnew (hsafe h0)
    obtain ⟨k, hk⟩ : ∃ k, peers.val.findIdx? (fun a => a.connHandle == 0) = some k := by
      cases hk : peers.val.findIdx? fun a => a.connHandle == 0 with
      | some k => exact ⟨k, rfl⟩
      | none => exact absurd (List.findIdx?_eq_none_iff.mp hk a ha) (by simp [ha0])
    obtain ⟨hi, hp, -⟩ := List.findIdx?_eq_some_iff_getElem.mp hk
    have hblank : peers.val[k] = {} :=
      hinv.blank h0 _ (List.getElem_mem hi) (beq_iff_eq.mp hp)
    have hvictim : peerVictim peers peers.val 0 0 = k := by rw [peerVictim_free hk, Nat.zero_add]
    have hpeer : peerOf peers h = { connHandle := h } := by
      rw [peerOf, List.find?_eq_none.mpr fun a ha => by simpa using hnone a ha]
      rfl
    have hget : (peers.set k { connHandle := h }).get k = peerOf peers h := by
      rw [hpeer]
      show (peers.val.set k { connHandle := h }).getD k {} = _
      rw [List.getD_eq_getElem?_getD, List.getElem?_set_self hi]
      rfl
    have hset : ∀ p, (peers.set k { connHandle := h }).set k p = peers.set k p := by
      intro p
      apply Subtype.ext
      exact List.set_set _
    have huse : useTable peers h op =
        (peers.set k (limitEntry (peerOf peers h) op).1, (limitEntry (peerOf peers h) op).2) := by
      rw [useTable, peerState, hfind]
      dsimp only
      rw [hvictim, hget, hset]
    rw [huse]
    exact ⟨rfl, k, {}, by rw [List.getElem?_eq_getElem hi, hblank], rfl, .inr ⟨hnone, rfl, h0⟩⟩

/-- A use changes no other handle's entry. -/
theorem TableInv.peerOf_useTable {peers : SyncPeers} {used : List UInt16}
    (hinv : TableInv peers used) {h : UInt16} (op : SyncOp)
    (hcard : (h :: used).toFinset.card ≤ 8) (hsafe : 0 ∈ used → h ∈ used) (h' : UInt16) :
    peerOf (useTable peers h op).1 h' =
      if h' = h then (limitEntry (peerOf peers h) op).1 else peerOf peers h' := by
  obtain ⟨-, i, a, ha, huse, hcase⟩ := hinv.useTable_spec op hcard hsafe
  obtain ⟨hi, hai⟩ := List.getElem?_eq_some_iff.mp ha
  have hnew : (limitEntry (peerOf peers h) op).1.connHandle = h := by
    rw [limitEntry_connHandle, peerOf_connHandle]
  rw [huse]
  generalize (limitEntry (peerOf peers h) op).1 = p at hnew
  show ((peers.val.set i p).find? fun a => a.connHandle == h').getD { connHandle := h' } = _
  by_cases hh : h' = h
  · subst hh
    rw [if_pos rfl]
    have hidx : (peers.val.set i p).findIdx? (fun a => a.connHandle == h') = some i := by
      apply Slots.findIdx?_set_of_pos (p := fun a : SyncPeer => a.connHandle == h') _
        (beq_iff_eq.mpr hnew)
      rcases hcase with ⟨hfind, -⟩ | ⟨hnone, -, -⟩
      · exact .inl hfind
      · exact .inr ⟨List.find?_eq_none.mpr fun b hb => by simpa using hnone b hb, hi⟩
    rw [Slots.find?_of_findIdx? hidx, List.getElem?_set_self hi]
    rfl
  · rw [if_neg hh]
    have hp : (p.connHandle == h') = false := by
      rw [hnew]
      simpa using Ne.symm hh
    rcases hcase with ⟨-, hah⟩ | ⟨-, rfl, h0⟩
    · rw [Slots.find?_set_of_neg (p := fun a : SyncPeer => a.connHandle == h') _ hp]
      · rfl
      · intro b hb
        obtain rfl : a = b := Option.some.inj (ha.symm.trans hb)
        rw [hah]
        simpa using Ne.symm hh
    · -- a blank entry is taken; seen through handle 0, all free entries are alike
      by_cases h0' : h' = 0
      · subst h0'
        have hblank : ∀ l : List SyncPeer, (∀ b ∈ l, b.connHandle = 0 → b = {}) →
            (l.find? fun a => a.connHandle == 0).getD { connHandle := 0 } = {} := by
          intro l hl
          cases hf : l.find? fun a => a.connHandle == 0 with
          | none => rfl
          | some b => exact hl b (List.mem_of_find?_eq_some hf) (by simpa using List.find?_some hf)
        rw [peerOf, hblank _ (hinv.blank h0), hblank]
        intro b hb hb0
        rcases List.mem_or_eq_of_mem_set hb with hb | rfl
        · exact hinv.blank h0 b hb hb0
        · rw [hb0] at hp
          exact absurd hp (by decide)
      · rw [Slots.find?_set_of_neg (p := fun a : SyncPeer => a.connHandle == h') _ hp]
        · rfl
        · intro b hb
          obtain rfl : {} = b := Option.some.inj (ha.symm.trans hb)
          simpa using Ne.symm h0'

/-- A use keeps the table in order. -/
theorem TableInv.useTable {peers : SyncPeers} {used : List UInt16} (hinv : TableInv peers used)
    {h : UInt16} (op : SyncOp) (hcard : (h :: used).toFinset.card ≤ 8)
    (hsafe : 0 ∈ used → h ∈ used) : TableInv (useTable peers h op).1 (used ++ [h]) := by
  obtain ⟨-, i, a, ha, huse, hcase⟩ := hinv.useTable_spec op hcard hsafe
  obtain ⟨hi, hai⟩ := List.getElem?_eq_some_iff.mp ha
  have hnew : (limitEntry (peerOf peers h) op).1.connHandle = h := by
    rw [limitEntry_connHandle, peerOf_connHandle]
  rw [huse]
  generalize (limitEntry (peerOf peers h) op).1 = p at hnew
  -- another entry with the handle `h` is the one overwritten, unless `h` is 0
  have hother : ∀ (j : Nat) (b : SyncPeer), peers.val[j]? = some b → b.connHandle = h → h ≠ 0 → j = i := by
    intro j b hb hbh hh0
    rcases hcase with ⟨-, hah⟩ | ⟨hnone, -, -⟩
    · exact hinv.distinct j i b a hb ha (hbh.trans hah.symm) (by rwa [hbh])
    · exact absurd hbh (hnone b (List.mem_of_getElem? hb))
  constructor
  · intro j k b c hb hc hbc hb0
    show j = k
    rw [SyncPeers.set, List.getElem?_set] at hb hc
    by_cases hij : i = j <;> by_cases hik : i = k
    · omega
    · rw [if_pos hij, if_pos (by omega)] at hb
      rw [if_neg hik] at hc
      obtain rfl := Option.some.inj hb
      have := hother k c hc (hbc.symm.trans hnew) (by rwa [hnew] at hb0)
      omega
    · rw [if_neg hij] at hb
      rw [if_pos hik, if_pos (by omega)] at hc
      obtain rfl := Option.some.inj hc
      have := hother j b hb (hbc.trans hnew) (by rw [← hnew, ← hbc]; exact hb0)
      omega
    · rw [if_neg hij] at hb
      rw [if_neg hik] at hc
      exact hinv.distinct j k b c hb hc hbc hb0
  · intro b hb hb0
    rcases List.mem_or_eq_of_mem_set hb with hb | rfl
    · exact List.mem_append_left _ (hinv.used_of_mem b hb hb0)
    · rw [hnew]
      exact List.mem_append_right _ (List.mem_singleton_self h)
  · intro x hx hx0
    by_cases hxh : x = h
    · exact ⟨p, List.mem_set hi p, hnew.trans hxh.symm⟩
    · have hxu : x ∈ used := by
        rcases List.mem_append.mp hx with hx | hx
        · exact hx
        · exact absurd (List.mem_singleton.mp hx) hxh
      obtain ⟨b, hb, hbx⟩ := hinv.mem_of_used x hxu hx0
      obtain ⟨j, hj, hjb⟩ := List.getElem_of_mem hb
      have hij : i ≠ j := by
        rintro rfl
        have hab : a = b := hai.symm.trans hjb
        rcases hcase with ⟨-, hah⟩ | ⟨-, rfl, -⟩
        · exact hxh (by rw [← hbx, ← hab, hah])
        · exact hx0 (by rw [← hbx, ← hab])
      refine ⟨b, ?_, hbx⟩
      apply List.mem_of_getElem? (i := j)
      show (peers.val.set i p)[j]? = some b
      rw [List.getElem?_set_ne hij, List.getElem?_eq_getElem hj, hjb]
  · intro h0 b hb hb0
    rw [List.mem_append, not_or] at h0
    rcases List.mem_or_eq_of_mem_set hb with hb | rfl
    · exact hinv.blank h0.1 b hb hb0
    · rw [hnew] at hb0
      exact absurd (List.mem_singleton.mpr hb0.symm) h0.2

/-! ## One entry and the uses of its handle -/

theorem sentTimes_concat (uses : List SyncUse) (u : SyncUse) (h : UInt16) :
    sentTimes (uses ++ [u]) h = sentTimes uses h ++ sentTimes [u] h := by
  simp [sentTimes]

theorem verifiedTimes_concat (uses : List SyncUse) (u : SyncUse) (h : UInt16) :
    verifiedTimes (uses ++ [u]) h = verifiedTimes uses h ++ verifiedTimes [u] h := by
  simp [verifiedTimes]

theorem mem_sentTimes {uses : List SyncUse} {h : UInt16} {t : Nat} (ht : t ∈ sentTimes uses h) :
    ∃ u ∈ uses, u.connHandle = h ∧ ∃ uptimeMs, u.op = .tick uptimeMs ∧ uptimeMs.toNat = t := by
  obtain ⟨u, hu, hsome⟩ := List.mem_filterMap.mp ht
  split at hsome
  · next uptimeMs hop =>
      split at hsome
      · next hc => exact ⟨u, hu, hc.1, uptimeMs, hop, Option.some.inj hsome⟩
      · cases hsome
  · cases hsome

theorem mem_verifiedTimes {uses : List SyncUse} {h : UInt16} {t : Nat}
    (ht : t ∈ verifiedTimes uses h) :
    ∃ u ∈ uses, ∃ nowMs, u.op = .request nowMs ∧ nowMs.toNat = t := by
  obtain ⟨u, hu, hsome⟩ := List.mem_filterMap.mp ht
  split at hsome
  · next nowMs hop =>
      split at hsome
      · exact ⟨u, hu, nowMs, hop, Option.some.inj hsome⟩
      · cases hsome
  · cases hsome

/-- The tick half of an entry: `last_request_ms` is the last uptime sent at, with 1 for 0. -/
structure TickInv (peer : SyncPeer) (sent : List Nat) : Prop where
  spaced : sent.Pairwise (fun u v => u + requestIntervalMs.toNat ≤ v)
  le_last : ∀ u ∈ sent, u ≤ peer.lastRequestMs.toNat
  none_sent : peer.lastRequestMs = 0 → sent = []
  last_sent : peer.lastRequestMs = 0 ∨ peer.lastRequestMs.toNat ∈ sent ∨
    (peer.lastRequestMs = 1 ∧ 0 ∈ sent)

/-- The request half: the window and its count. -/
structure RateInv (peer : SyncPeer) (verified : List Nat) : Prop where
  window : windowAfter verified = (peer.windowStartMs.toNat, peer.count.toNat)
  count_le : peer.count.toNat ≤ rateMaxResponses.toNat
  start_mem : peer.windowStartMs = 0 ∨ peer.windowStartMs.toNat ∈ verified

theorem windowAfter_concat (times : List Nat) (t : Nat) :
    windowAfter (times ++ [t]) =
      if t - (windowAfter times).1 > rateWindowMs.toNat then (t, 1)
      else ((windowAfter times).1, (windowAfter times).2 + 1) := by
  rw [windowAfter, List.foldl_append]
  rfl

/-- A tick: sent only when the interval has passed, and then recorded. -/
theorem TickInv.tick {peer : SyncPeer} {sent : List Nat} (hinv : TickInv peer sent)
    {uptimeMs : UInt64} (hafter : ∀ u ∈ sent, u ≤ uptimeMs.toNat)
    (hzero : uptimeMs = 0 → sent = []) :
    TickInv (limitEntry peer (.tick uptimeMs)).1
      (sent ++ if (limitEntry peer (.tick uptimeMs)).2 then [uptimeMs.toNat] else []) := by
  simp only [limitEntry]
  split
  · simpa using hinv
  · next hpass =>
      -- every request sent before is an interval back
      have hgap : ∀ u ∈ sent, u + requestIntervalMs.toNat ≤ uptimeMs.toNat := by
        intro u hu
        have hne : peer.lastRequestMs ≠ 0 := by
          intro h0
          rw [hinv.none_sent h0] at hu
          cases hu
        have hlast : peer.lastRequestMs.toNat ≤ uptimeMs.toNat := by
          rcases hinv.last_sent with h0 | hmem | ⟨h1, h0⟩
          · exact absurd h0 hne
          · exact hafter _ hmem
          · have hup : uptimeMs ≠ 0 := by
              intro hup
              rw [hzero hup] at h0
              cases h0
            have hpos : uptimeMs.toNat ≠ 0 := fun h => hup (UInt64.toNat_inj.mp h)
            rw [h1]
            show 1 ≤ uptimeMs.toNat
            omega
        have hge : ¬ uptimeMs - peer.lastRequestMs < requestIntervalMs :=
          fun hlt => hpass ⟨hne, hlt⟩
        rw [UInt64.lt_iff_toNat_lt, UInt64.toNat_sub_of_le _ _
          (UInt64.le_iff_toNat_le.mpr hlast)] at hge
        have hle := hinv.le_last u hu
        omega
      have hnew : (if uptimeMs ≠ 0 then uptimeMs else 1) ≠ 0 := by
        split
        · assumption
        · decide
      have hup : uptimeMs.toNat ≤ (if uptimeMs ≠ 0 then uptimeMs else 1).toNat := by
        split
        · exact Nat.le_refl _
        · next h0 =>
            rw [not_not.mp h0]
            decide
      rw [if_pos rfl]
      constructor
      · apply List.pairwise_append.mpr
        refine ⟨hinv.spaced, List.pairwise_singleton _ _, ?_⟩
        intro u hu v hv
        rw [List.mem_singleton.mp hv]
        exact hgap u hu
      · intro u hu
        rcases List.mem_append.mp hu with hu | hu
        · exact ((Nat.le_add_right _ _).trans (hgap u hu)).trans hup
        · rw [List.mem_singleton.mp hu]
          exact hup
      · intro h0
        exact absurd h0 hnew
      · by_cases h0 : uptimeMs = 0
        · refine .inr (.inr ⟨if_neg (not_not.mpr h0), ?_⟩)
          rw [h0]
          exact List.mem_append_right _ (List.mem_singleton_self _)
        · refine .inr (.inl ?_)
          rw [if_pos h0]
          exact List.mem_append_right _ (List.mem_singleton_self _)

/-- What the rate limit does with a request: open a window, refuse, or count. -/
theorem rateLimit_cases (peer : SyncPeer) (nowMs : UInt64) :
    (nowMs - peer.windowStartMs > rateWindowMs ∧
      rateLimit peer nowMs = ({ peer with windowStartMs := nowMs, count := 1 }, true)) ∨
    (¬ nowMs - peer.windowStartMs > rateWindowMs ∧ rateLimit peer nowMs = (peer, false)) ∨
    (¬ nowMs - peer.windowStartMs > rateWindowMs ∧ peer.count.toNat < rateMaxResponses.toNat ∧
      rateLimit peer nowMs = ({ peer with count := peer.count + 1 }, true)) := by
  by_cases hwin : nowMs - peer.windowStartMs > rateWindowMs
  · refine .inl ⟨hwin, ?_⟩
    simp only [rateLimit, if_pos hwin]
    rfl
  · simp only [rateLimit, if_neg hwin]
    by_cases hcount : peer.count ≥ rateMaxResponses
    · exact .inr (.inl ⟨hwin, if_pos hcount⟩)
    · refine .inr (.inr ⟨hwin, ?_, if_neg hcount⟩)
      rw [ge_iff_le, UInt8.le_iff_toNat_le] at hcount
      exact Nat.lt_of_not_le hcount

/-- A request: counted when it passes, and a new window always lets it pass. -/
theorem RateInv.request {peer : SyncPeer} {verified : List Nat} (hinv : RateInv peer verified)
    {nowMs : UInt64} (hafter : ∀ t ∈ verified, t ≤ nowMs.toNat) :
    RateInv (limitEntry peer (.request nowMs)).1
      (verified ++ if (limitEntry peer (.request nowMs)).2 then [nowMs.toNat] else []) := by
  have hstart : peer.windowStartMs.toNat ≤ nowMs.toNat := by
    rcases hinv.start_mem with h0 | hmem
    · rw [h0]
      exact Nat.zero_le _
    · exact hafter _ hmem
  have hwindow : nowMs - peer.windowStartMs > rateWindowMs ↔
      nowMs.toNat - peer.windowStartMs.toNat > rateWindowMs.toNat := by
    rw [gt_iff_lt, UInt64.lt_iff_toNat_lt,
      UInt64.toNat_sub_of_le _ _ (UInt64.le_iff_toNat_le.mpr hstart)]
  show RateInv (rateLimit peer nowMs).1
    (verified ++ if (rateLimit peer nowMs).2 then [nowMs.toNat] else [])
  rcases rateLimit_cases peer nowMs with ⟨hwin, heq⟩ | ⟨-, heq⟩ | ⟨hwin, hcount, heq⟩
  · rw [heq]
    refine ⟨?_, by show 1 ≤ 8; omega, .inr (List.mem_append_right _ (List.mem_singleton_self _))⟩
    rw [if_pos rfl, windowAfter_concat, hinv.window, if_pos (hwindow.mp hwin)]
    rfl
  · rw [heq]
    simpa using hinv
  · have hsucc : (peer.count + 1).toNat = peer.count.toNat + 1 := by
      have h8 : peer.count.toNat < 8 := hcount
      rw [UInt8.toNat_add]
      show (peer.count.toNat + 1) % 256 = _
      omega
    rw [heq, if_pos rfl]
    refine ⟨?_, ?_, hinv.start_mem.imp_right (List.mem_append_left _)⟩
    · rw [windowAfter_concat, hinv.window, if_neg (fun h => hwin (hwindow.mpr h))]
      exact Prod.ext rfl hsucc.symm
    · show (peer.count + 1).toNat ≤ rateMaxResponses.toNat
      omega

/-! ## Runs -/

/-- The table is in order, and every handle's entry agrees with its uses. -/
structure SyncRunInv (s : SyncRun) : Prop where
  table : TableInv s.peers (usedHandles s.uses)
  tick : ∀ h, TickInv (peerOf s.peers h) (sentTimes s.uses h)
  rate : ∀ h, RateInv (peerOf s.peers h) (verifiedTimes s.uses h)

theorem SyncRunInv.init : SyncRunInv SyncRun.init where
  table := TableInv.init
  tick h := by
    have hpeer : (peerOf SyncPeers.init h).lastRequestMs = 0 := by
      rw [peerOf]
      cases hf : SyncPeers.init.val.find? fun a => a.connHandle == h with
      | none => rfl
      | some a => rw [List.eq_of_mem_replicate (List.mem_of_find?_eq_some hf)]; rfl
    exact ⟨List.Pairwise.nil, fun u hu => absurd hu List.not_mem_nil, fun _ => rfl, .inl hpeer⟩
  rate h := by
    have hpeer : (peerOf SyncPeers.init h).windowStartMs = 0 ∧
        (peerOf SyncPeers.init h).count = 0 := by
      rw [peerOf]
      cases hf : SyncPeers.init.val.find? fun a => a.connHandle == h with
      | none => exact ⟨rfl, rfl⟩
      | some a =>
        rw [List.eq_of_mem_replicate (List.mem_of_find?_eq_some hf)]
        exact ⟨rfl, rfl⟩
    refine ⟨?_, ?_, .inl hpeer.1⟩
    · show (0, 0) = _
      rw [show SyncRun.init.peers = SyncPeers.init from rfl, hpeer.1, hpeer.2]
      rfl
    · rw [show SyncRun.init.peers = SyncPeers.init from rfl, hpeer.2]
      decide

/-- The uses of one handle grow by the use of that handle only. -/
theorem sentTimes_use (uses : List SyncUse) (h h' : UInt16) (op : SyncOp) (passed : Bool) :
    sentTimes (uses ++ [⟨h, op, passed⟩]) h' =
      sentTimes uses h' ++ match op with
        | .tick uptimeMs => if h = h' ∧ passed then [uptimeMs.toNat] else []
        | .request _ => [] := by
  rw [sentTimes_concat]
  cases op with
  | request nowMs => rfl
  | tick uptimeMs =>
    simp only [sentTimes, List.filterMap_cons, List.filterMap_nil]
    by_cases hc : h = h' ∧ passed = true
    · rw [if_pos hc, if_pos hc]
    · rw [if_neg hc, if_neg hc]

theorem verifiedTimes_use (uses : List SyncUse) (h h' : UInt16) (op : SyncOp) (passed : Bool) :
    verifiedTimes (uses ++ [⟨h, op, passed⟩]) h' =
      verifiedTimes uses h' ++ match op with
        | .request nowMs => if h = h' ∧ passed then [nowMs.toNat] else []
        | .tick _ => [] := by
  rw [verifiedTimes_concat]
  cases op with
  | tick uptimeMs => rfl
  | request nowMs =>
    simp only [verifiedTimes, List.filterMap_cons, List.filterMap_nil]
    by_cases hc : h = h' ∧ passed = true
    · rw [if_pos hc, if_pos hc]
    · rw [if_neg hc, if_neg hc]

/-- A request does not touch the tick half of an entry. -/
theorem TickInv.request {peer : SyncPeer} {sent : List Nat} (hinv : TickInv peer sent)
    (nowMs : UInt64) : TickInv (limitEntry peer (.request nowMs)).1 sent := by
  show TickInv (rateLimit peer nowMs).1 sent
  rcases rateLimit_cases peer nowMs with ⟨-, heq⟩ | ⟨-, heq⟩ | ⟨-, -, heq⟩ <;> rw [heq]
  · exact ⟨hinv.spaced, hinv.le_last, hinv.none_sent, hinv.last_sent⟩
  · exact hinv
  · exact ⟨hinv.spaced, hinv.le_last, hinv.none_sent, hinv.last_sent⟩

/-- A tick does not touch the request half. -/
theorem RateInv.tick {peer : SyncPeer} {verified : List Nat} (hinv : RateInv peer verified)
    (uptimeMs : UInt64) : RateInv (limitEntry peer (.tick uptimeMs)).1 verified := by
  simp only [limitEntry]
  split
  · exact hinv
  · exact ⟨hinv.window, hinv.count_le, hinv.start_mem⟩

/-- **Step.** -/
theorem SyncRunInv.step {s : SyncRun} {call : SyncCall} (hinv : SyncRunInv s)
    (hok : CallLegal s call ∧ CallSafe s call) : SyncRunInv (syncStep s call) := by
  rcases syncStep_cases s call with ⟨-, heq⟩ | ⟨h, op, huse, heq⟩
  · rwa [heq]
  · obtain ⟨hcard, hafter⟩ := hok.1 h op huse
    obtain ⟨hnew, hzero⟩ := hok.2 h op huse
    -- what the table knows of any handle afterwards: only the one that is used changes
    have hpeer := hinv.table.peerOf_useTable op hcard hnew
    have hpassed := (hinv.table.useTable_spec op hcard hnew).1
    rw [heq]
    constructor
    · show TableInv _ (usedHandles (s.uses ++ _))
      rw [usedHandles, List.map_append]
      exact hinv.table.useTable op hcard hnew
    · intro h'
      show TickInv (peerOf (useTable s.peers h op).1 h') (sentTimes (s.uses ++ _) h')
      rw [hpeer, sentTimes_use, hpassed]
      by_cases hh : h' = h
      · subst hh
        rw [if_pos rfl]
        cases op with
        | request nowMs => simpa using (hinv.tick h').request nowMs
        | tick uptimeMs =>
          -- the clock does not go back, and a first tick at uptime 0 has nothing before it
          have hle : ∀ u ∈ sentTimes s.uses h', u ≤ uptimeMs.toNat := by
            intro u hu
            obtain ⟨use, hmem, -, t, hop, rfl⟩ := mem_sentTimes hu
            exact UInt64.le_iff_toNat_le.mp (hafter use hmem t hop)
          have hnone : uptimeMs = 0 → sentTimes s.uses h' = [] := by
            rintro rfl
            apply List.eq_nil_iff_forall_not_mem.mpr
            intro u hu
            obtain ⟨use, hmem, hh, t, hop, -⟩ := mem_sentTimes hu
            exact hzero rfl use hmem hh t hop
          simpa using (hinv.tick h').tick hle hnone
      · rw [if_neg hh]
        cases op with
        | request nowMs => simpa using hinv.tick h'
        | tick uptimeMs => simpa [Ne.symm hh] using hinv.tick h'
    · intro h'
      -- the rate limit sees requests only
      show RateInv (peerOf (useTable s.peers h op).1 h') (verifiedTimes (s.uses ++ _) h')
      rw [hpeer, verifiedTimes_use, hpassed]
      by_cases hh : h' = h
      · subst hh
        rw [if_pos rfl]
        cases op with
        | tick uptimeMs => simpa using (hinv.rate h').tick uptimeMs
        | request nowMs =>
          have hle : ∀ t ∈ verifiedTimes s.uses h', t ≤ nowMs.toNat := by
            intro t ht
            obtain ⟨use, hmem, t', hop, rfl⟩ := mem_verifiedTimes ht
            exact UInt64.le_iff_toNat_le.mp (hafter use hmem t' hop)
          simpa using (hinv.rate h').request hle
      · rw [if_neg hh]
        cases op with
        | tick uptimeMs => simpa using hinv.rate h'
        | request nowMs => simpa [Ne.symm hh] using hinv.rate h'

/-- **The limits are private.** In a run over at most 8 handles, with clocks that do not
decrease, in which no handle is new after handle 0 and none is ticked twice at uptime 0, every
handle is limited on its own in every state reached. -/
theorem sync_limits_private (calls : List SyncCall)
    (hlegal : Along syncStep CallLegal SyncRun.init calls)
    (hsafe : Along syncStep CallSafe SyncRun.init calls) (pre : List SyncCall)
    (hpre : pre <+: calls) (h : UInt16) :
    HandleLimited (final syncStep SyncRun.init pre).uses h := by
  have hinv : SyncRunInv (final syncStep SyncRun.init pre) :=
    ((hlegal.and hsafe).before hpre).invariant (fun _ _ => SyncRunInv.step) SyncRunInv.init
  refine ⟨(hinv.tick h).spaced, ?_⟩
  rw [(hinv.rate h).window]
  exact (hinv.rate h).count_le

/-- The tick clock check, as a computation. -/
theorem tick_after_of_all {uses : List SyncUse} {uptimeMs : UInt64}
    (h : uses.all (fun u => match u.op with
      | .tick t => decide (t ≤ uptimeMs)
      | .request _ => true) = true) : (SyncOp.tick uptimeMs).After uses := by
  intro u hu t ht
  have hall := List.all_eq_true.mp h u hu
  rw [ht] at hall
  simpa using hall

/-- Two handles ticked in turn, the first again a second later. -/
theorem sync_limits_private_two_handles :
    HandleLimited (final syncStep SyncRun.init [.tick 3 5000, .tick 4 5000, .tick 3 6000]).uses
      3 := by
  apply sync_limits_private [.tick 3 5000, .tick 4 5000, .tick 3 6000] ?_ ?_ _
    (List.prefix_refl _)
  · refine ⟨?_, ?_, ?_, trivial⟩ <;> rintro h op ⟨⟩ <;>
      exact ⟨by decide, tick_after_of_all (by decide)⟩
  · refine ⟨?_, ?_, ?_, trivial⟩ <;> rintro h op ⟨⟩ <;>
      exact ⟨fun h0 => absurd h0 (by decide), nofun⟩

/-- **Handle 0 is forgotten.** Three ticks at one moment, for the handles 0, 1 and 0: the second
wipes the entry of handle 0, which is then sent to again. -/
theorem tick_forgets_handle_zero :
    ¬ ∀ calls, Along syncStep CallLegal SyncRun.init calls →
      ∀ pre, pre <+: calls → ∀ h, HandleLimited (final syncStep SyncRun.init pre).uses h := by
  intro hall
  have hrun := hall [.tick 0 5000, .tick 1 5000, .tick 0 5000] ?_ _ (List.prefix_refl _) 0
  · exact absurd hrun.1 (by decide)
  · refine ⟨?_, ?_, ?_, trivial⟩ <;> rintro h op ⟨⟩ <;>
      exact ⟨by decide, tick_after_of_all (by decide)⟩

end Bitle
