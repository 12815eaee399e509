import Bitle.Mesh.Relay
import Bitle.Sync.Gcs

/-!
# Bitle — sync requests (`main/bitle_sync.c`)

Both ends of `requestSync`: `send_request` describes the local store as a filter, and
`bitle_sync_handle_request` parses it and replays what the filter does not cover.

`request_round_trip` puts the two together. The buckets are below `m = 128 n`, so the `n ≤ 80`
gaps take at most `8 n + n` bits and always fit the 400 bytes; the decoder gets the same
buckets back (`gcsDecode_gcsEncode`), and a stored packet whose id the requester hashed is
found by the binary search.

SHA-256, the identity table and the signature check are parameters. The number of skipped
packets is only logged and left out.
-/

namespace Bitle

open Wire

def flagAnnounce : UInt64 := (1 : UInt64) <<< 0
def flagMessage : UInt64 := (1 : UInt64) <<< 1
def flagPrekey : UInt64 := (1 : UInt64) <<< 9
def flagGroup : UInt64 := (1 : UInt64) <<< 10
def rateWindowMs : UInt64 := 30000
def rateMaxResponses : UInt8 := 8
def requestIntervalMs : UInt64 := 60000
def maxReplayPerReq : Nat := 40

/-! ## Parsing -/

/-- `sync_request_t`, with the locals `have_m` and `have_data` of `parse_request`. -/
structure SyncRequest where
  p : Int := -1
  m : Nat := 0
  filter : List UInt8 := []
  typeFlags : UInt64 := 0
  haveTypes : Bool := false
  hasSince : Bool := false
  sinceMs : UInt64 := 0
  haveM : Bool := false
  haveData : Bool := false
  deriving DecidableEq

/-- The switch of `parse_request` on one TLV. -/
def parseRequestTlv (t : UInt8) (v : List UInt8) (req : SyncRequest) : Option SyncRequest :=
  if t = 0x01 then some (if v.length = 1 then { req with p := (byteAt v 0).toNat } else req)
  else if t = 0x02 then
    some (if v.length = 4 then { req with m := beNat v, haveM := true } else req)
  else if t = 0x03 then
    if v.length > gcsMaxAccept then none else some { req with filter := v, haveData := true }
  else if t = 0x04 then
    -- little-endian, unlike every other field
    some { req with typeFlags := UInt64.ofNat (leNat (v.take 8)), haveTypes := true }
  else if t = 0x05 then
    some (if v.length = 8 then { req with sinceMs := UInt64.ofNat (beNat v), hasSince := true }
      else req)
  else some req

/-- The TLV loop of `parse_request` over the bytes from `off` on. Every round consumes at least
three bytes, so `fuel` is the length. -/
def parseRequestLoop : Nat → List UInt8 → SyncRequest → Option SyncRequest
  | 0, _, req => some req
  | fuel + 1, p, req =>
    if 3 ≤ p.length then
      let l := beNat ((p.drop 1).take 2)
      if 3 + l > p.length then none
      else
        match parseRequestTlv (byteAt p 0) ((p.drop 3).take l) req with
        | none => none
        | some req => parseRequestLoop fuel (p.drop (3 + l)) req
    else some req

/-- `parse_request`. -/
def parseRequest (p : List UInt8) : Option SyncRequest :=
  match parseRequestLoop p.length p {} with
  | none => none
  | some req =>
    if req.p < 1 ∨ req.p > 32 ∨ req.haveM = false ∨ req.m = 0 ∨ req.haveData = false then none
    else if req.haveTypes then some req
    else some { req with typeFlags := flagAnnounce ||| flagMessage }

/-- `type_requested`. -/
def typeRequested (type : UInt8) (flags : UInt64) : Bool :=
  if type = bitchatMsgAnnounce then flags &&& flagAnnounce != 0
  else if type = bitchatMsgMessage then flags &&& flagMessage != 0
  else if type = bitchatMsgNodeCapability then flags &&& flagAnnounce != 0
  else if type = bitchatMsgPrekeyBundle then flags &&& flagPrekey != 0
  else false

/-! ## Serving requests -/

/-- The tests of the selection loop before the filter: in use, requested, fresh, and not older
than the cursor, from which announces and prekey bundles are exempt. -/
def replayEligible (req : SyncRequest) (nowMs : UInt64) (s : SyncSlot) : Bool :=
  s.inUse && typeRequested s.type req.typeFlags && slotFresh s nowMs &&
    !(req.hasSince && s.type != bitchatMsgAnnounce && s.type != bitchatMsgPrekeyBundle &&
      decide (s.timestampMs < req.sinceMs))

/-- The filter test of the selection loop. -/
def filterCovers (sha256 : List UInt8 → Bytes 32) (req : SyncRequest) (buckets : List Nat)
    (id : Bytes 16) : Bool :=
  decide (req.m > 1) && buckets.length != 0 && sortedContains buckets (gcsBucket sha256 id req.m)

/-- The selection loop: indices of wanted slots, at most `MAX_REPLAY_PER_REQ`. -/
def selectLoop (wanted : SyncSlot → Bool) : List SyncSlot → Nat → List Nat → List Nat
  | [], _, toSend => toSend
  | s :: slots, i, toSend =>
    if !wanted s then selectLoop wanted slots (i + 1) toSend
    else if toSend.length ≥ maxReplayPerReq then selectLoop wanted slots (i + 1) toSend
    else selectLoop wanted slots (i + 1) (toSend ++ [i])

/-- The slots of the store selected for a request: `gcs_decode` and the selection loop. -/
def selectReplay (sha256 : List UInt8 → Bytes 32) (st : SyncStore) (nowMs : UInt64)
    (req : SyncRequest) : List Nat :=
  let buckets := gcsDecode req.filter req.p req.m (gcsMaxElements + 8)
  selectLoop (fun s => replayEligible req nowMs s && !filterCovers sha256 req buckets s.id)
    st.slots 0 []

/-- `peer_state_t`. -/
structure SyncPeer where
  connHandle : UInt16 := 0
  count : UInt8 := 0
  windowStartMs : UInt64 := 0
  lastRequestMs : UInt64 := 0
  deriving DecidableEq

/-- `s_peers`. -/
abbrev SyncPeers : Type := { peers : List SyncPeer // peers.length = 8 }

/-- `s_peers` after `bitle_sync_init`. -/
def SyncPeers.init : SyncPeers := ⟨List.replicate 8 {}, List.length_replicate⟩

/-- Write one entry of the table. -/
def SyncPeers.set (peers : SyncPeers) (i : Nat) (peer : SyncPeer) : SyncPeers :=
  ⟨peers.val.set i peer, by rw [List.length_set]; exact peers.property⟩

/-- Entry `i` of the table. -/
def SyncPeers.get (peers : SyncPeers) (i : Nat) : SyncPeer := peers.val.getD i {}

/-- The second loop of `peer_state`: the first entry with handle 0, or else the one with the
oldest request, starting from `victim`. -/
def peerVictim (peers : SyncPeers) : List SyncPeer → Nat → Nat → Nat
  | [], _, victim => victim
  | s :: rest, i, victim =>
    if s.connHandle = 0 then i
    else if s.lastRequestMs < (peers.get victim).lastRequestMs then peerVictim peers rest (i + 1) i
    else peerVictim peers rest (i + 1) victim

/-- `peer_state`: the index of the entry and the table after the call. -/
def peerState (peers : SyncPeers) (connHandle : UInt16) : Nat × SyncPeers :=
  match peers.val.findIdx? fun s => s.connHandle == connHandle with
  | some i => (i, peers)
  | none =>
    let victim := peerVictim peers peers.val 0 0
    (victim, peers.set victim { connHandle := connHandle })

/-- What `bitle_sync_handle_request` uses of the Noise module. -/
structure SyncEnv where
  sha256 : List UInt8 → Bytes 32
  peerIdentity : UInt16 → Option (Bytes 32 × Bool)
  verifyPacketSignature : BitchatPacket → Bytes 32 → Bool
  isBroadcast : UInt16 → Bool

/-- How far a request got. -/
inductive SyncOutcome where
  /-- Wrong TTL, or no verified identity. -/
  | ignored
  /-- Over the rate limit. -/
  | limited
  /-- The signature was checked and is wrong. -/
  | badSignature
  /-- The signature is right, the payload is not a request. -/
  | badRequest
  /-- The slots to replay. -/
  | replay (toSend : List Nat)
  deriving DecidableEq

/-- The rate limit of `bitle_sync_handle_request` on one entry: the entry after it and whether
the request goes on to the signature check. -/
def rateLimit (peer : SyncPeer) (nowMs : UInt64) : SyncPeer × Bool :=
  let peer :=
    if nowMs - peer.windowStartMs > rateWindowMs then
      { peer with windowStartMs := nowMs, count := 0 }
    else peer
  if peer.count ≥ rateMaxResponses then (peer, false)
  else ({ peer with count := peer.count + 1 }, true)

/-- `bitle_sync_handle_request` up to the selection. -/
def bitleSyncHandleRequest (env : SyncEnv) (st : SyncStore) (peers : SyncPeers) (nowMs : UInt64)
    (connHandle : UInt16) (packet : BitchatPacket) : SyncPeers × SyncOutcome :=
  if packet.ttl ≠ 0 then (peers, .ignored)
  else
    match env.peerIdentity connHandle with
    | none => (peers, .ignored)
    | some (_, false) => (peers, .ignored)
    | some (signKey, true) =>
      let (i, peers) := peerState peers connHandle
      let (peer, allowed) := rateLimit (peers.get i) nowMs
      let peers := peers.set i peer
      if !allowed then (peers, .limited)
      else if !env.verifyPacketSignature packet signKey then (peers, .badSignature)
      else
        match parseRequest packet.payload.val with
        | none => (peers, .badRequest)
        | some req => (peers, .replay (selectReplay env.sha256 st nowMs req))

/-- The frame of one selected slot, copied from the store as it is when its turn comes. -/
def replaySlot (st : SyncStore) (i : Nat) : Option (List UInt8) :=
  let s := st.slots.getD i {}
  if s.inUse && s.frame.length != 0 then some (replayFrame s.frame) else none

/-! ## Own requests -/

/-- The position found by the insertion sort of `collect_buckets`, from `j` down. -/
def insertPos (buckets : List Nat) (b : Nat) : Nat → Nat
  | 0 => 0
  | j + 1 => if buckets.getD j 0 > b then insertPos buckets b j else j + 1

/-- One round of the insertion sort; a bucket that is there already is dropped. -/
def insertBucket (buckets : List Nat) (b : Nat) : List Nat :=
  let j := insertPos buckets b buckets.length
  if 0 < j ∧ buckets.getD (j - 1) 0 = b then buckets
  else buckets.take j ++ b :: buckets.drop j

/-- The ids `collect_buckets` copies out of the store. -/
def collectIds (st : SyncStore) (nowMs : UInt64) (flags : UInt64) (cap : Nat) : List (Bytes 16) :=
  ((st.slots.filter fun s => s.inUse && typeRequested s.type flags && slotFresh s nowMs).take
    cap).map (·.id)

/-- `m` of a request over `n` ids. -/
def gcsModulus (n : Nat) : Nat := if n ≠ 0 then n <<< gcsP else 1

/-- `collect_buckets`: the buckets and `m`. -/
def collectBuckets (sha256 : List UInt8 → Bytes 32) (st : SyncStore) (nowMs : UInt64)
    (flags : UInt64) (cap : Nat) : List Nat × Nat :=
  let ids := collectIds st nowMs flags cap
  let m := gcsModulus ids.length
  (ids.foldl (fun buckets id => insertBucket buckets (gcsBucket sha256 id m)) [], m)

/-- The types `send_request` asks for. -/
def requestFlags : UInt64 := flagAnnounce ||| flagMessage ||| flagGroup ||| flagPrekey

/-- The filter of `send_request`: nothing when there are no buckets, and nothing when
`gcs_encode` returns zero. -/
def requestFilter (buckets : List Nat) : List UInt8 :=
  if buckets.length ≠ 0 then (gcsEncode buckets gcsP gcsMaxBytes).getD [] else []

/-- A type byte, a 16-bit length and the value. -/
def requestTlv (t : UInt8) (v : List UInt8) : List UInt8 := t :: (beBytes 2 v.length ++ v)

/-- The payload `send_request` builds. -/
def requestPayload (filter : List UInt8) (m : Nat) : List UInt8 :=
  requestTlv 0x01 [UInt8.ofNat gcsP] ++ (requestTlv 0x02 (beBytes 4 m) ++ (requestTlv 0x03 filter ++
    requestTlv 0x04 [(flagAnnounce ||| flagMessage).toUInt8,
      ((flagPrekey ||| flagGroup) >>> 8).toUInt8]))

/-- `send_request`: the payload it hands to `noise_send_packet`, `none` on the broadcast
trunk. -/
def sendRequest (env : SyncEnv) (st : SyncStore) (nowMs : UInt64) (connHandle : UInt16) :
    Option (List UInt8) :=
  let (buckets, m) := collectBuckets env.sha256 st nowMs requestFlags bitleSyncSlots
  let payload := requestPayload (requestFilter buckets) m
  if env.isBroadcast connHandle then none else some payload

/-- `bitle_sync_tick`: the table after it and whether `send_request` is called. -/
def bitleSyncTick (peers : SyncPeers) (connHandle : UInt16) (uptimeMs : UInt64) :
    SyncPeers × Bool :=
  let (i, peers) := peerState peers connHandle
  let peer := peers.get i
  if peer.lastRequestMs ≠ 0 ∧ uptimeMs - peer.lastRequestMs < requestIntervalMs then (peers, false)
  else
    (peers.set i { peer with lastRequestMs := if uptimeMs ≠ 0 then uptimeMs else 1 }, true)

/-! ## The request is parsed as it was sent -/

/-- One well-formed TLV at the front is read and the loop goes on behind it. -/
theorem parseRequestLoop_tlv {fuel : Nat} {t : UInt8} {v rest : List UInt8} {req req' : SyncRequest}
    (hlen : v.length < 65536) (htlv : parseRequestTlv t v req = some req') :
    parseRequestLoop (fuel + 1) (requestTlv t v ++ rest) req = parseRequestLoop fuel rest req' := by
  have hl : (beBytes 2 v.length).length = 2 := length_beBytes 2 v.length
  have hp : requestTlv t v ++ rest = t :: (beBytes 2 v.length ++ (v ++ rest)) := by
    simp [requestTlv]
  have htake : ((t :: (beBytes 2 v.length ++ (v ++ rest))).drop 1).take 2 =
      beBytes 2 v.length := by
    rw [List.drop_succ_cons, List.drop_zero, List.take_left' hl]
  have hdrop : (t :: (beBytes 2 v.length ++ (v ++ rest))).drop 3 = v ++ rest := by
    rw [List.drop_succ_cons, List.drop_left' hl]
  have hbyte : byteAt (t :: (beBytes 2 v.length ++ (v ++ rest))) 0 = t := rfl
  rw [hp, parseRequestLoop, if_pos (by simp)]
  dsimp only
  rw [htake, beNat_beBytes (by omega), if_neg (by simp; omega), ← List.drop_drop, hdrop,
    List.take_left, List.drop_left, hbyte, htlv]

/-- The request `send_request` builds, as the peer parses it. -/
def builtRequest (filter : List UInt8) (m : Nat) : SyncRequest :=
  { p := gcsP, m := m, filter := filter, typeFlags := requestFlags, haveTypes := true
    haveM := true, haveData := true }

/-- `parse_request` gives back what `send_request` put into the payload. -/
theorem parseRequest_requestPayload {filter : List UInt8} {m : Nat}
    (hfilter : filter.length ≤ gcsMaxAccept) (hm : 0 < m) (hm32 : m < 2 ^ 32) :
    parseRequest (requestPayload filter m) = some (builtRequest filter m) := by
  rw [gcsMaxAccept] at hfilter
  have hfuel : ∃ n, (requestPayload filter m).length = n + 4 := by
    refine ⟨(requestPayload filter m).length - 4, ?_⟩
    simp [requestPayload, requestTlv]
    omega
  obtain ⟨n, hn⟩ := hfuel
  -- the four TLVs in the order they are written
  have hp : parseRequestTlv 0x01 [UInt8.ofNat gcsP] {} = some { p := gcsP } := by decide
  have hm' : parseRequestTlv 0x02 (beBytes 4 m) { p := gcsP } =
      some { p := gcsP, m := m, haveM := true } := by
    rw [parseRequestTlv, if_neg (by decide), if_pos rfl, if_pos (length_beBytes 4 m),
      beNat_beBytes (by omega)]
  have hf : parseRequestTlv 0x03 filter { p := gcsP, m := m, haveM := true } =
      some { p := gcsP, m := m, haveM := true, filter := filter, haveData := true } := by
    rw [parseRequestTlv, if_neg (by decide), if_neg (by decide), if_pos rfl,
      if_neg (by rw [gcsMaxAccept]; omega)]
  have ht : ∀ req : SyncRequest,
      parseRequestTlv 0x04 [(flagAnnounce ||| flagMessage).toUInt8,
        ((flagPrekey ||| flagGroup) >>> 8).toUInt8] req =
      some { req with typeFlags := requestFlags, haveTypes := true } := by
    intro req
    rfl
  have hloop : parseRequestLoop (n + 4) (requestPayload filter m) {} =
      some (builtRequest filter m) := by
    rw [requestPayload, parseRequestLoop_tlv (by decide) hp, parseRequestLoop_tlv (by simp) hm',
      parseRequestLoop_tlv (by omega) hf, ← List.append_nil (requestTlv 0x04 _),
      parseRequestLoop_tlv (by decide) (ht _)]
    cases n <;> rfl
  rw [parseRequest, hn, hloop]
  dsimp only
  rw [if_neg (by simp [builtRequest, gcsP]; omega)]
  rfl

/-! ## The buckets of the requester -/

/-- The scan stops with everything from its position on above `b` and nothing before it. -/
theorem insertPos_spec {buckets : List Nat} (hsorted : buckets.Pairwise (· < ·)) (b : Nat)
    {j : Nat} (hj : j ≤ buckets.length) (habove : ∀ x ∈ buckets.drop j, b < x) :
    (∀ x ∈ buckets.drop (insertPos buckets b j), b < x) ∧
      (∀ x ∈ buckets.take (insertPos buckets b j), x ≤ b) ∧
      insertPos buckets b j ≤ buckets.length := by
  induction j with
  | zero => exact ⟨habove, by simp [insertPos], Nat.zero_le _⟩
  | succ j ih =>
    have hget : buckets.getD j 0 = buckets[j] := by
      rw [List.getD_eq_getElem?_getD, List.getElem?_eq_getElem (by omega), Option.getD_some]
    rw [insertPos]
    split
    · next hgt =>
        apply ih (by omega)
        rw [List.drop_eq_getElem_cons (by omega), ← hget]
        exact List.forall_mem_cons.mpr ⟨hgt, habove⟩
    · next hle =>
        refine ⟨habove, ?_, hj⟩
        intro x hx
        obtain ⟨i, hi, rfl⟩ := List.getElem_of_mem hx
        rw [List.length_take] at hi
        rw [List.getElem_take]
        -- everything up to `j` is at most the entry at `j`, which is at most `b`
        rcases Nat.lt_or_ge i j with h | h
        · have := List.pairwise_iff_getElem.mp hsorted i j (by omega) (by omega) h
          omega
        · obtain rfl : i = j := by omega
          omega

/-- Insertion keeps the buckets strictly increasing and adds just the new one. -/
theorem insertBucket_spec {buckets : List Nat} (hsorted : buckets.Pairwise (· < ·)) (b : Nat) :
    (insertBucket buckets b).Pairwise (· < ·) ∧
      ∀ x, x ∈ insertBucket buckets b ↔ x = b ∨ x ∈ buckets := by
  obtain ⟨habove, hbelow, hle⟩ :=
    insertPos_spec hsorted b (Nat.le_refl buckets.length) (by simp)
  rw [insertBucket]
  generalize insertPos buckets b buckets.length = j at habove hbelow hle
  split
  · -- already there
    next hdup =>
      have hmem : b ∈ buckets := by
        rw [← hdup.2, List.getD_eq_getElem?_getD, List.getElem?_eq_getElem (by omega)]
        exact List.getElem_mem _
      refine ⟨hsorted, fun x => ⟨Or.inr, ?_⟩⟩
      rintro (rfl | hx)
      · exact hmem
      · exact hx
  · next hnew =>
      -- nothing before `j` equals `b`: the last entry there would be it
      have hlt : ∀ x ∈ buckets.take j, x < b := by
        intro x hx
        apply Nat.lt_of_le_of_ne (hbelow x hx)
        rintro rfl
        apply hnew
        obtain ⟨i, hi, hval⟩ := List.getElem_of_mem hx
        rw [List.length_take] at hi
        rw [List.getElem_take] at hval
        have hlast : buckets.getD (j - 1) 0 = buckets[j - 1] := by
          rw [List.getD_eq_getElem?_getD, List.getElem?_eq_getElem (by omega), Option.getD_some]
        have hle' : buckets[j - 1] ≤ x := by
          apply hbelow
          rw [List.mem_take_iff_getElem]
          exact ⟨j - 1, by omega, rfl⟩
        refine ⟨by omega, hlast.trans ?_⟩
        rcases Nat.lt_or_ge i (j - 1) with h | h
        · have := List.pairwise_iff_getElem.mp hsorted i (j - 1) (by omega) (by omega) h
          omega
        · obtain rfl : i = j - 1 := by omega
          exact hval
      constructor
      · rw [← List.take_append_drop j buckets, List.pairwise_append] at hsorted
        apply List.pairwise_append.mpr
        refine ⟨hsorted.1, List.pairwise_cons.mpr ⟨habove, hsorted.2.1⟩, ?_⟩
        intro x hx y hy
        rcases List.mem_cons.mp hy with rfl | hy
        · exact hlt x hx
        · exact hsorted.2.2 x hx y hy
      · intro x
        conv_rhs => rw [← List.take_append_drop j buckets]
        simp only [List.mem_append, List.mem_cons]
        tauto

/-- The loop of `collect_buckets` sorts: the buckets are increasing and are those of the ids. -/
theorem foldl_insertBucket {α : Type} (f : α → Nat) (ids : List α) {buckets : List Nat}
    (hsorted : buckets.Pairwise (· < ·)) :
    (ids.foldl (fun buckets id => insertBucket buckets (f id)) buckets).Pairwise (· < ·) ∧
      ∀ x, x ∈ ids.foldl (fun buckets id => insertBucket buckets (f id)) buckets ↔
        x ∈ ids.map f ∨ x ∈ buckets := by
  induction ids generalizing buckets with
  | nil => exact ⟨hsorted, by simp⟩
  | cons id ids ih =>
    obtain ⟨hsorted', hmem'⟩ := insertBucket_spec hsorted (f id)
    obtain ⟨hsorted'', hmem''⟩ := ih hsorted'
    refine ⟨hsorted'', fun x => ?_⟩
    rw [List.foldl_cons, hmem'', hmem', List.map_cons, List.mem_cons]
    tauto

/-- The insertion sort never has more buckets than ids. -/
theorem length_foldl_insertBucket {α : Type} (f : α → Nat) (ids : List α) (buckets : List Nat) :
    (ids.foldl (fun buckets id => insertBucket buckets (f id)) buckets).length ≤
      ids.length + buckets.length := by
  induction ids generalizing buckets with
  | nil => simp
  | cons id ids ih =>
    have hone : (insertBucket buckets (f id)).length ≤ buckets.length + 1 := by
      rw [insertBucket]
      split
      · omega
      · simp
        omega
    have hrest := ih (insertBucket buckets (f id))
    rw [List.foldl_cons, List.length_cons]
    omega

section RoundTrip

variable (sha256 : List UInt8 → Bytes 32) (st : SyncStore) (nowMs : UInt64)

theorem length_collectIds_le (flags : UInt64) (cap : Nat) :
    (collectIds st nowMs flags cap).length ≤ bitleSyncSlots := by
  rw [collectIds, List.length_map, List.length_take]
  have hfilter := List.length_filter_le
    (fun s => s.inUse && typeRequested s.type flags && slotFresh s nowMs) st.slots
  have hslots := st.length_slots
  omega

theorem gcsModulus_of_pos {n : Nat} (hn : 0 < n) : gcsModulus n = 128 * n := by
  rw [gcsModulus, if_pos (by omega), gcsP, Nat.shiftLeft_eq]
  omega

/-- What `gcs_encode` gets from `collect_buckets`: increasing buckets between 1 and `m`, no more
than ids. -/
theorem collectBuckets_spec (flags : UInt64) (cap : Nat)
    (hids : 0 < (collectIds st nowMs flags cap).length) :
    (0 :: (collectBuckets sha256 st nowMs flags cap).1).Pairwise (· < ·) ∧
      (∀ b ∈ (collectBuckets sha256 st nowMs flags cap).1,
        b < 128 * (collectIds st nowMs flags cap).length) ∧
      (collectBuckets sha256 st nowMs flags cap).1.length ≤
        (collectIds st nowMs flags cap).length ∧
      (∀ id ∈ collectIds st nowMs flags cap,
        gcsBucket sha256 id (128 * (collectIds st nowMs flags cap).length) ∈
          (collectBuckets sha256 st nowMs flags cap).1) := by
  have hm : 1 < 128 * (collectIds st nowMs flags cap).length := by omega
  simp only [collectBuckets, gcsModulus_of_pos hids]
  generalize collectIds st nowMs flags cap = ids at hids hm
  obtain ⟨hsorted, hmem⟩ := foldl_insertBucket
    (fun id => gcsBucket sha256 id (128 * ids.length)) ids List.Pairwise.nil
  have hof : ∀ b ∈ ids.foldl (fun buckets id =>
      insertBucket buckets (gcsBucket sha256 id (128 * ids.length))) [],
      ∃ id ∈ ids, gcsBucket sha256 id (128 * ids.length) = b := by
    intro b hb
    simpa using (hmem b).mp hb
  refine ⟨List.pairwise_cons.mpr ⟨?_, hsorted⟩, ?_, ?_, ?_⟩
  · intro b hb
    obtain ⟨id, -, rfl⟩ := hof b hb
    exact gcsBucket_pos sha256 id hm
  · intro b hb
    obtain ⟨id, -, rfl⟩ := hof b hb
    exact gcsBucket_lt sha256 id hm
  · exact length_foldl_insertBucket _ ids []
  · intro id hid
    exact (hmem _).mpr (.inl (List.mem_map_of_mem hid))

/-- The filter of at most 80 ids has at most `9 n` bits. -/
theorem length_gcsBits_collectBuckets (flags : UInt64) (cap : Nat)
    (hids : 0 < (collectIds st nowMs flags cap).length) :
    (gcsBits gcsP 0 (collectBuckets sha256 st nowMs flags cap).1).length ≤ 8 * gcsMaxBytes := by
  obtain ⟨hsorted, hlt, hlen, -⟩ := collectBuckets_spec sha256 st nowMs flags cap hids
  have hn := length_collectIds_le st nowMs flags cap
  have htop : ∀ b ∈ (collectBuckets sha256 st nowMs flags cap).1,
      b ≤ 128 * (collectIds st nowMs flags cap).length := fun b hb => (hlt b hb).le
  have hbits := length_gcsBits_le (p := gcsP) hsorted htop
  simp only [gcsP, bitleSyncSlots, gcsMaxBytes] at *
  omega

end RoundTrip

/-- The loop selects wanted slots only. -/
theorem mem_selectLoop {wanted : SyncSlot → Bool} {slots : List SyncSlot} {i k : Nat}
    {toSend : List Nat} (h : k ∈ selectLoop wanted slots i toSend) :
    k ∈ toSend ∨ ∃ j s, k = i + j ∧ slots[j]? = some s ∧ wanted s = true := by
  induction slots generalizing i toSend with
  | nil => exact .inl h
  | cons s slots ih =>
    have hshift : (∃ j s', k = i + 1 + j ∧ slots[j]? = some s' ∧ wanted s' = true) →
        ∃ j s', k = i + j ∧ (s :: slots)[j]? = some s' ∧ wanted s' = true := by
      rintro ⟨j, s', hk, hs', hw⟩
      exact ⟨j + 1, s', by omega, by simpa using hs', hw⟩
    rw [selectLoop] at h
    split at h
    · exact (ih h).imp_right hshift
    · split at h
      · exact (ih h).imp_right hshift
      · next hw _ =>
          rcases ih h with hmem | hrest
          · rcases List.mem_append.mp hmem with hmem | hmem
            · exact .inl hmem
            · refine .inr ⟨0, s, by simpa using hmem, rfl, by simpa using hw⟩
          · exact .inr (hshift hrest)

theorem eq_requestPayload_of_sendRequest {env : SyncEnv} {st : SyncStore} {nowMs : UInt64}
    {connHandle : UInt16} {payload : List UInt8}
    (h : sendRequest env st nowMs connHandle = some payload) :
    payload = requestPayload
      (requestFilter (collectBuckets env.sha256 st nowMs requestFlags bitleSyncSlots).1)
      (collectBuckets env.sha256 st nowMs requestFlags bitleSyncSlots).2 := by
  by_cases hb : env.isBroadcast connHandle = true
  · simp [sendRequest, hb] at h
  · simpa [sendRequest, hb] using h.symm

/-- With ids in the filter, the peer decodes the very buckets of the requester. -/
theorem builtRequest_decodes (sha256 : List UInt8 → Bytes 32) (st : SyncStore) (nowMs : UInt64)
    (hids : 0 < (collectIds st nowMs requestFlags bitleSyncSlots).length) :
    ∃ filter, gcsEncode (collectBuckets sha256 st nowMs requestFlags bitleSyncSlots).1 gcsP
        gcsMaxBytes = some filter ∧
      requestFilter (collectBuckets sha256 st nowMs requestFlags bitleSyncSlots).1 = filter ∧
      parseRequest (requestPayload filter
        (collectBuckets sha256 st nowMs requestFlags bitleSyncSlots).2) =
        some (builtRequest filter
          (collectBuckets sha256 st nowMs requestFlags bitleSyncSlots).2) ∧
      gcsDecode filter gcsP (collectBuckets sha256 st nowMs requestFlags bitleSyncSlots).2
        (gcsMaxElements + 8) = (collectBuckets sha256 st nowMs requestFlags bitleSyncSlots).1 := by
  obtain ⟨hsorted, hlt, hlen, hmem⟩ :=
    collectBuckets_spec sha256 st nowMs requestFlags bitleSyncSlots hids
  have hroom := length_gcsBits_collectBuckets sha256 st nowMs requestFlags bitleSyncSlots hids
  have hn : (collectIds st nowMs requestFlags bitleSyncSlots).length ≤ 80 :=
    length_collectIds_le st nowMs requestFlags _
  have hm : (collectBuckets sha256 st nowMs requestFlags bitleSyncSlots).2 =
      128 * (collectIds st nowMs requestFlags bitleSyncSlots).length := gcsModulus_of_pos hids
  obtain ⟨filter, k, henc, hk, -, hbytes⟩ := gcsEncode_eq_some hroom
  have hfilter : filter.length ≤ gcsMaxAccept := by
    simp only [gcsMaxBytes, gcsMaxAccept] at *
    omega
  -- some id was hashed, so there is a bucket
  have hne : (collectBuckets sha256 st nowMs requestFlags bitleSyncSlots).1.length ≠ 0 := by
    obtain ⟨id, hid⟩ := List.exists_mem_of_length_pos hids
    exact (List.length_pos_of_mem (hmem id hid)).ne'
  refine ⟨filter, henc, ?_, ?_, ?_⟩
  · rw [requestFilter, if_pos hne, henc]
    rfl
  · apply parseRequest_requestPayload hfilter <;> omega
  · rw [hm]
    exact gcsDecode_gcsEncode (by decide) (by decide) hsorted hlt (by omega)
      (by simp only [gcsMaxElements]; omega) hroom henc

/-- **The request and its answer.** The request a node sends about its store is parsed with the
`p`, `m` and type flags it was built from; the encoder does not run out of its buffer; the peer
selects no packet whose id is in the filter; and with nothing stored the filter covers no id. -/
theorem request_round_trip (env : SyncEnv) (own peer : SyncStore) (ownNowMs peerNowMs : UInt64)
    (connHandle : UInt16) (payload : List UInt8)
    (hsent : sendRequest env own ownNowMs connHandle = some payload) :
    let ids := collectIds own ownNowMs requestFlags bitleSyncSlots
    let collected := collectBuckets env.sha256 own ownNowMs requestFlags bitleSyncSlots
    (gcsEncode collected.1 gcsP gcsMaxBytes).isSome ∧
      ∃ req, parseRequest payload = some req ∧ req.p = gcsP ∧ req.m = collected.2 ∧
        req.typeFlags = requestFlags ∧ req.hasSince = false ∧
        (∀ i ∈ selectReplay env.sha256 peer peerNowMs req, ∀ s, peer.slots[i]? = some s →
          s.id ∉ ids) ∧
        (ids = [] → ∀ id, filterCovers env.sha256 req
          (gcsDecode req.filter req.p req.m (gcsMaxElements + 8)) id = false) := by
  intro ids collected
  have hpayload := eq_requestPayload_of_sendRequest hsent
  rcases Nat.eq_zero_or_pos ids.length with hzero | hpos
  · -- nothing to describe: `m` is 1 and the filter empty
    have hnil : ids = [] := List.eq_nil_of_length_eq_zero hzero
    have hcollected : collected = ([], 1) := by
      show (ids.foldl _ [], gcsModulus ids.length) = ([], 1)
      rw [hnil]
      rfl
    have hparse : parseRequest payload = some (builtRequest [] 1) := by
      rw [hpayload, show collectBuckets env.sha256 own ownNowMs requestFlags bitleSyncSlots =
        ([], 1) from hcollected]
      exact parseRequest_requestPayload (by decide) (by decide) (by decide)
    refine ⟨?_, builtRequest [] 1, hparse, rfl, ?_, rfl, rfl, ?_, fun _ id => rfl⟩
    · rw [hcollected]
      rfl
    · rw [hcollected]
      rfl
    · intro i _ s _
      rw [hnil]
      exact List.not_mem_nil
  · obtain ⟨filter, henc, hfilter, hparse, hdecode⟩ :=
      builtRequest_decodes env.sha256 own ownNowMs hpos
    obtain ⟨hsorted, -, -, hmem⟩ :=
      collectBuckets_spec env.sha256 own ownNowMs requestFlags bitleSyncSlots hpos
    have hm : collected.2 = 128 * ids.length := gcsModulus_of_pos hpos
    rw [← hfilter] at hparse
    refine ⟨Option.isSome_iff_exists.mpr ⟨filter, henc⟩, _, hpayload ▸ hparse, rfl, rfl, rfl, rfl,
      ?_, ?_⟩
    · intro i hi s hs hid
      rcases mem_selectLoop hi with hnil | ⟨j, s', rfl, hs', hw⟩
      · exact absurd hnil List.not_mem_nil
      · rw [Nat.zero_add] at hs
        obtain rfl : s' = s := Option.some.inj (hs'.symm.trans hs)
        -- its bucket is one of the decoded ones, so the filter covers it
        have hbucket : gcsBucket env.sha256 s'.id collected.2 ∈ collected.1 := by
          rw [hm]
          exact hmem s'.id hid
        have hcovers : filterCovers env.sha256 (builtRequest filter collected.2)
            (gcsDecode filter gcsP collected.2 (gcsMaxElements + 8)) s'.id = true := by
          rw [hdecode, filterCovers, show (builtRequest filter collected.2).m = collected.2 from rfl,
            sortedContains_of_mem hsorted.of_cons hbucket, Bool.and_true, Bool.and_eq_true,
            decide_eq_true_eq, bne_iff_ne]
          exact ⟨by omega, (List.length_pos_of_mem hbucket).ne'⟩
        rw [hfilter, Bool.and_eq_true, Bool.not_eq_true'] at hw
        exact Bool.noConfusion (hcovers.symm.trans hw.2)
    · intro hnil
      rw [hnil] at hpos
      exact absurd hpos (Nat.lt_irrefl 0)

/-- A store with one stored message. -/
def oneMessageStore : SyncStore :=
  SyncStore.init.store 0 { version := 1, type := bitchatMsgMessage, ttl := 7, timestampMs := 5000
                           senderId := zeros 8, recipientId := zeros 8, hasRecipient := false
                           isCompressed := false, isRsr := false, opaqueOnly := false
                           payload := ⟨[1], by decide⟩, signature := zeros 64
                           hasSignature := true }
    ⟨List.range 16 |>.map UInt8.ofNat, by decide⟩ (zeros 8) [1, 2, 3]

/-- A node and a peer that hold the same message: it is in the filter and not replayed. -/
theorem request_round_trip_shared :
    let env : SyncEnv :=
      ⟨fun l => copyAt 32 (l ++ [9, 9]) 0, fun _ => some (zeros 32, true), fun _ _ => true,
        fun _ => false⟩
    (collectIds oneMessageStore 6000 requestFlags bitleSyncSlots).length = 1 ∧
      ∃ payload req, sendRequest env oneMessageStore 6000 1 = some payload ∧
        parseRequest payload = some req ∧ req.m = 128 ∧
        ∀ i ∈ selectReplay env.sha256 oneMessageStore 7000 req, ∀ s,
          oneMessageStore.slots[i]? = some s →
            s.id ∉ collectIds oneMessageStore 6000 requestFlags bitleSyncSlots := by
  intro env
  refine ⟨by decide +kernel, ?_⟩
  obtain ⟨payload, hpayload⟩ := Option.isSome_iff_exists.mp
    (show (sendRequest env oneMessageStore 6000 1).isSome = true by decide +kernel)
  obtain ⟨-, req, hreq, -, hm, -, -, hselect, -⟩ :=
    request_round_trip env oneMessageStore oneMessageStore 6000 7000 1 payload hpayload
  refine ⟨payload, req, hpayload, hreq, hm.trans ?_, hselect⟩
  decide +kernel

end Bitle
