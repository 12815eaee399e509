import Bitle.Lib.Run
import Bitle.Lib.Slots
import Bitle.Mesh.Relay
import Mathlib.Algebra.Order.BigOperators.Group.List
import Mathlib.Algebra.Order.Ring.Nat
import Mathlib.Logic.Function.Basic

/-!
# Bitle — relaying through a network (`main/bitle_mesh.c`, `main/bitle_link.c`)

`bitle_mesh_inbound` at every node of a network. The cache of seen packets is finite and may
have lost any entry, so termination cannot rest on it: it rests on the TTL, which every relay
lowers and below 2 stops (`relayed_of_inbound`).

A run injects frames and delivers transmissions, each to any node on any link, at most `copies`
times. Nothing is assumed of the topology, and caches and link tables may change to anything in
between. `RelayInv` follows an injected frame through the network: every transmission it causes
is the frame with its TTL lowered once a hop. How many there are is bounded by a potential
(`weight`): a transmission carries what its remaining deliveries can still cause.
-/

namespace Bitle

open Wire Run Slots

/-! ## A node -/

def relayCacheSize : Nat := 64
def bitleLinkMax : Nat := 8

/-- `s_relay_seen` with `s_relay_seen_used`, and `s_relay_seen_next`. -/
structure RelayCache where
  seen : List (Option UInt64) := List.replicate relayCacheSize none
  next : Nat := 0

/-- `relay_seen_before`. -/
def relaySeenBefore (cache : RelayCache) (fingerprint : UInt64) : Bool × RelayCache :=
  if cache.seen.any (· == some fingerprint) then (true, cache)
  else
    (false, { seen := cache.seen.set cache.next (some fingerprint)
              next := (cache.next + 1) % relayCacheSize })

/-- `link_entry_t`, as far as a broadcast reads it. -/
structure LinkEntry where
  inUse : Bool := false
  id : UInt16 := 0
  mtu : Nat := 0

/-- `s_links`. -/
abbrev LinkTable : Type := { links : List LinkEntry // links.length = bitleLinkMax }

/-- `bitle_link_broadcast`: the links the data goes out on. `ok` is what the transports answer. -/
def bitleLinkBroadcast (links : LinkTable) (excludeHandle : UInt16) (data : List UInt8)
    (ok : UInt16 → Bool) : List UInt16 :=
  ((links.val.filter fun e => e.inUse && e.id != excludeHandle).filter fun e =>
    data.length != 0 && decide (data.length ≤ e.mtu) && ok e.id).map (·.id)

/-- What `bitle_mesh_inbound` uses of a node. -/
structure MeshNode where
  localId : Bytes 8
  links : LinkTable
  cache : RelayCache := {}

section Inbound

variable (tinfl : Tinfl) (sha256 : List UInt8 → Bytes 32)

/-- `bitle_mesh_inbound`: the node after it, the packet handed to `dispatch_packet` and
`bitle_sync_ingest`, and the relayed frame on each link it goes out on. -/
def bitleMeshInbound (ok : UInt16 → Bool) (node : MeshNode) (linkHandle : UInt16)
    (buffer : List UInt8) : MeshNode × Option BitchatPacket × List (UInt16 × List UInt8) :=
  match bitchatPacketDecode tinfl buffer with
  | none => (node, none, [])
  | some packet =>
    let (seen, cache) := relaySeenBefore node.cache (relayFingerprint sha256 buffer)
    let node := { node with cache := cache }
    if seen then (node, none, [])
    else
      match relayPacket node.localId buffer packet with
      | none => (node, some packet, [])
      | some frame =>
        (node, some packet,
          (bitleLinkBroadcast node.links linkHandle frame ok).map fun link => (link, frame))

/-- What a relay does to a frame, and the frames it is not done to. -/
structure Relayed (node : MeshNode) (linkHandle : UInt16) (buffer : List UInt8)
    (sent : UInt16 × List UInt8) (packet : BitchatPacket) : Prop where
  decodes : bitchatPacketDecode tinfl buffer = some packet
  ttl : byteAt buffer 2 = packet.ttl
  two_le : 2 ≤ packet.ttl.toNat
  frame : sent.2 = buffer.set 2 (packet.ttl - 1)
  frame_decodes : bitchatPacketDecode tinfl sent.2 = some { packet with ttl := packet.ttl - 1 }
  not_back : sent.1 ≠ linkHandle
  not_own : packet.senderId ≠ node.localId
  not_to_self : isLocalRecipient node.localId packet = false
  not_request : packet.type ≠ bitchatMsgRequestSync
  not_undirected : packet.hasRecipient = false → packet.type ≠ bitchatMsgNoiseHandshake
  not_replay : ∀ b, buffer ≠ replayFrame b

variable {tinfl} {sha256}

/-- Lowering the TTL byte of a frame changes the TTL it decodes to, and nothing else. -/
theorem decode_set_ttl {b : List UInt8} {p : BitchatPacket}
    (hd : bitchatPacketDecode tinfl b = some p) (ttl : UInt8) :
    byteAt b 2 = p.ttl ∧ 22 ≤ b.length ∧
      bitchatPacketDecode tinfl (b.set 2 ttl) = some { p with ttl := ttl } := by
  obtain ⟨⟨q, off⟩, hoff, hq⟩ := Option.map_eq_some_iff.mp hd
  obtain rfl : q = p := hq
  obtain ⟨f, hb, -, hpad, hexpand, hp⟩ := exists_wireFrame hoff
  have h22 := f.le_length_bytes
  refine ⟨?_, ?_, ?_⟩
  · rw [hb, byteAt_append _ _ (by omega), hp]
    rfl
  · rw [hb, List.length_append]
    omega
  · have hset : b.set 2 ttl = (f.setTtl ttl).bytes ++ b.drop off := by
      rw [f.bytes_setTtl, ← f.set_bytes_append _ (by decide), ← hb]
    have hagain := decodeOff_bytes tinfl (f.setTtl ttl) hpad hexpand
    rw [bitchatPacketDecode, hset, hagain]
    show some ((f.setTtl ttl).packet q.payload q.isCompressed) = _
    rw [hp]
    rfl

theorem relayPacket_checks {localId : Bytes 8} {b b' : List UInt8} {p : BitchatPacket}
    (h : relayPacket localId b p = some b') :
    p.senderId ≠ localId ∧ p.type ≠ bitchatMsgRequestSync ∧ isLocalRecipient localId p = false ∧
      (p.hasRecipient = false → p.type ≠ bitchatMsgNoiseHandshake) := by
  rw [relayPacket] at h
  split at h
  · cases h
  · split at h
    · cases h
    · next hown =>
        split at h
        · cases h
        · next hreq =>
            split at h
            · cases h
            · next hself =>
                split at h
                · cases h
                · next hundirected =>
                    refine ⟨hown, hreq, by simpa using hself, fun hr ht => hundirected ?_⟩
                    exact ⟨by rw [hr]; rfl, ht⟩

/-- A replayed frame has TTL 0. -/
theorem byteAt_replayFrame {b : List UInt8} (h : 2 < (replayFrame b).length) :
    byteAt (replayFrame b) 2 = 0 := by
  have hlen : (replayFrame b).length = b.length := by simp [replayFrame]
  have hb : 2 < b.length := by omega
  show byteAt ((b.set 2 0).set 11 _) 2 = 0
  by_cases h11 : 11 < b.length
  · rw [byteAt_set _ _ (by simpa using h11), if_neg (by decide), byteAt_set _ _ hb, if_pos rfl]
  · rw [List.set_eq_of_length_le (by simp; omega), byteAt_set _ _ hb, if_pos rfl]

/-- **Every frame sent on was received**, with a TTL of at least 2, and goes out with one less,
never on the link it came in on. -/
theorem relayed_of_inbound {ok : UInt16 → Bool} {node : MeshNode} {linkHandle : UInt16}
    {buffer : List UInt8} {sent : UInt16 × List UInt8}
    (h : sent ∈ (bitleMeshInbound tinfl sha256 ok node linkHandle buffer).2.2) :
    ∃ packet, Relayed tinfl node linkHandle buffer sent packet := by
  rw [bitleMeshInbound] at h
  split at h
  · exact absurd h List.not_mem_nil
  · next packet hd =>
      refine ⟨packet, ?_⟩
      dsimp only at h
      split at h
      · exact absurd h List.not_mem_nil
      · split at h
        · exact absurd h List.not_mem_nil
        · next frame hrelay =>
            obtain ⟨link, hlink, rfl⟩ := List.mem_map.mp h
            obtain ⟨httl, hframe⟩ := relayPacket_eq_some hrelay
            obtain ⟨hown, hreq, hself, hundirected⟩ := relayPacket_checks hrelay
            obtain ⟨hbyte, hlen, hdec⟩ := decode_set_ttl hd (packet.ttl - 1)
            have htwo : 2 ≤ packet.ttl.toNat := UInt8.lt_iff_toNat_lt.mp httl
            refine ⟨hd, hbyte, htwo, hframe, by rw [hframe]; exact hdec, ?_, hown, hself, hreq,
              hundirected, ?_⟩
            · obtain ⟨e, he, rfl⟩ := List.mem_map.mp hlink
              have hexcluded := List.of_mem_filter (List.mem_of_mem_filter he)
              rw [Bool.and_eq_true, bne_iff_ne] at hexcluded
              exact hexcluded.2
            · rintro b rfl
              rw [byteAt_replayFrame (by omega)] at hbyte
              rw [← hbyte] at htwo
              exact absurd htwo (by decide)

variable (tinfl) (sha256) in
/-- A frame goes out on at most `BITLE_LINK_MAX` links. -/
theorem length_inbound_le (ok : UInt16 → Bool) (node : MeshNode) (linkHandle : UInt16)
    (buffer : List UInt8) :
    (bitleMeshInbound tinfl sha256 ok node linkHandle buffer).2.2.length ≤ bitleLinkMax := by
  have hbroadcast : ∀ (links : LinkTable) (frame : List UInt8),
      (bitleLinkBroadcast links linkHandle frame ok).length ≤ bitleLinkMax := by
    intro links frame
    rw [bitleLinkBroadcast, List.length_map]
    exact (List.length_filter_le _ _).trans
      ((List.length_filter_le _ _).trans (Nat.le_of_eq links.property))
  rw [bitleMeshInbound]
  split
  · exact Nat.zero_le _
  · dsimp only
    split
    · exact Nat.zero_le _
    · split
      · exact Nat.zero_le _
      · rw [List.length_map]
        exact hbroadcast _ _

end Inbound

/-! ## The network -/

/-- A transmission: its frame, the injected frame it goes back to, the relays since, and how
often it can still be delivered. -/
structure Transmission where
  frame : List UInt8
  origin : Nat
  hops : Nat
  copies : Nat

/-- The nodes, the frames injected and the transmissions so far. -/
structure MeshNet (Node : Type) where
  nodes : Node → MeshNode
  injected : List (List UInt8) := []
  air : List Transmission := []

/-- What happens in a network. -/
inductive NetEvent (Node : Type) where
  /-- A frame is sent for the first time, by a node or from outside. -/
  | inject (frame : List UInt8)
  /-- Transmission `i` reaches a node, which takes it for one that arrived on `linkHandle`. -/
  | deliver (i : Nat) (node : Node) (linkHandle : UInt16) (ok : UInt16 → Bool)
  /-- A cache has lost or gained entries. -/
  | cache (node : Node) (cache : RelayCache)
  /-- Links have come up or gone down. -/
  | links (node : Node) (links : LinkTable)

section Network

variable {Node : Type} [DecidableEq Node] (tinfl : Tinfl) (sha256 : List UInt8 → Bytes 32)
  (copies : Nat)

/-- The relays a delivery causes, as transmissions of their own. -/
def relaysOf (t : Transmission) (sends : List (UInt16 × List UInt8)) : List Transmission :=
  sends.map fun sent =>
    { frame := sent.2, origin := t.origin, hops := t.hops + 1, copies := copies }

/-- One event. A transmission that has used up its deliveries stays silent. -/
def netStep (net : MeshNet Node) : NetEvent Node → MeshNet Node
  | .inject frame =>
    { net with
      injected := net.injected ++ [frame]
      air := net.air ++ [⟨frame, net.injected.length, 0, copies⟩] }
  | .deliver i node linkHandle ok =>
    match net.air[i]? with
    | none => net
    | some t =>
      if t.copies = 0 then net
      else
        let (node', _, sends) :=
          bitleMeshInbound tinfl sha256 ok (net.nodes node) linkHandle t.frame
        { net with
          nodes := Function.update net.nodes node node'
          air := net.air.set i { t with copies := t.copies - 1 } ++ relaysOf copies t sends }
  | .cache node cache =>
    { net with nodes := Function.update net.nodes node { net.nodes node with cache := cache } }
  | .links node links =>
    { net with nodes := Function.update net.nodes node { net.nodes node with links := links } }

/-- The TTL of a frame. -/
def ttlOf (frame : List UInt8) : Nat := (byteAt frame 2).toNat

/-- The relays one delivery can cause on one link: itself, and what its own deliveries cause. -/
def relayCost : Nat → Nat
  | 0 => 0
  | 1 => 0
  | ttl + 2 => 1 + copies * (bitleLinkMax * relayCost (ttl + 1))

/-- What a transmission contributes to the relays of an injected frame: itself, if it is a
relay, and all that its remaining deliveries can cause. -/
def weight (origin : Nat) (t : Transmission) : Nat :=
  if t.origin = origin then
    (if t.hops = 0 then 0 else 1) + t.copies * (bitleLinkMax * relayCost copies (ttlOf t.frame))
  else 0

/-- The relays of an injected frame. -/
def isRelayOf (origin : Nat) (t : Transmission) : Bool := t.origin == origin && t.hops != 0

/-- Where a transmission comes from: the injected frame with the TTL lowered once a hop. -/
structure ComesFrom (t : Transmission) (first : List UInt8) : Prop where
  frame : t.frame = first.set 2 (byteAt t.frame 2)
  ttl : ttlOf t.frame + t.hops = ttlOf first
  ttl_pos : t.hops ≠ 0 → 1 ≤ ttlOf t.frame

/-- Every transmission comes from its injected frame, and what an injected frame has caused and
can still cause is bounded by its TTL. -/
structure RelayInv (net : MeshNet Node) : Prop where
  comes : ∀ t ∈ net.air, ∃ frame, net.injected[t.origin]? = some frame ∧ ComesFrom t frame
  budget : ∀ (o : Nat) (frame : List UInt8), net.injected[o]? = some frame →
    (net.air.map (weight copies o)).sum ≤
      copies * (bitleLinkMax * relayCost copies (ttlOf frame))

variable {tinfl} {sha256} {copies} {net : MeshNet Node}

theorem getElem?_concat_of_some {α : Type} {l : List α} {i : Nat} {a b : α} (h : l[i]? = some a) :
    (l ++ [b])[i]? = some a := by
  obtain ⟨hi, -⟩ := List.getElem?_eq_some_iff.mp h
  rw [List.getElem?_append_left hi, h]

/-- A relayed transmission still comes from the injected frame. -/
theorem ComesFrom.relay {t : Transmission} {frame : List UInt8} (h : ComesFrom t frame)
    {node : MeshNode} {linkHandle : UInt16} {sent : UInt16 × List UInt8} {packet : BitchatPacket}
    (hr : Relayed tinfl node linkHandle t.frame sent packet) :
    ttlOf t.frame = ttlOf sent.2 + 1 ∧
      ComesFrom { frame := sent.2, origin := t.origin, hops := t.hops + 1, copies := copies }
        frame := by
  obtain ⟨hbyte, hlen, -⟩ := decode_set_ttl hr.decodes (packet.ttl - 1)
  have htwo := hr.two_le
  have hsent : byteAt sent.2 2 = packet.ttl - 1 := by
    rw [hr.frame, byteAt_set _ _ (by omega), if_pos rfl]
  have hsub : (packet.ttl - 1).toNat = packet.ttl.toNat - 1 :=
    UInt8.toNat_sub_of_le _ _ (UInt8.le_iff_toNat_le.mpr (show 1 ≤ _ by omega))
  have httl : ttlOf t.frame = ttlOf sent.2 + 1 := by
    rw [ttlOf, ttlOf, hsent, hbyte, hsub]
    omega
  have hbase := h.ttl
  refine ⟨httl, ?_, ?_, ?_⟩
  · show sent.2 = frame.set 2 (byteAt sent.2 2)
    rw [hsent, hr.frame, h.frame, List.set_set]
  · show ttlOf sent.2 + (t.hops + 1) = ttlOf frame
    omega
  · intro _
    show 1 ≤ ttlOf sent.2
    rw [ttlOf, hsent, hsub]
    omega

variable (tinfl) (sha256) (copies) in
/-- **A delivery pays for its relays**: what the delivered transmission gives up covers what the
new transmissions bring in. -/
theorem sum_weight_relays (t : Transmission) (node : MeshNode) (linkHandle : UInt16)
    (ok : UInt16 → Bool) (o : Nat) :
    ((relaysOf copies t (bitleMeshInbound tinfl sha256 ok node linkHandle t.frame).2.2).map
        (weight copies o)).sum ≤
      if t.origin = o then bitleLinkMax * relayCost copies (ttlOf t.frame) else 0 := by
  have hlen := length_inbound_le tinfl sha256 ok node linkHandle t.frame
  have hone : ∀ x ∈ (relaysOf copies t
      (bitleMeshInbound tinfl sha256 ok node linkHandle t.frame).2.2).map (weight copies o),
      x ≤ if t.origin = o then relayCost copies (ttlOf t.frame) else 0 := by
    intro x hx
    obtain ⟨r, hr, rfl⟩ := List.mem_map.mp hx
    obtain ⟨sent, hsent, rfl⟩ := List.mem_map.mp hr
    obtain ⟨packet, hrel⟩ := relayed_of_inbound hsent
    rw [weight]
    dsimp only
    split
    · -- the cost of a frame of TTL `n + 2` is one relay and the cost of that relay's deliveries
      obtain ⟨hbyte, hlen22, -⟩ := decode_set_ttl hrel.decodes (packet.ttl - 1)
      have htwo := hrel.two_le
      have hsub : (packet.ttl - 1).toNat = packet.ttl.toNat - 1 :=
        UInt8.toNat_sub_of_le _ _ (UInt8.le_iff_toNat_le.mpr (show 1 ≤ _ by omega))
      have hsentttl : ttlOf sent.2 = packet.ttl.toNat - 1 := by
        rw [ttlOf, hrel.frame, byteAt_set _ _ (by omega), if_pos rfl, hsub]
      obtain ⟨n, hn⟩ : ∃ n, packet.ttl.toNat = n + 2 := ⟨packet.ttl.toNat - 2, by omega⟩
      have httl : ttlOf t.frame = n + 2 := by rw [ttlOf, hbyte, hn]
      rw [if_neg (Nat.succ_ne_zero _), hsentttl, httl, relayCost, hn]
      exact Nat.le_refl _
    · exact Nat.le_refl _
  have hsum := List.sum_le_card_nsmul _ _ hone
  rw [List.length_map, relaysOf, List.length_map, nsmul_eq_mul, Nat.cast_id] at hsum
  refine hsum.trans ?_
  split
  · exact Nat.mul_le_mul_right _ hlen
  · exact Nat.le_refl _

variable (copies) in
/-- The weight of a transmission drops by its delivery's share. -/
theorem weight_delivered {t : Transmission} (h : t.copies ≠ 0) (o : Nat) :
    weight copies o { t with copies := t.copies - 1 } +
        (if t.origin = o then bitleLinkMax * relayCost copies (ttlOf t.frame) else 0) =
      weight copies o t := by
  obtain ⟨n, hn⟩ : ∃ n, t.copies = n + 1 := ⟨t.copies - 1, by omega⟩
  simp only [weight]
  split
  · rw [hn, Nat.add_sub_cancel, Nat.add_mul, Nat.one_mul, Nat.add_assoc]
  · rfl

/-- **Step.** -/
theorem RelayInv.step (hinv : RelayInv copies net) (e : NetEvent Node) :
    RelayInv copies (netStep tinfl sha256 copies net e) := by
  cases e with
  | cache node cache => exact ⟨hinv.comes, hinv.budget⟩
  | links node links => exact ⟨hinv.comes, hinv.budget⟩
  | inject frame =>
    constructor
    · intro t ht
      rcases List.mem_append.mp ht with ht | ht
      · obtain ⟨f, hf, hc⟩ := hinv.comes t ht
        exact ⟨f, getElem?_concat_of_some hf, hc⟩
      · rw [List.mem_singleton.mp ht]
        refine ⟨frame, ?_, ?_, rfl, fun h => absurd rfl h⟩
        · show (net.injected ++ [frame])[net.injected.length]? = some frame
          rw [List.getElem?_concat_length]
        · show frame = frame.set 2 (byteAt frame 2)
          -- an injected frame comes from itself
          by_cases h2 : 2 < frame.length
          · rw [byteAt, List.getD_eq_getElem?_getD, List.getElem?_eq_getElem h2, Option.getD_some,
              List.set_getElem_self]
          · rw [List.set_eq_of_length_le (by omega)]
    · intro o f hf
      show ((net.air ++ [_]).map (weight copies o)).sum ≤ _
      rw [List.map_append, List.sum_append]
      rw [show (netStep tinfl sha256 copies net (.inject frame)).injected =
        net.injected ++ [frame] from rfl] at hf
      by_cases ho : o < net.injected.length
      · rw [List.getElem?_append_left ho] at hf
        have hother : weight copies o ⟨frame, net.injected.length, 0, copies⟩ = 0 := by
          rw [weight, if_neg (show net.injected.length ≠ o by omega)]
        have hold := hinv.budget o f hf
        simp only [List.map_cons, List.map_nil, List.sum_cons, List.sum_nil, hother]
        omega
      · -- a new origin: nothing in the air goes back to it yet
        have hzero : ∀ t ∈ net.air, weight copies o t = 0 := by
          intro t ht
          obtain ⟨g, hg, -⟩ := hinv.comes t ht
          obtain ⟨hlt, -⟩ := List.getElem?_eq_some_iff.mp hg
          rw [weight, if_neg (by omega)]
        have hsum : (net.air.map (weight copies o)).sum = 0 := by
          apply List.sum_eq_zero
          intro x hx
          obtain ⟨t, ht, rfl⟩ := List.mem_map.mp hx
          exact hzero t ht
        obtain ⟨hlt, -⟩ := List.getElem?_eq_some_iff.mp hf
        obtain rfl : o = net.injected.length := by
          rw [List.length_append, List.length_singleton] at hlt
          omega
        rw [List.getElem?_concat_length] at hf
        obtain rfl := Option.some.inj hf
        simp only [List.map_cons, List.map_nil, List.sum_cons, List.sum_nil, hsum, weight, if_true,
          Nat.zero_add, Nat.add_zero]
        exact Nat.le_refl _
  | deliver i node linkHandle ok =>
    rw [netStep]
    split
    · exact hinv
    · next t ht =>
        split
        · exact hinv
        · next hcopies =>
            dsimp only
            constructor
            · intro r hr
              rcases List.mem_append.mp hr with hr | hr
              · rcases List.mem_or_eq_of_mem_set hr with hr | rfl
                · exact hinv.comes r hr
                · obtain ⟨f, hf, hc⟩ := hinv.comes t (List.mem_of_getElem? ht)
                  exact ⟨f, hf, hc.frame, hc.ttl, hc.ttl_pos⟩
              · obtain ⟨sent, hsent, rfl⟩ := List.mem_map.mp hr
                obtain ⟨packet, hrel⟩ := relayed_of_inbound hsent
                obtain ⟨f, hf, hc⟩ := hinv.comes t (List.mem_of_getElem? ht)
                exact ⟨f, hf, (hc.relay hrel).2⟩
            · intro o f hf
              have hold := hinv.budget o f hf
              -- the delivery uses up one copy, and the relays it causes weigh no more than that
              have hset := sum_map_set_add (f := weight copies o)
                { t with copies := t.copies - 1 } ht
              have hdrop := weight_delivered copies hcopies o
              have hnew := sum_weight_relays tinfl sha256 copies t (net.nodes node) linkHandle ok o
              rw [List.map_append, List.sum_append]
              refine (Nat.add_le_add_left hnew _).trans ?_
              omega

theorem countP_le_sum_weight (copies o : Nat) (air : List Transmission) :
    air.countP (isRelayOf o) ≤ (air.map (weight copies o)).sum := by
  induction air with
  | nil => exact Nat.le_refl _
  | cons t air ih =>
    have hone : (if isRelayOf o t = true then 1 else 0) ≤ weight copies o t := by
      rw [isRelayOf, weight]
      by_cases ho : t.origin = o
      · by_cases hh : t.hops = 0
        · simp [hh]
        · simp only [ho, hh, if_true, if_false]
          split <;> omega
      · simp [ho]
    rw [List.countP_cons, List.map_cons, List.sum_cons]
    omega

variable (tinfl) (sha256) (copies)

/-- **Relaying.** Whatever the caches hold: a node sends on a frame only as `Relayed` says. And in
every run of a network: each relayed transmission is its injected frame with the TTL lowered by
the hops, of which there are fewer than that TTL; and an injected frame of TTL `t` causes at most
`copies * 8 * relayCost t` relays. -/
theorem relaying_terminates (nodes : Node → MeshNode) (events : List (NetEvent Node)) :
    (∀ ok node linkHandle buffer,
      ∀ sent ∈ (bitleMeshInbound tinfl sha256 ok node linkHandle buffer).2.2,
        ∃ packet, Relayed tinfl node linkHandle buffer sent packet) ∧
    let net := final (netStep tinfl sha256 copies) { nodes := nodes } events
    (∀ t ∈ net.air, ∃ frame, net.injected[t.origin]? = some frame ∧
      t.frame = frame.set 2 (byteAt t.frame 2) ∧ ttlOf t.frame + t.hops = ttlOf frame ∧
      (t.hops ≠ 0 → t.hops ≤ ttlOf frame - 1)) ∧
    (∀ (o : Nat) (frame : List UInt8), net.injected[o]? = some frame →
      net.air.countP (isRelayOf o) ≤
        copies * (bitleLinkMax * relayCost copies (ttlOf frame))) := by
  refine ⟨fun ok node linkHandle buffer sent h => relayed_of_inbound h, ?_⟩
  intro net
  have hinit : RelayInv copies ({ nodes := nodes } : MeshNet Node) :=
    ⟨fun t ht => absurd ht List.not_mem_nil, fun o frame h => by cases h⟩
  have hinv : RelayInv copies net :=
    invariant_final (RelayInv copies) (fun _ e h => h.step e) hinit events
  constructor
  · intro t ht
    obtain ⟨frame, hframe, hcomes⟩ := hinv.comes t ht
    refine ⟨frame, hframe, hcomes.frame, hcomes.ttl, fun hh => ?_⟩
    have hpos := hcomes.ttl_pos hh
    have httl := hcomes.ttl
    omega
  · intro o frame hframe
    exact (countP_le_sum_weight copies o net.air).trans (hinv.budget o frame hframe)

end Network

end Bitle
