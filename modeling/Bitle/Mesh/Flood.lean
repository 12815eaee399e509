import Bitle.Lib.Flood
import Bitle.Mesh.Inbound
import Bitle.Mesh.Link
import Mathlib.Data.Fintype.Option

/-!
# Bitle — a broadcast reaches everybody (`main/bitle_mesh.c`, `main/bitle_link.c`)

A node sends a frame on all its links, and `bitle_mesh_inbound` at the others does the rest. Here
the links join the nodes of a finite network, each frame that is sent arrives once, and nothing is
assumed about the order. Other frames may be taken in between, fewer of them at a node than its ring
has cells. Then the frame is a message of `Flood`: a node takes it once, and it reaches every node
that the relaying ones connect to the origin, if its TTL is at least the number of the nodes but
one.
-/

namespace Bitle

open Wire
open Link (bitleLinkNone)

/-! ## The network -/

/-- A frame on a link. -/
structure Flight (Node : Type) where
  src : Node
  dst : Node
  linkHandle : UInt16
  frame : List UInt8

/-- The nodes, the frames on their way, and the packets handed on so far. -/
structure FloodNet (Node : Type) where
  nodes : Node → MeshNode
  air : List (Flight Node)
  handled : List (Node × BitchatPacket) := []
  delivered : Nat := 0

/-- What happens. -/
inductive FloodEvent (Node : Type) where
  /-- Frame `i` arrives. -/
  | deliver (i : Nat)
  /-- A node asks its ring for the fingerprint of another frame. -/
  | other (node : Node) (fingerprint : UInt64)

/-- The event is about another frame at the node. -/
def FloodEvent.isOther {Node : Type} [DecidableEq Node] (v : Node) : FloodEvent Node → Bool
  | .other node _ => node == v
  | .deliver _ => false

section Net

variable {Node : Type} [DecidableEq Node] (tinfl : Tinfl) (sha256 : List UInt8 → Bytes 32)
  (peer : Node → UInt16 → Option (Node × UInt16))

/-- What a node sends on its links is on its way to the nodes at their other ends. -/
def flightsOf (v : Node) (sends : List (UInt16 × List UInt8)) : List (Flight Node) :=
  sends.filterMap fun sent => (peer v sent.1).map fun x =>
    { src := v, dst := x.1, linkHandle := x.2, frame := sent.2 }

/-- A node sends a frame of its own. -/
def originate (nodes : Node → MeshNode) (origin : Node) (frame : List UInt8) : FloodNet Node where
  nodes := nodes
  air := flightsOf peer origin
    ((bitleLinkBroadcast (nodes origin).links bitleLinkNone frame fun _ => true).map (·, frame))

/-- One event. -/
def floodStep (net : FloodNet Node) : FloodEvent Node → FloodNet Node
  | .deliver i =>
    match net.air[i]? with
    | none => net
    | some m =>
      let (node, packet, sends) :=
        bitleMeshInbound tinfl sha256 (fun _ => true) (net.nodes m.dst) m.linkHandle m.frame
      { nodes := Function.update net.nodes m.dst node
        air := net.air.eraseIdx i ++ flightsOf peer m.dst sends
        handled := net.handled ++ packet.toList.map (m.dst, ·)
        delivered := net.delivered + 1 }
  | .other node fingerprint =>
    { net with
      nodes := Function.update net.nodes node { net.nodes node with
        cache := (relaySeenBefore (net.nodes node).cache fingerprint).2 } }

/-- A link of `v` on which frames of the length go out leads to `w`. -/
def Adjoins (nodes : Node → MeshNode) (len : Nat) (v w : Node) : Prop :=
  ∃ e ∈ (nodes v).links.val, e.inUse = true ∧ e.id ≠ bitleLinkNone ∧ len ≤ e.mtu ∧
    ∃ linkHandle, peer v e.id = some (w, linkHandle)

/-- The packet is neither from the node nor for it. -/
def Forwards (nodes : Node → MeshNode) (packet : BitchatPacket) (v : Node) : Prop :=
  packet.senderId ≠ (nodes v).localId ∧ isLocalRecipient (nodes v).localId packet = false

instance (nodes : Node → MeshNode) (packet : BitchatPacket) :
    DecidablePred (Forwards nodes packet) :=
  fun _ => inferInstanceAs (Decidable (_ ∧ _))

end Net

/-- Packets that are not confined to a link. -/
def Flooded (packet : BitchatPacket) : Prop :=
  packet.type ≠ bitchatMsgRequestSync ∧
    (packet.hasRecipient = false → packet.type ≠ bitchatMsgNoiseHandshake)

/-! ## One node -/

section Node

variable {tinfl : Tinfl} {sha256 : List UInt8 → Bytes 32} {b : List UInt8} {p : BitchatPacket}

/-- The fingerprint does not depend on the TTL. -/
theorem relayFingerprint_set_ttl (hdec : bitchatPacketDecode tinfl b = some p) (ttl : UInt8) :
    relayFingerprint sha256 (b.set 2 ttl) = relayFingerprint sha256 b := by
  obtain ⟨⟨q, off⟩, hoff, -⟩ := Option.map_eq_some_iff.mp hdec
  obtain ⟨f, hb, -, -, -, -⟩ := exists_wireFrame hoff
  have hhash : relayHashInput (b.set 2 ttl) = relayHashInput b := by
    rw [hb, f.set_bytes_append _ (by decide), ← f.bytes_setTtl, relayHashInput_bytes,
      relayHashInput_bytes, f.blanked_setTtl]
  unfold relayFingerprint bitchatRelayFingerprint
  rw [hhash]

/-- The ring of the node is in order and does not have the fingerprint. -/
def Unseen (fingerprint : UInt64) (cache : RelayCache) : Prop :=
  ∃ written, Ring.Shows relayCacheSize cache.seen cache.next written ∧ fingerprint ∉ written

/-- What the ring of a node knows of a fingerprint: if it was taken, few others came since. -/
def Knows (fingerprint : UInt64) (others : Nat) (got : Prop) (cache : RelayCache) : Prop :=
  ∃ written, Ring.Shows relayCacheSize cache.seen cache.next written ∧
    (got → ∃ pre post, written = pre ++ fingerprint :: post ∧ post.length ≤ others) ∧
    (¬ got → fingerprint ∉ written)

variable {fingerprint : UInt64} {others : Nat} {got : Prop} {cache : RelayCache}

theorem relaySeenBefore_of_mem (h : some fingerprint ∈ cache.seen) :
    relaySeenBefore cache fingerprint = (true, cache) := by
  have hany : cache.seen.any (· == some fingerprint) = true :=
    List.any_eq_true.mpr ⟨_, h, beq_self_eq_true _⟩
  unfold relaySeenBefore
  rw [if_pos hany]

theorem relaySeenBefore_of_notMem (h : some fingerprint ∉ cache.seen) :
    relaySeenBefore cache fingerprint =
      (false, { seen := cache.seen.set cache.next (some fingerprint)
                next := (cache.next + 1) % relayCacheSize }) := by
  have hany : ¬ cache.seen.any (· == some fingerprint) = true := by
    intro hany
    obtain ⟨y, hy, heq⟩ := List.any_eq_true.mp hany
    exact h (beq_iff_eq.mp heq ▸ hy)
  unfold relaySeenBefore
  rw [if_neg hany]

/-- A frame that was taken is recognized. -/
theorem Knows.seen (h : Knows fingerprint others got cache) (hgot : got)
    (hfew : others < relayCacheSize) : relaySeenBefore cache fingerprint = (true, cache) := by
  obtain ⟨written, hshows, htaken, -⟩ := h
  obtain ⟨pre, post, rfl, hlen⟩ := htaken hgot
  refine relaySeenBefore_of_mem ((hshows.mem_iff fingerprint).mpr ?_)
  unfold Ring.lastOf
  have hdrop : (pre ++ fingerprint :: post).length - relayCacheSize ≤ pre.length := by
    rw [List.length_append, List.length_cons]
    omega
  rw [List.drop_append_of_le_length hdrop]
  exact List.mem_append_right _ List.mem_cons_self

/-- A frame that was not taken is new. -/
theorem Knows.new (h : Knows fingerprint others got cache) (hgot : ¬ got) :
    (relaySeenBefore cache fingerprint).1 = false ∧
      Knows fingerprint others True (relaySeenBefore cache fingerprint).2 := by
  obtain ⟨written, hshows, -, hnot⟩ := h
  have hmem : some fingerprint ∉ cache.seen := by
    intro hmem
    exact hnot hgot (List.mem_of_mem_drop ((hshows.mem_iff fingerprint).mp hmem))
  rw [relaySeenBefore_of_notMem hmem]
  refine ⟨rfl, written ++ [fingerprint], hshows.write fingerprint, ?_, fun h => absurd trivial h⟩
  exact fun _ => ⟨written, [], rfl, Nat.zero_le _⟩

/-- Another frame. -/
theorem Knows.other (h : Knows fingerprint others got cache) {fingerprint' : UInt64}
    (hne : fingerprint' ≠ fingerprint) :
    Knows fingerprint (others + 1) got (relaySeenBefore cache fingerprint').2 := by
  obtain ⟨written, hshows, htaken, hnot⟩ := h
  by_cases hmem : some fingerprint' ∈ cache.seen
  · rw [relaySeenBefore_of_mem hmem]
    refine ⟨written, hshows, fun hgot => ?_, hnot⟩
    obtain ⟨pre, post, hw, hlen⟩ := htaken hgot
    exact ⟨pre, post, hw, Nat.le_succ_of_le hlen⟩
  · rw [relaySeenBefore_of_notMem hmem]
    refine ⟨written ++ [fingerprint'], hshows.write fingerprint', fun hgot => ?_, fun hgot => ?_⟩
    · obtain ⟨pre, post, rfl, hlen⟩ := htaken hgot
      refine ⟨pre, post ++ [fingerprint'], by rw [List.append_assoc]; rfl, ?_⟩
      rw [List.length_append, List.length_singleton]
      exact Nat.succ_le_succ hlen
    · rw [List.mem_append, not_or, List.mem_singleton]
      exact ⟨hnot hgot, Ne.symm hne⟩

variable {node : MeshNode} (linkHandle : UInt16) (ttl : UInt8) (ok : UInt16 → Bool)

/-- A frame that the ring knows. -/
theorem inbound_seen (hdec : bitchatPacketDecode tinfl b = some p)
    (hseen : relaySeenBefore node.cache (relayFingerprint sha256 b) = (true, cache)) :
    bitleMeshInbound tinfl sha256 ok node linkHandle (b.set 2 ttl) =
      ({ node with cache := cache }, none, []) := by
  unfold bitleMeshInbound
  rw [(decode_set_ttl hdec ttl).2.2]
  dsimp only
  rw [relayFingerprint_set_ttl hdec, hseen]
  rfl

/-- The frame goes out with one hop less. -/
def relaysOn (b : List UInt8) (node : MeshNode) (linkHandle : UInt16) (ttl : UInt8)
    (ok : UInt16 → Bool) : List (UInt16 × List UInt8) :=
  (bitleLinkBroadcast node.links linkHandle (b.set 2 (ttl - 1)) ok).map (·, b.set 2 (ttl - 1))

/-- A frame that is new. -/
theorem inbound_new (hdec : bitchatPacketDecode tinfl b = some p) (hflooded : Flooded p)
    (hnew : relaySeenBefore node.cache (relayFingerprint sha256 b) = (false, cache)) :
    bitleMeshInbound tinfl sha256 ok node linkHandle (b.set 2 ttl) =
      ({ node with cache := cache }, some { p with ttl := ttl },
        if 1 < ttl ∧ p.senderId ≠ node.localId ∧ isLocalRecipient node.localId p = false then
          relaysOn b node linkHandle ttl ok else []) := by
  -- `relay_packet` lowers the TTL unless the frame is at its end, our own or for us
  have hrelay : relayPacket node.localId (b.set 2 ttl) { p with ttl := ttl } =
      if 1 < ttl ∧ p.senderId ≠ node.localId ∧ isLocalRecipient node.localId p = false then
        some (b.set 2 (ttl - 1)) else none := by
    have hlink : ¬ ((!p.hasRecipient) = true ∧ p.type = bitchatMsgNoiseHandshake) := by
      rintro ⟨hnone, htype⟩
      exact hflooded.2 (Bool.not_eq_true' _ ▸ hnone) htype
    have hlocal : isLocalRecipient node.localId { p with ttl := ttl } =
        isLocalRecipient node.localId p := rfl
    unfold relayPacket
    rw [hlocal, List.set_set]
    dsimp only
    by_cases httl : ttl ≤ 1
    · rw [if_pos httl, if_neg fun h => UInt8.not_lt.mpr httl h.1]
    · rw [if_neg httl]
      by_cases hown : p.senderId = node.localId
      · rw [if_pos hown, if_neg fun h => h.2.1 hown]
      · rw [if_neg hown, if_neg hflooded.1]
        cases hself : isLocalRecipient node.localId p with
        | true => rw [if_pos rfl, if_neg fun h => Bool.noConfusion h.2.2]
        | false =>
          rw [if_neg Bool.false_ne_true, if_neg hlink,
            if_pos ⟨UInt8.not_le.mp httl, hown, rfl⟩]
  unfold bitleMeshInbound
  rw [(decode_set_ttl hdec ttl).2.2]
  dsimp only
  rw [relayFingerprint_set_ttl hdec, hnew]
  dsimp only
  rw [hrelay, if_neg Bool.false_ne_true]
  split
  · next hnone =>
    split at hnone
    · cases hnone
    · next hno => rw [if_neg hno]
  · next frame hsome =>
    split at hsome
    · next hyes =>
      rw [if_pos hyes, ← Option.some.inj hsome]
      rfl
    · cases hsome

end Node

/-! ## Sending on all links -/

section Sends

variable {Node : Type} {peer : Node → UInt16 → Option (Node × UInt16)} {links : LinkTable}
  {linkHandle : UInt16} {data : List UInt8} {v : Node} {m : Flight Node}

theorem mem_bitleLinkBroadcast {link : UInt16} :
    link ∈ bitleLinkBroadcast links linkHandle data (fun _ => true) ↔
      ∃ e ∈ links.val, e.inUse = true ∧ e.id ≠ linkHandle ∧ data.length ≠ 0 ∧
        data.length ≤ e.mtu ∧ e.id = link := by
  unfold bitleLinkBroadcast
  simp only [List.mem_map, List.mem_filter, Bool.and_eq_true, bne_iff_ne, decide_eq_true_eq,
    and_true, and_assoc]

theorem length_bitleLinkBroadcast_le (ok : UInt16 → Bool) :
    (bitleLinkBroadcast links linkHandle data ok).length ≤ bitleLinkMax := by
  unfold bitleLinkBroadcast
  rw [List.length_map]
  exact (List.length_filter_le _ _).trans
    ((List.length_filter_le _ _).trans (Nat.le_of_eq links.property))

/-- What a broadcast puts on its way. -/
theorem mem_flightsOf_broadcast :
    m ∈ flightsOf peer v ((bitleLinkBroadcast links linkHandle data fun _ => true).map (·, data)) ↔
      m.src = v ∧ m.frame = data ∧ ∃ e ∈ links.val, e.inUse = true ∧ e.id ≠ linkHandle ∧
        data.length ≠ 0 ∧ data.length ≤ e.mtu ∧ peer v e.id = some (m.dst, m.linkHandle) := by
  unfold flightsOf
  rw [List.mem_filterMap]
  constructor
  · rintro ⟨sent, hsent, hm⟩
    obtain ⟨link, hlink, rfl⟩ := List.mem_map.mp hsent
    obtain ⟨e, he, hused, hne, hpos, hmtu, rfl⟩ := mem_bitleLinkBroadcast.mp hlink
    obtain ⟨x, hx, rfl⟩ := Option.map_eq_some_iff.mp hm
    exact ⟨rfl, rfl, e, he, hused, hne, hpos, hmtu, hx⟩
  · rintro ⟨rfl, rfl, e, he, hused, hne, hpos, hmtu, hx⟩
    refine ⟨(e.id, m.frame), List.mem_map.mpr ⟨e.id, ?_, rfl⟩, ?_⟩
    · exact mem_bitleLinkBroadcast.mpr ⟨e, he, hused, hne, hpos, hmtu, rfl⟩
    · rw [hx]
      rfl

theorem length_flightsOf_le (sends : List (UInt16 × List UInt8)) :
    (flightsOf peer v sends).length ≤ sends.length :=
  List.length_filterMap_le _ _

end Sends

/-! ## The flood -/

section Flood

variable {Node : Type} [Fintype Node] [DecidableEq Node] {tinfl : Tinfl}
  {sha256 : List UInt8 → Bytes 32} {peer : Node → UInt16 → Option (Node × UInt16)}
  {nodes : Node → MeshNode} {origin : Node} {b : List UInt8} {p : BitchatPacket}

/-- The frame is a message of a flood, and the nodes are as they were but for what their rings
know. -/
structure IsFlood (sha256 : List UInt8 → Bytes 32) (peer : Node → UInt16 → Option (Node × UInt16))
    (nodes : Node → MeshNode) (origin : Node) (b : List UInt8) (p : BitchatPacket)
    (others : Node → Nat) (got : Finset Node) (net : FloodNet Node) : Prop where
  flood : Flood.Inv Flight.src Flight.dst (fun m => ttlOf m.frame) (Adjoins peer nodes b.length)
    (Forwards nodes p) origin p.ttl.toNat bitleLinkMax got net.air net.delivered
  frames : ∀ m ∈ net.air, (∃ ttl, m.frame = b.set 2 ttl) ∧
    ∃ linkHandle, peer m.dst m.linkHandle = some (m.src, linkHandle)
  same : ∀ v, (net.nodes v).localId = (nodes v).localId ∧ (net.nodes v).links = (nodes v).links
  knows : ∀ v, Knows (relayFingerprint sha256 b) (others v) (v ∈ got) (net.nodes v).cache
  once : ∀ v, net.handled.countP (fun x => x.1 = v) = if v ∈ got then 1 else 0
  packets : ∀ x ∈ net.handled, ∃ ttl, x.2 = { p with ttl := ttl }

variable {others : Node → Nat} {got : Finset Node} {net : FloodNet Node}

omit [Fintype Node] in
/-- The origin sends. -/
theorem isFlood_originate (hdec : bitchatPacketDecode tinfl b = some p)
    (hpeers : ∀ v h w h', peer v h = some (w, h') → peer w h' = some (v, h))
    (hfresh : ∀ v, Unseen (relayFingerprint sha256 b) (nodes v).cache) :
    IsFlood sha256 peer nodes origin b p (fun _ => 0) ∅ (originate peer nodes origin b) := by
  obtain ⟨hbyte, hlen, -⟩ := decode_set_ttl hdec 0
  have hframe : b.set 2 p.ttl = b := by
    rw [← hbyte, byteAt, List.getD_eq_getElem?_getD, List.getElem?_eq_getElem (by omega),
      Option.getD_some, List.set_getElem_self]
  refine ⟨Flood.inv_start ?_ ?_ ?_ ?_, ?_, fun v => ⟨rfl, rfl⟩, ?_, fun v => rfl, ?_⟩
  · intro m hm
    obtain ⟨-, hm, -⟩ := mem_flightsOf_broadcast.mp hm
    show _ ≤ (byteAt m.frame 2).toNat
    rw [hm, hbyte]
  · intro m hm
    exact (mem_flightsOf_broadcast.mp hm).1
  · rintro w ⟨e, he, hused, hne, hmtu, linkHandle, hpeer⟩
    refine ⟨⟨origin, w, linkHandle, b⟩, mem_flightsOf_broadcast.mpr ⟨rfl, rfl, e, he, hused, hne,
      by omega, hmtu, hpeer⟩, rfl⟩
  · refine (length_flightsOf_le _).trans ?_
    rw [List.length_map]
    exact length_bitleLinkBroadcast_le _
  · intro m hm
    obtain ⟨hsrc, hm, e, -, -, -, -, -, hpeer⟩ := mem_flightsOf_broadcast.mp hm
    exact ⟨⟨p.ttl, by rw [hframe, hm]⟩, e.id, by rw [hsrc]; exact hpeers _ _ _ _ hpeer⟩
  · intro v
    obtain ⟨written, hshows, hnot⟩ := hfresh v
    exact ⟨written, hshows, fun hgot => absurd hgot (Finset.notMem_empty v), fun _ => hnot⟩
  · intro x hx
    cases hx

/-- The TTL of a frame on its way. -/
theorem ttlOf_set (hdec : bitchatPacketDecode tinfl b = some p) (ttl : UInt8) :
    ttlOf (b.set 2 ttl) = ttl.toNat := by
  obtain ⟨-, hlen, -⟩ := decode_set_ttl hdec 0
  rw [ttlOf, byteAt_set _ _ (by omega), if_pos rfl]

omit [Fintype Node] in
theorem floodStep_deliver {i : Nat} {m : Flight Node} (hi : net.air[i]? = some m)
    {node : MeshNode} {packet : Option BitchatPacket} {sends : List (UInt16 × List UInt8)}
    (hin : bitleMeshInbound tinfl sha256 (fun _ => true) (net.nodes m.dst) m.linkHandle m.frame =
      (node, packet, sends)) :
    floodStep tinfl sha256 peer net (.deliver i) =
      { nodes := Function.update net.nodes m.dst node
        air := net.air.eraseIdx i ++ flightsOf peer m.dst sends
        handled := net.handled ++ packet.toList.map (m.dst, ·)
        delivered := net.delivered + 1 } := by
  simp only [floodStep, hi, hin]

omit [Fintype Node] in
/-- A node that has taken the frame drops it. -/
theorem IsFlood.drop (h : IsFlood sha256 peer nodes origin b p others got net)
    (hdec : bitchatPacketDecode tinfl b = some p) {i : Nat} {m : Flight Node}
    (hi : net.air[i]? = some m) (hgot : m.dst ∈ got) (hfew : others m.dst < relayCacheSize) :
    IsFlood sha256 peer nodes origin b p others got
      (floodStep tinfl sha256 peer net (.deliver i)) := by
  obtain ⟨⟨ttl, hframe⟩, -⟩ := h.frames m (List.mem_of_getElem? hi)
  have hin := inbound_seen m.linkHandle ttl (fun _ => true) hdec
    ((h.knows m.dst).seen hgot hfew)
  rw [← hframe] at hin
  have hair : net.air.eraseIdx i ++ flightsOf peer m.dst [] = net.air.eraseIdx i :=
    List.append_nil _
  rw [floodStep_deliver hi hin, hair, Option.toList_none, List.map_nil, List.append_nil]
  refine ⟨h.flood.drop hi hgot, fun m' hm' => h.frames m' (List.mem_of_mem_eraseIdx hm'), ?_, ?_,
    h.once, h.packets⟩
  · exact (Function.forall_update_iff net.nodes fun v node =>
      node.localId = (nodes v).localId ∧ node.links = (nodes v).links).mpr
        ⟨h.same m.dst, fun v _ => h.same v⟩
  · exact (Function.forall_update_iff net.nodes fun v node =>
      Knows (relayFingerprint sha256 b) (others v) (v ∈ got) node.cache).mpr
        ⟨h.knows m.dst, fun v _ => h.knows v⟩

/-- What a node that takes the frame sends on. -/
def takes (b : List UInt8) (p : BitchatPacket) (node : MeshNode) (linkHandle : UInt16)
    (ttl : UInt8) : List (UInt16 × List UInt8) :=
  if 1 < ttl ∧ p.senderId ≠ node.localId ∧ isLocalRecipient node.localId p = false then
    relaysOn b node linkHandle ttl fun _ => true else []

omit [Fintype Node] [DecidableEq Node] in
theorem mem_takes {node : MeshNode} {linkHandle : UInt16} {ttl : UInt8} {v : Node}
    {n : Flight Node} :
    n ∈ flightsOf peer v (takes b p node linkHandle ttl) ↔
      (1 < ttl ∧ p.senderId ≠ node.localId ∧ isLocalRecipient node.localId p = false) ∧
      n.src = v ∧ n.frame = b.set 2 (ttl - 1) ∧ ∃ e ∈ node.links.val, e.inUse = true ∧
        e.id ≠ linkHandle ∧ b.length ≠ 0 ∧ b.length ≤ e.mtu ∧
          peer v e.id = some (n.dst, n.linkHandle) := by
  unfold takes
  split
  · next hyes =>
    unfold relaysOn
    rw [mem_flightsOf_broadcast, List.length_set, and_iff_right hyes]
  · next hno =>
    constructor
    · intro hn
      cases hn
    · exact fun hn => absurd hn.1 hno

/-- **A node takes the frame** and sends it on. -/
theorem IsFlood.take (h : IsFlood sha256 peer nodes origin b p others got net)
    (hdec : bitchatPacketDecode tinfl b = some p) (hflooded : Flooded p)
    (hpeers : ∀ v h w h', peer v h = some (w, h') → peer w h' = some (v, h))
    (hown : p.senderId = (nodes origin).localId)
    (hhops : Fintype.card Node ≤ p.ttl.toNat + 1) {i : Nat} {m : Flight Node}
    (hi : net.air[i]? = some m) (hgot : m.dst ∉ got) :
    IsFlood sha256 peer nodes origin b p others (insert m.dst got)
      (floodStep tinfl sha256 peer net (.deliver i)) := by
  obtain ⟨⟨ttl, hframe⟩, back, hback⟩ := h.frames m (List.mem_of_getElem? hi)
  obtain ⟨hseen, hknows⟩ := (h.knows m.dst).new hgot
  obtain ⟨hid, hlinks⟩ := h.same m.dst
  have hlen : b.length ≠ 0 := by
    have hlen22 := (decode_set_ttl hdec 0).2.1
    omega
  have hin := inbound_new m.linkHandle ttl (fun _ => true) hdec
    hflooded (Prod.ext hseen rfl : relaySeenBefore (net.nodes m.dst).cache
      (relayFingerprint sha256 b) = (false, _))
  rw [← hframe] at hin
  have hwilling : (1 < ttl ∧ p.senderId ≠ (net.nodes m.dst).localId ∧
      isLocalRecipient (net.nodes m.dst).localId p = false) ↔ 1 < ttl ∧ Forwards nodes p m.dst := by
    rw [hid]
    exact Iff.rfl
  have httl : ttlOf m.frame = ttl.toNat := by rw [hframe, ttlOf_set hdec]
  rw [floodStep_deliver hi hin]
  refine ⟨?_, ?_, ?_, ?_, ?_, ?_⟩
  · -- the relays are the messages the abstract flood sends
    refine h.flood.take (fun hself => hself.1 hown) hhops hi hgot ?_ ?_ ?_
    · intro n hn
      obtain ⟨hgo, hsrc, hn, -⟩ := mem_takes.mp hn
      obtain ⟨htwo, hw⟩ := hwilling.mp hgo
      refine ⟨hsrc, ?_, hw⟩
      have hsub : (ttl - 1).toNat = ttl.toNat - 1 := UInt8.toNat_sub_of_le _ _ (UInt8.le_of_lt htwo)
      have hlt : 1 < ttl.toNat := UInt8.lt_iff_toNat_lt.mp htwo
      show ttlOf n.frame + 1 = ttlOf m.frame
      rw [hn, ttlOf_set hdec, httl, hsub]
      omega
    · rintro hw htwo x ⟨e, he, hused, -, hmtu, linkHandle, hpeer⟩
      by_cases hback' : e.id = m.linkHandle
      · -- that is the link it came in on
        left
        rw [hback', hback] at hpeer
        exact (Prod.mk.inj (Option.some.inj hpeer)).1.symm
      · right
        refine ⟨⟨m.dst, x, linkHandle, b.set 2 (ttl - 1)⟩, mem_takes.mpr ⟨hwilling.mpr ⟨?_, hw⟩,
          rfl, rfl, e, ?_, hused, hback', hlen, hmtu, hpeer⟩, rfl⟩
        · rw [UInt8.lt_iff_toNat_lt, ← httl]
          exact htwo
        · rw [hlinks]
          exact he
    · refine (length_flightsOf_le _).trans ?_
      split
      · unfold relaysOn
        rw [List.length_map]
        exact length_bitleLinkBroadcast_le _
      · exact Nat.zero_le _
  · intro n hn
    rcases List.mem_append.mp hn with hn | hn
    · exact h.frames n (List.mem_of_mem_eraseIdx hn)
    · obtain ⟨-, hsrc, hn, e, -, -, -, -, -, hpeer⟩ := mem_takes.mp hn
      exact ⟨⟨_, hn⟩, e.id, by rw [hsrc]; exact hpeers _ _ _ _ hpeer⟩
  · exact (Function.forall_update_iff net.nodes fun v node =>
      node.localId = (nodes v).localId ∧ node.links = (nodes v).links).mpr
        ⟨⟨hid, hlinks⟩, fun v _ => h.same v⟩
  · refine (Function.forall_update_iff net.nodes fun v node =>
      Knows (relayFingerprint sha256 b) (others v) (v ∈ insert m.dst got) node.cache).mpr
        ⟨?_, fun v hv => ?_⟩
    · rw [eq_true (Finset.mem_insert_self m.dst got)]
      exact hknows
    · rw [Finset.mem_insert, or_iff_right hv]
      exact h.knows v
  · intro v
    show (net.handled ++ [(m.dst, { p with ttl := ttl })]).countP (fun x : Node × BitchatPacket => x.1 = v) = _
    rw [List.countP_append, h.once v, List.countP_singleton]
    simp only [decide_eq_true_eq]
    by_cases hv : m.dst = v
    · subst hv
      rw [if_neg hgot, if_pos rfl, if_pos (Finset.mem_insert_self _ _)]
    · rw [if_neg hv, Nat.add_zero]
      have hmem : v ∈ insert m.dst got ↔ v ∈ got := by
        rw [Finset.mem_insert, or_iff_right (Ne.symm hv)]
      exact if_congr hmem.symm rfl rfl
  · intro x hx
    rcases List.mem_append.mp hx with hx | hx
    · exact h.packets x hx
    · rw [List.mem_singleton.mp hx]
      exact ⟨ttl, rfl⟩

omit [Fintype Node] in
/-- Another frame is taken. -/
theorem IsFlood.other (h : IsFlood sha256 peer nodes origin b p others got net) {v : Node}
    {fingerprint : UInt64} (hne : fingerprint ≠ relayFingerprint sha256 b) :
    IsFlood sha256 peer nodes origin b p
      (fun w => others w + if v = w then 1 else 0) got
      (floodStep tinfl sha256 peer net (.other v fingerprint)) := by
  refine ⟨h.flood, h.frames, ?_, ?_, h.once, h.packets⟩
  · exact (Function.forall_update_iff net.nodes fun w node =>
      node.localId = (nodes w).localId ∧ node.links = (nodes w).links).mpr
        ⟨h.same v, fun w _ => h.same w⟩
  · refine (Function.forall_update_iff net.nodes fun w node =>
      Knows (relayFingerprint sha256 b) (others w + if v = w then 1 else 0) (w ∈ got)
        node.cache).mpr ⟨?_, fun w hw => ?_⟩
    · rw [if_pos rfl]
      exact (h.knows v).other hne
    · rw [if_neg (Ne.symm hw)]
      exact h.knows w

/-- **The run lemma.** -/
theorem isFlood_run (hdec : bitchatPacketDecode tinfl b = some p) (hflooded : Flooded p)
    (hpeers : ∀ v h w h', peer v h = some (w, h') → peer w h' = some (v, h))
    (hown : p.senderId = (nodes origin).localId)
    (hhops : Fintype.card Node ≤ p.ttl.toNat + 1)
    (hfresh : ∀ v, Unseen (relayFingerprint sha256 b) (nodes v).cache)
    {events : List (FloodEvent Node)}
    (hother : ∀ v fingerprint, .other v fingerprint ∈ events →
      fingerprint ≠ relayFingerprint sha256 b)
    (hfew : ∀ v, events.countP (FloodEvent.isOther v) < relayCacheSize) :
    ∃ got, IsFlood sha256 peer nodes origin b p
      (fun v => events.countP (FloodEvent.isOther v)) got
      (Run.final (floodStep tinfl sha256 peer) (originate peer nodes origin b) events) := by
  induction events using List.reverseRecOn with
  | nil => exact ⟨∅, isFlood_originate hdec hpeers hfresh⟩
  | append_singleton events e ih =>
    have hfew' : ∀ v, events.countP (FloodEvent.isOther v) < relayCacheSize := by
      intro v
      have hle := hfew v
      rw [List.countP_append] at hle
      exact Nat.lt_of_le_of_lt (Nat.le_add_right _ _) hle
    obtain ⟨got, h⟩ := ih (fun v fp hmem => hother v fp (List.mem_append_left _ hmem)) hfew'
    rw [Run.final_append]
    generalize Run.final (floodStep tinfl sha256 peer) (originate peer nodes origin b) events = net
      at h
    cases e with
    | other v fingerprint =>
      refine ⟨got, ?_⟩
      -- another frame takes one more place in the cache of its node
      have hcount : (fun w => (events ++ [FloodEvent.other v fingerprint]).countP
          (FloodEvent.isOther w)) = fun w =>
            events.countP (FloodEvent.isOther w) + if v = w then 1 else 0 := by
        funext w
        rw [List.countP_append, List.countP_singleton]
        congr 1
        exact if_congr beq_iff_eq rfl rfl
      rw [hcount]
      show IsFlood sha256 peer nodes origin b p _ got
        (floodStep tinfl sha256 peer net (.other v fingerprint))
      exact h.other (hother v fingerprint (List.mem_append_right _ List.mem_cons_self))
    | deliver i =>
      have hcount : (fun w => (events ++ [FloodEvent.deliver i]).countP
          (FloodEvent.isOther w)) = fun w => events.countP (FloodEvent.isOther w) := by
        funext w
        rw [List.countP_append, List.countP_singleton]
        rfl
      rw [hcount]
      show ∃ got, IsFlood sha256 peer nodes origin b p _ got
        (floodStep tinfl sha256 peer net (.deliver i))
      -- a delivery: nothing there, or the flood goes one step on
      cases hi : net.air[i]? with
      | none =>
        have hsame : floodStep tinfl sha256 peer net (.deliver i) = net := by
          simp only [floodStep, hi]
        rw [hsame]
        exact ⟨got, h⟩
      | some m =>
        by_cases hgot : m.dst ∈ got
        · exact ⟨got, h.drop hdec hi hgot (hfew' m.dst)⟩
        · exact ⟨_, h.take hdec hflooded hpeers hown hhops hi hgot⟩

/-- **A broadcast reaches everybody.** A node sends a frame on its links; the links join it with
finitely many others, lose nothing, and deliver in any order, while up to 63 other frames are taken
at each node. No node hands the packet on twice; at most eight frames a node are ever sent; and when
none is on its way any more, the packet has been handed on at every node that others who forward it
connect to the origin, if there are no more nodes than the TTL and one. -/
theorem flood_reaches (nodes : Node → MeshNode) (origin : Node)
    (hpeers : ∀ v h w h', peer v h = some (w, h') → peer w h' = some (v, h))
    (hdec : bitchatPacketDecode tinfl b = some p) (hflooded : Flooded p)
    (hown : p.senderId = (nodes origin).localId)
    (hhops : Fintype.card Node ≤ p.ttl.toNat + 1)
    (hfresh : ∀ v, Unseen (relayFingerprint sha256 b) (nodes v).cache)
    {events : List (FloodEvent Node)}
    (hother : ∀ v fingerprint, .other v fingerprint ∈ events →
      fingerprint ≠ relayFingerprint sha256 b)
    (hfew : ∀ v, events.countP (FloodEvent.isOther v) < relayCacheSize) {net : FloodNet Node}
    (hrun : Run.final (floodStep tinfl sha256 peer) (originate peer nodes origin b) events = net) :
    (∀ v, net.handled.countP (fun x => x.1 = v) ≤ 1) ∧
    (∀ x ∈ net.handled, ∃ ttl, x.2 = { p with ttl := ttl }) ∧
    net.delivered + net.air.length ≤ bitleLinkMax * Fintype.card Node ∧
    (net.air = [] → ∀ v, Flood.Way (Adjoins peer nodes b.length) (Forwards nodes p) origin origin v →
      v ≠ origin → net.handled.countP (fun x => x.1 = v) = 1) := by
  obtain ⟨got, h⟩ := isFlood_run hdec hflooded hpeers hown hhops hfresh hother hfew
  rw [hrun] at h
  refine ⟨?_, h.packets, h.flood.bound fun hself => hself.1 hown, ?_⟩
  · intro v
    rw [h.once v]
    split
    · exact Nat.le_refl _
    · exact Nat.zero_le _
  · intro hair v hway hv
    have hflood := h.flood
    rw [hair] at hflood
    rw [h.once v, if_pos ((hflood.reaches hway).resolve_left hv)]

/-- Three nodes in a row: `none` is between the two others. -/
def rowNodes (v : Option Bool) : MeshNode where
  localId := copyAt 8 [(v.map fun last => if last then 3 else 1).getD 2, 2, 3, 4, 5, 6, 7, 8] 0
  links := ⟨{ inUse := true, id := 1, mtu := 512 } :: { inUse := true, id := 2, mtu := 512 } ::
    List.replicate 6 {}, rfl⟩

def rowPeer : Option Bool → UInt16 → Option (Option Bool × UInt16)
  | some false, 2 => some (none, 1)
  | none, 1 => some (some false, 2)
  | none, 2 => some (some true, 1)
  | some true, 1 => some (none, 2)
  | _, _ => none

/-- The frame of one end comes to the other. -/
theorem flood_reaches_row :
    (Run.final (floodStep (fun _ _ _ => (false, [], 0)) (fun _ => zeros 32) rowPeer)
      (originate rowPeer rowNodes (some false) shortFrame) [.deliver 0, .deliver 0]).handled.countP
        (fun x => x.1 = some true) = 1 := by
  have hpeers : ∀ v h w h', rowPeer v h = some (w, h') → rowPeer w h' = some (v, h) := by
    intro v h w h' hpeer
    unfold rowPeer at hpeer
    split at hpeer <;> cases hpeer <;> rfl
  have hdec : bitchatPacketDecode (fun _ _ _ => (false, [], 0)) shortFrame = some shortMessage := by
    decide
  have hfresh : ∀ v, Unseen (relayFingerprint (fun _ => zeros 32) shortFrame)
      (rowNodes v).cache :=
    fun v => ⟨[], .init (by decide), List.not_mem_nil⟩
  have hfirst : Adjoins rowPeer rowNodes shortFrame.length (some false) none :=
    ⟨{ inUse := true, id := 2, mtu := 512 }, by simp [rowNodes], rfl, by decide, by decide, 1, rfl⟩
  have hsecond : Adjoins rowPeer rowNodes shortFrame.length none (some true) :=
    ⟨{ inUse := true, id := 2, mtu := 512 }, by simp [rowNodes], rfl, by decide, by decide, 1, rfl⟩
  exact (flood_reaches rowNodes (some false) hpeers hdec ⟨by decide, by decide⟩ (by decide) (by decide) hfresh
    (by simp) (by simp [relayCacheSize, FloodEvent.isOther]) rfl).2.2.2 (by decide) (some true)
    (.tail (.single ⟨hfirst, .inl rfl⟩) ⟨hsecond, .inr (by decide)⟩) (by decide)

end Flood

end Bitle
