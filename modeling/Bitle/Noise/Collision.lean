import Bitle.Noise.Roles

/-!
# Bitle — two initiations that cross (`process_handshake` of `main/noise_handshake.c`)

Two nodes share a link that delivers every message, in order. Each starts a handshake when a start
comes up in its queue, and an initiator that reads a 32-byte message yields: it drops its own
handshake and answers the peer's. It does so whoever the peer is, so that where both have started
both yield, and neither is answered (`both_yield`).

`HandshakePair` is the system of the two workers with the messages on their way and the starts that
are queued. As long as no node starts while a first message of the other is on its way to it, the
two are never responders at once (`not_both_of_uncrossed`): first messages travel one way at a
time, and none of a responder's is left on its way (`PairInv`).
-/

namespace Bitle

open Wire Run

variable {H K : Type}

/-! ## The system -/

/-- The two nodes, what is on its way to each over the link, and the starts each has queued for
it. -/
structure HandshakePair (H K : Type) where
  worker : Bool → NoiseWorker H K := fun _ => {}
  inbox : Bool → List (List UInt8) := fun _ => []
  starts : Bool → List PeerId := fun _ => []

/-- A round of one node. -/
structure PairInput (H K : Type) where
  node : Bool
  env : NoiseEnv H K
  evt : Option NoiseEvent

/-- The start a call queues for a connection. -/
def NoiseCall.startOn (connHandle : UInt16) : NoiseCall → Option PeerId
  | .queueStart conn peer => if conn = connHandle then some peer else none
  | _ => none

/-- The handshake messages the calls send on a connection; `n` calls were made before them. -/
def sentOn (sendOk : Nat → Bool) (connHandle : UInt16) : Nat → List NoiseCall → List (List UInt8)
  | _, [] => []
  | n, x :: xs =>
    match x.handshake with
    | some (conn, p) =>
      if conn = connHandle ∧ sendOk n = true then p :: sentOn sendOk connHandle (n + 1) xs
      else sentOn sendOk connHandle (n + 1) xs
    | none => sentOn sendOk connHandle (n + 1) xs

/-- The round's event is of a type and on a connection. -/
def isOn (evt : Option NoiseEvent) (type : NoiseEvtType) (connHandle : UInt16) : Bool :=
  evt.any fun e => e.type == type && e.connHandle == connHandle

section System

variable (sha256 : List UInt8 → Bytes 32)
variable (ed25519SignOpen : List UInt8 → Bytes 32 → Bytes 64 → Bool) (aead : Aead K)
variable (conn : Bool → UInt16)

/-- One round: the event is taken from its queue, what the round sends goes to the other node, and
what it queues behind the starts. `conn` is what each node calls the link. -/
def HandshakePair.step (s : HandshakePair H K) (x : PairInput H K) : HandshakePair H K :=
  let n := x.node
  let w := noiseStep sha256 ed25519SignOpen aead (s.worker n) ⟨x.env, x.evt⟩
  let calls := w.log.drop (s.worker n).log.length
  { worker := Function.update s.worker n w
    inbox := fun m =>
      if m = n then if isOn x.evt .process (conn n) then (s.inbox n).tail else s.inbox n
      else s.inbox m ++ sentOn x.env.sendOk (conn n) (s.worker n).log.length calls
    starts := Function.update s.starts n
      ((if isOn x.evt .start (conn n) then (s.starts n).tail else s.starts n) ++
        calls.filterMap (NoiseCall.startOn (conn n))) }

/-- The events a node can get: a handshake message is for a responder and a start for an initiator,
and those on the link are the next ones. -/
def Arrives (s : HandshakePair H K) (x : PairInput H K) : Prop :=
  ∀ e ∈ x.evt,
    (e.type = .process → e.initiator = false ∧
      (e.connHandle = conn x.node → (s.inbox x.node).head? = some e.payload)) ∧
    (e.type = .start → e.initiator = true ∧
      (e.connHandle = conn x.node → (s.starts x.node).head? = some e.peerId))

instance (s : HandshakePair H K) (x : PairInput H K) : Decidable (Arrives conn s x) :=
  inferInstanceAs (Decidable (∀ e ∈ x.evt, _))

/-- **No start crosses a first message.** A node that has no handshake on the link starts none while
a 32-byte message of the other node is on its way to it. -/
def Uncrossed (s : HandshakePair H K) (x : PairInput H K) : Prop :=
  isOn x.evt .start (conn x.node) = true →
    handshakeActive (s.worker x.node) (conn x.node) = false →
    ∀ p ∈ s.inbox x.node, p.length ≠ 32

instance (s : HandshakePair H K) (x : PairInput H K) : Decidable (Uncrossed conn s x) :=
  inferInstanceAs (Decidable (_ → _ → _))

/-- Both nodes hold the handshake of a responder on the link. -/
def HandshakePair.BothRespond (s : HandshakePair H K) : Prop :=
  ∀ n, (s.worker n).Responds (conn n)

/-! ## The invariant -/

/-- First messages travel one way at a time, and none is left of a node that responds; so the two
are not responders at once. -/
structure PairInv (s : HandshakePair H K) : Prop where
  blank : ∀ n, FreeBlank (s.worker n)
  distinct : ∀ n, HandlesDistinct (s.worker n)
  oneWay : ∀ n, (∃ p ∈ s.inbox n, p.length = 32) → ∀ p ∈ s.inbox (!n), p.length ≠ 32
  responder : ∀ n, (s.worker n).Responds (conn n) → ∀ p ∈ s.inbox (!n), p.length ≠ 32
  single : ∀ n, (s.worker n).Responds (conn n) → ¬ (s.worker (!n)).Responds (conn (!n))

variable {sha256 ed25519SignOpen aead conn}

theorem pairInv_init : PairInv conn ({} : HandshakePair H K) := by
  have hnone : ∀ c, ¬ ({} : NoiseWorker H K).Responds c := by
    rintro c ⟨i, hused, -⟩
    cases hused
  exact ⟨fun _ _ _ => rfl, fun _ _ _ hi => (nomatch hi), fun _ _ _ hp => (nomatch hp),
    fun _ h => absurd h (hnone _), fun _ h => absurd h (hnone _)⟩

/-- What is sent on a connection are handshake messages on it. -/
theorem mem_sentOn {sendOk : Nat → Bool} {c : UInt16} {n : Nat} {calls : List NoiseCall}
    {p : List UInt8} (h : p ∈ sentOn sendOk c n calls) :
    ∃ x ∈ calls, x.handshake = some (c, p) := by
  induction calls generalizing n with
  | nil => cases h
  | cons x xs ih =>
    have hrest : p ∈ sentOn sendOk c (n + 1) xs → ∃ y ∈ x :: xs, y.handshake = some (c, p) := by
      intro hp
      obtain ⟨y, hy, hys⟩ := ih hp
      exact ⟨y, List.mem_cons_of_mem _ hy, hys⟩
    rw [sentOn] at h
    split at h
    · next conn q heq =>
      split at h
      · next hc =>
        rcases List.mem_cons.mp h with rfl | h
        · exact ⟨x, List.mem_cons_self, by rw [heq, hc.1]⟩
        · exact hrest h
      · exact hrest h
    · exact hrest h

/-- The messages of a round meet what the round's messages meet. -/
theorem EventRoles.sent {P : UInt16 → List UInt8 → Prop} {R : UInt16 → Prop}
    {w w' : NoiseWorker H K} (h : EventRoles P R w w') {sendOk : Nat → Bool} {c : UInt16}
    {p : List UInt8}
    (hp : p ∈ sentOn sendOk c w.log.length (w'.log.drop w.log.length)) : P c p := by
  obtain ⟨calls, hlog, hcalls⟩ := h.sends
  rw [hlog, List.drop_left] at hp
  obtain ⟨x, hx, hxs⟩ := mem_sentOn hp
  exact hcalls x hx c p hxs

section Step

variable {s : HandshakePair H K} {x : PairInput H K} {role : H → Bool} {count : H → Nat}

theorem step_worker_self : (s.step sha256 ed25519SignOpen aead conn x).worker x.node =
    noiseStep sha256 ed25519SignOpen aead (s.worker x.node) ⟨x.env, x.evt⟩ :=
  Function.update_self _ _ _

theorem step_worker_other : (s.step sha256 ed25519SignOpen aead conn x).worker (!x.node) =
    s.worker (!x.node) :=
  Function.update_of_ne (Bool.not_ne_self _) _ _

/-- What is on its way to the node of the round. -/
theorem step_inbox_self {p : List UInt8}
    (hp : p ∈ (s.step sha256 ed25519SignOpen aead conn x).inbox x.node) : p ∈ s.inbox x.node := by
  change p ∈ (if x.node = x.node then _ else _) at hp
  rw [if_pos rfl] at hp
  split at hp
  · exact List.mem_of_mem_tail hp
  · exact hp

/-- What is on its way to the other one. -/
theorem step_inbox_other {p : List UInt8}
    (hp : p ∈ (s.step sha256 ed25519SignOpen aead conn x).inbox (!x.node)) :
    p ∈ s.inbox (!x.node) ∨
      p ∈ sentOn x.env.sendOk (conn x.node) (s.worker x.node).log.length
        ((noiseStep sha256 ed25519SignOpen aead (s.worker x.node) ⟨x.env, x.evt⟩).log.drop
          (s.worker x.node).log.length) := by
  change p ∈ (if (!x.node) = x.node then _ else _) at hp
  rw [if_neg (Bool.not_ne_self _)] at hp
  exact List.mem_append.mp hp

/-- A round that starts nothing: it sends no first message on the link, and makes the node a
responder there only by one. -/
def AnswersOnly (s : HandshakePair H K) (n : Bool) (w : NoiseWorker H K) (conn : UInt16) : Prop :=
  EventRoles (fun c p => c = conn → p.length ≠ 32)
    (fun c => c = conn → ∃ p ∈ s.inbox n, p.length = 32) (s.worker n) w

/-- A round that starts a handshake: no first message is on its way to the node, and it is no
responder afterwards. -/
def StartsAlone (s : HandshakePair H K) (n : Bool) (w : NoiseWorker H K) (conn : UInt16) : Prop :=
  (∀ p ∈ s.inbox n, p.length ≠ 32) ∧ ¬ w.Responds conn

variable (sha256 ed25519SignOpen aead) in
/-- **One round** does one of the two. -/
theorem round_roles (hxx : NoiseXX x.env.lib role count) (hinv : PairInv conn s)
    (harr : Arrives conn s x) (hun : Uncrossed conn s x) :
    AnswersOnly s x.node (noiseStep sha256 ed25519SignOpen aead (s.worker x.node) ⟨x.env, x.evt⟩)
        (conn x.node) ∨
      StartsAlone s x.node (noiseStep sha256 ed25519SignOpen aead (s.worker x.node) ⟨x.env, x.evt⟩)
        (conn x.node) := by
  obtain ⟨n, env, evt⟩ := x
  dsimp only at hxx harr hun ⊢
  unfold noiseStep handshakeTask
  have hpoll : ∀ w : NoiseWorker H K, Still w (pollSessionMaintenance env w) :=
    still_pollSessionMaintenance env
  cases evt with
  | none => exact .inl (hpoll _).eventRoles
  | some e =>
    dsimp only
    cases htype : e.type with
    | process =>
      -- a handshake message, from the other node where it is on the link
      left
      unfold processEvent
      rw [htype]
      refine ((processHandshakeEvent_roles hxx (s.worker n) ((harr e rfl).1 htype).1).trans_still
        (hpoll _)).mono (fun c p hp _ => hp.2) ?_
      rintro c ⟨rfl, hlen⟩ hc
      exact ⟨e.payload, List.mem_of_mem_head? (((harr e rfl).1 htype).2 hc), hlen⟩
    | start =>
      unfold processEvent
      rw [htype]
      have hroles := (processStartEvent_roles hxx (s.worker n) ((harr e rfl).2 htype).1).trans_still
        (hpoll _)
      by_cases hc : e.connHandle = conn n
      · cases hactive : handshakeActive (s.worker n) (conn n) with
        | true =>
          -- the start is skipped
          left
          dsimp only
          rw [processStartEvent_of_active (by rw [hc]; exact hactive)]
          exact (hpoll _).eventRoles
        | false =>
          right
          have hon : isOn (some e) .start (conn n) = true := by
            rw [isOn, Option.any_some, htype, hc, beq_self_eq_true, beq_self_eq_true]
            rfl
          refine ⟨hun hon hactive, fun hresp => ?_⟩
          rcases hroles.roles _ hresp with hold | hf
          · rw [(hinv.distinct n).active_of_responds hold] at hactive
            cases hactive
          · exact hf
      · -- a start on another link
        exact .inl (hroles.mono (fun c p hp hcn => absurd (hp.symm.trans hcn) hc)
          fun _ hf => hf.elim)
    | announce | identity | encrypted | subscribed | courier | sync | disconnect =>
      left
      have hstill := still_processEvent env sha256 ed25519SignOpen aead (s.worker n)
        (show e.type ≠ .start by rw [htype]; decide) (show e.type ≠ .process by rw [htype]; decide)
      exact Still.eventRoles (hstill.trans (hpoll _))

theorem eq_or_eq_not (m n : Bool) : m = n ∨ m = !n := by
  cases m <;> cases n <;> decide

/-- The invariant, seen from one of the nodes. -/
theorem PairInv.of_node (n : Bool) (hw : ∀ m, FreeBlank (s.worker m) ∧ HandlesDistinct (s.worker m))
    (hone : (∃ p ∈ s.inbox n, p.length = 32) → ∀ p ∈ s.inbox (!n), p.length ≠ 32)
    (hself : (s.worker n).Responds (conn n) → ∀ p ∈ s.inbox (!n), p.length ≠ 32)
    (hother : (s.worker (!n)).Responds (conn (!n)) → ∀ p ∈ s.inbox n, p.length ≠ 32)
    (hnot : (s.worker n).Responds (conn n) → ¬ (s.worker (!n)).Responds (conn (!n))) :
    PairInv conn s := by
  refine ⟨fun m => (hw m).1, fun m => (hw m).2, fun m => ?_, fun m => ?_, fun m => ?_⟩
  · rcases eq_or_eq_not m n with rfl | rfl
    · exact hone
    · rintro ⟨q, hq, hlen⟩ p hp hp32
      rw [Bool.not_not] at hp
      exact hone ⟨p, hp, hp32⟩ q hq hlen
  · rcases eq_or_eq_not m n with rfl | rfl
    · exact hself
    · rw [Bool.not_not]
      exact hother
  · rcases eq_or_eq_not m n with rfl | rfl
    · exact hnot
    · rw [Bool.not_not]
      exact fun ho hn => hnot hn ho

/-- **One step keeps the invariant.** -/
theorem PairInv.step (h : PairInv conn s) (hxx : NoiseXX x.env.lib role count)
    (harr : Arrives conn s x) (hun : Uncrossed conn s x) :
    PairInv conn (s.step sha256 ed25519SignOpen aead conn x) := by
  have hworkers : ∀ m, FreeBlank ((s.step sha256 ed25519SignOpen aead conn x).worker m) ∧
      HandlesDistinct ((s.step sha256 ed25519SignOpen aead conn x).worker m) := by
    intro m
    rcases eq_or_eq_not m x.node with rfl | rfl
    · rw [step_worker_self]
      exact (h.distinct _).round sha256 ed25519SignOpen aead (h.blank _) ⟨x.env, x.evt⟩
    · rw [step_worker_other]
      exact ⟨h.blank _, h.distinct _⟩
  have hin : ∀ p ∈ (s.step sha256 ed25519SignOpen aead conn x).inbox x.node, p ∈ s.inbox x.node :=
    fun p => step_inbox_self
  rcases round_roles sha256 ed25519SignOpen aead hxx h harr hun with hanswers | ⟨hnone, hnot⟩
  · -- no first message is sent, and a new responder has taken one
    have hout : ∀ p ∈ (s.step sha256 ed25519SignOpen aead conn x).inbox (!x.node),
        p.length = 32 → p ∈ s.inbox (!x.node) := by
      intro p hp hlen
      rcases step_inbox_other hp with hold | hsent
      · exact hold
      · exact absurd hlen (hanswers.sent hsent rfl)
    have hroles := hanswers.roles (conn x.node)
    apply PairInv.of_node x.node hworkers
    · rintro ⟨q, hq, hlen⟩ p hp hp32
      exact h.oneWay x.node ⟨q, hin q hq, hlen⟩ p (hout p hp hp32) hp32
    · rw [step_worker_self]
      intro hresp p hp hp32
      rcases hroles hresp with hold | hfirst
      · exact h.responder x.node hold p (hout p hp hp32) hp32
      · exact h.oneWay x.node (hfirst rfl) p (hout p hp hp32) hp32
    · rw [step_worker_other]
      intro hresp p hp
      have hnone := h.responder (!x.node) hresp
      rw [Bool.not_not] at hnone
      exact hnone p (hin p hp)
    · rw [step_worker_self, step_worker_other]
      intro hresp hother
      rcases hroles hresp with hold | hfirst
      · exact h.single x.node hold hother
      · obtain ⟨p, hp, hlen⟩ := hfirst rfl
        have hnone := h.responder (!x.node) hother
        rw [Bool.not_not] at hnone
        exact hnone p hp hlen
  · -- a start: nothing crosses what is sent
    apply PairInv.of_node x.node hworkers
    · rintro ⟨q, hq, hlen⟩
      exact absurd hlen (hnone q (hin q hq))
    · rw [step_worker_self]
      exact fun hresp => absurd hresp hnot
    · exact fun _ p hp => hnone p (hin p hp)
    · rw [step_worker_self]
      exact fun hresp => absurd hresp hnot

end Step

variable (sha256 ed25519SignOpen aead conn) in
/-- **The two are never responders at once**, in any state of a run in which no start crosses a
first message. -/
theorem not_both_of_uncrossed {role : H → Bool} {count : H → Nat} (ins : List (PairInput H K))
    (hxx : ∀ x ∈ ins, NoiseXX x.env.lib role count)
    (harr : Along (HandshakePair.step sha256 ed25519SignOpen aead conn) (Arrives conn) {} ins)
    (hun : Along (HandshakePair.step sha256 ed25519SignOpen aead conn) (Uncrossed conn) {} ins) :
    ∀ pre, pre <+: ins →
      ¬ (final (HandshakePair.step sha256 ed25519SignOpen aead conn) {} pre).BothRespond conn := by
  intro pre hpre hboth
  have hlib : Along (HandshakePair.step sha256 ed25519SignOpen aead conn)
      (fun _ x => NoiseXX x.env.lib role count) {} ins := along_of_forall hxx
  have hinv : PairInv conn
      (final (HandshakePair.step sha256 ed25519SignOpen aead conn) {} pre) := by
    refine Along.invariant ?_ pairInv_init (((hlib.and harr).and hun).before hpre)
    rintro s x h ⟨⟨hx, ha⟩, hu⟩
    exact h.step hx ha hu
  exact hinv.single false (hboth false) (hboth true)

end System

/-! ## Both start -/

/-- A handshake state as a role and a count, which reads and writes in turn and ends in a split. -/
def xxLib : NoiseLib (Bool × Nat) Unit where
  create initiator := some (initiator, 0)
  start h := some h
  action h :=
    if xxWrites h.1 h.2 then .writeMessage else if h.2 < 3 then .readMessage else .split
  writeMessage h := some ((h.1, h.2 + 1), List.replicate (xxMessageLen h.2) 0)
  readMessage h m :=
    if xxWrites (!h.1) h.2 && m.length == xxMessageLen h.2 then some ((h.1, h.2 + 1), []) else none
  split _ := some (⟨some (), 0⟩, ⟨some (), 0⟩)

theorem noiseXX_xxLib : NoiseXX xxLib Prod.fst Prod.snd := by
  refine ⟨?_, ?_, ?_, ?_, ?_⟩
  · rintro b h ⟨⟩
    exact ⟨rfl, rfl⟩
  · rintro h h' ⟨⟩
    exact ⟨rfl, rfl⟩
  · intro h hact
    change (if xxWrites h.1 h.2 = true then NoiseAction.writeMessage else _) = _ at hact
    split at hact
    · assumption
    · split at hact <;> cases hact
  · rintro h h' m ⟨⟩
    exact ⟨rfl, rfl, List.length_replicate⟩
  · intro h m h' out hread
    change (if (xxWrites (!h.1) h.2 && m.length == xxMessageLen h.2) = true then _ else _) = _
      at hread
    split at hread
    · next hturn =>
      rw [Bool.and_eq_true, beq_iff_eq] at hturn
      cases hread
      exact ⟨hturn.1, hturn.2, rfl, rfl, rfl⟩
    · cases hread

/-- The first byte of a node's key and peer id. -/
def pairByte (n : Bool) : UInt8 := if n then 0xB2 else 0xA1

/-- The outside of a round of a node at some uptime. -/
def pairEnv (n : Bool) (uptimeMs : UInt64) : NoiseEnv (Bool × Nat) Unit :=
  { lib := xxLib, localPeerId := copyAt 8 [pairByte n] 0, uptimeMs }

/-- A direct announce of a node, signed with its key. -/
def pairAnnounce (n : Bool) : NoiseEvent where
  type := .announce
  connHandle := 1
  ttl := 7
  hasSignature := true
  signature := copyAt 64 [pairByte n] 0
  peerId := copyAt 8 [pairByte n] 0
  payload := [0x01, 1, 0x41] ++ [0x02, 32] ++ (keyOf (pairByte n)).val ++ [0x03, 32] ++
    (keyOf (pairByte n)).val
  payload_le := by cases n <;> decide

/-- The start of a handshake with a node. -/
def pairStart (n : Bool) : NoiseEvent where
  type := .start
  connHandle := 1
  initiator := true
  peerId := copyAt 8 [pairByte n] 0

/-- The handshake message `k` from a node. -/
def pairMessage (n : Bool) (k : Fin 3) : NoiseEvent where
  type := .process
  connHandle := 1
  peerId := copyAt 8 [pairByte n] 0
  payload := List.replicate (xxMessageLen k) 0
  payload_le := by revert k; decide

/-- Rounds of the nodes, each at an uptime and with an event. -/
def pairRounds (l : List (Bool × UInt64 × NoiseEvent)) : List (PairInput (Bool × Nat) Unit) :=
  l.map fun (n, uptimeMs, evt) => ⟨n, pairEnv n uptimeMs, some evt⟩

theorem noiseXX_pairRounds (l : List (Bool × UInt64 × NoiseEvent)) :
    ∀ x ∈ pairRounds l, NoiseXX x.env.lib Prod.fst Prod.snd := by
  intro x hx
  obtain ⟨_, -, rfl⟩ := List.mem_map.mp hx
  exact noiseXX_xxLib

/-- The system on one link. A signature verifies here when it starts like its key. -/
def pairStep : HandshakePair (Bool × Nat) Unit → PairInput (Bool × Nat) Unit →
    HandshakePair (Bool × Nat) Unit :=
  HandshakePair.step (fun l => copyAt 32 l 0)
    (fun _ key sig => byteAt sig.val 0 == byteAt key.val 0)
    { encrypt := fun _ _ m => m, decrypt := fun _ _ m => some m } fun _ => 1

/-- Each node subscribes and hears the other, and queues a start in its next maintenance. -/
def introduction : List (Bool × UInt64 × NoiseEvent) :=
  [(false, 0, { type := .subscribed, connHandle := 1 }),
    (true, 0, { type := .subscribed, connHandle := 1 }),
    (false, 500, pairAnnounce true), (true, 500, pairAnnounce false)]

/-- One starts, and the three messages pass. -/
def answering : List (PairInput (Bool × Nat) Unit) :=
  pairRounds (introduction ++
    [(false, 600, pairStart true), (true, 700, pairMessage false 0),
      (false, 700, pairMessage true 1), (true, 800, pairMessage false 2)])

/-- Both start, and then each gets the other's first message. -/
def crossing : List (PairInput (Bool × Nat) Unit) :=
  pairRounds (introduction ++
    [(false, 600, pairStart true), (true, 600, pairStart false),
      (false, 700, pairMessage true 0), (true, 700, pairMessage false 0)])

theorem not_both_of_uncrossed_answering :
    ¬ (final pairStep {} answering).BothRespond fun _ => 1 :=
  not_both_of_uncrossed _ _ _ _ answering (noiseXX_pairRounds _) (by decide +kernel)
    (by decide +kernel) answering (List.prefix_refl _)

/-- **Both yield.** Nothing goes wrong on the link, and in the end both nodes hold the handshake of
a responder. -/
theorem both_yield :
    (∀ x ∈ crossing, NoiseXX x.env.lib Prod.fst Prod.snd) ∧
      Along pairStep (Arrives fun _ => 1) {} crossing ∧
      (final pairStep {} crossing).BothRespond fun _ => 1 := by
  refine ⟨noiseXX_pairRounds _, by decide +kernel, fun n => ⟨0, ?_⟩⟩
  cases n with
  | false => decide +kernel
  | true => decide +kernel

end Bitle
