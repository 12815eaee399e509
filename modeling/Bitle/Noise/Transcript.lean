import Bitle.Lib.Run
import Bitle.Noise.Agreement

/-!
# Bitle — the transcript of a handshake (`components/noise_ref/src/protocol/handshakestate.c`)

What one party does of a handshake while anything at all reaches it: writes, reads of any bytes and
splits, in any order. `HandshakeOp.cases` says what one call can do, and the results are about runs
of calls. A run takes its messages in turn and no more of them than the pattern has, an error is
final, and the party splits once at most (`handshake_lifecycle`). The handshake hash of a finished
run fixes every message of it (`transcript_binding`).
-/

namespace Bitle

open Wire Run

/-- The calls on a handshake state that has started. -/
inductive HandshakeOp where
  | write (rand : NoiseKey) (maxSize : Nat) (payload : List UInt8)
  | read (payloadMax : Nat) (msg : List UInt8)
  | split

/-- The message of a call that succeeds, `true` for one that was written, and the state. -/
def HandshakeOp.run (c : NoiseCrypto) (st : HandshakeState) :
    HandshakeOp → Option (Bool × List UInt8) × HandshakeState
  | .write rand maxSize payload =>
    match noiseHandshakestateWriteMessage c rand maxSize st payload with
    | (.ok msg, st) => (some (true, msg), st)
    | (.error _, st) => (none, st)
  | .read payloadMax msg =>
    match noiseHandshakestateReadMessage c payloadMax st msg with
    | (.ok _, st) => (some (false, msg), st)
    | (.error _, st) => (none, st)
  | .split => (none, (noiseHandshakestateSplit c st).2)

/-- The state after a call. -/
def HandshakeOp.next (c : NoiseCrypto) (st : HandshakeState) (op : HandshakeOp) : HandshakeState :=
  (op.run c st).2

/-- The messages of a run of calls, with their directions. -/
def transcript (c : NoiseCrypto) : HandshakeState → List HandshakeOp → List (Bool × List UInt8)
  | _, [] => []
  | st, op :: ops => (op.run c st).1.toList ++ transcript c (op.next c st) ops

/-- How many times a run splits. -/
def splits (c : NoiseCrypto) : HandshakeState → List HandshakeOp → Nat
  | _, [] => 0
  | st, .split :: ops =>
    (if st.action = .split then 1 else 0) + splits c (HandshakeOp.next c st .split) ops
  | st, op :: ops => splits c (op.next c st) ops

/-! ## The pieces of a message -/

/-- The pieces of the first message, as the handshake hash takes them: the keys, then the payload. -/
def cut : Nat → List NoiseToken → List UInt8 → List (List UInt8)
  | _, [], msg => [msg]
  | _, .flipDir :: _, msg => [msg]
  | mac, t :: ts, msg =>
    if t.dh.isSome then cut (t.mac mac) ts msg
    else msg.take (t.len mac) :: cut (t.mac mac) ts (msg.drop (t.len mac))

/-- The pieces of the messages in turn. -/
def cutAll : Nat → List NoiseToken → List (List UInt8) → List (List UInt8)
  | _, _, [] => []
  | mac, ts, msg :: msgs =>
    cut mac ts msg ++ cutAll (macAfter mac ts) ((afterMessage ts).getD []) msgs

theorem cut_cons {t : NoiseToken} (ht : t ≠ .flipDir) (mac : Nat) (ts : List NoiseToken)
    (msg : List UInt8) :
    cut mac (t :: ts) msg =
      if t.dh.isSome then cut (t.mac mac) ts msg
      else msg.take (t.len mac) :: cut (t.mac mac) ts (msg.drop (t.len mac)) := by
  cases t <;> first | rfl | exact absurd rfl ht

/-- The pieces make the message. -/
theorem flatten_cut (mac : Nat) (ts : List NoiseToken) (msg : List UInt8) :
    (cut mac ts msg).flatten = msg := by
  induction ts generalizing mac msg with
  | nil => exact List.flatten_singleton
  | cons t ts ih =>
    by_cases ht : t = .flipDir
    · subst ht
      exact List.flatten_singleton
    · rw [cut_cons ht]
      split
      · exact ih _ _
      · rw [List.flatten_cons, ih, List.take_append_drop]

/-- How many pieces a message has is a matter of its tokens. -/
theorem length_cut (mac mac' : Nat) (ts : List NoiseToken) (msg msg' : List UInt8) :
    (cut mac ts msg).length = (cut mac' ts msg').length := by
  induction ts generalizing mac mac' msg msg' with
  | nil => rfl
  | cons t ts ih =>
    by_cases ht : t = .flipDir
    · subst ht
      rfl
    · rw [cut_cons ht, cut_cons ht]
      split
      · exact ih _ _ _ _
      · rw [List.length_cons, List.length_cons, ih]

theorem length_cutAll {mac mac' : Nat} {ts : List NoiseToken} {msgs msgs' : List (List UInt8)}
    (h : msgs.length = msgs'.length) :
    (cutAll mac ts msgs).length = (cutAll mac' ts msgs').length := by
  induction msgs generalizing mac mac' ts msgs' with
  | nil =>
    cases msgs' with
    | nil => rfl
    | cons m' msgs' => cases h
  | cons m msgs ih =>
    cases msgs' with
    | nil => cases h
    | cons m' msgs' =>
      rw [cutAll, cutAll, List.length_append, List.length_append, length_cut mac mac',
        ih (Nat.succ.inj h)]

/-- As many messages with the same pieces are the same messages. -/
theorem cutAll_inj {mac mac' : Nat} {ts : List NoiseToken} {msgs msgs' : List (List UInt8)}
    (hlen : msgs.length = msgs'.length) (h : cutAll mac ts msgs = cutAll mac' ts msgs') :
    msgs = msgs' := by
  induction msgs generalizing mac mac' ts msgs' with
  | nil => exact (List.eq_nil_of_length_eq_zero hlen.symm).symm
  | cons m msgs ih =>
    cases msgs' with
    | nil => cases hlen
    | cons m' msgs' =>
      obtain ⟨hfirst, hrest⟩ := List.append_inj h (length_cut mac mac' ts m m')
      have hm : m = m' := by rw [← flatten_cut mac ts m, hfirst, flatten_cut]
      rw [hm, ih (Nat.succ.inj hlen) hrest]

/-! ## What one call can do -/

section Calls

variable {c : NoiseCrypto} {st st' : HandshakeState} {msg rest out : List UInt8}

/-- The handshake hash after more pieces. -/
def hashAll (c : NoiseCrypto) (h : Bytes 32) (pieces : List (List UInt8)) : Bytes 32 :=
  HashChain.absorbAll c.sha256 Subtype.val h pieces

theorem mixDh_ok {s s' : SymmetricState} {own peer : Option DHState}
    (h : noiseHandshakeMixDh c s own peer = .ok s') : s'.h = s.h ∧ s'.macLength = macLen := by
  unfold noiseHandshakeMixDh at h
  split at h
  · next privateKey publicKey =>
    cases hshared : noiseDhstateCalculate c privateKey publicKey with
    | error err =>
      rw [hshared] at h
      cases h
    | ok shared =>
      rw [hshared] at h
      cases h
      exact ⟨rfl, rfl⟩
  · cases h

/-- A secret changes the key and nothing else. -/
theorem mixToken_ok {keys : KeyKind × KeyKind} (h : mixToken c st keys = .ok st') :
    st'.symmetric.h = st.symmetric.h ∧ st'.symmetric.macLength = macLen := by
  unfold mixToken at h
  dsimp only at h
  cases hmix : noiseHandshakeMixDh c st.symmetric (st.own (if st.initiator then keys else keys.swap).1)
      (st.peer (if st.initiator then keys else keys.swap).2) with
  | error err =>
    rw [hmix] at h
    cases h
  | ok s =>
    rw [hmix] at h
    cases h
    exact mixDh_ok hmix

/-- A token is hashed as the message has it, and makes the next token's MAC. -/
theorem writeToken_ok (hc : c.Correct) {rand : NoiseKey} {room : Nat} {t : NoiseToken}
    (h : writeToken c rand room st t = .ok (st', out)) :
    out.length = t.len st.symmetric.macLength ∧
      st'.symmetric.macLength = t.mac st.symmetric.macLength ∧
      st'.symmetric.h = hashAll c st.symmetric.h (if t.dh.isSome then [] else [out]) := by
  unfold writeToken at h
  cases hdh : t.dh with
  -- a DH token mixes a key and writes nothing
  | some keys =>
    rw [hdh] at h
    dsimp only at h
    cases hmix : mixToken c st keys with
    | error err =>
      rw [hmix] at h
      cases h
    | ok s =>
      rw [hmix] at h
      cases h
      obtain ⟨hh, hmac⟩ := mixToken_ok hmix
      refine ⟨?_, ?_, hh⟩
      · cases t <;> first | rfl | cases hdh
      · rw [hmac, NoiseToken.mac, hdh]
        rfl
  -- a public key is hashed as it is written
  | none =>
    rw [hdh] at h
    cases t with
    | e =>
      dsimp only at h
      split at h
      · cases h
      · split at h
        · cases h
        · cases h
          exact ⟨(noiseDhstateGenerateKeypair c rand).publicKey.property, rfl, rfl⟩
    | s =>
      dsimp only at h
      split at h
      · cases h
      · next dh _ =>
        split at h
        · cases h
        · split at h
          · cases h
          · next s out' hseal =>
            cases h
            obtain ⟨hh, hmac⟩ := encryptAndHash_cases hseal
            exact ⟨length_encryptAndHash hc dh.publicKey hseal, hmac, hh⟩
    | flipDir => cases h
    | ee | es | se | ss => cases hdh

/-- What a token takes of a message is hashed as it is. -/
theorem readToken_ok {t : NoiseToken} (h : readToken c st msg t = .ok (st', rest)) :
    st'.symmetric.macLength = t.mac st.symmetric.macLength ∧
      rest = (if t.dh.isSome then msg else msg.drop (t.len st.symmetric.macLength)) ∧
      st'.symmetric.h = hashAll c st.symmetric.h
        (if t.dh.isSome then [] else [msg.take (t.len st.symmetric.macLength)]) := by
  unfold readToken at h
  cases hdh : t.dh with
  -- a DH token mixes a key and takes nothing of the message
  | some keys =>
    rw [hdh] at h
    dsimp only at h
    cases hmix : mixToken c st keys with
    | error err =>
      rw [hmix] at h
      cases h
    | ok s =>
      rw [hmix] at h
      cases h
      obtain ⟨hh, hmac⟩ := mixToken_ok hmix
      refine ⟨?_, rfl, hh⟩
      rw [hmac, NoiseToken.mac, hdh]
      rfl
  -- a public key, sealed or not, is hashed as it came
  | none =>
    rw [hdh] at h
    cases t with
    | e =>
      dsimp only at h
      split at h
      · cases h
      · split at h
        · cases h
        · split at h
          · cases h
          · split at h
            · cases h
            · cases h
              exact ⟨rfl, rfl, rfl⟩
    | s =>
      dsimp only at h
      split at h
      · cases h
      · split at h
        · cases h
        · split at h
          · cases h
          · next s key hopen =>
            split at h
            · cases h
            · cases h
              obtain ⟨hh, hmac, -⟩ := decryptAndHash_cases hopen
              exact ⟨hmac, rfl, hh⟩
    | flipDir => cases h
    | ee | es | se | ss => cases hdh

/-- What a message leaves behind: the tokens behind it, the action that comes next, and a MAC for
what comes then. -/
structure MessageDone (ts : List NoiseToken) (wrote : Bool) (st st' : HandshakeState) : Prop where
  tokens : st'.tokens = (afterMessage ts).getD []
  action : st'.action =
    if (afterMessage ts).isNone then .split else if wrote then .readMessage else .writeMessage
  mac : st'.symmetric.macLength = macAfter st.symmetric.macLength ts

/-- A token in front of a message. -/
theorem MessageDone.cons {t : NoiseToken} {ts : List NoiseToken} {wrote : Bool}
    {st1 : HandshakeState} (ht : t ≠ .flipDir)
    (hmac : st1.symmetric.macLength = t.mac st.symmetric.macLength)
    (h : MessageDone ts wrote st1 st') : MessageDone (t :: ts) wrote st st' where
  tokens := by rw [afterMessage_cons ht, h.tokens]
  action := by rw [afterMessage_cons ht, h.action]
  mac := by rw [macAfter_cons ht, ← hmac, h.mac]

/-- The writer's loop hashes what it writes, whatever payload comes behind it. -/
theorem writeTokens_ok (hc : c.Correct) {rand : NoiseKey} {maxSize : Nat} {ts : List NoiseToken}
    {acc : List UInt8} (h : writeTokens c rand maxSize ts st acc = .ok (st', msg)) :
    MessageDone ts true st st' ∧ ∃ out, msg = acc ++ out ∧ ∀ tail,
      hashAll c st.symmetric.h (cut st.symmetric.macLength ts (out ++ tail)) =
        hashAll c st'.symmetric.h [tail] := by
  induction ts generalizing st acc with
  | nil =>
    cases h
    exact ⟨⟨rfl, rfl, rfl⟩, [], (List.append_nil _).symm, fun _ => rfl⟩
  | cons t ts ih =>
    by_cases ht : t = .flipDir
    · subst ht
      cases h
      exact ⟨⟨rfl, rfl, rfl⟩, [], (List.append_nil _).symm, fun _ => rfl⟩
    · cases htok : writeToken c rand (maxSize - acc.length) st t with
      | error err =>
        rw [writeTokens_error ht ts htok] at h
        cases h
      | ok r =>
        obtain ⟨st1, out1⟩ := r
        rw [writeTokens_cons ht ts htok] at h
        obtain ⟨hlen, hmac, hhash⟩ := writeToken_ok hc htok
        obtain ⟨hdone, out, hout, hrest⟩ := ih h
        refine ⟨hdone.cons ht hmac, out1 ++ out, by rw [hout, List.append_assoc], ?_⟩
        intro tail
        rw [← hrest tail, cut_cons ht, hmac, hhash, List.append_assoc, ← hlen, List.take_left,
          List.drop_left]
        cases hdh : t.dh with
        | none => rfl
        | some keys =>
          -- nothing was written
          have hnil : out1 = [] := by
            apply List.eq_nil_of_length_eq_zero
            rw [hlen]
            cases t <;> first | rfl | cases hdh
          rw [hnil]
          rfl

/-- The reader's loop hashes what it takes, whatever payload is left. -/
theorem readTokens_ok {ts : List NoiseToken} (h : readTokens c ts st msg = .ok (st', rest)) :
    MessageDone ts false st st' ∧
      hashAll c st.symmetric.h (cut st.symmetric.macLength ts msg) =
        hashAll c st'.symmetric.h [rest] := by
  induction ts generalizing st msg with
  | nil =>
    cases h
    exact ⟨⟨rfl, rfl, rfl⟩, rfl⟩
  | cons t ts ih =>
    by_cases ht : t = .flipDir
    · subst ht
      cases h
      exact ⟨⟨rfl, rfl, rfl⟩, rfl⟩
    · cases htok : readToken c st msg t with
      | error err =>
        rw [readTokens_error ht ts htok] at h
        cases h
      | ok r =>
        obtain ⟨st1, rest1⟩ := r
        rw [readTokens_cons ht ts htok] at h
        obtain ⟨hmac, hrest, hhash⟩ := readToken_ok htok
        obtain ⟨hdone, heq⟩ := ih h
        refine ⟨hdone.cons ht hmac, ?_⟩
        rw [← heq, cut_cons ht, hmac, hhash, hrest]
        cases hdh : t.dh with
        | none => rfl
        | some keys => rfl

/-- **A message** that was written or read: its pieces are hashed in order. -/
structure MessageTaken (c : NoiseCrypto) (wrote : Bool) (msg : List UInt8)
    (st st' : HandshakeState) : Prop where
  turn : st.action = if wrote then .writeMessage else .readMessage
  done : MessageDone st.tokens wrote st st'
  hash : st'.symmetric.h =
    hashAll c st.symmetric.h (cut st.symmetric.macLength st.tokens msg)

theorem writeMessage_cases (hc : c.Correct) (rand : NoiseKey) (maxSize : Nat)
    (st : HandshakeState) (payload : List UInt8) :
    (∃ msg st', noiseHandshakestateWriteMessage c rand maxSize st payload = (.ok msg, st') ∧
      MessageTaken c true msg st st') ∨
    (∃ err, noiseHandshakestateWriteMessage c rand maxSize st payload =
      (.error err, { st with action := .failed }) ∧ st.action = .writeMessage) ∨
    (∃ err, noiseHandshakestateWriteMessage c rand maxSize st payload = (.error err, st)) := by
  unfold noiseHandshakestateWriteMessage
  by_cases hturn : st.action ≠ .writeMessage
  · rw [if_pos hturn]
    exact .inr (.inr ⟨_, rfl⟩)
  · rw [if_neg hturn]
    cases hwrite : noiseHandshakestateWrite c rand maxSize st payload with
    | error err => exact .inr (.inl ⟨err, rfl, not_not.mp hturn⟩)
    | ok r =>
      obtain ⟨st', msg⟩ := r
      refine .inl ⟨msg, st', rfl, ?_⟩
      unfold noiseHandshakestateWrite at hwrite
      cases htoks : writeTokens c rand maxSize st.tokens st [] with
      | error err =>
        rw [htoks] at hwrite
        cases hwrite
      | ok r =>
        obtain ⟨st1, out⟩ := r
        rw [htoks] at hwrite
        dsimp only at hwrite
        split_ifs at hwrite
        split at hwrite
        · cases hwrite
        · next s sealed hseal =>
          cases hwrite
          -- the tokens are hashed first, then the payload
          obtain ⟨hh, hmac⟩ := encryptAndHash_cases hseal
          obtain ⟨hdone, out', hout, hhash⟩ := writeTokens_ok hc htoks
          rw [List.nil_append] at hout
          subst hout
          exact ⟨not_not.mp hturn, ⟨hdone.tokens, hdone.action, hmac.trans hdone.mac⟩,
            hh.trans (hhash sealed).symm⟩

theorem readMessage_cases (payloadMax : Nat) (st : HandshakeState) (msg : List UInt8) :
    (∃ payload st', noiseHandshakestateReadMessage c payloadMax st msg = (.ok payload, st') ∧
      MessageTaken c false msg st st') ∨
    (∃ err, noiseHandshakestateReadMessage c payloadMax st msg =
      (.error err, { st with action := .failed }) ∧ st.action = .readMessage) ∨
    (∃ err, noiseHandshakestateReadMessage c payloadMax st msg = (.error err, st)) := by
  unfold noiseHandshakestateReadMessage
  by_cases hturn : st.action ≠ .readMessage
  · rw [if_pos hturn]
    exact .inr (.inr ⟨_, rfl⟩)
  · rw [if_neg hturn]
    cases hread : noiseHandshakestateRead c payloadMax st msg with
    | error err => exact .inr (.inl ⟨err, rfl, not_not.mp hturn⟩)
    | ok r =>
      obtain ⟨st', payload⟩ := r
      refine .inl ⟨payload, st', rfl, ?_⟩
      unfold noiseHandshakestateRead at hread
      cases htoks : readTokens c st.tokens st msg with
      | error err =>
        rw [htoks] at hread
        cases hread
      | ok r =>
        obtain ⟨st1, rest⟩ := r
        rw [htoks] at hread
        dsimp only at hread
        split at hread
        · cases hread
        · next s text hopen =>
          split_ifs at hread
          cases hread
          obtain ⟨hh, hmac, -⟩ := decryptAndHash_cases hopen
          obtain ⟨hdone, hhash⟩ := readTokens_ok htoks
          exact ⟨not_not.mp hturn, ⟨hdone.tokens, hdone.action, hmac.trans hdone.mac⟩,
            hh.trans hhash.symm⟩

/-- **What a call can do**: take a message, fail for good, split, or nothing at all. -/
theorem HandshakeOp.cases (hc : c.Correct) (st : HandshakeState) (op : HandshakeOp) :
    (∃ wrote msg st', op.run c st = (some (wrote, msg), st') ∧ op ≠ .split ∧
      MessageTaken c wrote msg st st') ∨
    (op.run c st = (none, { st with action := .failed }) ∧ op ≠ .split ∧
      (st.action = .writeMessage ∨ st.action = .readMessage)) ∨
    (op.run c st = (none, { st with action := .complete }) ∧ op = .split ∧ st.action = .split) ∨
    (op.run c st = (none, st) ∧ (op = .split → st.action ≠ .split)) := by
  cases op with
  | write rand maxSize payload =>
    dsimp only [HandshakeOp.run]
    rcases writeMessage_cases hc rand maxSize st payload with
      ⟨msg, st', hrun, htaken⟩ | ⟨err, hrun, hturn⟩ | ⟨err, hrun⟩
    · exact .inl ⟨true, msg, st', by rw [hrun], by simp, htaken⟩
    · exact .inr (.inl ⟨by rw [hrun], by simp, .inl hturn⟩)
    · exact .inr (.inr (.inr ⟨by rw [hrun], by simp⟩))
  | read payloadMax msg =>
    dsimp only [HandshakeOp.run]
    rcases readMessage_cases payloadMax st msg with
      ⟨payload, st', hrun, htaken⟩ | ⟨err, hrun, hturn⟩ | ⟨err, hrun⟩
    · exact .inl ⟨false, msg, st', by rw [hrun], by simp, htaken⟩
    · exact .inr (.inl ⟨by rw [hrun], by simp, .inr hturn⟩)
    · exact .inr (.inr (.inr ⟨by rw [hrun], by simp⟩))
  | split =>
    dsimp only [HandshakeOp.run, noiseHandshakestateSplit]
    by_cases hsplit : st.action = .split
    · rw [if_neg (not_not_intro hsplit)]
      exact .inr (.inr (.inl ⟨rfl, rfl, hsplit⟩))
    · rw [if_pos hsplit]
      exact .inr (.inr (.inr ⟨rfl, fun _ => hsplit⟩))

end Calls

/-! ## Runs of calls -/

section Runs

variable {c : NoiseCrypto} {st st' : HandshakeState}

/-- The directions of messages in turn. -/
def turns : Bool → Nat → List Bool
  | _, 0 => []
  | wrote, n + 1 => wrote :: turns (!wrote) n

/-- The messages a state has still to come. -/
def messagesLeft (st : HandshakeState) : Nat :=
  match st.action with
  | .writeMessage | .readMessage => messageCount st.tokens
  | _ => 0

theorem messageCount_pos (ts : List NoiseToken) : 0 < messageCount ts := by
  induction ts with
  | nil => exact Nat.one_pos
  | cons t ts ih => cases t <;> first | exact ih | exact Nat.succ_pos _

/-- A message takes one of those left. -/
theorem MessageTaken.left {wrote : Bool} {msg : List UInt8} (h : MessageTaken c wrote msg st st') :
    messagesLeft st = messagesLeft st' + 1 := by
  have hturn : messagesLeft st = messageCount st.tokens := by
    unfold messagesLeft
    rw [h.turn]
    cases wrote <;> rfl
  rw [hturn]
  have haction := h.done.action
  have htokens := h.done.tokens
  unfold messagesLeft
  rcases Nat.exists_eq_add_of_lt (messageCount_pos st.tokens) with ⟨n, hn⟩
  rw [Nat.zero_add] at hn
  cases n with
  | zero =>
    rw [afterMessage_eq_none hn] at haction
    rw [haction, hn]
    rfl
  | succ n =>
    obtain ⟨ts', hts', hcount⟩ := afterMessage_eq_some hn
    rw [hts'] at haction htokens
    rw [Option.getD_some] at htokens
    rw [haction, htokens, hcount, hn]
    cases wrote <;> rfl

/-- A state that can still split. -/
def splitsLeft (st : HandshakeState) : Nat :=
  match st.action with
  | .writeMessage | .readMessage | .split => 1
  | _ => 0

theorem MessageTaken.splitsLeft {wrote : Bool} {msg : List UInt8}
    (h : MessageTaken c wrote msg st st') : splitsLeft st' = 1 ∧ splitsLeft st = 1 := by
  unfold Bitle.splitsLeft
  rw [h.turn, h.done.action]
  constructor
  · split_ifs <;> rfl
  · cases wrote <;> rfl

theorem splits_cons {op : HandshakeOp} (h : op = .split → st.action ≠ .split)
    (ops : List HandshakeOp) : splits c st (op :: ops) = splits c (op.next c st) ops := by
  cases op with
  | write rand maxSize payload => rfl
  | read payloadMax msg => rfl
  | split => rw [splits, if_neg (h rfl), Nat.zero_add]

/-- **What a run of calls takes** of the messages and the split that are left, and what it has
hashed. -/
structure RunDone (c : NoiseCrypto) (st fin : HandshakeState) (msgs : List (Bool × List UInt8))
    (n : Nat) : Prop where
  turns : msgs.map Prod.fst = turns (st.action == .writeMessage) msgs.length
  messages : msgs.length + messagesLeft fin ≤ messagesLeft st
  all : fin.action ≠ .failed → msgs.length + messagesLeft fin = messagesLeft st
  splits : n + splitsLeft fin ≤ splitsLeft st
  complete : n ≠ 0 → fin.action = .complete
  hash : fin.action ≠ .failed → fin.symmetric.h =
    hashAll c st.symmetric.h (cutAll st.symmetric.macLength st.tokens (msgs.map Prod.snd))

/-- A message in front of a run. -/
theorem RunDone.message {wrote : Bool} {msg : List UInt8} {fin : HandshakeState}
    {msgs : List (Bool × List UInt8)} {n : Nat} (h : MessageTaken c wrote msg st st')
    (hrun : RunDone c st' fin msgs n) : RunDone c st fin ((wrote, msg) :: msgs) n where
  turns := by
    have hfirst : (st.action == .writeMessage) = wrote := by
      rw [h.turn]
      cases wrote <;> rfl
    -- after a message it is the other side's turn, if any message follows
    have hnext : msgs ≠ [] → (st'.action == .writeMessage) = !wrote := by
      intro hne
      have hleft := hrun.messages
      have hpos := List.length_pos_iff.mpr hne
      have haction := h.done.action
      cases hafter : afterMessage st.tokens with
      | none =>
        rw [hafter] at haction
        have hzero : messagesLeft st' = 0 := by
          unfold messagesLeft
          rw [haction]
          rfl
        omega
      | some ts =>
        rw [hafter] at haction
        rw [haction]
        cases wrote <;> rfl
    cases hm : msgs with
    | nil =>
      rw [hfirst]
      rfl
    | cons m ms =>
      have hrest := hrun.turns
      rw [hnext (by rw [hm]; exact List.cons_ne_nil _ _), hm] at hrest
      rw [hfirst, List.map_cons, hrest]
      rfl
  messages := by
    rw [h.left, List.length_cons]
    have hleft := hrun.messages
    omega
  all hfin := by
    rw [h.left, List.length_cons]
    have hleft := hrun.all hfin
    omega
  splits := by
    obtain ⟨hleft, hleft'⟩ := h.splitsLeft
    have hsplits := hrun.splits
    omega
  complete := hrun.complete
  hash hfin := by
    rw [hrun.hash hfin, h.hash, h.done.mac, h.done.tokens, List.map_cons]
    exact (HashChain.absorbAll_append _ _ _).symm

/-- A state that has failed or is complete stays as it is. -/
theorem run_over (hc : c.Correct) (hover : st.action = .failed ∨ st.action = .complete)
    (ops : List HandshakeOp) :
    final (HandshakeOp.next c) st ops = st ∧ transcript c st ops = [] ∧ splits c st ops = 0 := by
  induction ops with
  | nil => exact ⟨rfl, rfl, rfl⟩
  | cons op ops ih =>
    have hstay : op.run c st = (none, st) ∧ (op = .split → st.action ≠ .split) := by
      rcases op.cases hc st with ⟨wrote, msg, st', -, -, htaken⟩ | ⟨-, -, hturn⟩ | ⟨-, -, hsplit⟩ | h
      · have hturn := htaken.turn
        rcases hover with hover | hover <;> rw [hover] at hturn <;> cases wrote <;> cases hturn
      · rcases hover with hover | hover <;> rw [hover] at hturn <;> rcases hturn with h | h <;> cases h
      · rcases hover with hover | hover <;> rw [hover] at hsplit <;> cases hsplit
      · exact h
    have hnext : op.next c st = st := congrArg Prod.snd hstay.1
    rw [final_cons, transcript, splits_cons hstay.2, hstay.1, hnext]
    exact ih

/-- **Every run of calls**, by induction on the calls. -/
theorem runDone (hc : c.Correct) (st : HandshakeState) (ops : List HandshakeOp) :
    RunDone c st (final (HandshakeOp.next c) st ops) (transcript c st ops) (splits c st ops) := by
  induction ops generalizing st with
  | nil =>
    exact ⟨rfl, Nat.le_of_eq (Nat.zero_add _), fun _ => Nat.zero_add _,
      Nat.le_of_eq (Nat.zero_add _), fun h => absurd rfl h, fun _ => rfl⟩
  | cons op ops ih =>
    rw [final_cons, transcript]
    rcases op.cases hc st with ⟨wrote, msg, st', hrun, hop, htaken⟩ | ⟨hrun, hop, -⟩ |
      ⟨hrun, hop, hsplit⟩ | ⟨hrun, hop⟩
    · have hnext : op.next c st = st' := congrArg Prod.snd hrun
      rw [splits_cons fun h => absurd h hop, hrun, hnext]
      exact (ih st').message htaken
    · -- an error is final
      have hnext : op.next c st = { st with action := .failed } := congrArg Prod.snd hrun
      obtain ⟨hfin, hmsgs, hsplits⟩ :=
        run_over hc (show { st with action := .failed }.action = .failed ∨ _ from .inl rfl) ops
      rw [splits_cons fun h => absurd h hop, hrun, hnext, hfin, hmsgs, hsplits]
      exact ⟨rfl, Nat.zero_le _, fun h => absurd rfl h, Nat.zero_le _, fun h => absurd rfl h,
        fun h => absurd rfl h⟩
    · -- so is a split
      have hnext : op.next c st = { st with action := .complete } := congrArg Prod.snd hrun
      obtain ⟨hfin, hmsgs, hsplits⟩ :=
        run_over hc (show { st with action := .complete }.action = .failed ∨ _ from .inr rfl) ops
      have hleft : messagesLeft st = 0 ∧ splitsLeft st = 1 := by
        unfold messagesLeft splitsLeft
        rw [hsplit]
        exact ⟨rfl, rfl⟩
      have hone : splits c st (op :: ops) = 1 := by
        rw [hop, splits, if_pos hsplit, ← hop, hnext, hsplits]
      rw [hone, hrun, hnext, hfin, hmsgs]
      refine ⟨rfl, ?_, fun _ => ?_, ?_, fun _ => rfl, fun _ => rfl⟩
      · rw [hleft.1]
        rfl
      · rw [hleft.1]
        rfl
      · rw [hleft.2]
        rfl
    · have hnext : op.next c st = st := congrArg Prod.snd hrun
      rw [splits_cons hop, hrun, hnext]
      exact ih st

/-- **A handshake has one way through.** Whatever is called on a state that has started, in any
order: its messages go back and forth, no more of them than the pattern has; it splits once at
most, after all of them; and once it has failed nothing succeeds any more. -/
theorem handshake_lifecycle (hc : c.Correct)
    (hst : st.action = .writeMessage ∨ st.action = .readMessage) (ops : List HandshakeOp) :
    (transcript c st ops).map Prod.fst =
        turns (st.action == .writeMessage) (transcript c st ops).length ∧
      (transcript c st ops).length ≤ messageCount st.tokens ∧
      splits c st ops ≤ 1 ∧
      (splits c st ops = 1 → (transcript c st ops).length = messageCount st.tokens) ∧
      ((final (HandshakeOp.next c) st ops).action = .failed → ∀ later,
        transcript c (final (HandshakeOp.next c) st ops) later = [] ∧
          splits c (final (HandshakeOp.next c) st ops) later = 0) := by
  have hrun := runDone hc st ops
  have hleft : messagesLeft st = messageCount st.tokens ∧ splitsLeft st = 1 := by
    unfold messagesLeft splitsLeft
    rcases hst with h | h <;> rw [h] <;> exact ⟨rfl, rfl⟩
  have hmessages := hrun.messages
  have hsplits := hrun.splits
  refine ⟨hrun.turns, by omega, by omega, ?_, ?_⟩
  · intro hone
    have hcomplete := hrun.complete (by omega)
    have hall := hrun.all (by rw [hcomplete]; decide)
    have hzero : messagesLeft (final (HandshakeOp.next c) st ops) = 0 := by
      unfold messagesLeft
      rw [hcomplete]
    omega
  · intro hfailed later
    exact (run_over hc (.inl hfailed) later).2

/-- A party of an XX handshake over the stand-in, started. -/
def toyParty (side : Bool) : HandshakeState :=
  { newParty toyCrypto noiseProtocolName noisePatternXX [] (fun _ => zeros 32) side with
    symmetric := startSymmetric toyCrypto noiseProtocolName noisePatternXX [] fun _ => zeros 32
    action := if side then .writeMessage else .readMessage }

/-- An initiator that is sent garbage for the second message, and tries again. -/
theorem handshake_lifecycle_garbage :
    (transcript toyCrypto (toyParty true)
        [.write (zeros 32) 256 [], .read 256 [1, 2, 3], .read 256 [], .split]).length ≤ 3 ∧
      splits toyCrypto (toyParty true)
        [.write (zeros 32) 256 [], .read 256 [1, 2, 3], .read 256 [], .split] ≤ 1 := by
  obtain ⟨-, hlen, hsplits, -⟩ := handshake_lifecycle toyCrypto_correct
    (show (toyParty true).action = .writeMessage ∨ _ from .inl rfl)
    [.write (zeros 32) 256 [], .read 256 [1, 2, 3], .read 256 [], .split]
  exact ⟨hlen, hsplits⟩

/-- The texts that the handshake hash of a run was made of. -/
def transcriptTexts (c : NoiseCrypto) (st : HandshakeState) (ops : List HandshakeOp) :
    List (List UInt8) :=
  HashChain.texts c.sha256 Subtype.val st.symmetric.h
    (cutAll st.symmetric.macLength st.tokens ((transcript c st ops).map Prod.snd))

/-- **The handshake hash fixes the handshake.** Two parties that finished a handshake of one
pattern, whatever was sent to either and in whatever roles, and have one handshake hash: they
started with one hash and took the same messages, or two different texts they hashed have one
digest. -/
theorem transcript_binding (hc : c.Correct) {a b : HandshakeState} (htokens : a.tokens = b.tokens)
    (ha : a.action = .writeMessage ∨ a.action = .readMessage)
    (hb : b.action = .writeMessage ∨ b.action = .readMessage) {opsA opsB : List HandshakeOp}
    {h : Bytes 32}
    (hfinA : noiseHandshakestateGetHandshakeHash (final (HandshakeOp.next c) a opsA) = some h)
    (hfinB : noiseHandshakestateGetHandshakeHash (final (HandshakeOp.next c) b opsB) = some h) :
    (a.symmetric.h = b.symmetric.h ∧
      (transcript c a opsA).map Prod.snd = (transcript c b opsB).map Prod.snd) ∨
    HashChain.Collision c.sha256 (transcriptTexts c a opsA) (transcriptTexts c b opsB) := by
  -- a party that has a hash took all messages of its pattern, and the hash covers them
  have hover : ∀ {st : HandshakeState} {ops : List HandshakeOp},
      (st.action = .writeMessage ∨ st.action = .readMessage) →
      noiseHandshakestateGetHandshakeHash (final (HandshakeOp.next c) st ops) = some h →
      (transcript c st ops).length = messageCount st.tokens ∧
        h = hashAll c st.symmetric.h
          (cutAll st.symmetric.macLength st.tokens ((transcript c st ops).map Prod.snd)) := by
    intro st ops hst hfin
    have hrun := runDone hc st ops
    unfold noiseHandshakestateGetHandshakeHash at hfin
    split at hfin
    · next haction =>
      have hfailed : (final (HandshakeOp.next c) st ops).action ≠ .failed := by
        rcases haction with h | h <;> rw [h] <;> decide
      have hzero : messagesLeft (final (HandshakeOp.next c) st ops) = 0 := by
        unfold messagesLeft
        rcases haction with h | h <;> rw [h]
      have hstart : messagesLeft st = messageCount st.tokens := by
        unfold messagesLeft
        rcases hst with h | h <;> rw [h]
      have hall := hrun.all hfailed
      refine ⟨by omega, ?_⟩
      rw [← hrun.hash hfailed]
      exact (Option.some.inj hfin).symm
    · cases hfin
  obtain ⟨hlenA, hhashA⟩ := hover ha hfinA
  obtain ⟨hlenB, hhashB⟩ := hover hb hfinB
  have hlen : ((transcript c a opsA).map Prod.snd).length =
      ((transcript c b opsB).map Prod.snd).length := by
    rw [List.length_map, List.length_map, hlenA, hlenB, htokens]
  rw [← htokens] at hhashB
  rcases HashChain.absorbAll_eq (fun h : Bytes 32 => h.property) Subtype.val_injective
    (length_cutAll hlen) (hhashA.symm.trans hhashB) with ⟨hstart, hpieces⟩ | hcol
  · exact .inl ⟨hstart, cutAll_inj hlen hpieces⟩
  · refine .inr ?_
    unfold transcriptTexts
    rw [← htokens]
    exact hcol

/-- The message a call makes. -/
def messageOf (st : HandshakeState) (op : HandshakeOp) : List UInt8 :=
  ((op.run toyCrypto st).1.map Prod.snd).getD []

/-- The calls of the two parties of an XX handshake, message by message. -/
def toyWrite : HandshakeOp := .write (zeros 32) 256 []
def toyFirst : HandshakeOp := .read 256 (messageOf (toyParty true) toyWrite)
def toySecond : HandshakeOp :=
  .read 256 (messageOf (toyFirst.next toyCrypto (toyParty false)) toyWrite)
def toyThird : HandshakeOp :=
  .read 256 (messageOf (final (HandshakeOp.next toyCrypto) (toyParty true) [toyWrite, toySecond])
    toyWrite)

theorem transcript_binding_xx :
    ((toyParty true).symmetric.h = (toyParty false).symmetric.h ∧
      (transcript toyCrypto (toyParty true) [toyWrite, toySecond, toyWrite]).map Prod.snd =
        (transcript toyCrypto (toyParty false) [toyFirst, toyWrite, toyThird]).map Prod.snd) ∨
    HashChain.Collision toyCrypto.sha256
      (transcriptTexts toyCrypto (toyParty true) [toyWrite, toySecond, toyWrite])
      (transcriptTexts toyCrypto (toyParty false) [toyFirst, toyWrite, toyThird]) :=
  transcript_binding toyCrypto_correct
    (show (toyParty true).tokens = (toyParty false).tokens from rfl) (.inl rfl) (.inr rfl)
    (show noiseHandshakestateGetHandshakeHash (final (HandshakeOp.next toyCrypto) (toyParty true)
        [toyWrite, toySecond, toyWrite]) =
      some (final (HandshakeOp.next toyCrypto) (toyParty true)
        [toyWrite, toySecond, toyWrite]).symmetric.h by decide +kernel)
    (show noiseHandshakestateGetHandshakeHash (final (HandshakeOp.next toyCrypto) (toyParty false)
        [toyFirst, toyWrite, toyThird]) = _ by decide +kernel)

end Runs

end Bitle
