import Bitle.Noise.Handshake

/-!
# Bitle — both ends of a handshake agree (`components/noise_ref/src/protocol`)

Two handshake states of one pattern, one of each role, whose messages reach each other unchanged.
`InSync` says what the pair has in common between two tokens: one symmetric state, and of every
public key that has passed, the same bytes on both sides. A token that the pattern allows keeps it
(`InSync.token`), so a message does (`InSync.message`), and so a whole handshake
(`handshake_agrees`), for every pattern whose secrets only use keys that have passed
(`NoisePattern.WellFormed`); all patterns of the table are such (`noisePatterns_wellFormed`).

A pair is a function of the role, `true` for the initiator.
-/

namespace Bitle

open Wire

/-! ## Patterns that can be run -/

/-- The public keys that have passed, by the side they belong to. -/
abbrev Passed : Type := Bool → KeyKind → Bool

/-- One more key passes. -/
def Passed.pass (k : Passed) (side : Bool) (kind : KeyKind) : Passed :=
  fun side' kind' => (side' == side && kind' == kind) || k side' kind'

/-- The keys that have passed after a token of the writer `w`, if the token may come here. -/
def NoisePattern.passes (pat : NoisePattern) (w : Bool) (k : Passed) (t : NoiseToken) :
    Option Passed :=
  match t.dh with
  | some keys => if k true keys.1 && k false keys.2 then some k else none
  | none =>
    match t with
    | .e => if (pat.flags w).ephemeral then some (k.pass w .ephemeral) else none
    | .s => if (pat.flags w).static then some (k.pass w .static) else none
    | _ => none

/-- Every static key that the pattern uses has passed. -/
def NoisePattern.complete (pat : NoisePattern) (k : Passed) : Bool :=
  [true, false].all fun side => !(pat.flags side).static || k side .static

/-- Every token may come where it comes, from the writer `w` on, and no static key stays behind. -/
def NoisePattern.check (pat : NoisePattern) : Bool → Passed → List NoiseToken → Bool
  | _, k, [] => pat.complete k
  | w, k, .flipDir :: ts => pat.check (!w) k ts
  | w, k, t :: ts =>
    match pat.passes w k t with
    | some k => pat.check w k ts
    | none => false

/-- The keys known before the first message. -/
def NoisePattern.known (pat : NoisePattern) : Passed :=
  fun side kind => kind == .static && (pat.flags side).required

/-- A key known beforehand is one the pattern uses, and every secret uses keys that have passed. -/
def NoisePattern.WellFormed (pat : NoisePattern) : Prop :=
  (∀ side, (pat.flags side).required = true → (pat.flags side).static = true) ∧
    pat.check true pat.known pat.tokens = true

instance (pat : NoisePattern) : Decidable pat.WellFormed :=
  inferInstanceAs (Decidable (_ ∧ _))

/-- **Every pattern of the table can be run.** -/
theorem noisePatterns_wellFormed : ∀ pat ∈ noisePatterns, pat.WellFormed := by decide

/-- The tokens of the messages after the first. -/
def afterMessage : List NoiseToken → Option (List NoiseToken)
  | [] => none
  | .flipDir :: ts => some ts
  | _ :: ts => afterMessage ts

/-- How many messages the tokens make. -/
def messageCount : List NoiseToken → Nat
  | [] => 1
  | .flipDir :: ts => messageCount ts + 1
  | _ :: ts => messageCount ts

/-- The length of a token in a message, given that of a MAC. -/
def NoiseToken.len (t : NoiseToken) (mac : Nat) : Nat :=
  match t with
  | .e => 32
  | .s => 32 + mac
  | _ => 0

/-- The length of a MAC after a token: the first secret makes a key. -/
def NoiseToken.mac (t : NoiseToken) (mac : Nat) : Nat := if t.dh.isSome then macLen else mac

/-- The length of the first message with an empty payload. -/
def messageLen : Nat → List NoiseToken → Nat
  | mac, [] => mac
  | mac, .flipDir :: _ => mac
  | mac, t :: ts => t.len mac + messageLen (t.mac mac) ts

/-- The length of a MAC after the first message. -/
def macAfter : Nat → List NoiseToken → Nat
  | mac, [] => mac
  | mac, .flipDir :: _ => mac
  | mac, t :: ts => macAfter (t.mac mac) ts

section Cons

variable {t : NoiseToken} (ht : t ≠ .flipDir) (mac : Nat) (ts : List NoiseToken)

include ht

theorem afterMessage_cons : afterMessage (t :: ts) = afterMessage ts := by
  cases t <;> first | rfl | exact absurd rfl ht

theorem messageLen_cons : messageLen mac (t :: ts) = t.len mac + messageLen (t.mac mac) ts := by
  cases t <;> first | rfl | exact absurd rfl ht

theorem macAfter_cons : macAfter mac (t :: ts) = macAfter (t.mac mac) ts := by
  cases t <;> first | rfl | exact absurd rfl ht

end Cons

/-- Every message fits its buffers: what the writer has, what a reader takes, and the longest
text the cipher seals. -/
def Fits (maxSize payloadMax : Nat) : Nat → List NoiseToken → List (NoiseKey × List UInt8) → Prop
  | _, _, [] => True
  | mac, ts, (_, payload) :: ms =>
    payload.length + messageLen mac ts ≤ maxSize ∧ payload.length ≤ payloadMax ∧
      payload.length + macLen ≤ noiseMaxPayloadLen ∧
      Fits maxSize payloadMax (macAfter mac ts) ((afterMessage ts).getD []) ms

instance decidableFits (maxSize payloadMax mac : Nat) (ts : List NoiseToken) :
    (ms : List (NoiseKey × List UInt8)) → Decidable (Fits maxSize payloadMax mac ts ms)
  | [] => isTrue trivial
  | _ :: ms =>
    have := decidableFits maxSize payloadMax (macAfter mac ts) ((afterMessage ts).getD []) ms
    inferInstanceAs (Decidable (_ ∧ _ ∧ _ ∧ _))

theorem afterMessage_eq_none {ts : List NoiseToken} (h : messageCount ts = 1) :
    afterMessage ts = none := by
  induction ts with
  | nil => rfl
  | cons t ts ih =>
    have hpos : ∀ ts, messageCount ts ≠ 0 := by
      intro ts
      induction ts with
      | nil => exact Nat.one_ne_zero
      | cons t ts ih => cases t <;> first | exact ih | exact Nat.succ_ne_zero _
    cases t with
    | flipDir => exact absurd (Nat.succ.inj h) (hpos ts)
    | s | e | ee | es | se | ss => exact ih h

theorem afterMessage_eq_some {ts : List NoiseToken} {n : Nat} (h : messageCount ts = n + 2) :
    ∃ ts', afterMessage ts = some ts' ∧ messageCount ts' = n + 1 := by
  induction ts with
  | nil => exact absurd h (by simp [messageCount])
  | cons t ts ih =>
    cases t with
    | flipDir => exact ⟨ts, rfl, Nat.succ.inj h⟩
    | s | e | ee | es | se | ss => exact ih h

/-! ## The pair between two tokens -/

section Pair

variable {c : NoiseCrypto} {pat : NoisePattern} {priv : Bool → NoiseKey} {k k' : Passed}
  {st : Bool → HandshakeState} {w : Bool}

/-- A key pair of Curve25519. -/
def DHState.Pair (c : NoiseCrypto) (dh : DHState) : Prop :=
  dh.keyType = .keypair ∧ dh.publicKey = c.basepoint dh.privateKey

/-- A key pair of one side, and its public key on the other. -/
def KeyPassed (c : NoiseCrypto) (own peer : Option DHState) : Prop :=
  ∃ dh dh', own = some dh ∧ peer = some dh' ∧ dh.Pair c ∧ dh'.publicKey = dh.publicKey

/-- The key pair of a private key. -/
def keypairOf (c : NoiseCrypto) (privateKey : NoiseKey) : DHState :=
  { keyType := .keypair, privateKey := privateKey, publicKey := c.basepoint privateKey }

/-- **What a pair has in common**: `priv` are the private static keys of both sides. -/
structure InSync (c : NoiseCrypto) (pat : NoisePattern) (priv : Bool → NoiseKey) (k : Passed)
    (st : Bool → HandshakeState) : Prop where
  role : ∀ side, (st side).initiator = side
  symmetric : ∀ side, (st side).symmetric = (st true).symmetric
  static : ∀ side, (pat.flags side).static = true →
    (st side).dhLocalStatic = some (keypairOf c (priv side)) ∧
      (st !side).dhRemoteStatic.isSome = true
  ephemeral : ∀ side, (pat.flags side).ephemeral = true →
    (st side).dhLocalEphemeral.isSome = true ∧ (st !side).dhRemoteEphemeral.isSome = true
  passed : ∀ side kind, k side kind = true →
    KeyPassed c ((st side).own kind) ((st !side).peer kind)

theorem InSync.symmetric_eq (h : InSync c pat priv k st) (side side' : Bool) :
    (st side).symmetric = (st side').symmetric :=
  (h.symmetric side).trans (h.symmetric side').symm

/-- The two states of a pair given one by one. -/
def pairOf (w : Bool) (a b : HandshakeState) : Bool → HandshakeState :=
  fun side => if side = w then a else b

@[simp] theorem pairOf_self (w : Bool) (a b : HandshakeState) : pairOf w a b w = a := if_pos rfl

@[simp] theorem pairOf_not (w : Bool) (a b : HandshakeState) : pairOf w a b (!w) = b :=
  if_neg (Bool.not_ne_self w)

/-- A property of both states of a pair, from the writer's and the reader's. -/
theorem forall_side {P : Bool → Prop} (w : Bool) (hw : P w) (hr : P !w) : ∀ side, P side := by
  intro side
  by_cases h : side = w
  · exact h ▸ hw
  · rw [Bool.eq_not_of_ne h]
    exact hr

/-- Nothing but the symmetric states changes. -/
theorem InSync.setSymmetric (h : InSync c pat priv k st) (s : SymmetricState) :
    InSync c pat priv k fun side => { st side with symmetric := s } where
  role := h.role
  symmetric _ := rfl
  static := h.static
  ephemeral := h.ephemeral
  passed side kind hk := by
    obtain ⟨dh, dh', hown, hpeer, hrest⟩ := h.passed side kind hk
    exact ⟨dh, dh', by cases kind <;> exact hown, by cases kind <;> exact hpeer, hrest⟩

/-- The actions and the tokens are not part of it. -/
theorem InSync.setTurn (h : InSync c pat priv k st) (tokens : Bool → List NoiseToken)
    (action : Bool → NoiseAction) :
    InSync c pat priv k fun side => { st side with tokens := tokens side, action := action side } where
  role := h.role
  symmetric := h.symmetric
  static := h.static
  ephemeral := h.ephemeral
  passed side kind hk := by
    obtain ⟨dh, dh', hown, hpeer, hrest⟩ := h.passed side kind hk
    exact ⟨dh, dh', by cases kind <;> exact hown, by cases kind <;> exact hpeer, hrest⟩

/-- A secret of two keys that have passed, as a side with the private key of the pair computes it. -/
theorem calculate_eq (hc : c.Correct) {own peer other : DHState} (hown : own.Pair c)
    (hother : other.Pair c) (hpeer : peer.publicKey = other.publicKey) :
    noiseDhstateCalculate c own peer = .ok (c.donna own.privateKey (c.basepoint other.privateKey)) := by
  have hkey : peer.publicKey = c.basepoint other.privateKey := hpeer.trans hother.2
  unfold noiseDhstateCalculate
  rw [if_neg (not_not_intro hown.1), hkey, if_neg (hc.basepoint_ne _)]

/-- Mixing a secret that can be computed. -/
theorem mixToken_eq {st : HandshakeState} {keys : KeyKind × KeyKind} {own peer : DHState}
    {shared : NoiseKey}
    (hown : st.own (if st.initiator then keys.1 else keys.2) = some own)
    (hpeer : st.peer (if st.initiator then keys.2 else keys.1) = some peer)
    (hshared : noiseDhstateCalculate c own peer = .ok shared) :
    mixToken c st keys = .ok { st with symmetric := st.symmetric.mixKey c shared.val } := by
  unfold mixToken
  cases hi : st.initiator with
  | true =>
    rw [hi, if_pos rfl] at hown hpeer
    rw [if_pos rfl]
    dsimp only
    rw [hown, hpeer, noiseHandshakeMixDh, hshared]
    simp only [Except.map]
  | false =>
    rw [hi, if_neg Bool.false_ne_true] at hown hpeer
    rw [if_neg Bool.false_ne_true]
    dsimp only [Prod.swap]
    rw [hown, hpeer, noiseHandshakeMixDh, hshared]
    simp only [Except.map]

/-- **A secret** of keys that have passed is the same on both sides. -/
theorem InSync.mix (hc : c.Correct) (h : InSync c pat priv k st) {keys : KeyKind × KeyKind}
    (h1 : k true keys.1 = true) (h2 : k false keys.2 = true) :
    ∃ shared : NoiseKey, ∀ side, mixToken c (st side) keys =
      .ok { st side with symmetric := (st true).symmetric.mixKey c shared.val } := by
  obtain ⟨a, a', ha, ha', hpair, hpub⟩ := h.passed true keys.1 h1
  obtain ⟨b, b', hb, hb', hpair', hpub'⟩ := h.passed false keys.2 h2
  refine ⟨c.donna a.privateKey (c.basepoint b.privateKey), ?_⟩
  intro side
  rw [← h.symmetric side]
  cases side with
  | true =>
    refine mixToken_eq ?_ ?_ (calculate_eq hc hpair hpair' hpub')
    · rw [h.role true, if_pos rfl]
      exact ha
    · rw [h.role true, if_pos rfl]
      exact hb'
  | false =>
    rw [hc.agree]
    refine mixToken_eq ?_ ?_ (calculate_eq hc hpair' hpair hpub)
    · rw [h.role false, if_neg Bool.false_ne_true]
      exact hb
    · rw [h.role false, if_neg Bool.false_ne_true]
      exact ha'

/-! ### One token -/

/-- The writer of a token, the reader of it, and what they have in common afterwards. -/
def TokenDone (c : NoiseCrypto) (pat : NoisePattern) (priv : Bool → NoiseKey) (rand : NoiseKey) (room : Nat)
    (st : Bool → HandshakeState) (w : Bool) (k' : Passed) (t : NoiseToken) : Prop :=
  ∃ st' out, writeToken c rand room (st w) t = .ok (st' w, out) ∧
    (∀ rest, readToken c (st !w) (out ++ rest) t = .ok (st' !w, rest)) ∧ InSync c pat priv k' st' ∧
    out.length = t.len (st w).symmetric.macLength ∧
    (st' w).symmetric.macLength = t.mac (st w).symmetric.macLength ∧
    (st' w).symmetric.cipher.n.toNat ≤ (st w).symmetric.cipher.n.toNat + 1

/-- A key passes from the writer, who has the pair, to the reader. -/
theorem InSync.pass (h : InSync c pat priv k st) {a b : HandshakeState} {kind : KeyKind}
    (ha : a.initiator = w) (hb : b.initiator = !w) (hs : b.symmetric = a.symmetric)
    (hkind : KeyPassed c (a.own kind) (b.peer kind))
    (hlocal : a.own .static = (st w).own .static)
    (hown : ∀ kind', kind' ≠ kind → a.own kind' = (st w).own kind')
    (hpeer : ∀ kind', kind' ≠ kind → b.peer kind' = (st !w).peer kind')
    (hown' : ∀ kind', b.own kind' = (st !w).own kind')
    (hpeer' : ∀ kind', a.peer kind' = (st w).peer kind') :
    InSync c pat priv (k.pass w kind) (pairOf w a b) where
  role := forall_side w (by rw [pairOf_self, ha]) (by rw [pairOf_not, hb])
  symmetric := by
    have hsame : ∀ side, (pairOf w a b side).symmetric = a.symmetric :=
      forall_side w (by rw [pairOf_self]) (by rw [pairOf_not, hs])
    exact fun side => (hsame side).trans (hsame true).symm
  static := by
    have hstatic : ∀ side, (pat.flags side).static = true →
        (pairOf w a b side).own .static = some (keypairOf c (priv side)) ∧
          ((pairOf w a b !side).peer .static).isSome = true := by
      refine forall_side w ?_ ?_
      · intro hf
        rw [pairOf_self, pairOf_not, hlocal]
        obtain ⟨hpair, hsome⟩ := h.static w hf
        refine ⟨hpair, ?_⟩
        -- only the writer's key of this kind is new at the reader
        by_cases hk : kind = .static
        · subst hk
          obtain ⟨dh, dh', -, hdh', -, -⟩ := hkind
          rw [hdh']
          rfl
        · rw [hpeer _ (Ne.symm hk)]
          exact hsome
      · intro hf
        rw [pairOf_not, Bool.not_not, pairOf_self, hown', hpeer']
        have hold := h.static (!w) hf
        rwa [Bool.not_not] at hold
    exact hstatic
  ephemeral := by
    have heph : ∀ side, ((pat.flags side).ephemeral = true →
        ((pairOf w a b side).own .ephemeral).isSome = true ∧
          ((pairOf w a b !side).peer .ephemeral).isSome = true) := by
      refine forall_side w ?_ ?_
      · intro hf
        rw [pairOf_self, pairOf_not]
        -- the ephemeral pair is the one that passes, or the one of before
        by_cases hk : kind = .ephemeral
        · subst hk
          obtain ⟨dh, dh', hdh, hdh', -, -⟩ := hkind
          exact ⟨by rw [hdh]; rfl, by rw [hdh']; rfl⟩
        · rw [hown _ (Ne.symm hk), hpeer _ (Ne.symm hk)]
          exact h.ephemeral w hf
      · intro hf
        rw [pairOf_not, Bool.not_not, pairOf_self, hown', hpeer']
        have hold := h.ephemeral (!w) hf
        rwa [Bool.not_not] at hold
    exact heph
  passed := by
    refine forall_side w ?_ ?_
    · intro kind' hk'
      rw [pairOf_self, pairOf_not]
      by_cases hk : kind' = kind
      · exact hk ▸ hkind
      · rw [hown _ hk, hpeer _ hk]
        refine h.passed w kind' ?_
        simpa [Passed.pass, hk] using hk'
    · intro kind' hk'
      rw [pairOf_not, Bool.not_not, pairOf_self, hown', hpeer']
      have hold := h.passed (!w) kind' (by simpa [Passed.pass] using hk')
      rwa [Bool.not_not] at hold

/-- `e`: a fresh key in the clear. -/
theorem InSync.tokenE (hc : c.Correct) (h : InSync c pat priv k st)
    (hf : (pat.flags w).ephemeral = true) (rand : NoiseKey) {room : Nat} (hroom : 32 ≤ room) :
    TokenDone c pat priv rand room st w (k.pass w .ephemeral) .e := by
  obtain ⟨hlocal, hremote⟩ := h.ephemeral w hf
  let dh := noiseDhstateGenerateKeypair c rand
  have hlen : dh.publicKey.val.length = 32 := dh.publicKey.property
  have hpub : dh.publicKey = c.basepoint dh.privateKey := rfl
  let s := (st w).symmetric.mixHash c dh.publicKey.val
  let dh' : DHState := { keyType := .publicKey, publicKey := copyAt 32 dh.publicKey.val 0 }
  let a : HandshakeState := { st w with dhLocalEphemeral := some dh, symmetric := s }
  let b : HandshakeState := { st !w with dhRemoteEphemeral := some dh', symmetric := s }
  have hsame : dh'.publicKey = dh.publicKey := copyAt_self dh.publicKey
  refine ⟨pairOf w a b, dh.publicKey.val, ?_, ?_, ?_, hlen, ?_, ?_⟩
  · rw [pairOf_self]
    unfold writeToken
    dsimp only [NoiseToken.dh]
    rw [if_neg (by rw [Option.isNone_eq_false_iff.mpr hlocal]; decide), if_neg (by omega)]
  · intro rest
    rw [pairOf_not]
    have htake : (dh.publicKey.val ++ rest).take 32 = dh.publicKey.val := List.take_left' hlen
    have hdrop : (dh.publicKey.val ++ rest).drop 32 = rest := List.drop_left' hlen
    unfold readToken
    dsimp only [NoiseToken.dh]
    rw [if_neg (by rw [Option.isNone_eq_false_iff.mpr hremote]; decide),
      if_neg (by rw [List.length_append]; omega), htake, hdrop, noiseDhstateSetPublicKey,
      if_pos hlen]
    dsimp only
    -- no public key is null
    rw [if_neg (show ¬ dh'.publicKey = zeros 32 by rw [hsame, hpub]; exact hc.basepoint_ne _),
      h.symmetric_eq (!w) w]
  · refine h.pass (h.role w) (h.role !w) rfl
      ⟨dh, dh', rfl, rfl, ⟨rfl, hpub⟩, hsame⟩ rfl ?_ ?_ (fun kind' => by cases kind' <;> rfl)
      fun kind' => by cases kind' <;> rfl
    · intro kind' hk
      cases kind' with
      | static => rfl
      | ephemeral => exact absurd rfl hk
    · intro kind' hk
      cases kind' with
      | static => rfl
      | ephemeral => exact absurd rfl hk
  · rw [pairOf_self]
    rfl
  · rw [pairOf_self]
    exact Nat.le_succ _

/-- `s`: the static key, sealed once there is a key to seal it with. -/
theorem InSync.tokenS (hc : c.Correct) (h : InSync c pat priv k st)
    (hf : (pat.flags w).static = true) (rand : NoiseKey) {room : Nat}
    (hn : (st w).symmetric.cipher.n ≠ 0xFFFFFFFFFFFFFFFF)
    (hroom : 32 + (st w).symmetric.macLength ≤ room) :
    TokenDone c pat priv rand room st w (k.pass w .static) .s := by
  obtain ⟨hlocal, hremote⟩ := h.static w hf
  let dh := keypairOf c (priv w)
  have hpair : dh.Pair c := ⟨rfl, rfl⟩
  have hlen : dh.publicKey.val.length = 32 := dh.publicKey.property
  have hfits : dh.publicKey.val.length + (st w).symmetric.macLength ≤ room := by
    rw [hlen]
    exact hroom
  -- what one side seals the other opens, since both have the same symmetric state
  obtain ⟨s, out, hseal, hopen, houtlen, hnonce⟩ :=
    encryptAndHash_ok hc hfits (by rw [hlen]; decide) hn
  rw [hlen] at houtlen
  obtain ⟨-, hmac⟩ := encryptAndHash_cases hseal
  let dh' : DHState := { keyType := .publicKey, publicKey := copyAt 32 dh.publicKey.val 0 }
  let a : HandshakeState := { st w with symmetric := s }
  let b : HandshakeState := { st !w with dhRemoteStatic := some dh', symmetric := s }
  have hsame : dh'.publicKey = dh.publicKey := copyAt_self dh.publicKey
  refine ⟨pairOf w a b, out, ?_, ?_, ?_, houtlen, ?_, ?_⟩
  · rw [pairOf_self]
    unfold writeToken
    dsimp only [NoiseToken.dh]
    rw [hlocal]
    dsimp only
    rw [if_neg (by omega), hseal]
    simp only [a, hlocal]
  · intro rest
    rw [pairOf_not]
    have htake : (out ++ rest).take (32 + (st !w).symmetric.macLength) = out := by
      rw [h.symmetric_eq (!w) w]
      exact List.take_left' houtlen
    have hdrop : (out ++ rest).drop (32 + (st !w).symmetric.macLength) = rest := by
      rw [h.symmetric_eq (!w) w]
      exact List.drop_left' houtlen
    have hopen' : (st !w).symmetric.decryptAndHash c out = .ok (s, dh.publicKey.val) := by
      rw [h.symmetric_eq (!w) w]
      exact hopen
    unfold readToken
    dsimp only [NoiseToken.dh]
    rw [if_neg (by rw [Option.isNone_eq_false_iff.mpr hremote]; decide), if_neg
      (by rw [List.length_append, houtlen, h.symmetric_eq (!w) w]; omega), htake, hdrop, hopen']
    dsimp only
    rw [noiseDhstateSetPublicKey, if_pos hlen]
  · -- the static key is the one that has passed
    refine h.pass (h.role w) (h.role !w) rfl
      ⟨dh, dh', hlocal, rfl, hpair, hsame⟩ rfl ?_ ?_ (fun kind' => by cases kind' <;> rfl)
      fun kind' => by cases kind' <;> rfl
    · intro kind' _
      cases kind' <;> rfl
    · intro kind' hk
      cases kind' with
      | static => exact absurd rfl hk
      | ephemeral => rfl
  · rw [pairOf_self]
    exact hmac
  · rw [pairOf_self]
    exact hnonce

/-- A secret, of which nothing is sent. -/
theorem InSync.tokenDh (hc : c.Correct) (h : InSync c pat priv k st) {t : NoiseToken}
    {keys : KeyKind × KeyKind} (ht : t.dh = some keys) (h1 : k true keys.1 = true)
    (h2 : k false keys.2 = true) (rand : NoiseKey) (room : Nat) :
    TokenDone c pat priv rand room st w k t := by
  obtain ⟨shared, hmix⟩ := h.mix hc h1 h2
  refine ⟨_, [], ?_, ?_, h.setSymmetric ((st true).symmetric.mixKey c shared.val), ?_, ?_, ?_⟩
  · unfold writeToken
    rw [ht]
    dsimp only
    rw [hmix w]
    rfl
  · intro rest
    unfold readToken
    rw [ht]
    dsimp only
    rw [hmix !w]
    rfl
  · cases t <;> first | rfl | cases ht
  · unfold NoiseToken.mac
    rw [ht]
    rfl
  · exact Nat.zero_le _

/-- **One token** that may come where it comes. -/
theorem InSync.token (hc : c.Correct) (h : InSync c pat priv k st) {t : NoiseToken}
    (hpass : pat.passes w k t = some k') (rand : NoiseKey) {room : Nat}
    (hn : (st w).symmetric.cipher.n ≠ 0xFFFFFFFFFFFFFFFF)
    (hroom : t.len (st w).symmetric.macLength ≤ room) :
    TokenDone c pat priv rand room st w k' t := by
  unfold NoisePattern.passes at hpass
  cases hdh : t.dh with
  -- a DH token needs keys that have passed
  | some keys =>
    rw [hdh] at hpass
    dsimp only at hpass
    split at hpass
    · next hkeys =>
      cases hpass
      rw [Bool.and_eq_true] at hkeys
      exact h.tokenDh hc hdh hkeys.1 hkeys.2 rand room
    · cases hpass
  | none =>
    rw [hdh] at hpass
    cases t with
    | e =>
      dsimp only at hpass
      split at hpass
      · next hf =>
        cases hpass
        exact h.tokenE hc hf rand hroom
      · cases hpass
    | s =>
      dsimp only at hpass
      split at hpass
      · next hf =>
        cases hpass
        exact h.tokenS hc hf rand hn hroom
      · cases hpass
    | flipDir => cases hpass
    | ee | es | se | ss => cases hdh

/-! ### One message -/

/-- Whose turn it is: the next writer's, with tokens left, or the split's. -/
def NextUp (pat : NoisePattern) (w : Bool) (k : Passed) (st : Bool → HandshakeState) :
    Option (List NoiseToken) → Prop
  | none => (∀ side, (st side).action = .split) ∧ pat.complete k = true
  | some ts => (st w).action = .writeMessage ∧ (st !w).action = .readMessage ∧
      (∀ side, (st side).tokens = ts) ∧ pat.check w k ts = true

/-- What the loops over a message's tokens have done. -/
structure TokensDone (c : NoiseCrypto) (pat : NoisePattern) (priv : Bool → NoiseKey)
    (rand : NoiseKey) (maxSize : Nat) (ts : List NoiseToken) (st : Bool → HandshakeState) (w : Bool) (acc : List UInt8)
    (k' : Passed) (st' : Bool → HandshakeState) (out : List UInt8) : Prop where
  write : writeTokens c rand maxSize ts (st w) acc = .ok (st' w, acc ++ out)
  read : ∀ rest, readTokens c ts (st !w) (out ++ rest) = .ok (st' !w, rest)
  sync : InSync c pat priv k' st'
  next : NextUp pat (!w) k' st' (afterMessage ts)
  length : out.length + (st' w).symmetric.macLength = messageLen (st w).symmetric.macLength ts
  mac : (st' w).symmetric.macLength = macAfter (st w).symmetric.macLength ts
  nonce : (st' w).symmetric.cipher.n.toNat + ((afterMessage ts).getD []).length ≤
    (st w).symmetric.cipher.n.toNat + ts.length

theorem check_cons {t : NoiseToken} {ts : List NoiseToken} (ht : t ≠ .flipDir)
    (h : pat.check w k (t :: ts) = true) :
    ∃ k', pat.passes w k t = some k' ∧ pat.check w k' ts = true := by
  have hstep : pat.check w k (t :: ts) =
      match pat.passes w k t with
      | some k => pat.check w k ts
      | none => false := by
    cases t <;> first | rfl | exact absurd rfl ht
  rw [hstep] at h
  cases hp : pat.passes w k t with
  | none =>
    rw [hp] at h
    cases h
  | some k' =>
    rw [hp] at h
    exact ⟨k', rfl, h⟩

/-- The token loops, step by step. -/
theorem TokensDone.cons {rand : NoiseKey} {maxSize : Nat} {t : NoiseToken}
    {ts : List NoiseToken} {st1 st' : Bool → HandshakeState} {acc out1 out : List UInt8}
    (ht : t ≠ .flipDir)
    (hwrite : writeToken c rand (maxSize - acc.length) (st w) t = .ok (st1 w, out1))
    (hread : ∀ rest, readToken c (st !w) (out1 ++ rest) t = .ok (st1 !w, rest))
    (hlen : out1.length = t.len (st w).symmetric.macLength)
    (hmac : (st1 w).symmetric.macLength = t.mac (st w).symmetric.macLength)
    (hnonce : (st1 w).symmetric.cipher.n.toNat ≤ (st w).symmetric.cipher.n.toNat + 1)
    (h : TokensDone c pat priv rand maxSize ts st1 w (acc ++ out1) k' st' out) :
    TokensDone c pat priv rand maxSize (t :: ts) st w acc k' st' (out1 ++ out) where
  write := by rw [writeTokens_cons ht ts hwrite, h.write, List.append_assoc]
  read rest := by
    rw [List.append_assoc, readTokens_cons ht ts (hread _)]
    exact h.read rest
  sync := h.sync
  next := by
    rw [afterMessage_cons ht]
    exact h.next
  length := by
    rw [messageLen_cons ht, List.length_append, Nat.add_assoc, h.length, hmac, hlen]
  mac := by rw [macAfter_cons ht, h.mac, hmac]
  nonce := by
    have hrest := h.nonce
    rw [afterMessage_cons ht, List.length_cons]
    omega

/-- The last message ends with the tokens. -/
theorem InSync.tokensEnd (h : InSync c pat priv k st) (hcheck : pat.complete k = true) (rand : NoiseKey) (maxSize : Nat)
    (acc : List UInt8) :
    TokensDone c pat priv rand maxSize [] st w acc k
      (fun side => { st side with tokens := [], action := .split }) [] where
  write := by
    rw [List.append_nil]
    rfl
  read _ := rfl
  sync := h.setTurn (fun _ => []) fun _ => .split
  next := ⟨fun _ => rfl, hcheck⟩
  length := Nat.zero_add _
  mac := rfl
  nonce := Nat.le_refl _

/-- A change of direction ends a message. -/
theorem InSync.tokensFlip (h : InSync c pat priv k st) {ts : List NoiseToken}
    (hcheck : pat.check (!w) k ts = true) (rand : NoiseKey) (maxSize : Nat) (acc : List UInt8) :
    TokensDone c pat priv rand maxSize (.flipDir :: ts) st w acc k
      (fun side => { st side with
        tokens := ts, action := if side = w then .readMessage else .writeMessage }) [] where
  write := by
    rw [List.append_nil, if_pos rfl]
    rfl
  read rest := by
    rw [if_neg (Bool.not_ne_self w)]
    rfl
  sync := h.setTurn (fun _ => ts) fun side => if side = w then .readMessage else .writeMessage
  next := by
    refine ⟨if_neg (Bool.not_ne_self w), ?_, fun _ => rfl, hcheck⟩
    rw [Bool.not_not]
    exact if_pos rfl
  length := Nat.zero_add _
  mac := rfl
  nonce := Nat.add_le_add_left (Nat.le_succ _) _

/-- **The tokens of a message**: what the writer's loop makes of them, the reader's loop takes. -/
theorem InSync.tokens (hc : c.Correct) (rand : NoiseKey) {maxSize : Nat} {ts : List NoiseToken}
    {acc : List UInt8} (h : InSync c pat priv k st) (hcheck : pat.check w k ts = true)
    (hn : (st w).symmetric.cipher.n.toNat + ts.length < 2 ^ 64 - 1)
    (hroom : acc.length + messageLen (st w).symmetric.macLength ts ≤ maxSize) :
    ∃ k' st' out, TokensDone c pat priv rand maxSize ts st w acc k' st' out := by
  induction ts generalizing k st acc with
  | nil => exact ⟨k, _, [], h.tokensEnd hcheck rand maxSize acc⟩
  | cons t ts ih =>
    by_cases ht : t = .flipDir
    · subst ht
      exact ⟨k, _, [], h.tokensFlip hcheck rand maxSize acc⟩
    · obtain ⟨k1, hpass, hcheck1⟩ := check_cons ht hcheck
      have hstep : messageLen (st w).symmetric.macLength (t :: ts) =
          t.len (st w).symmetric.macLength +
            messageLen (t.mac (st w).symmetric.macLength) ts := by
        cases t <;> first | rfl | exact absurd rfl ht
      rw [hstep] at hroom
      rw [List.length_cons] at hn
      have hnonce : (st w).symmetric.cipher.n ≠ 0xFFFFFFFFFFFFFFFF := by
        intro heq
        rw [heq, show (0xFFFFFFFFFFFFFFFF : UInt64).toNat = 2 ^ 64 - 1 from rfl] at hn
        omega
      have hfit : t.len (st w).symmetric.macLength ≤ maxSize - acc.length := by omega
      obtain ⟨st1, out1, hwrite, hread, hsync, hlen, hmac, hnext⟩ :=
        h.token hc hpass rand hnonce hfit
      have hroom1 : (acc ++ out1).length + messageLen (st1 w).symmetric.macLength ts ≤ maxSize := by
        rw [hmac, List.length_append, hlen]
        omega
      obtain ⟨k', st', out, hrest⟩ := ih hsync hcheck1 (by omega) hroom1
      exact ⟨k', st', out1 ++ out, .cons ht hwrite hread hlen hmac hnext hrest⟩

/-- A message goes from the writer to the reader. -/
def exchange (c : NoiseCrypto) (maxSize payloadMax : Nat) (w : Bool) (st : Bool → HandshakeState)
    (rand : NoiseKey) (payload : List UInt8) :
    Except HandshakeError ((Bool → HandshakeState) × List UInt8) :=
  match noiseHandshakestateWriteMessage c rand maxSize (st w) payload with
  | (.error err, _) => .error err
  | (.ok msg, a) =>
    match noiseHandshakestateReadMessage c payloadMax (st !w) msg with
    | (.error err, _) => .error err
    | (.ok out, b) => .ok (pairOf w a b, out)

/-- A pair in front of a message of `w`. -/
structure TurnReady (c : NoiseCrypto) (pat : NoisePattern) (priv : Bool → NoiseKey) (w : Bool)
    (k : Passed) (ts : List NoiseToken) (st : Bool → HandshakeState) : Prop where
  sync : InSync c pat priv k st
  next : NextUp pat w k st (some ts)

/-- **A message** of the pattern arrives as it was written. -/
theorem TurnReady.message (hc : c.Correct) {ts : List NoiseToken} (h : TurnReady c pat priv w k ts st)
    (rand : NoiseKey) {maxSize payloadMax : Nat} {payload : List UInt8}
    (hn : (st w).symmetric.cipher.n.toNat + ts.length < 2 ^ 64 - 2)
    (hroom : payload.length + messageLen (st w).symmetric.macLength ts ≤ maxSize)
    (hmax : payload.length ≤ payloadMax) (hlen : payload.length + macLen ≤ noiseMaxPayloadLen) :
    ∃ k' st' msg,
      noiseHandshakestateWriteMessage c rand maxSize (st w) payload = (.ok msg, st' w) ∧
      noiseHandshakestateReadMessage c payloadMax (st !w) msg = (.ok payload, st' !w) ∧
      InSync c pat priv k' st' ∧ NextUp pat (!w) k' st' (afterMessage ts) ∧
      msg.length = payload.length + messageLen (st w).symmetric.macLength ts ∧
      (st' w).symmetric.macLength = macAfter (st w).symmetric.macLength ts ∧
      (st' w).symmetric.cipher.n.toNat + ((afterMessage ts).getD []).length ≤
        (st w).symmetric.cipher.n.toNat + ts.length + 1 := by
  obtain ⟨hwr, hrd, htok, hcheck⟩ := h.next
  have hstart : ([] : List UInt8).length + messageLen (st w).symmetric.macLength ts ≤ maxSize := by
    rw [List.length_nil]
    omega
  -- the tokens first, then the payload, sealed if there is a key by now
  obtain ⟨k', st1, out, hdone⟩ := h.sync.tokens hc rand hcheck (by omega) hstart
  have hout := hdone.length
  have hnonce := hdone.nonce
  have hlast : (st1 w).symmetric.cipher.n ≠ 0xFFFFFFFFFFFFFFFF := by
    intro heq
    rw [heq, show (0xFFFFFFFFFFFFFFFF : UInt64).toNat = 2 ^ 64 - 1 from rfl] at hnonce
    omega
  have hfits : payload.length + (st1 w).symmetric.macLength ≤ maxSize - out.length := by omega
  obtain ⟨s, sealed, hseal, hopen, hsealed, hnext⟩ := encryptAndHash_ok hc hfits hlen hlast
  obtain ⟨-, hmac⟩ := encryptAndHash_cases hseal
  refine ⟨k', fun side => { st1 side with symmetric := s }, out ++ sealed, ?_, ?_,
    hdone.sync.setSymmetric s, ?_, ?_, hmac.trans hdone.mac,
    le_trans (Nat.add_le_add_right hnext _) (by omega)⟩
  · have hloop := hdone.write
    rw [List.nil_append] at hloop
    rw [noiseHandshakestateWriteMessage, if_neg (not_not_intro hwr), noiseHandshakestateWrite,
      htok w, hloop]
    dsimp only
    rw [if_neg (by omega), if_neg (by omega), hseal]
  · -- both sides have the same symmetric state before the payload
    have hopen' : (st1 !w).symmetric.decryptAndHash c sealed = .ok (s, payload) := by
      rw [hdone.sync.symmetric_eq (!w) w]
      exact hopen
    rw [noiseHandshakestateReadMessage, if_neg (not_not_intro hrd), noiseHandshakestateRead,
      htok !w, hdone.read]
    dsimp only
    rw [hopen']
    dsimp only
    rw [if_neg (Nat.not_lt.mpr hmax)]
  · have hturn := hdone.next
    cases hafter : afterMessage ts with
    | none =>
      rw [hafter] at hturn
      exact hturn
    | some ts' =>
      rw [hafter] at hturn
      exact hturn
  · rw [List.length_append]
    omega

/-! ### The whole handshake -/

/-- A pair is given by its two states. -/
theorem pairOf_eta (w : Bool) (st : Bool → HandshakeState) : pairOf w (st w) (st !w) = st :=
  funext (forall_side w (pairOf_self _ _ _) (pairOf_not _ _ _))

/-- The messages of a handshake in turn, each with the key drawn for it and its payload; what the
readers got. -/
def exchanges (c : NoiseCrypto) (maxSize payloadMax : Nat) :
    Bool → (Bool → HandshakeState) → List (NoiseKey × List UInt8) →
      Except HandshakeError ((Bool → HandshakeState) × List (List UInt8))
  | _, st, [] => .ok (st, [])
  | w, st, (rand, payload) :: ms =>
    match exchange c maxSize payloadMax w st rand payload with
    | .error err => .error err
    | .ok (st, out) =>
      (exchanges c maxSize payloadMax (!w) st ms).map fun (st, outs) => (st, out :: outs)

/-- **A whole handshake** from any message on: the induction is on the messages left, and `TurnReady`
is what holds before each. -/
theorem TurnReady.exchanges (hc : c.Correct) {maxSize payloadMax : Nat}
    {ms : List (NoiseKey × List UInt8)} {ts : List NoiseToken} (h : TurnReady c pat priv w k ts st)
    (hms : ms.length = messageCount ts)
    (hn : (st w).symmetric.cipher.n.toNat + ts.length + ms.length < 2 ^ 64 - 2)
    (hfits : Fits maxSize payloadMax (st w).symmetric.macLength ts ms) :
    ∃ k' st', Bitle.exchanges c maxSize payloadMax w st ms = .ok (st', ms.map Prod.snd) ∧
      InSync c pat priv k' st' ∧ pat.complete k' = true ∧ ∀ side, (st' side).action = .split := by
  induction ms generalizing w k st ts with
  | nil =>
    have hpos : ∀ ts, messageCount ts ≠ 0 := by
      intro ts
      induction ts with
      | nil => exact Nat.one_ne_zero
      | cons t ts ih => cases t <;> first | exact ih | exact Nat.succ_ne_zero _
    exact absurd hms.symm (hpos ts)
  | cons m ms ih =>
    obtain ⟨rand, payload⟩ := m
    obtain ⟨hroom, hmax, hlen, hrest⟩ := hfits
    rw [List.length_cons] at hms hn
    obtain ⟨k1, st1, msg, hwrite, hread, hsync, hturn, -, hmac, hnonce⟩ :=
      h.message hc rand (by omega) hroom hmax hlen
    have hone : exchange c maxSize payloadMax w st rand payload = .ok (st1, payload) := by
      unfold exchange
      rw [hwrite]
      dsimp only
      rw [hread]
      dsimp only
      rw [pairOf_eta]
    have hside : (st1 !w).symmetric = (st1 w).symmetric := hsync.symmetric_eq (!w) w
    cases hms' : ms with
    | nil =>
      -- the last message
      rw [hms'] at hms
      rw [afterMessage_eq_none hms.symm] at hturn
      refine ⟨k1, st1, ?_, hsync, hturn.2, hturn.1⟩
      rw [Bitle.exchanges, hone]
      rfl
    | cons m' ms' =>
      rw [hms', List.length_cons] at hms
      obtain ⟨ts', hts', hcount⟩ := afterMessage_eq_some hms.symm
      rw [hts'] at hturn hnonce hrest
      rw [Option.getD_some] at hnonce hrest
      have hready : TurnReady c pat priv (!w) k1 ts' st1 := ⟨hsync, hturn⟩
      obtain ⟨k', st', hrun, hdone⟩ := ih hready (by rw [hms', List.length_cons, hcount])
        (by rw [hside]; omega) (by rw [hside, hmac]; exact hrest)
      refine ⟨k', st', ?_, hdone⟩
      rw [Bitle.exchanges, hone, ← hms']
      dsimp only
      rw [hrun]
      rfl

/-- A party before its handshake starts: `noise_handshakestate_new`, then its prologue, its own
static key pair and the static key it must know beforehand. -/
def newParty (c : NoiseCrypto) (name : List UInt8) (pat : NoisePattern) (prologue : List UInt8)
    (priv : Bool → NoiseKey) (side : Bool) : HandshakeState :=
  let st := noiseHandshakestateNew c name pat side
  { st with
    prologue := prologue
    dhLocalStatic := st.dhLocalStatic.map fun _ => keypairOf c (priv side)
    dhRemoteStatic := st.dhRemoteStatic.map fun dh =>
      if st.requirements.remoteRequired then
        { keyType := .publicKey, publicKey := c.basepoint (priv !side) }
      else dh }

/-- The symmetric state of a pair that starts: the prologue and the keys known beforehand. -/
def startSymmetric (c : NoiseCrypto) (name : List UInt8) (pat : NoisePattern)
    (prologue : List UInt8) (priv : Bool → NoiseKey) : SymmetricState :=
  let s := (noiseSymmetricstateNew c name).mixHash c prologue
  let s := if (pat.flags true).required then s.mixHash c (c.basepoint (priv true)).val else s
  if (pat.flags false).required then s.mixHash c (c.basepoint (priv false)).val else s

/-- **Both parties start**, the initiator to write. -/
theorem newParty_start (c : NoiseCrypto) {pat : NoisePattern} (hpat : pat.WellFormed)
    (name prologue : List UInt8) (priv : Bool → NoiseKey) (side : Bool) :
    noiseHandshakestateStart c (newParty c name pat prologue priv side) =
      .ok { newParty c name pat prologue priv side with
        symmetric := startSymmetric c name pat prologue priv
        action := if side then .writeMessage else .readMessage } := by
  have htrue := hpat.1 true
  have hfalse := hpat.1 false
  cases side <;> cases h1 : (pat.flags true).required <;> cases h2 : (pat.flags false).required <;>
    cases h3 : (pat.flags true).static <;> cases h4 : (pat.flags false).static <;>
    simp_all [noiseHandshakestateStart, newParty, startSymmetric, noiseHandshakestateNew,
      noiseHandshakestateRequirements, hasKeypair, hasPublicKey, mixPublicKey, keypairOf]

/-- The pair that has started has the keys known beforehand in common. -/
theorem newParty_ready {c : NoiseCrypto} {pat : NoisePattern} (hpat : pat.WellFormed)
    (name prologue : List UInt8) (priv : Bool → NoiseKey) :
    TurnReady c pat priv true pat.known pat.tokens fun side =>
      { newParty c name pat prologue priv side with
        symmetric := startSymmetric c name pat prologue priv
        action := if side then .writeMessage else .readMessage } where
  sync :=
    { role := fun _ => rfl
      symmetric := fun _ => rfl
      static := by
        intro side hf
        cases side <;> simp [newParty, noiseHandshakestateNew, hf]
      ephemeral := by
        intro side hf
        cases side <;> simp [newParty, noiseHandshakestateNew, hf]
      passed := by
        intro side kind hk
        obtain ⟨hkind, hreq⟩ : (kind == .static) = true ∧ (pat.flags side).required = true := by
          simpa only [NoisePattern.known, Bool.and_eq_true] using hk
        obtain rfl := eq_of_beq hkind
        have hf := hpat.1 side hreq
        refine ⟨keypairOf c (priv side),
          { keyType := .publicKey, publicKey := c.basepoint (priv side) }, ?_, ?_, ⟨rfl, rfl⟩, rfl⟩
        · simp [newParty, noiseHandshakestateNew, HandshakeState.own, hf]
        · cases side <;> simp [newParty, noiseHandshakestateNew, noiseHandshakestateRequirements,
            HandshakeState.peer, hf, hreq] }
  next := ⟨rfl, rfl, fun _ => rfl, hpat.2⟩

/-- The table's patterns are short. -/
theorem noisePatterns_length :
    ∀ pat ∈ noisePatterns, pat.tokens.length + messageCount pat.tokens ≤ 12 := by decide

/-- **Both ends agree.** A handshake of any pattern of the table whose messages arrive as they were
written delivers every payload and ends on both sides: with one handshake hash, with ciphers that
cross, and with the static key of the other side, where the pattern uses one. -/
theorem handshake_agrees {c : NoiseCrypto} (hc : c.Correct) {pat : NoisePattern}
    (hpat : pat ∈ noisePatterns) (name prologue : List UInt8) (priv : Bool → NoiseKey)
    {maxSize payloadMax : Nat} {ms : List (NoiseKey × List UInt8)}
    (hms : ms.length = messageCount pat.tokens) (hfits : Fits maxSize payloadMax 0 pat.tokens ms) :
    ∃ st st' : Bool → HandshakeState,
      (∀ side, noiseHandshakestateStart c (newParty c name pat prologue priv side) =
        .ok (st side)) ∧
      exchanges c maxSize payloadMax true st ms = .ok (st', ms.map Prod.snd) ∧
      (∃ h, ∀ side, noiseHandshakestateGetHandshakeHash (st' side) = some h) ∧
      (∃ c1 c2, (noiseHandshakestateSplit c (st' true)).1 = .ok (c1, c2) ∧
        (noiseHandshakestateSplit c (st' false)).1 = .ok (c2, c1)) ∧
      ∀ side, (pat.flags side).static = true →
        ((st' !side).dhRemoteStatic.map DHState.publicKey) = some (c.basepoint (priv side)) := by
  have hwell := noisePatterns_wellFormed pat hpat
  have hshort := noisePatterns_length pat hpat
  have hnokey : (startSymmetric c name pat prologue priv).cipher = ⟨none, 0⟩ := by
    unfold startSymmetric
    repeat' split
    all_goals rfl
  have hready := newParty_ready (c := c) hwell name prologue priv
  -- at the end both sides are in step, and every key of the pattern has passed
  obtain ⟨k, st', hrun, hsync, hcomplete, hsplit⟩ := hready.exchanges hc hms
    (by
      dsimp only
      rw [hnokey, hms, show (0 : UInt64).toNat = 0 from rfl]
      omega)
    (by
      unfold SymmetricState.macLength
      dsimp only
      rw [hnokey]
      exact hfits)
  have hsym : (st' false).symmetric = (st' true).symmetric := hsync.symmetric false
  refine ⟨_, st', newParty_start c hwell name prologue priv, hrun, ?_, ?_, ?_⟩
  · refine ⟨(st' true).symmetric.h, ?_⟩
    intro side
    rw [noiseHandshakestateGetHandshakeHash, if_pos (.inl (hsplit side)), hsync.symmetric side]
  · refine ⟨((st' true).symmetric.split c).1, ((st' true).symmetric.split c).2, ?_, ?_⟩
    · rw [noiseHandshakestateSplit, if_neg (not_not_intro (hsplit true)), hsync.role true]
      rfl
    · rw [noiseHandshakestateSplit, if_neg (not_not_intro (hsplit false)), hsync.role false, hsym]
      rfl
  · intro side hf
    have hpassed : k side .static = true := by
      have hall := List.all_eq_true.mp hcomplete side (by cases side <;> decide)
      rw [hf] at hall
      exact hall
    obtain ⟨dh, dh', hown, hpeer, -, hpub⟩ := hsync.passed side .static hpassed
    have hlocal : (st' side).own .static = some (keypairOf c (priv side)) := (hsync.static side hf).1
    rw [hlocal] at hown
    cases hown
    change ((st' !side).peer .static).map DHState.publicKey = _
    rw [hpeer, Option.map_some, hpub]
    rfl

end Pair

theorem handshake_agrees_xx :
    ∃ st : Bool → HandshakeState,
      (∀ side, noiseHandshakestateStart toyCrypto
        (newParty toyCrypto noiseProtocolName noisePatternXX [] (fun _ => zeros 32) side) =
          .ok (st side)) ∧
      (exchanges toyCrypto 256 256 true st
        [(zeros 32, []), (zeros 32, [1]), (zeros 32, [])]).map Prod.snd = .ok [[], [1], []] := by
  obtain ⟨st, st', hstart, hrun, -⟩ := @handshake_agrees toyCrypto toyCrypto_correct noisePatternXX
    (by decide) noiseProtocolName [] (fun _ => zeros 32) 256 256
    [(zeros 32, []), (zeros 32, [1]), (zeros 32, [])] rfl (by decide)
  refine ⟨st, hstart, ?_⟩
  rw [hrun]
  rfl

end Bitle
