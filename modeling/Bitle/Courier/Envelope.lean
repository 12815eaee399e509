import Bitle.Lib.Bytes

/-!
# Bitle — courier envelopes (`main/bitle_courier.c`)

The TLV format of a courier envelope, its canonical encoding, and the rotating recipient tags.
SHA-256 and HMAC-SHA256 come from the platform and are parameters (`CourierHash`).
-/

namespace Bitle

open Wire

/-- The hash functions of `bitle_hash.h`. -/
structure CourierHash where
  sha256 : List UInt8 → Bytes 32
  hmacSha256 : List UInt8 → List UInt8 → Bytes 32

def courierTagLen : Nat := 16
def courierMaxCopies : UInt8 := 8

/-- `TAG_CONTEXT`: "bitchat-courier-tag-v1". -/
def courierTagContext : List UInt8 :=
  [0x62, 0x69, 0x74, 0x63, 0x68, 0x61, 0x74, 0x2D, 0x63, 0x6F, 0x75, 0x72, 0x69, 0x65, 0x72, 0x2D,
    0x74, 0x61, 0x67, 0x2D, 0x76, 0x31]

/-- `envelope_t`; `prekeyId` is `none` while `has_prekey_id` is false. -/
structure Envelope where
  recipientTag : Bytes 16 := zeros 16
  expiryMs : UInt64 := 0
  ciphertext : List UInt8 := []
  copies : UInt8 := 1
  prekeyId : Option UInt32 := none
  deriving DecidableEq

/-- What `parse_envelope` carries from one TLV to the next. -/
structure EnvelopeScan where
  env : Envelope := {}
  haveTag : Bool := false
  haveExpiry : Bool := false
  haveCt : Bool := false

/-- The copy count of a TLV, clamped to `1 .. MAX_COPIES`. -/
def clampCopies (b : UInt8) : UInt8 :=
  if b < 1 then 1 else if b > courierMaxCopies then courierMaxCopies else b

/-- The `switch` of `parse_envelope`: one TLV of type `t` with value `v`. Unknown types are
skipped. -/
def parseTlv (scan : EnvelopeScan) (t : UInt8) (v : List UInt8) : Option EnvelopeScan :=
  if t = 0x01 then
    if v.length ≠ courierTagLen then none
    else some { scan with env := { scan.env with recipientTag := copyAt 16 v 0 }, haveTag := true }
  else if t = 0x02 then
    if v.length ≠ 8 then none
    else some { scan with
      env := { scan.env with expiryMs := .ofNat (beNat v) }, haveExpiry := true }
  else if t = 0x03 then
    if v.length = 0 then none
    else some { scan with env := { scan.env with ciphertext := v }, haveCt := true }
  else if t = 0x04 then
    if v.length ≠ 1 then none
    else some { scan with env := { scan.env with copies := clampCopies (byteAt v 0) } }
  else if t = 0x05 then
    if v.length ≠ 4 then none
    else some { scan with env := { scan.env with prekeyId := some (.ofNat (beNat v)) } }
  else some scan

/-- The loop of `parse_envelope` over what is left of the payload. -/
def parseTlvs : Nat → List UInt8 → EnvelopeScan → Option EnvelopeScan
  | fuel + 1, t :: hi :: lo :: rest, scan =>
    let l := hi.toNat * 256 + lo.toNat
    if l > rest.length then none
    else
      match parseTlv scan t (rest.take l) with
      | none => none
      | some scan => parseTlvs fuel (rest.drop l) scan
  | _, _, scan => some scan

/-- `parse_envelope`. -/
def parseEnvelope (p : List UInt8) : Option Envelope :=
  match parseTlvs p.length p {} with
  | none => none
  | some scan => if scan.haveTag && scan.haveExpiry && scan.haveCt then some scan.env else none

/-- The bytes of the canonical encoding, in the order of `encode_envelope`. -/
def Envelope.bytes (env : Envelope) (copies : UInt8) : List UInt8 :=
  [0x01, 0, 16] ++ env.recipientTag.val ++ [0x02, 0, 8] ++ beBytes 8 env.expiryMs.toNat ++
    (0x03 :: beBytes 2 env.ciphertext.length) ++ env.ciphertext ++
    (if copies > 1 then [0x04, 0, 1, copies] else []) ++
    (match env.prekeyId with
      | none => []
      | some id => [0x05, 0, 4] ++ beBytes 4 id.toNat)

/-- `encode_envelope`, `none` for a return of 0. `need` is a `uint16_t`. -/
def encodeEnvelope (env : Envelope) (copies : UInt8) (outMax : Nat) : Option (List UInt8) :=
  let need : UInt16 := .ofNat (3 + courierTagLen + 3 + 8 + 3 + env.ciphertext.length +
    (if copies > 1 then 4 else 0) + (if env.prekeyId.isSome then 7 else 0))
  if need.toNat > outMax then none else some (env.bytes copies)

/-- `tag_for_day`. -/
def tagForDay (hash : CourierHash) (noiseKey : Bytes 32) (epochDay : UInt32) : Bytes 16 :=
  copyAt 16 (hash.hmacSha256 noiseKey.val (courierTagContext ++ beBytes 4 epochDay.toNat)).val 0

/-- `candidate_tags`: yesterday, today and tomorrow. -/
def candidateTags (hash : CourierHash) (noiseKey : Bytes 32) (nowMs : UInt64) : List (Bytes 16) :=
  let day : UInt32 := (nowMs / 1000 / 86400).toUInt32
  [tagForDay hash noiseKey (if day = 0 then 0 else day - 1), tagForDay hash noiseKey day,
    tagForDay hash noiseKey (day + 1)]

/-- `envelope_key`. -/
def envelopeKey (hash : CourierHash) (env : Envelope) : Bytes 16 :=
  copyAt 16 (hash.sha256 env.ciphertext).val 0

/-- `tag_matches`. -/
def tagMatches (env : Envelope) (tags : List (Bytes 16)) : Bool :=
  tags.any fun tag => env.recipientTag == tag

/-! ## Round trip -/

/-- One TLV. -/
def tlv (t : UInt8) (v : List UInt8) : List UInt8 := t :: (beBytes 2 v.length ++ v)

/-- The loop takes one TLV at a time. -/
theorem parseTlvs_tlv {v : List UInt8} (hlen : v.length < 65536) (fuel : Nat) (t : UInt8)
    (rest : List UInt8) (scan : EnvelopeScan) :
    parseTlvs (fuel + 1) (tlv t v ++ rest) scan =
      (parseTlv scan t v).bind (parseTlvs fuel rest) := by
  have hbytes : tlv t v ++ rest = t :: UInt8.ofNat (v.length / 256) :: UInt8.ofNat v.length ::
      (v ++ rest) := rfl
  have hl : (UInt8.ofNat (v.length / 256)).toNat * 256 + (UInt8.ofNat v.length).toNat =
      v.length := by
    simp only [UInt8.toNat_ofNat']
    omega
  rw [hbytes, parseTlvs, hl, if_neg (by simp), List.take_left, List.drop_left]
  cases parseTlv scan t v with
  | none => rfl
  | some scan' => rfl

/-- The encoding is its TLVs in a row. -/
theorem Envelope.bytes_eq (env : Envelope) (copies : UInt8) :
    env.bytes copies = tlv 0x01 env.recipientTag.val ++ (tlv 0x02 (beBytes 8 env.expiryMs.toNat) ++
      (tlv 0x03 env.ciphertext ++ ((if copies > 1 then tlv 0x04 [copies] else []) ++
        (env.prekeyId.elim [] fun id => tlv 0x05 (beBytes 4 id.toNat))))) := by
  have htag : tlv 0x01 env.recipientTag.val = [0x01, 0, 16] ++ env.recipientTag.val := by
    rw [tlv, env.recipientTag.property]
    rfl
  have hexpiry : tlv 0x02 (beBytes 8 env.expiryMs.toNat) =
      [0x02, 0, 8] ++ beBytes 8 env.expiryMs.toNat := by
    rw [tlv, length_beBytes]
    rfl
  have hct : tlv 0x03 env.ciphertext =
      (0x03 :: beBytes 2 env.ciphertext.length) ++ env.ciphertext := rfl
  have hcopies : tlv 0x04 [copies] = [0x04, 0, 1, copies] := by
    rw [tlv, List.length_singleton]
    rfl
  rw [htag, hexpiry, hct, hcopies, Envelope.bytes]
  simp only [List.append_assoc]
  cases env.prekeyId with
  | none => rfl
  | some id =>
    have hprekey : tlv 0x05 (beBytes 4 id.toNat) = [0x05, 0, 4] ++ beBytes 4 id.toNat := by
      rw [tlv, length_beBytes]
      rfl
    rw [Option.elim_some, hprekey]

/-- **An encoded envelope parses back**, with the copy count it was sent with. -/
theorem parseEnvelope_bytes (env : Envelope) {copies : UInt8} (h1 : 1 ≤ copies)
    (h8 : copies ≤ courierMaxCopies) (hne : env.ciphertext ≠ [])
    (hlen : env.ciphertext.length < 65536) :
    parseEnvelope (env.bytes copies) = some { env with copies } := by
  obtain ⟨fuel, hfuel⟩ : ∃ fuel, (env.bytes copies).length = fuel + 5 := by
    refine ⟨(env.bytes copies).length - 5, ?_⟩
    rw [Envelope.bytes_eq]
    simp [tlv]
    omega
  have hclamp : clampCopies copies = copies := by
    unfold clampCopies
    rw [if_neg (UInt8.not_lt.mpr h1), if_neg (UInt8.not_lt.mpr h8)]
  have hexpiry : UInt64.ofNat (beNat (beBytes 8 env.expiryMs.toNat)) = env.expiryMs := by
    rw [beNat_beBytes (Nat.lt_of_lt_of_le env.expiryMs.toNat_lt (by decide)), UInt64.ofNat_toNat]
  have hct : ¬ env.ciphertext.length = 0 := by simpa using hne
  have htag : env.recipientTag.val.length = courierTagLen := env.recipientTag.property
  have hlen2 : (beBytes 8 env.expiryMs.toNat).length = 8 := length_beBytes _ _
  -- the scan after the three TLVs that are always there
  have hscan : ∀ rest, parseTlvs (fuel + 5) (tlv 0x01 env.recipientTag.val ++
      (tlv 0x02 (beBytes 8 env.expiryMs.toNat) ++ (tlv 0x03 env.ciphertext ++ rest))) {} =
      parseTlvs (fuel + 2) rest ⟨⟨env.recipientTag, env.expiryMs, env.ciphertext, 1, none⟩,
        true, true, true⟩ := by
    intro rest
    rw [parseTlvs_tlv (by rw [htag]; decide), parseTlv, if_pos rfl, if_neg (by simp [htag]),
      Option.bind_some, parseTlvs_tlv (by rw [hlen2]; decide), parseTlv, if_neg (by decide),
      if_pos rfl, if_neg (by simp [hlen2]), Option.bind_some, parseTlvs_tlv hlen, parseTlv,
      if_neg (by decide), if_neg (by decide), if_pos rfl, if_neg hct, Option.bind_some, copyAt_self,
      hexpiry]
  -- then the copy count, unless it is the default, and the prekey id
  have hcopies : ∀ rest tag expiryMs ciphertext,
      ∃ fuel', parseTlvs (fuel + 2) ((if copies > 1 then tlv 0x04 [copies] else []) ++ rest)
          ⟨⟨tag, expiryMs, ciphertext, 1, none⟩, true, true, true⟩ =
        parseTlvs (fuel' + 1) rest ⟨⟨tag, expiryMs, ciphertext, copies, none⟩, true, true, true⟩ := by
    intro rest tag expiryMs ciphertext
    by_cases hc : copies > 1
    · refine ⟨fuel, ?_⟩
      have hbyte : byteAt [copies] 0 = copies := rfl
      rw [if_pos hc, parseTlvs_tlv (by simp), parseTlv, if_neg (by decide), if_neg (by decide),
        if_neg (by decide), if_pos rfl, if_neg (by simp), Option.bind_some, hbyte, hclamp]
    · refine ⟨fuel + 1, ?_⟩
      have hone : copies = 1 := UInt8.le_antisymm (UInt8.not_lt.mp hc) h1
      rw [if_neg hc, List.nil_append, hone]
  obtain ⟨fuel', hrest⟩ := hcopies (env.prekeyId.elim [] fun id => tlv 0x05 (beBytes 4 id.toNat))
    env.recipientTag env.expiryMs env.ciphertext
  have henv : ({ env with copies } : Envelope) =
      ⟨env.recipientTag, env.expiryMs, env.ciphertext, copies, env.prekeyId⟩ := rfl
  rw [parseEnvelope, hfuel, Envelope.bytes_eq, hscan, hrest, henv]
  cases env.prekeyId with
  | none => rfl
  | some id =>
    have hid : UInt32.ofNat (beNat (beBytes 4 id.toNat)) = id := by
      rw [beNat_beBytes (Nat.lt_of_lt_of_le id.toNat_lt (by decide)), UInt32.ofNat_toNat]
    have hlen4 : (beBytes 4 id.toNat).length = 4 := length_beBytes _ _
    have hrun := parseTlvs_tlv (by rw [hlen4]; decide) fuel' 0x05 []
      ⟨⟨env.recipientTag, env.expiryMs, env.ciphertext, copies, none⟩, true, true, true⟩
    rw [parseTlv, if_neg (by decide), if_neg (by decide), if_neg (by decide), if_neg (by decide),
      if_pos rfl, if_neg (by simp [hlen4]), Option.bind_some, hid, List.append_nil] at hrun
    have hend : ∀ k scan, parseTlvs k [] scan = some scan := by
      intro k scan
      cases k with
      | zero => rfl
      | succ k => rfl
    rw [Option.elim_some, hrun, hend]
    rfl

/-! ## Sizes

What `parse_envelope` keeps of a payload is encoded again in at most as many bytes: every TLV of
the canonical encoding stands somewhere in the payload. -/

theorem Envelope.length_bytes (env : Envelope) (copies : UInt8) :
    (env.bytes copies).length = 33 + env.ciphertext.length + (if copies > 1 then 4 else 0) +
      (if env.prekeyId.isSome then 7 else 0) := by
  unfold Envelope.bytes
  cases env.prekeyId with
  | none =>
    split <;> simp [length_beBytes, env.recipientTag.property] <;> omega
  | some id =>
    split <;> simp [length_beBytes, env.recipientTag.property] <;> omega

/-- `encode_envelope` refuses only what does not fit. -/
theorem encodeEnvelope_of_le {env : Envelope} {copies : UInt8} {outMax : Nat}
    (h : (env.bytes copies).length ≤ outMax) (hmax : outMax < 65536) :
    encodeEnvelope env copies outMax = some (env.bytes copies) := by
  rw [Envelope.length_bytes] at h
  unfold encodeEnvelope
  dsimp only
  rw [if_neg]
  rw [UInt16.toNat_ofNat']
  unfold courierTagLen
  omega

/-- What the scan has collected needs at most `n` bytes, and is what an envelope may hold. -/
structure EnvelopeScan.Within (scan : EnvelopeScan) (n : Nat) : Prop where
  size : (if scan.haveTag then 19 else 0) + (if scan.haveExpiry then 11 else 0) +
    (if scan.haveCt then 3 + scan.env.ciphertext.length else 0) +
    (if scan.env.copies > 1 then 4 else 0) + (if scan.env.prekeyId.isSome then 7 else 0) ≤ n
  copies_pos : 1 ≤ scan.env.copies
  copies_le : scan.env.copies ≤ courierMaxCopies
  ciphertext : scan.haveCt = true → scan.env.ciphertext ≠ []

theorem clampCopies_bounds (b : UInt8) : 1 ≤ clampCopies b ∧ clampCopies b ≤ courierMaxCopies := by
  unfold clampCopies
  split
  · exact ⟨by decide, by decide⟩
  · next hlo =>
    split
    · exact ⟨by decide, by decide⟩
    · next hhi => exact ⟨UInt8.not_lt.mp hlo, UInt8.not_lt.mp hhi⟩

theorem EnvelopeScan.Within.mono {scan : EnvelopeScan} {n m : Nat} (h : scan.Within n)
    (hle : n ≤ m) : scan.Within m :=
  ⟨Nat.le_trans h.size hle, h.copies_pos, h.copies_le, h.ciphertext⟩

/-- One TLV. -/
theorem EnvelopeScan.Within.parseTlv {scan scan' : EnvelopeScan} {n : Nat} (h : scan.Within n)
    {t : UInt8} {v : List UInt8} (heq : parseTlv scan t v = some scan') :
    scan'.Within (n + 3 + v.length) := by
  have hsize := h.size
  unfold Bitle.parseTlv at heq
  split at heq
  · -- the recipient's tag
    split at heq
    · cases heq
    · next hlen =>
      cases heq
      refine ⟨?_, h.copies_pos, h.copies_le, h.ciphertext⟩
      unfold courierTagLen at hlen
      dsimp only
      rw [if_pos rfl]
      split at hsize <;> omega
  · split at heq
    · -- the expiry
      split at heq
      · cases heq
      · cases heq
        refine ⟨?_, h.copies_pos, h.copies_le, h.ciphertext⟩
        dsimp only
        rw [if_pos rfl]
        omega
    · split at heq
      · -- the ciphertext
        split at heq
        · cases heq
        · next hlen =>
          cases heq
          refine ⟨?_, h.copies_pos, h.copies_le, fun _ => ?_⟩
          · dsimp only
            rw [if_pos rfl]
            omega
          · show v ≠ []
            rintro rfl
            exact hlen rfl
      · split at heq
        · -- the copies, clamped to their bounds
          split at heq
          · cases heq
          · cases heq
            have hclamp := clampCopies_bounds (byteAt v 0)
            have hcopies : (if clampCopies (byteAt v 0) > 1 then 4 else 0) ≤ 4 := by
              split <;> omega
            refine ⟨?_, hclamp.1, hclamp.2, h.ciphertext⟩
            dsimp only
            omega
        · split at heq
          · -- the prekey id
            split at heq
            · cases heq
            · cases heq
              refine ⟨?_, h.copies_pos, h.copies_le, h.ciphertext⟩
              dsimp only
              rw [Option.isSome_some, if_pos rfl]
              omega
          · cases heq
            refine ⟨?_, h.copies_pos, h.copies_le, h.ciphertext⟩
            omega

/-- The loop, by induction on the TLVs left. -/
theorem EnvelopeScan.Within.parseTlvs {fuel n : Nat} {p : List UInt8} {scan scan' : EnvelopeScan}
    (h : scan.Within n) (heq : parseTlvs fuel p scan = some scan') :
    scan'.Within (n + p.length) := by
  induction fuel generalizing n p scan with
  | zero =>
    rw [Bitle.parseTlvs] at heq
    · cases heq
      exact h.mono (Nat.le_add_right _ _)
    · exact nofun
  | succ fuel ih =>
    match p with
    | t :: hi :: lo :: rest =>
      rw [Bitle.parseTlvs] at heq
      split at heq
      · cases heq
      · next hl =>
        split at heq
        · cases heq
        · next scan1 htlv =>
          have hw := ih (h.parseTlv htlv) heq
          have hlen : n + 3 + (rest.take (hi.toNat * 256 + lo.toNat)).length +
              (rest.drop (hi.toNat * 256 + lo.toNat)).length = n + (rest.length + 1 + 1 + 1) := by
            rw [List.length_take, List.length_drop]
            omega
          rw [hlen] at hw
          exact hw
    | [] | [_] | [_, _] =>
      cases heq
      exact h.mono (Nat.le_add_right _ _)

/-- **A parsed envelope** has a copy count in range and a ciphertext, and encodes to no more bytes
than it was parsed from, with any count up to its own. -/
theorem parseEnvelope_wf {p : List UInt8} {env : Envelope} (h : parseEnvelope p = some env) :
    1 ≤ env.copies ∧ env.copies ≤ courierMaxCopies ∧ env.ciphertext ≠ [] ∧
      ∀ copies ≤ env.copies, (env.bytes copies).length ≤ p.length := by
  unfold parseEnvelope at h
  split at h
  · cases h
  · next scan hscan =>
    split at h
    · next hall =>
      cases h
      simp only [Bool.and_eq_true] at hall
      have hinit : EnvelopeScan.Within {} 0 := ⟨Nat.le_refl 0, by decide, by decide, nofun⟩
      have hw := hinit.parseTlvs hscan
      refine ⟨hw.copies_pos, hw.copies_le, hw.ciphertext hall.2, fun copies hle => ?_⟩
      have hsize := hw.size
      rw [if_pos hall.1.1, if_pos hall.1.2, if_pos hall.2, Nat.zero_add] at hsize
      have hcopies : (if copies > 1 then 4 else 0) ≤ if scan.env.copies > 1 then 4 else 0 := by
        split
        · next hc => exact Nat.le_of_eq (if_pos (Std.lt_of_lt_of_le hc hle)).symm
        · exact Nat.zero_le _
      rw [Envelope.length_bytes]
      omega
    · cases h

/-- **Round trip and size.** What is encoded with room for it parses back, with the copy count it
was encoded with; and what was parsed from a payload, whatever else stood in it, is encoded again
within the payload's length, with any count up to the parsed one. -/
theorem envelope_reencodes :
    (∀ (env : Envelope) (copies : UInt8) (outMax : Nat), env.ciphertext ≠ [] → 1 ≤ copies →
      copies ≤ courierMaxCopies → outMax < 65536 → (env.bytes copies).length ≤ outMax →
      ∃ out, encodeEnvelope env copies outMax = some out ∧
        parseEnvelope out = some { env with copies }) ∧
    ∀ (p : List UInt8) (env : Envelope), p.length < 65536 → parseEnvelope p = some env →
      ∀ copies ≤ env.copies, ∃ out, encodeEnvelope env copies p.length = some out ∧
        out.length ≤ p.length := by
  constructor
  · intro env copies outMax hne h1 h8 hmax hroom
    have hlen : env.ciphertext.length < 65536 := by
      rw [Envelope.length_bytes] at hroom
      omega
    exact ⟨_, encodeEnvelope_of_le hroom hmax, parseEnvelope_bytes env h1 h8 hne hlen⟩
  · intro p env hmax hparse copies hcopies
    obtain ⟨-, -, -, hlen⟩ := parseEnvelope_wf hparse
    exact ⟨_, encodeEnvelope_of_le (hlen copies hcopies) hmax, hlen copies hcopies⟩

/-- A letter with an unknown TLV and a second expiry time. -/
def repeatedTlvs : List UInt8 :=
  tlv 0x02 (beBytes 8 5) ++ tlv 0x77 [1, 2, 3] ++ tlv 0x01 (zeros 16).val ++
    tlv 0x03 [0xC0, 0xC1] ++ tlv 0x04 [200] ++ tlv 0x02 (beBytes 8 9)

theorem envelope_reencodes_repeatedTlvs :
    ∃ env out, parseEnvelope repeatedTlvs = some env ∧ env.expiryMs = 9 ∧ env.copies = 8 ∧
      encodeEnvelope env 8 repeatedTlvs.length = some out ∧ out.length ≤ repeatedTlvs.length := by
  obtain ⟨out, hout, hlen⟩ := envelope_reencodes.2 repeatedTlvs
    ⟨zeros 16, 9, [0xC0, 0xC1], 8, none⟩ (by decide) (by decide +kernel) 8 (by decide)
  exact ⟨_, out, by decide +kernel, rfl, rfl, hout, hlen⟩

end Bitle
