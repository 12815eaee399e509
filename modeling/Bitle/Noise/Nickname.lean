import Bitle.Noise.Session

/-!
# Bitle — the nickname (`main/nickname_manager.c`)

A C string is the list of its bytes in front of the zero. The name that `nickname_init` hands out is
one the announces can carry, whatever NVS holds (`Nickname`), and NVS is left such that the next boot
hands out the same name (`nicknameInit_settles`).
-/

namespace Bitle

open Wire

/-- The bytes of an ASCII text. -/
def ascii (s : String) : List UInt8 := s.toList.map fun ch => UInt8.ofNat ch.toNat

/-- `NICKNAME_MAX_CUSTOM_LEN`, `NICKNAME_PREFIX_LEN` and `NICKNAME_DET_LEN`. -/
def nicknameMaxCustomLen : Nat := 31
def nicknamePrefixLen : Nat := 6
def nicknameDetLen : Nat := nicknamePrefixLen + 4

/-- `NICKNAME_PREFIX`. -/
def nicknamePrefix : List UInt8 := ascii "Bitle-"

def isDigit (c : UInt8) : Bool := 0x30 ≤ c && c ≤ 0x39

/-- `nickname_is_deterministic`. -/
def nicknameIsDeterministic (nickname : List UInt8) : Bool :=
  nickname.length == nicknameDetLen && nickname.take nicknamePrefixLen == nicknamePrefix &&
    (nickname.drop nicknamePrefixLen).all isDigit

/-- `nickname_is_legacy_anon`. -/
def nicknameIsLegacyAnon (nickname : List UInt8) : Bool :=
  nickname.length == 8 && nickname.take 4 == ascii "anon" && (nickname.drop 4).all isDigit

/-- `nickname_is_custom_valid`. -/
def nicknameIsCustomValid (nickname : List UInt8) : Bool :=
  !(nickname.length == 0 || nickname.length > nicknameMaxCustomLen) &&
    nickname.all fun c => !(c < 0x20 || c > 0x7E)

/-- `nickname_suffix_from_peer_id`. -/
def nicknameSuffixFromPeerId (peerId : PeerId) : UInt16 :=
  let value := ((byteAt peerId.val 0).toUInt16 <<< 8) ||| (byteAt peerId.val 1).toUInt16
  let value := [2, 3, 4, 5, 6, 7].foldl (fun value i =>
    value ^^^ ((byteAt peerId.val i).toUInt16 <<< (if i % 2 = 1 then 0 else 8))) value
  value % 10000

/-- `"%04u"`. -/
def fourDigits (n : Nat) : List UInt8 :=
  [n / 1000 % 10, n / 100 % 10, n / 10 % 10, n % 10].map fun d => UInt8.ofNat (0x30 + d)

/-- `nickname_generate`: a buffer that is too short is left alone. -/
def nicknameGenerate (peerId : PeerId) (outNickname : List UInt8) (maxLen : Nat) : List UInt8 :=
  if maxLen < nicknameDetLen + 1 then outNickname
  else nicknamePrefix ++ fourDigits (nicknameSuffixFromPeerId peerId).toNat

/-- NVS as `nickname_init` finds it: whether it opens, the string under the key, and whether a write
succeeds. -/
structure NicknameNvs where
  opens : Bool := true
  stored : Option (List UInt8) := none
  writes : Bool := true

/-- `nvs_get_str`: a string that does not fit with its zero is an error. -/
def NicknameNvs.getStr (nvs : NicknameNvs) (maxLen : Nat) : Option (List UInt8) :=
  nvs.stored.filter fun s => s.length + 1 ≤ maxLen

/-- `nickname_store`. -/
def nicknameStore (nvs : NicknameNvs) (nickname : List UInt8) : NicknameNvs :=
  if nvs.opens && nvs.writes then { nvs with stored := some nickname } else nvs

/-- The name that NVS holds, if `nickname_init` keeps it. -/
def loadedNickname (peerId : PeerId) (loaded : List UInt8) : Option (List UInt8) :=
  if nicknameIsLegacyAnon loaded then none
  else if nicknameIsCustomValid loaded then some loaded
  else if nicknameIsDeterministic loaded then
    -- strtol of the four digits
    let stored := ((loaded.drop nicknamePrefixLen).foldl
      (fun (v : Nat) (c : UInt8) => v * 10 + (c.toNat - 0x30)) 0).toUInt16
    if stored = nicknameSuffixFromPeerId peerId then some loaded else none
  else none

/-- `nickname_init`: the name, or an error, and NVS afterwards. -/
def nicknameInit (peerId : PeerId) (nvs : NicknameNvs) (maxLen : Nat) :
    Option (List UInt8) × NicknameNvs :=
  if maxLen < 2 then (none, nvs)
  else if !nvs.opens then (none, nvs)
  else
    let loaded := nvs.getStr maxLen
    match loaded.bind (loadedNickname peerId) with
    | some nickname => (some nickname, nvs)
    | none =>
      let generated := nicknameGenerate peerId (loaded.getD []) maxLen
      let generated :=
        if nicknameIsDeterministic generated then generated else nicknamePrefix ++ ascii "0000"
      (some generated, nicknameStore nvs generated)

/-- `nickname_set`. -/
def nicknameSet (nvs : NicknameNvs) (nickname : List UInt8) : Bool × NicknameNvs :=
  if !nicknameIsCustomValid nickname then (false, nvs)
  else (nvs.opens && nvs.writes, nicknameStore nvs nickname)

/-- A name of 1 to 31 printable characters. -/
abbrev Nickname : Type := { nickname : List UInt8 // nicknameIsCustomValid nickname = true }

/-! ## Names that are handed out -/

/-- A digit is printable. -/
theorem printable_of_isDigit : ∀ c : UInt8, isDigit c = true → (!(c < 0x20 || c > 0x7E)) = true := by
  intro c hc
  unfold isDigit at hc
  simp only [Bool.and_eq_true, decide_eq_true_eq, UInt8.le_iff_toNat_le] at hc
  simp only [Bool.not_eq_true', Bool.or_eq_false_iff, decide_eq_false_iff_not, UInt8.not_lt, gt_iff_lt,
    UInt8.le_iff_toNat_le]
  have h1 : (0x30 : UInt8).toNat = 48 := rfl
  have h2 : (0x39 : UInt8).toNat = 57 := rfl
  have h3 : (0x20 : UInt8).toNat = 32 := rfl
  have h4 : (0x7E : UInt8).toNat = 126 := rfl
  omega

/-- **A deterministic name is a custom one**, so that its suffix is never looked at. -/
theorem customValid_of_deterministic {nickname : List UInt8}
    (h : nicknameIsDeterministic nickname = true) : nicknameIsCustomValid nickname = true := by
  unfold nicknameIsDeterministic at h
  rw [Bool.and_eq_true, Bool.and_eq_true, beq_iff_eq, beq_iff_eq] at h
  obtain ⟨⟨hlen, hprefix⟩, hdigits⟩ := h
  have hall : nickname.all (fun c => !(c < 0x20 || c > 0x7E)) = true := by
    rw [← List.take_append_drop nicknamePrefixLen nickname, List.all_append, hprefix]
    refine Bool.and_eq_true_iff.mpr ⟨by decide, ?_⟩
    refine List.all_eq_true.mpr ?_
    intro c hc
    exact printable_of_isDigit c (List.all_eq_true.mp hdigits c hc)
  unfold nicknameIsCustomValid
  rw [hlen, hall]
  rfl

theorem not_legacy_of_deterministic {nickname : List UInt8}
    (h : nicknameIsDeterministic nickname = true) : nicknameIsLegacyAnon nickname = false := by
  unfold nicknameIsDeterministic at h
  rw [Bool.and_eq_true, Bool.and_eq_true, beq_iff_eq] at h
  unfold nicknameIsLegacyAnon
  rw [h.1.1]
  rfl

/-- A name is kept exactly if it is a custom one and not a legacy one. -/
theorem loadedNickname_eq (peerId : PeerId) (loaded : List UInt8) :
    loadedNickname peerId loaded =
      if !nicknameIsLegacyAnon loaded && nicknameIsCustomValid loaded then some loaded else none := by
  unfold loadedNickname
  cases hlegacy : nicknameIsLegacyAnon loaded with
  | true => rfl
  | false =>
    cases hcustom : nicknameIsCustomValid loaded with
    | true => rfl
    | false =>
      have hdet : nicknameIsDeterministic loaded = false := by
        by_contra hdet
        rw [customValid_of_deterministic (Bool.eq_true_of_not_eq_false hdet)] at hcustom
        cases hcustom
      rw [hdet]
      rfl

/-- A name that NVS holds and that is kept is handed out again, to whatever peer id. -/
theorem nicknameInit_of_stored {nvs : NicknameNvs} {nickname : List UInt8} (peerId : PeerId)
    (hopens : nvs.opens = true) (hstored : nvs.stored = some nickname)
    (hcustom : nicknameIsCustomValid nickname = true)
    (hlegacy : nicknameIsLegacyAnon nickname = false) :
    nicknameInit peerId nvs 32 = (some nickname, nvs) := by
  have hlen : nickname.length + 1 ≤ 32 := by
    unfold nicknameIsCustomValid nicknameMaxCustomLen at hcustom
    simp only [Bool.and_eq_true, Bool.not_eq_true', Bool.or_eq_false_iff,
      decide_eq_false_iff_not] at hcustom
    omega
  have hget : nvs.getStr 32 = some nickname := by
    unfold NicknameNvs.getStr
    rw [hstored, Option.filter_some, if_pos (decide_eq_true hlen)]
  unfold nicknameInit
  rw [if_neg (by decide), hopens, hget]
  dsimp only [Option.bind_some]
  rw [loadedNickname_eq, hlegacy, hcustom]
  rfl

/-- What `nickname_init` does: it keeps the name it finds, or stores one it makes. -/
theorem nicknameInit_cases (peerId : PeerId) {nvs : NicknameNvs} (hopens : nvs.opens = true) :
    ∃ nickname, nicknameIsCustomValid nickname = true ∧ nicknameIsLegacyAnon nickname = false ∧
      ((nvs.stored = some nickname ∧ nicknameInit peerId nvs 32 = (some nickname, nvs)) ∨
        nicknameInit peerId nvs 32 = (some nickname, nicknameStore nvs nickname)) := by
  cases hloaded : (nvs.getStr 32).bind (loadedNickname peerId) with
  | some nickname =>
    -- the stored name is kept: valid, and not of the old form
    obtain ⟨stored, hget, hload⟩ := Option.bind_eq_some_iff.mp hloaded
    have hinit : nicknameInit peerId nvs 32 = (some nickname, nvs) := by
      unfold nicknameInit
      rw [if_neg (by decide), hopens]
      dsimp only
      rw [hloaded]
      rfl
    rw [loadedNickname_eq] at hload
    split at hload
    · next hok =>
      cases hload
      rw [Bool.and_eq_true, Bool.not_eq_true'] at hok
      exact ⟨nickname, hok.2, hok.1, .inl ⟨(Option.filter_eq_some_iff.mp hget).1, hinit⟩⟩
    · cases hload
  | none =>
    generalize hgen : (if nicknameIsDeterministic (nicknameGenerate peerId ((nvs.getStr 32).getD [])
      32) then nicknameGenerate peerId ((nvs.getStr 32).getD []) 32
      else nicknamePrefix ++ ascii "0000") = nickname
    -- the name it makes is of the deterministic form
    have hdet : nicknameIsDeterministic nickname = true := by
      rw [← hgen]
      split
      · assumption
      · decide
    have hinit : nicknameInit peerId nvs 32 = (some nickname, nicknameStore nvs nickname) := by
      unfold nicknameInit
      rw [if_neg (by decide), hopens]
      dsimp only
      rw [hloaded]
      dsimp only
      rw [hgen]
      rfl
    exact ⟨nickname, customValid_of_deterministic hdet, not_legacy_of_deterministic hdet, .inr hinit⟩

/-- **The name settles.** Whatever NVS holds and whether it can be written or not: `nickname_init`
hands out a name of 1 to 31 printable characters, never a legacy one; and where the write works, the
next boot finds this name and leaves it. -/
theorem nicknameInit_settles (peerId : PeerId) (nvs : NicknameNvs) (hopens : nvs.opens = true) :
    ∃ nickname, (nicknameInit peerId nvs 32).1 = some nickname ∧
      nicknameIsCustomValid nickname = true ∧ nicknameIsLegacyAnon nickname = false ∧
      (nvs.writes = true → ∀ peerId',
        nicknameInit peerId' (nicknameInit peerId nvs 32).2 32 =
          (some nickname, (nicknameInit peerId nvs 32).2)) := by
  obtain ⟨nickname, hcustom, hlegacy, ⟨hstored, hinit⟩ | hinit⟩ := nicknameInit_cases peerId hopens
  · rw [hinit]
    exact ⟨nickname, rfl, hcustom, hlegacy, fun _ peerId' =>
      nicknameInit_of_stored peerId' hopens hstored hcustom hlegacy⟩
  · rw [hinit]
    refine ⟨nickname, rfl, hcustom, hlegacy, ?_⟩
    intro hwrites peerId'
    have hstore : nicknameStore nvs nickname = { nvs with stored := some nickname } := by
      unfold nicknameStore
      rw [hopens, hwrites]
      rfl
    dsimp only
    rw [hstore]
    exact nicknameInit_of_stored peerId' hopens rfl hcustom hlegacy

theorem nicknameInit_settles_legacy :
    ∃ nickname, (nicknameInit (zeros 8) { stored := some (ascii "anon1234") } 32).1 =
        some nickname ∧ nicknameIsCustomValid nickname = true ∧
      nicknameIsLegacyAnon nickname = false := by
  obtain ⟨nickname, hinit, hcustom, hlegacy, -⟩ :=
    nicknameInit_settles (zeros 8) { stored := some (ascii "anon1234") } rfl
  exact ⟨nickname, hinit, hcustom, hlegacy⟩

/-- `load_nickname`. -/
def loadNickname (peerId : PeerId) (nvs : NicknameNvs) : List UInt8 :=
  (nicknameInit peerId nvs 32).1.getD (nicknamePrefix ++ ascii "0000")

/-- The name of the node is one its announces can carry. -/
theorem loadNickname_valid (peerId : PeerId) (nvs : NicknameNvs) :
    nicknameIsCustomValid (loadNickname peerId nvs) = true := by
  unfold loadNickname
  cases hopens : nvs.opens with
  | true =>
    obtain ⟨nickname, hcustom, -, ⟨-, hinit⟩ | hinit⟩ := nicknameInit_cases peerId hopens
    · rw [hinit]
      exact hcustom
    · rw [hinit]
      exact hcustom
  | false =>
    have hnone : (nicknameInit peerId nvs 32).1 = none := by
      unfold nicknameInit
      rw [if_neg (by decide), hopens]
      rfl
    rw [hnone]
    decide

end Bitle
