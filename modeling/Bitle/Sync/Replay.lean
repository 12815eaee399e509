import Bitle.Sync.Filter
import Bitle.Sync.Order
import Bitle.Sync.Request

/-!
# Bitle — what a request is answered with (`main/bitle_sync.c`)

The selection loop of `bitle_sync_handle_request` as a whole: the first forty due slots
(`selectLoop_eq`), where a slot is due when it passes every test of the loop. From that a slot
is selected exactly when it is due and fewer than forty lower ones are.

A record the requester asked for should be left out for three reasons only: it is in the
filter, it is a message from before the cursor, or the replay is full. The loop exempts
announces and prekey bundles from the cursor by their types and forgets the other type of the
announce class, so a capability record from before the cursor is withheld as well
(`replay_leaves_out_iff`).

A selected slot is copied when its turn comes, so the store may have changed since the selection.
Whatever it has become, what goes out is the replay of a frame that was ingested
(`replaySlot_ingested`).
-/

namespace Bitle

open Wire Run

/-! ## The selection loop -/

/-- The indices of the wanted slots. -/
def wantedFrom (wanted : SyncSlot → Bool) : List SyncSlot → Nat → List Nat
  | [], _ => []
  | s :: slots, i =>
    if wanted s then i :: wantedFrom wanted slots (i + 1) else wantedFrom wanted slots (i + 1)

/-- The loop appends the first wanted slots until forty are selected. -/
theorem selectLoop_eq {wanted : SyncSlot → Bool} {slots : List SyncSlot} {i : Nat}
    {toSend : List Nat} :
    selectLoop wanted slots i toSend =
      toSend ++ (wantedFrom wanted slots i).take (maxReplayPerReq - toSend.length) := by
  induction slots generalizing i toSend with
  | nil => simp [selectLoop, wantedFrom]
  | cons s slots ih =>
    rw [selectLoop, wantedFrom]
    by_cases hw : wanted s = true
    · rw [if_neg (by simp [hw]), if_pos hw]
      split
      · -- full: nothing more is appended
        next hfull =>
          rw [ih, Nat.sub_eq_zero_of_le hfull, List.take_zero, List.take_zero]
      · next hroom =>
          obtain ⟨n, hn⟩ : ∃ n, maxReplayPerReq - toSend.length = n + 1 :=
            ⟨maxReplayPerReq - toSend.length - 1, by omega⟩
          have hn' : maxReplayPerReq - (toSend ++ [i]).length = n := by
            rw [List.length_append, List.length_singleton]
            omega
          rw [ih, hn', hn, List.take_succ_cons, List.append_assoc]
          rfl
    · rw [if_pos (by simpa using hw), if_neg hw, ih]

theorem wantedFrom_append (wanted : SyncSlot → Bool) (l l' : List SyncSlot) (i : Nat) :
    wantedFrom wanted (l ++ l') i = wantedFrom wanted l i ++ wantedFrom wanted l' (i + l.length) := by
  induction l generalizing i with
  | nil => rfl
  | cons s l ih =>
    rw [List.cons_append, wantedFrom, wantedFrom, ih, List.length_cons,
      show i + 1 + l.length = i + (l.length + 1) by omega]
    split
    · rfl
    · rfl

theorem length_wantedFrom (wanted : SyncSlot → Bool) (l : List SyncSlot) (i : Nat) :
    (wantedFrom wanted l i).length = l.countP wanted := by
  induction l generalizing i with
  | nil => rfl
  | cons s l ih =>
    rw [wantedFrom, List.countP_cons]
    split
    · rw [List.length_cons, ih]
    · rw [ih, Nat.add_zero]

/-- The indices lie between the first and the last slot. -/
theorem mem_wantedFrom {wanted : SyncSlot → Bool} {l : List SyncSlot} {i k : Nat}
    (h : k ∈ wantedFrom wanted l i) : i ≤ k ∧ k < i + l.length := by
  induction l generalizing i with
  | nil => exact nomatch h
  | cons s l ih =>
    rw [wantedFrom] at h
    rw [List.length_cons]
    split at h
    · rcases List.mem_cons.mp h with rfl | h
      · omega
      · have := ih h
        omega
    · have := ih h
      omega

section Select

variable {wanted : SyncSlot → Bool} {slots : List SyncSlot} {i : Nat} {s : SyncSlot}

/-- The wanted slots, cut at slot `i`. -/
theorem wantedFrom_split (hs : slots[i]? = some s) :
    wantedFrom wanted slots 0 = wantedFrom wanted (slots.take i) 0 ++
      ((if wanted s then [i] else []) ++ wantedFrom wanted (slots.drop (i + 1)) (i + 1)) := by
  obtain ⟨hi, hget⟩ := List.getElem?_eq_some_iff.mp hs
  have hlen : (slots.take i).length = i := by
    rw [List.length_take]
    omega
  conv_lhs => rw [← List.take_append_drop i slots, List.drop_eq_getElem_cons hi, hget]
  rw [wantedFrom_append, hlen, Nat.zero_add, wantedFrom]
  split
  · rfl
  · rfl

/-- A slot is selected when it is wanted and the replay is not full before it. -/
theorem mem_selectLoop_iff (hs : slots[i]? = some s) :
    i ∈ selectLoop wanted slots 0 [] ↔
      wanted s = true ∧ (slots.take i).countP wanted < maxReplayPerReq := by
  rw [selectLoop_eq, List.nil_append, wantedFrom_split hs, List.length_nil, Nat.sub_zero,
    List.take_append, length_wantedFrom, List.mem_append]
  have hlow : i ∉ (wantedFrom wanted (slots.take i) 0).take maxReplayPerReq := by
    intro hmem
    have := mem_wantedFrom (List.mem_of_mem_take hmem)
    rw [List.length_take] at this
    omega
  generalize hroom : maxReplayPerReq - (slots.take i).countP wanted = room
  have hhigh : i ∉ wantedFrom wanted (slots.drop (i + 1)) (i + 1) := by
    intro hmem
    have := mem_wantedFrom hmem
    omega
  constructor
  · rintro (hmem | hmem)
    · exact absurd hmem hlow
    · split at hmem
      · next hw =>
          refine ⟨hw, ?_⟩
          by_contra hfull
          obtain rfl : room = 0 := by omega
          exact nomatch hmem
      · exact absurd (List.mem_of_mem_take hmem) hhigh
  · rintro ⟨hw, hlt⟩
    obtain ⟨n, rfl⟩ : ∃ n, room = n + 1 := ⟨room - 1, by omega⟩
    rw [if_pos hw]
    exact .inr (List.mem_cons_self ..)

/-- How many lower slots are selected: the wanted ones, at most forty. -/
theorem length_selectLoop_below (hs : slots[i]? = some s) :
    ((selectLoop wanted slots 0 []).filter (· < i)).length =
      min maxReplayPerReq ((slots.take i).countP wanted) := by
  rw [selectLoop_eq, List.nil_append, wantedFrom_split hs, List.length_nil, Nat.sub_zero,
    List.take_append, List.filter_append]
  have hlow : ((wantedFrom wanted (slots.take i) 0).take maxReplayPerReq).filter (· < i) =
      (wantedFrom wanted (slots.take i) 0).take maxReplayPerReq := by
    apply List.filter_eq_self.mpr
    intro k hk
    have := mem_wantedFrom (List.mem_of_mem_take hk)
    rw [List.length_take] at this
    exact decide_eq_true (by omega)
  have hhigh : ∀ n, (((if wanted s then [i] else []) ++
      wantedFrom wanted (slots.drop (i + 1)) (i + 1)).take n).filter (· < i) = [] := by
    intro n
    apply List.filter_eq_nil_iff.mpr
    intro k hk
    rcases List.mem_append.mp (List.mem_of_mem_take hk) with hk | hk
    · split at hk
      · obtain rfl := List.mem_singleton.mp hk
        simp
      · exact nomatch hk
    · have := mem_wantedFrom hk
      simp
      omega
  rw [hlow, hhigh, List.append_nil, List.length_take, length_wantedFrom]

end Select

/-! ## Why a record is left out -/

section Reasons

variable (sha256 : List UInt8 → Bytes 32) (st : SyncStore) (nowMs : UInt64) (req : SyncRequest)

/-- In use, of a requested type and fresh. -/
def AskedFor (s : SyncSlot) : Prop :=
  s.inUse = true ∧ typeRequested s.type req.typeFlags = true ∧ slotFresh s nowMs = true

/-- The record's bucket is one the filter decodes to. -/
def InFilter (s : SyncSlot) : Prop :=
  gcsBucket sha256 s.id req.m ∈ gcsDecode req.filter req.p req.m (gcsMaxElements + 8)

/-- The request has a cursor and the record is older. -/
def BeforeCursor (s : SyncSlot) : Prop := req.hasSince = true ∧ s.timestampMs < req.sinceMs

/-- The tests of the selection loop on one slot. -/
def replayDue (s : SyncSlot) : Bool :=
  replayEligible req nowMs s &&
    !filterCovers sha256 req (gcsDecode req.filter req.p req.m (gcsMaxElements + 8)) s.id

/-- A requested record is left out of `toSend` only when the filter has it, when it is a message
from before the cursor, or when forty records in lower slots are selected. -/
def LeavesOutOnlyFor (toSend : List Nat) : Prop :=
  ∀ i s, st.slots[i]? = some s → AskedFor nowMs req s → i ∉ toSend →
    InFilter sha256 req s ∨ (syncClass s.type = .message ∧ BeforeCursor req s) ∨
      maxReplayPerReq ≤ (toSend.filter (· < i)).length

/-- Every requested capability record from before the cursor is in the filter, or has forty due
records in lower slots. -/
def CapabilitiesSpared : Prop :=
  ∀ i s, st.slots[i]? = some s → AskedFor nowMs req s → s.type = bitchatMsgNodeCapability →
    BeforeCursor req s → ¬ InFilter sha256 req s →
      maxReplayPerReq ≤ (st.slots.take i).countP (replayDue sha256 nowMs req)

theorem filterCovers_iff (s : SyncSlot) :
    filterCovers sha256 req (gcsDecode req.filter req.p req.m (gcsMaxElements + 8)) s.id = true ↔
      InFilter sha256 req s := by
  rw [filterCovers, InFilter, Bool.and_eq_true, Bool.and_eq_true,
    sortedContains_iff (gcsDecode_increasing _ _ _ _).1]
  constructor
  · exact fun h => h.2
  · intro hmem
    have hrange := (gcsDecode_increasing _ _ _ _).2 _ hmem
    have hlen := List.length_pos_of_mem hmem
    refine ⟨⟨decide_eq_true (by omega), ?_⟩, hmem⟩
    rw [bne_iff_ne]
    omega

/-- What the loop tests of a requested record: only announces and prekey bundles are exempt from
the cursor. -/
theorem replayDue_iff {s : SyncSlot} (hs : AskedFor nowMs req s) :
    replayDue sha256 nowMs req s = true ↔
      ¬ InFilter sha256 req s ∧ (s.type = bitchatMsgAnnounce ∨ s.type = bitchatMsgPrekeyBundle ∨
        ¬ BeforeCursor req s) := by
  obtain ⟨huse, htype, hfresh⟩ := hs
  rw [replayDue, Bool.and_eq_true, Bool.not_eq_true', ← Bool.not_eq_true, filterCovers_iff,
    replayEligible, huse, htype, hfresh, BeforeCursor]
  by_cases hann : s.type = bitchatMsgAnnounce
  · simp [hann]
  · by_cases hpre : s.type = bitchatMsgPrekeyBundle
    · simp [hpre]
    · cases hsince : req.hasSince with
      | false => simp [hann, hpre]
      | true => simp [hann, hpre, and_comm]

/-- The announce class is announces and capability records. -/
theorem syncClass_eq_message {type : UInt8} :
    syncClass type = .message ↔ type ≠ bitchatMsgAnnounce ∧ type ≠ bitchatMsgNodeCapability ∧
      type ≠ bitchatMsgPrekeyBundle := by
  rw [syncClass]
  by_cases hann : isAnnounceType type = true
  · rw [if_pos hann]
    simp only [isAnnounceType, Bool.or_eq_true, beq_iff_eq] at hann
    constructor
    · intro h
      cases h
    · rintro ⟨hna, hnc, -⟩
      exact absurd hann (not_or.mpr ⟨hna, hnc⟩)
  · rw [if_neg hann]
    simp only [isAnnounceType, Bool.or_eq_true, beq_iff_eq, not_or] at hann
    split
    · next hpre =>
        constructor
        · intro h
          cases h
        · exact fun h => absurd hpre h.2.2
    · next hpre => exact ⟨fun _ => ⟨hann.1, hann.2, hpre⟩, fun _ => rfl⟩

/-- The replay leaves requested records out for the three reasons only, exactly when no
capability record falls behind the cursor. -/
theorem selectReplay_leaves_out_iff :
    LeavesOutOnlyFor sha256 st nowMs req (selectReplay sha256 st nowMs req) ↔
      CapabilitiesSpared sha256 st nowMs req := by
  have hselect : selectReplay sha256 st nowMs req =
      selectLoop (replayDue sha256 nowMs req) st.slots 0 [] := rfl
  rw [hselect]
  constructor
  · -- a capability record that is not spared is not due, so it must have one of the reasons
    intro hreasons i s hs hasked htype hbefore hfilter
    have hnotdue : ¬ replayDue sha256 nowMs req s = true := by
      rw [replayDue_iff sha256 nowMs req hasked, htype]
      rintro ⟨-, hann | hpre | hafter⟩
      · exact absurd hann (by decide)
      · exact absurd hpre (by decide)
      · exact hafter hbefore
    have hout : i ∉ selectLoop (replayDue sha256 nowMs req) st.slots 0 [] :=
      fun hmem => hnotdue ((mem_selectLoop_iff hs).mp hmem).1
    rcases hreasons i s hs hasked hout with hin | ⟨hclass, -⟩ | hfull
    · exact absurd hin hfilter
    · exact absurd htype (syncClass_eq_message.mp hclass).2.1
    · rw [length_selectLoop_below hs] at hfull
      omega
  · intro hspared i s hs hasked hout
    rw [length_selectLoop_below hs]
    by_cases hfilter : InFilter sha256 req s
    · exact .inl hfilter
    · right
      rw [mem_selectLoop_iff hs, replayDue_iff sha256 nowMs req hasked] at hout
      by_cases hcursor : s.type ≠ bitchatMsgAnnounce ∧ s.type ≠ bitchatMsgPrekeyBundle ∧
          BeforeCursor req s
      · obtain ⟨hann, hpre, hbefore⟩ := hcursor
        by_cases hcap : s.type = bitchatMsgNodeCapability
        · -- withheld by the cursor, but spared: the replay is full before it
          have := hspared i s hs hasked hcap hbefore hfilter
          right
          omega
        · exact .inl ⟨syncClass_eq_message.mpr ⟨hann, hcap, hpre⟩, hbefore⟩
      · -- due, and still not selected
        right
        have hdue : s.type = bitchatMsgAnnounce ∨ s.type = bitchatMsgPrekeyBundle ∨
            ¬ BeforeCursor req s := by tauto
        have : ¬ (st.slots.take i).countP (replayDue sha256 nowMs req) < maxReplayPerReq :=
          fun hlt => hout ⟨⟨hfilter, hdue⟩, hlt⟩
        omega

end Reasons

/-- A request that is answered was parsed, and the answer is the selection for it. -/
theorem eq_selectReplay {env : SyncEnv} {st : SyncStore} {peers peers' : SyncPeers}
    {nowMs : UInt64} {connHandle : UInt16} {packet : BitchatPacket} {toSend : List Nat}
    (h : bitleSyncHandleRequest env st peers nowMs connHandle packet = (peers', .replay toSend)) :
    ∃ req, parseRequest packet.payload.val = some req ∧
      toSend = selectReplay env.sha256 st nowMs req := by
  rw [bitleSyncHandleRequest] at h
  split at h
  · cases h
  · split at h
    · cases h
    · cases h
    · -- a verified peer: the table, the limit and the signature come before the parser
      dsimp only at h
      split at h
      · cases h
      · split at h
        · cases h
        · split at h
          · cases h
          · next req hreq =>
              cases h
              exact ⟨req, hreq, rfl⟩

/-- **What a request is not answered with.** For every store, clock and accepted request: the
requested records left out are in the filter, messages from before the cursor, or behind forty
others, exactly when every requested capability record from before the cursor is in the filter
or behind forty due records. -/
theorem replay_leaves_out_iff {env : SyncEnv} {st : SyncStore} {peers peers' : SyncPeers}
    {nowMs : UInt64} {connHandle : UInt16} {packet : BitchatPacket} {toSend : List Nat}
    (h : bitleSyncHandleRequest env st peers nowMs connHandle packet = (peers', .replay toSend)) :
    ∃ req, parseRequest packet.payload.val = some req ∧
      (LeavesOutOnlyFor env.sha256 st nowMs req toSend ↔
        CapabilitiesSpared env.sha256 st nowMs req) := by
  obtain ⟨req, hreq, rfl⟩ := eq_selectReplay h
  exact ⟨req, hreq, selectReplay_leaves_out_iff env.sha256 st nowMs req⟩

/-- Every frame of a replay is one that was ingested, with TTL 0 and the RSR flag. -/
theorem replaySlot_ingested (sha256 : List UInt8 → Bytes 32) {ins : List IngestInput}
    (hlen : ins.length < 2 ^ 32) {i : Nat} {frame : List UInt8}
    (h : replaySlot (final (ingestStep sha256) SyncStore.init ins) i = some frame) :
    ∃ x ∈ ins, frame = replayFrame x.raw := by
  have hinv : SyncInv sha256 (final (ingestStep sha256) SyncStore.init ins) ([] ++ ins) :=
    (SyncInv.init sha256).final ins hlen
  simp only [replaySlot, Option.ite_none_right_eq_some, Bool.and_eq_true, Option.some.injEq] at h
  obtain ⟨⟨hused, -⟩, rfl⟩ := h
  -- a slot in use is one of the store's: the default is free
  have hi : i < (final (ingestStep sha256) SyncStore.init ins).slots.length := by
    by_contra hge
    rw [List.getD_eq_default _ _ (Nat.le_of_not_lt hge)] at hused
    cases hused
  rw [List.getD_eq_getElem _ _ hi] at hused ⊢
  obtain ⟨x, hx, hrec⟩ := hinv.records _ (List.getElem_mem hi) hused
  exact ⟨x, hx, by rw [hrec.frame]⟩

/-! ### A capability record and a cursor -/

/-- A request for announces and messages with an empty filter and a cursor at 6000. -/
def cursorRequest : BitchatPacket :=
  { version := 1, type := bitchatMsgRequestSync, ttl := 0, timestampMs := 7000
    senderId := zeros 8, recipientId := zeros 8, hasRecipient := false, isCompressed := false
    isRsr := false, opaqueOnly := false
    payload := ⟨[0x01, 0, 1, 7, 0x02, 0, 4, 0, 0, 0, 1, 0x03, 0, 0, 0x05, 0, 8, 0, 0, 0, 0, 0, 0,
      0x17, 0x70], by decide⟩
    signature := zeros 64, hasSignature := true }

/-- A signed record of a sender from time 5000, of the given type. -/
def recordPacket (type : UInt8) : BitchatPacket :=
  { cursorRequest with type := type, timestampMs := 5000, payload := ⟨[2], by decide⟩ }

/-- A node that takes every signature and knows every peer. -/
def trustingEnv : SyncEnv :=
  ⟨fun l => copyAt 32 (l ++ [9, 9]) 0, fun _ => some (zeros 32, true), fun _ _ => true,
    fun _ => false⟩

/-- A store that has ingested one record of the type. -/
def recordStore (type : UInt8) : SyncStore :=
  bitleSyncIngest trustingEnv.sha256 SyncStore.init 5500 (recordPacket type) [1, 2, 3]

/-- The announce is replayed. -/
theorem replay_leaves_out_announce :
    ∃ req, parseRequest cursorRequest.payload.val = some req ∧
      (LeavesOutOnlyFor trustingEnv.sha256 (recordStore bitchatMsgAnnounce) 7000 req [0] ↔
        CapabilitiesSpared trustingEnv.sha256 (recordStore bitchatMsgAnnounce) 7000 req) :=
  @replay_leaves_out_iff trustingEnv (recordStore bitchatMsgAnnounce) SyncPeers.init _ 7000 1
    cursorRequest [0] (Prod.ext rfl (show _ = SyncOutcome.replay [0] by decide +kernel))

/-- The capability record of the same time is withheld, with nothing in the filter and nothing
else selected. -/
theorem replay_withholds_capability :
    ∃ req, parseRequest cursorRequest.payload.val = some req ∧
      (bitleSyncHandleRequest trustingEnv (recordStore bitchatMsgNodeCapability) SyncPeers.init
        7000 1 cursorRequest).2 = .replay [] ∧
      ¬ LeavesOutOnlyFor trustingEnv.sha256 (recordStore bitchatMsgNodeCapability) 7000 req [] := by
  refine ⟨{ p := 7, m := 1, filter := [], typeFlags := flagAnnounce ||| flagMessage
            hasSince := true, sinceMs := 6000, haveM := true, haveData := true },
    by decide +kernel, by decide +kernel, ?_⟩
  intro hreasons
  rcases hreasons 0 _ (show _ = some ((recordStore bitchatMsgNodeCapability).slots.getD 0 {}) by
    decide +kernel) ⟨by decide +kernel, by decide +kernel, by decide +kernel⟩ List.not_mem_nil
    with hfilter | ⟨hclass, -⟩ | hfull
  · -- `m` is one, so the filter is empty
    exact nomatch hfilter
  · exact absurd hclass (by decide +kernel)
  · exact absurd hfull (by decide)

end Bitle
