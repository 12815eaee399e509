import Bitle.Codec.Packet
import Bitle.Lib.Run
import Mathlib.Data.List.FinRange
import Mathlib.Data.List.Induction

/-!
# Bitle — fragments of the mesh (`handle_fragment` of `main/bitle_mesh.c`)

A phone cuts a packet that is longer than its write budget into fragments:

```
fragment id(8) | index(2) | total(2) | original type(1) | chunk
```

Two slots collect the chunks of at most two packets at once, each for `FRAG_TIMEOUT_MS`. They are
shared by all senders, expire when the next fragment of anyone comes in, and the oldest is taken
when both are busy.

`reassemble` is `handle_fragment` up to the bytes it decodes; what becomes of these is in
`Mesh/Inbound`. A slot is described by what it has of each index (`FragSlot.held`), and
`reassemble_cases` says all that one fragment does to the table.
-/

namespace Bitle

open Wire Run

def bitchatMsgFragment : UInt8 := 0x20
def fragSlots : Nat := 2
def fragMaxParts : Nat := 4
def fragPartMax : Nat := 501
def fragTimeoutMs : UInt64 := 15000

/-! ## One fragment -/

/-- The stream a fragment belongs to. -/
structure FragKey where
  sender : Bytes 8
  fragId : UInt64
  deriving DecidableEq

/-- A fragment within the local limits. -/
structure Fragment where
  key : FragKey
  index : Nat
  total : Nat
  chunk : List UInt8
  index_lt : index < total
  total_le : total ≤ fragMaxParts
  chunk_pos : 0 < chunk.length
  chunk_le : chunk.length ≤ fragPartMax

/-- The checks of `handle_fragment`, before a slot is looked for. -/
def parseFragment (packet : BitchatPacket) : Option Fragment :=
  let p := packet.payload.val
  if p.length < 13 then none
  else
    let fragId := (beNat (p.take 8)).toUInt64
    let index := beNat ((p.drop 8).take 2)
    let total := beNat ((p.drop 10).take 2)
    let chunk := p.drop 13
    if h : total = 0 ∨ index ≥ total ∨ chunk.length = 0 then none
    else if h' : total > fragMaxParts ∨ chunk.length > fragPartMax then none
    else
      some
        { key := ⟨packet.senderId, fragId⟩, index, total, chunk
          index_lt := by omega, total_le := by omega, chunk_pos := by omega, chunk_le := by omega }

/-- The payload of a fragment, as its sender lays it out. -/
def fragmentPayload (fragId : UInt64) (index total : Nat) (origType : UInt8)
    (chunk : List UInt8) : List UInt8 :=
  beBytes 8 fragId.toNat ++ (beBytes 2 index ++ (beBytes 2 total ++ (origType :: chunk)))

/-- **What a sender cuts off is read back.** -/
theorem parseFragment_payload {packet : BitchatPacket} {fragId : UInt64} {index total : Nat}
    {origType : UInt8} {chunk : List UInt8}
    (hpayload : packet.payload.val = fragmentPayload fragId index total origType chunk)
    (hindex : index < total) (htotal : total ≤ fragMaxParts) (hpos : 0 < chunk.length)
    (hle : chunk.length ≤ fragPartMax) :
    parseFragment packet =
      some ⟨⟨packet.senderId, fragId⟩, index, total, chunk, hindex, htotal, hpos, hle⟩ := by
  have hmax : fragMaxParts = 4 := rfl
  have hlen : packet.payload.val.length = 13 + chunk.length := by
    rw [hpayload, fragmentPayload]
    simp only [List.length_append, length_beBytes, List.length_cons]
    omega
  have hid : (beNat (packet.payload.val.take 8)).toUInt64 = fragId := by
    rw [hpayload, fragmentPayload, List.take_left' (length_beBytes _ _),
      beNat_beBytes fragId.toNat_lt]
    exact UInt64.ofNat_toNat
  have hrest : packet.payload.val.drop 8 =
      beBytes 2 index ++ (beBytes 2 total ++ (origType :: chunk)) := by
    rw [hpayload, fragmentPayload, List.drop_left' (length_beBytes _ _)]
  have hi : beNat ((packet.payload.val.drop 8).take 2) = index := by
    rw [hrest, List.take_left' (length_beBytes _ _), beNat_beBytes (by omega)]
  have hrest' : packet.payload.val.drop 10 = beBytes 2 total ++ (origType :: chunk) := by
    rw [show 10 = 8 + 2 from rfl, ← List.drop_drop, hrest, List.drop_left' (length_beBytes _ _)]
  have ht : beNat ((packet.payload.val.drop 10).take 2) = total := by
    rw [hrest', List.take_left' (length_beBytes _ _), beNat_beBytes (by omega)]
  have hchunk : packet.payload.val.drop 13 = chunk := by
    rw [show 13 = 10 + 2 + 1 from rfl, ← List.drop_drop, ← List.drop_drop, hrest',
      List.drop_left' (length_beBytes _ _)]
    rfl
  unfold parseFragment
  dsimp only
  rw [if_neg (by omega), dif_neg (by rw [hi, ht, hchunk]; omega),
    dif_neg (by rw [ht, hchunk]; omega)]
  simp only [hid, hi, ht, hchunk]

/-! ## The slots -/

/-- `frag_slot_t`. A part with its length is a list of bytes. -/
structure FragSlot where
  inUse : Bool := false
  key : FragKey := ⟨zeros 8, 0⟩
  total : Nat := 0
  haveMask : Nat := 0
  startedMs : UInt64 := 0
  part : Nat → List UInt8 := fun _ => []

/-- `s_frag_slots`. -/
abbrev FragTable : Type := Fin fragSlots → FragSlot

namespace FragSlot

/-- A slot past its time is free. -/
def expire (now : UInt64) (s : FragSlot) : FragSlot :=
  if s.inUse && decide (now - s.startedMs > fragTimeoutMs) then { s with inUse := false } else s

/-- The slot collects the chunks of `key`. -/
def holds (key : FragKey) (s : FragSlot) : Bool := s.inUse && s.key == key

/-- The slot's chunk of an index, if it has one. -/
def held (s : FragSlot) (i : Nat) : Option (List UInt8) :=
  if s.haveMask.testBit i then some (s.part i) else none

/-- A slot that has just been taken. -/
def opened (now : UInt64) (key : FragKey) (total : Nat) : FragSlot :=
  { inUse := true, key, total, startedMs := now }

/-- One more chunk. -/
def store (s : FragSlot) (f : Fragment) : FragSlot :=
  { s with
    part := Function.update s.part f.index f.chunk
    haveMask := s.haveMask ||| 1 <<< f.index }

end FragSlot

/-- What the search over the slots remembers. -/
structure FragScan where
  slot : Option (Fin fragSlots) := none
  free : Option (Fin fragSlots) := none
  oldest : Fin fragSlots := ⟨0, by decide⟩

/-- One round of the search. -/
def fragScanStep (t : FragTable) (key : FragKey) (acc : FragScan) (i : Fin fragSlots) : FragScan :=
  let acc :=
    if (t i).holds key then { acc with slot := some i }
    else if !(t i).inUse && acc.free.isNone then { acc with free := some i }
    else acc
  if (t i).startedMs < (t acc.oldest).startedMs then { acc with oldest := i } else acc

/-- The search over the slots. -/
def fragScan (t : FragTable) (key : FragKey) : FragScan :=
  (List.finRange fragSlots).foldl (fragScanStep t key) {}

/-- The slot a fragment goes to: the one of its stream, or else a free one or the oldest, which is
wiped. -/
def fragOpen (now : UInt64) (t : FragTable) (f : Fragment) : Fin fragSlots × FragTable :=
  let scan := fragScan t f.key
  match scan.slot with
  | some i => (i, t)
  | none =>
    let i := scan.free.getD scan.oldest
    (i, Function.update t i (.opened now f.key f.total))

/-- Keep the chunk, and put the packet together once all are there. -/
def fragStore (t : FragTable) (i : Fin fragSlots) (f : Fragment) :
    FragTable × Option (List UInt8) :=
  if (t i).total ≠ f.total then (t, none)
  else
    let slot := (t i).store f
    let wantMask := 1 <<< f.total - 1
    if slot.haveMask &&& wantMask ≠ wantMask then (Function.update t i slot, none)
    else
      (Function.update t i { slot with inUse := false }, some ((List.range f.total).flatMap slot.part))

/-- A packet handed to `handle_fragment`, with the time it is. -/
structure FragInput where
  now : UInt64
  packet : BitchatPacket

/-- `handle_fragment`, up to the bytes it goes on to decode. -/
def reassemble (t : FragTable) (x : FragInput) : FragTable × Option (List UInt8) :=
  match parseFragment x.packet with
  | none => (t, none)
  | some f =>
    let (i, t) := fragOpen x.now (fun i => (t i).expire x.now) f
    fragStore t i f

/-- The table after one packet. -/
def fragStep (t : FragTable) (x : FragInput) : FragTable := (reassemble t x).1

/-! ## What one fragment does -/

section Scan

variable {t : FragTable} {key : FragKey}

variable (t key) in
/-- A round of the search, without its choice of the oldest slot. -/
theorem fragScanStep_eq (acc : FragScan) (i : Fin fragSlots) :
    (fragScanStep t key acc i).slot = (if (t i).holds key then some i else acc.slot) ∧
      (fragScanStep t key acc i).free =
        acc.free.or (if (t i).inUse then none else some i) := by
  have holdest : ∀ (c : Prop) [Decidable c] (acc : FragScan),
      (if c then { acc with oldest := i } else acc).slot = acc.slot ∧
        (if c then { acc with oldest := i } else acc).free = acc.free := by
    intro c _ acc
    split
    · exact ⟨rfl, rfl⟩
    · exact ⟨rfl, rfl⟩
  unfold fragScanStep
  dsimp only
  rw [(holdest _ _).1, (holdest _ _).2]
  cases hh : (t i).holds key with
  | true =>
    have hused : (t i).inUse = true := (Bool.and_eq_true_iff.mp hh).1
    rw [if_pos rfl, if_pos rfl, hused, if_pos rfl, Option.or_none]
    exact ⟨rfl, rfl⟩
  | false =>
    rw [if_neg Bool.false_ne_true, if_neg Bool.false_ne_true]
    cases (t i).inUse with
    | true => exact ⟨rfl, (Option.or_none).symm⟩
    | false =>
      cases hfree : acc.free with
      | none => exact ⟨rfl, rfl⟩
      | some j => exact ⟨rfl, hfree⟩

theorem foldl_fragScanStep (l : List (Fin fragSlots)) (acc : FragScan) :
    (l.foldl (fragScanStep t key) acc).slot =
        (l.reverse.find? fun i => (t i).holds key).or acc.slot ∧
      (l.foldl (fragScanStep t key) acc).free =
        acc.free.or (l.find? fun i => !(t i).inUse) := by
  induction l generalizing acc with
  | nil => exact ⟨rfl, (Option.or_none).symm⟩
  | cons i l ih =>
    obtain ⟨hslot, hfree⟩ := fragScanStep_eq t key acc i
    rw [List.foldl_cons, (ih _).1, (ih _).2, hslot, hfree, List.reverse_cons, List.find?_append,
      Option.or_assoc, Option.or_assoc, List.find?_singleton, List.find?_cons]
    refine ⟨?_, ?_⟩
    · cases (t i).holds key with
      | true => rfl
      | false => rfl
    · cases (t i).inUse with
      | true => rfl
      | false => rfl

/-- The slot that is found collects the stream. -/
theorem fragScan_slot {i : Fin fragSlots} (h : (fragScan t key).slot = some i) :
    (t i).holds key = true := by
  unfold fragScan at h
  rw [(foldl_fragScanStep _ _).1, Option.or_none] at h
  have hi := List.find?_some h
  exact hi

/-- No slot is found where none collects the stream. -/
theorem fragScan_slot_none (h : (fragScan t key).slot = none) (i : Fin fragSlots) :
    (t i).holds key = false := by
  unfold fragScan at h
  rw [(foldl_fragScanStep _ _).1, Option.or_none, List.find?_eq_none] at h
  exact Bool.eq_false_iff.mpr (h i (List.mem_reverse.mpr (List.mem_finRange i)))

/-- A slot that is not free is only taken where none is. -/
theorem fragScan_free (key : FragKey) :
    (t ((fragScan t key).free.getD (fragScan t key).oldest)).inUse = false ∨
      ∀ i, (t i).inUse = true := by
  have hfree : (fragScan t key).free =
      (List.finRange fragSlots).find? fun i => !(t i).inUse := by
    unfold fragScan
    rw [(foldl_fragScanStep _ _).2]
    rfl
  rw [hfree]
  cases hfind : (List.finRange fragSlots).find? fun i => !(t i).inUse with
  | none =>
    right
    intro i
    have hi := List.find?_eq_none.mp hfind i (List.mem_finRange i)
    simpa using hi
  | some i =>
    left
    have hi := List.find?_some hfind
    simpa using hi

end Scan

namespace FragSlot

@[simp] theorem held_opened (now : UInt64) (key : FragKey) (total k : Nat) :
    (opened now key total).held k = none := by
  show (if (0 : Nat).testBit k then _ else none) = none
  rw [Nat.zero_testBit, if_neg Bool.false_ne_true]

/-- A chunk that is kept replaces the one before it. -/
@[simp] theorem held_store (s : FragSlot) (f : Fragment) (k : Nat) :
    (s.store f).held k = if k = f.index then some f.chunk else s.held k := by
  unfold held store
  dsimp only
  rw [Nat.testBit_or, Nat.one_shiftLeft, Nat.testBit_two_pow]
  by_cases hk : k = f.index
  · rw [if_pos hk, hk, decide_eq_true rfl, Bool.or_true, if_pos rfl, Function.update_self]
  · rw [if_neg hk, decide_eq_false (Ne.symm hk), Bool.or_false, Function.update_of_ne hk]

theorem part_eq_held {s : FragSlot} {k : Nat} (h : (s.held k).isSome) :
    s.part k = (s.held k).getD [] := by
  unfold held at h ⊢
  split at h
  · next hbit => rw [if_pos hbit]; rfl
  · cases h

theorem testBit_iff_held (s : FragSlot) (k : Nat) :
    s.haveMask.testBit k = true ↔ (s.held k).isSome := by
  unfold held
  split
  · next h => exact iff_of_true h rfl
  · next h => exact iff_of_false h Bool.false_ne_true

end FragSlot

/-- The mask is full exactly when every bit below `n` is set. -/
theorem and_wantMask_iff (m n : Nat) :
    m &&& (1 <<< n - 1) = 1 <<< n - 1 ↔ ∀ k < n, m.testBit k = true := by
  rw [Nat.one_shiftLeft]
  constructor
  · intro h k hk
    have hbit := congrArg (fun m => m.testBit k) h
    rw [Nat.testBit_and, Nat.testBit_two_pow_sub_one, decide_eq_true hk, Bool.and_true] at hbit
    exact hbit
  · intro h
    apply Nat.eq_of_testBit_eq
    intro k
    rw [Nat.testBit_and, Nat.testBit_two_pow_sub_one]
    by_cases hk : k < n
    · rw [h k hk, Bool.true_and]
    · rw [decide_eq_false hk, Bool.and_false]

/-- **The slot a fragment goes to**, with what it holds before the chunk is kept: the slot of its
stream, or one that is wiped, which is only a busy one if both are. -/
inductive FragTaken (now : UInt64) (t : FragTable) (f : Fragment) : Fin fragSlots → FragSlot → Prop
  | hit {i : Fin fragSlots} (holds : (t i).holds f.key = true) : FragTaken now t f i (t i)
  | fresh {i : Fin fragSlots} (miss : ∀ j, (t j).holds f.key = false)
      (room : (t i).inUse = false ∨ ∀ j, (t j).inUse = true) :
      FragTaken now t f i (.opened now f.key f.total)

/-- The packet a slot has all the chunks of. -/
def FragSlot.joined (s : FragSlot) (total : Nat) : List UInt8 :=
  (List.range total).flatMap fun k => (s.held k).getD []

/-- **All that a fragment does**: it is dropped if its total is not the slot's, kept while one of
the chunks is missing, and otherwise the slot is free again and its packet is handed on. -/
theorem reassemble_cases {t : FragTable} {x : FragInput} {f : Fragment}
    (hparse : parseFragment x.packet = some f) :
    ∃ i s, FragTaken x.now (fun i => (t i).expire x.now) f i s ∧
      ((s.total ≠ f.total ∧ reassemble t x = (fun i => (t i).expire x.now, none)) ∨
       (s.total = f.total ∧ (∃ k < f.total, (s.store f).held k = none) ∧
         reassemble t x = (Function.update (fun i => (t i).expire x.now) i (s.store f), none)) ∨
       (s.total = f.total ∧ (∀ k < f.total, ((s.store f).held k).isSome) ∧
         reassemble t x = (Function.update (fun i => (t i).expire x.now) i
           { s.store f with inUse := false }, some ((s.store f).joined f.total)))) := by
  unfold reassemble
  rw [hparse]
  dsimp only
  generalize (fun i => (t i).expire x.now) = u
  -- the slot, and the table it is in
  obtain ⟨i, s, htaken, hopen, hslot, hrest⟩ : ∃ i s, FragTaken x.now u f i s ∧
      (fragOpen x.now u f).1 = i ∧ (fragOpen x.now u f).2 i = s ∧
      (fragOpen x.now u f).2 = Function.update u i s := by
    unfold fragOpen
    dsimp only
    cases hscan : (fragScan u f.key).slot with
    | some i =>
      exact ⟨i, u i, .hit (fragScan_slot hscan), rfl, rfl, (Function.update_eq_self i u).symm⟩
    | none =>
      exact ⟨_, _, .fresh (fragScan_slot_none hscan) (fragScan_free f.key), rfl,
        Function.update_self .., rfl⟩
  refine ⟨i, s, htaken, ?_⟩
  unfold fragStore
  dsimp only
  rw [hopen, hslot]
  by_cases htotal : s.total = f.total
  · right
    rw [if_neg (not_not.mpr htotal), hrest, Function.update_idem, Function.update_idem]
    have hfull := (and_wantMask_iff (s.store f).haveMask f.total).trans
      (forall₂_congr fun k _ => (s.store f).testBit_iff_held k)
    by_cases hall : ∀ k < f.total, ((s.store f).held k).isSome
    · right
      rw [if_neg (not_not.mpr (hfull.mpr hall))]
      refine ⟨htotal, hall, ?_⟩
      have hjoin : (List.range f.total).flatMap (s.store f).part = (s.store f).joined f.total :=
        List.flatMap_congr fun k hk => FragSlot.part_eq_held (hall k (List.mem_range.mp hk))
      rw [hjoin]
    · left
      rw [if_pos (mt hfull.mp hall)]
      refine ⟨htotal, ?_, rfl⟩
      simpa using hall
  · left
    rw [if_pos htotal, hrest]
    refine ⟨htotal, ?_⟩
    cases htaken with
    | hit => rw [Function.update_eq_self]
    | fresh => exact absurd rfl htotal

/-! ## What a slot holds -/

/-- The fragments of a stream with a given total, in the order they came in. -/
def streamOf (key : FragKey) (total : Nat) (h : List FragInput) : List Fragment :=
  (h.filterMap fun x => parseFragment x.packet).filter fun f => f.key = key ∧ f.total = total

/-- The chunk last received for an index. -/
def lastChunk (fs : List Fragment) (k : Nat) : Option (List UInt8) :=
  (fs.reverse.find? fun f => f.index = k).map Fragment.chunk

/-- The packet opens a slot for its stream: none is open for it yet. -/
def OpensSlot (t : FragTable) (x : FragInput) (key : FragKey) (total : Nat) : Prop :=
  (∃ f, parseFragment x.packet = some f ∧ f.key = key ∧ f.total = total) ∧
    ∀ i, ((t i).expire x.now).holds key = false

/-- **Since the slot was opened**: `o` opened a slot for the stream, and after it no other packet
did. -/
structure OpenSince (pre : List FragInput) (o : FragInput) (rest : List FragInput) (key : FragKey)
    (total : Nat) : Prop where
  opens : OpensSlot (final fragStep (fun _ => {}) pre) o key total
  once : ∀ u y v, rest = u ++ y :: v → ∀ n,
    ¬OpensSlot (final fragStep (fun _ => {}) (pre ++ o :: u)) y key n

section History

variable {h : List FragInput} {x : FragInput} {f : Fragment} {key : FragKey} {total : Nat}

theorem streamOf_skip
    (hout : ∀ f, parseFragment x.packet = some f → ¬(f.key = key ∧ f.total = total)) :
    streamOf key total (h ++ [x]) = streamOf key total h := by
  unfold streamOf
  rw [List.filterMap_append, List.filter_append]
  cases hparse : parseFragment x.packet with
  | none => simp [hparse]
  | some f => simp [hparse, hout f hparse]

theorem streamOf_concat (hparse : parseFragment x.packet = some f) (hkey : f.key = key)
    (htotal : f.total = total) :
    streamOf key total (h ++ [x]) = streamOf key total h ++ [f] := by
  unfold streamOf
  rw [List.filterMap_append, List.filter_append]
  simp [hparse, hkey, htotal]

theorem lastChunk_concat (fs : List Fragment) (f : Fragment) (k : Nat) :
    lastChunk (fs ++ [f]) k = if k = f.index then some f.chunk else lastChunk fs k := by
  unfold lastChunk
  rw [List.reverse_concat, List.find?_cons]
  by_cases hk : k = f.index
  · rw [if_pos hk, decide_eq_true hk.symm]
    rfl
  · rw [if_neg hk, decide_eq_false (Ne.symm hk)]

variable {t : FragTable} {n : Nat}

theorem not_opensSlot_of_holds {i : Fin fragSlots}
    (hi : ((t i).expire x.now).holds key = true) : ¬OpensSlot t x key n := by
  rintro ⟨-, hmiss⟩
  rw [hmiss i] at hi
  cases hi

theorem not_opensSlot_of_ne (hparse : ∀ f, parseFragment x.packet = some f → f.key ≠ key) :
    ¬OpensSlot t x key n := by
  rintro ⟨⟨f, hf, hkey, -⟩, -⟩
  exact hparse f hf hkey

/-- **What a slot has collected**: of each index the chunk last received since it was opened. -/
def Collected (h : List FragInput) (s : FragSlot) : Prop :=
  ∃ pre o rest, h = pre ++ o :: rest ∧ OpenSince pre o rest s.key s.total ∧ s.startedMs = o.now ∧
    ∀ k, s.held k = lastChunk (streamOf s.key s.total (o :: rest)) k

/-- One more packet that does not open the slot. -/
theorem OpenSince.concat {pre rest : List FragInput} {o : FragInput}
    (hs : OpenSince pre o rest key total)
    (hno : ∀ n, ¬OpensSlot (final fragStep (fun _ => {}) (pre ++ o :: rest)) x key n) :
    OpenSince pre o (rest ++ [x]) key total := by
  refine ⟨hs.opens, fun u y v heq n => ?_⟩
  rcases concat_eq_split heq with ⟨rfl, rfl⟩ | ⟨v', hrest⟩
  · exact hno n
  · exact hs.once u y v' hrest n

theorem Collected.skip {s : FragSlot} (hs : Collected h s)
    (hno : ∀ n, ¬OpensSlot (final fragStep (fun _ => {}) h) x s.key n)
    (hout : ∀ f, parseFragment x.packet = some f → ¬(f.key = s.key ∧ f.total = s.total)) :
    Collected (h ++ [x]) s := by
  obtain ⟨pre, o, rest, rfl, hopen, hstart, hheld⟩ := hs
  refine ⟨pre, o, rest ++ [x], by simp, hopen.concat hno, hstart, fun k => ?_⟩
  rw [← List.cons_append, streamOf_skip hout]
  exact hheld k

theorem Collected.keep {s : FragSlot} (hs : Collected h s)
    (hno : ∀ n, ¬OpensSlot (final fragStep (fun _ => {}) h) x s.key n)
    (hparse : parseFragment x.packet = some f) (hkey : f.key = s.key)
    (htotal : f.total = s.total) : Collected (h ++ [x]) (s.store f) := by
  obtain ⟨pre, o, rest, rfl, hopen, hstart, hheld⟩ := hs
  refine ⟨pre, o, rest ++ [x], by simp, hopen.concat hno, hstart, fun k => ?_⟩
  rw [← List.cons_append]
  show _ = lastChunk (streamOf s.key s.total _) k
  rw [streamOf_concat hparse hkey htotal, lastChunk_concat, FragSlot.held_store, hheld]

theorem Collected.fresh (hparse : parseFragment x.packet = some f)
    (hmiss : ∀ i, ((final fragStep (fun _ => {}) h i).expire x.now).holds f.key = false) :
    Collected (h ++ [x]) ((FragSlot.opened x.now f.key f.total).store f) := by
  refine ⟨h, x, [], rfl, ⟨⟨⟨f, hparse, rfl, rfl⟩, hmiss⟩, fun u y v heq => ?_⟩, rfl, fun k => ?_⟩
  · have hlen := congrArg List.length heq
    simp at hlen
  · show _ = lastChunk (streamOf f.key f.total ([] ++ [x])) k
    rw [streamOf_concat hparse rfl rfl, lastChunk_concat, FragSlot.held_store,
      FragSlot.held_opened]
    rfl

/-- A slot that is still in use has time left, and is as it was. -/
theorem FragSlot.expire_of_inUse {s : FragSlot} {now : UInt64}
    (h : (s.expire now).inUse = true) :
    s.expire now = s ∧ s.inUse = true ∧ now - s.startedMs ≤ fragTimeoutMs := by
  unfold expire at h ⊢
  split at h
  · cases h
  · next hlive =>
    rw [if_neg hlive]
    refine ⟨rfl, h, ?_⟩
    rw [h, Bool.true_and, decide_eq_true_iff] at hlive
    exact UInt64.not_lt.mp hlive

theorem FragSlot.holds_iff {s : FragSlot} :
    s.holds key = true ↔ s.inUse = true ∧ s.key = key := by
  unfold holds
  rw [Bool.and_eq_true, beq_iff_eq]

/-- **The slots after the packets `h`**: no two collect the same stream, and what each holds was
received since it was opened. -/
structure SlotsCollect (h : List FragInput) (t : FragTable) : Prop where
  distinct : ∀ i j, (t i).inUse = true → (t j).inUse = true → (t i).key = (t j).key → i = j
  collected : ∀ i, (t i).inUse = true → Collected h (t i)

section Step

variable {i : Fin fragSlots} {s : FragSlot}

/-- The slot the chunk is kept in. -/
theorem SlotsCollect.taken (hinv : SlotsCollect h (final fragStep (fun _ => {}) h))
    (hparse : parseFragment x.packet = some f)
    (htaken : FragTaken x.now (fun i => (final fragStep (fun _ => {}) h i).expire x.now) f i s)
    (htotal : s.total = f.total) :
    s.inUse = true ∧ s.key = f.key ∧ x.now - s.startedMs ≤ fragTimeoutMs ∧
      Collected (h ++ [x]) (s.store f) := by
  cases htaken with
  | hit hholds =>
    obtain ⟨hused, hkey⟩ := FragSlot.holds_iff.mp hholds
    obtain ⟨hsame, hused', htime⟩ := FragSlot.expire_of_inUse hused
    rw [hsame] at hkey htotal ⊢
    refine ⟨hused', hkey, htime, ?_⟩
    refine (hinv.collected i hused').keep (fun n => ?_) hparse hkey.symm htotal.symm
    rw [hkey]
    exact not_opensSlot_of_holds hholds
  | fresh miss room =>
    refine ⟨rfl, rfl, ?_, .fresh hparse miss⟩
    show x.now - x.now ≤ fragTimeoutMs
    rw [UInt64.sub_self]
    decide

/-- The other slots. -/
theorem SlotsCollect.other (hinv : SlotsCollect h (final fragStep (fun _ => {}) h))
    (hparse : parseFragment x.packet = some f)
    (htaken : FragTaken x.now (fun i => (final fragStep (fun _ => {}) h i).expire x.now) f i s)
    {j : Fin fragSlots} (hj : j ≠ i)
    (hused : ((final fragStep (fun _ => {}) h j).expire x.now).inUse = true) :
    ((final fragStep (fun _ => {}) h j).expire x.now).key ≠ f.key ∧
      Collected (h ++ [x]) ((final fragStep (fun _ => {}) h j).expire x.now) := by
  have hne : ((final fragStep (fun _ => {}) h j).expire x.now).key ≠ f.key := by
    intro hkey
    cases htaken with
    | hit hholds =>
      obtain ⟨hused', hkey'⟩ := FragSlot.holds_iff.mp hholds
      obtain ⟨hsame, hu, -⟩ := FragSlot.expire_of_inUse hused
      obtain ⟨hsame', hu', -⟩ := FragSlot.expire_of_inUse hused'
      refine hj (hinv.distinct j i hu hu' ?_)
      rw [← hsame, ← hsame', hkey, hkey']
    | fresh miss room =>
      have hmiss := miss j
      rw [FragSlot.holds_iff.mpr ⟨hused, hkey⟩] at hmiss
      cases hmiss
  refine ⟨hne, ?_⟩
  obtain ⟨hsame, hu, -⟩ := FragSlot.expire_of_inUse hused
  rw [hsame] at hne ⊢
  refine (hinv.collected j hu).skip (fun n => not_opensSlot_of_ne ?_) ?_
  · intro g hg
    rw [hparse] at hg
    cases hg
    exact Ne.symm hne
  · rintro g hg ⟨hkey, -⟩
    rw [hparse] at hg
    cases hg
    exact hne hkey.symm

/-- The table with the taken slot written. -/
theorem SlotsCollect.update (hinv : SlotsCollect h (final fragStep (fun _ => {}) h))
    (hparse : parseFragment x.packet = some f)
    (htaken : FragTaken x.now (fun i => (final fragStep (fun _ => {}) h i).expire x.now) f i s)
    {s' : FragSlot} (hkey : s'.inUse = true → s'.key = f.key ∧ Collected (h ++ [x]) s') :
    SlotsCollect (h ++ [x])
      (Function.update (fun i => (final fragStep (fun _ => {}) h i).expire x.now) i s') := by
  constructor
  · intro j k hj hk hjk
    by_cases hji : j = i
    · by_cases hki : k = i
      · rw [hji, hki]
      · rw [hji, Function.update_self] at hj
        rw [Function.update_of_ne hki] at hk
        rw [hji, Function.update_self, Function.update_of_ne hki, (hkey hj).1] at hjk
        exact absurd hjk.symm (hinv.other hparse htaken hki hk).1
    · by_cases hki : k = i
      · rw [Function.update_of_ne hji] at hj
        rw [hki, Function.update_self] at hk
        rw [Function.update_of_ne hji, hki, Function.update_self, (hkey hk).1] at hjk
        exact absurd hjk (hinv.other hparse htaken hji hj).1
      · rw [Function.update_of_ne hji] at hj hjk
        rw [Function.update_of_ne hki] at hk hjk
        obtain ⟨hsame, hu, -⟩ := FragSlot.expire_of_inUse hj
        obtain ⟨hsame', hu', -⟩ := FragSlot.expire_of_inUse hk
        rw [hsame, hsame'] at hjk
        exact hinv.distinct j k hu hu' hjk
  · intro j hj
    by_cases hji : j = i
    · rw [hji, Function.update_self] at hj ⊢
      exact (hkey hj).2
    · rw [Function.update_of_ne hji] at hj ⊢
      exact (hinv.other hparse htaken hji hj).2

/-- **One packet.** -/
theorem SlotsCollect.step (hinv : SlotsCollect h (final fragStep (fun _ => {}) h))
    (x : FragInput) :
    SlotsCollect (h ++ [x]) (reassemble (final fragStep (fun _ => {}) h) x).1 := by
  cases hparse : parseFragment x.packet with
  | none =>
    have hnone : ∀ f, parseFragment x.packet ≠ some f := by
      intro f hf
      rw [hparse] at hf
      cases hf
    have hsame : (reassemble (final fragStep (fun _ => {}) h) x).1 =
        final fragStep (fun _ => {}) h := by
      unfold reassemble
      rw [hparse]
    rw [hsame]
    refine ⟨hinv.distinct, fun j hj => (hinv.collected j hj).skip (fun n => ?_) ?_⟩
    · exact not_opensSlot_of_ne fun f hf => absurd hf (hnone f)
    · exact fun f hf => absurd hf (hnone f)
  | some f =>
    obtain ⟨i, s, htaken, hcases⟩ :=
      reassemble_cases (t := final fragStep (fun _ => {}) h) hparse
    rcases hcases with ⟨htotal, heq⟩ | ⟨htotal, -, heq⟩ | ⟨htotal, -, heq⟩
    · -- another total: the packet is not part of what the slot collects
      rw [heq]
      have hself : Function.update (fun i => (final fragStep (fun _ => {}) h i).expire x.now) i s =
          fun i => (final fragStep (fun _ => {}) h i).expire x.now := by
        cases htaken with
        | hit => exact Function.update_eq_self _ _
        | fresh => exact absurd rfl htotal
      rw [← hself]
      apply hinv.update hparse htaken
      intro hused
      cases htaken with
      | fresh => exact absurd rfl htotal
      | hit hholds =>
        obtain ⟨-, hkey⟩ := FragSlot.holds_iff.mp hholds
        obtain ⟨hsame, hused', -⟩ := FragSlot.expire_of_inUse hused
        refine ⟨hkey, ?_⟩
        rw [hsame] at htotal hkey ⊢
        refine (hinv.collected i hused').skip (fun n => ?_) ?_
        · rw [hkey]
          exact not_opensSlot_of_holds hholds
        · rintro g hg ⟨-, hg'⟩
          rw [hparse] at hg
          cases hg
          exact htotal hg'.symm
    · rw [heq]
      obtain ⟨-, hkey, -, hcol⟩ := hinv.taken hparse htaken htotal
      exact hinv.update hparse htaken fun _ => ⟨hkey, hcol⟩
    · rw [heq]
      exact hinv.update hparse htaken fun hused => nomatch hused

end Step

/-- **Every run**, by induction on the packets. -/
theorem slotsCollect_run (h : List FragInput) :
    SlotsCollect h (final fragStep (fun _ => {}) h) := by
  induction h using List.reverseRec with
  | nil => exact ⟨(fun _ _ hi => nomatch hi), (fun _ hi => nomatch hi)⟩
  | append_singleton h x ih =>
    rw [final_append]
    exact ih.step x

/-- A packet that is handed on has the chunks last received since its slot was opened. -/
theorem reassembled_since {h : List FragInput} {x : FragInput} {bytes : List UInt8}
    (hout : (reassemble (final fragStep (fun _ => {}) h) x).2 = some bytes) :
    ∃ f pre o rest, parseFragment x.packet = some f ∧ h ++ [x] = pre ++ o :: rest ∧
      OpenSince pre o rest f.key f.total ∧ x.now - o.now ≤ fragTimeoutMs ∧
      ∃ chunks : List (List UInt8), chunks.length = f.total ∧ bytes = chunks.flatten ∧
        ∀ k < f.total, lastChunk (streamOf f.key f.total (o :: rest)) k = chunks[k]? := by
  cases hparse : parseFragment x.packet with
  | none =>
    unfold reassemble at hout
    rw [hparse] at hout
    cases hout
  | some f =>
    obtain ⟨i, s, htaken, hcases⟩ :=
      reassemble_cases (t := final fragStep (fun _ => {}) h) hparse
    rcases hcases with ⟨-, heq⟩ | ⟨-, -, heq⟩ | ⟨htotal, hall, heq⟩
    · rw [heq] at hout
      cases hout
    · rw [heq] at hout
      cases hout
    · -- the packet is complete: every chunk is the last of its index since the slot was opened
      rw [heq, Option.some.injEq] at hout
      obtain ⟨-, hkey, htime, pre, o, rest, hsplit, hopen, hstart, hheld⟩ :=
        (slotsCollect_run h).taken hparse htaken htotal
      have hstart' : s.startedMs = o.now := hstart
      change OpenSince pre o rest s.key s.total at hopen
      change ∀ k, _ = lastChunk (streamOf s.key s.total (o :: rest)) k at hheld
      rw [hkey, htotal] at hopen hheld
      rw [hstart'] at htime
      refine ⟨f, pre, o, rest, rfl, hsplit, hopen, htime, ?_⟩
      refine ⟨(List.range f.total).map fun k => ((s.store f).held k).getD [], by simp, ?_, ?_⟩
      · rw [← hout, ← List.flatMap_def]
        rfl
      · intro k hk
        rw [← hheld, List.getElem?_map, List.getElem?_range hk, Option.map_some]
        obtain ⟨c, hc⟩ := Option.isSome_iff_exists.mp (hall k hk)
        rw [hc]
        rfl

end History

/-! ## A packet cut into fragments -/

/-- An original packet and how its sender cuts it. -/
structure Original where
  key : FragKey
  chunks : List (List UInt8)
  pos : 0 < chunks.length
  le : chunks.length ≤ fragMaxParts
  chunk_pos : ∀ c ∈ chunks, 0 < c.length
  chunk_le : ∀ c ∈ chunks, c.length ≤ fragPartMax

namespace Original

variable (o : Original)

/-- The packet is the fragment with index `k`. -/
def Part (k : Nat) (packet : BitchatPacket) : Prop :=
  packet.senderId = o.key.sender ∧ ∃ origType chunk, o.chunks[k]? = some chunk ∧
    packet.payload.val = fragmentPayload o.key.fragId k o.chunks.length origType chunk

/-- The index has arrived. -/
def Arrived (xs : List FragInput) (k : Nat) : Prop := ∃ x ∈ xs, o.Part k x.packet

/-- Every index has arrived. -/
def Complete (xs : List FragInput) : Prop := ∀ k < o.chunks.length, o.Arrived xs k

/-- **The first fragment**: no slot is open for the stream, and at most one for another. -/
structure Begins (t : FragTable) (x : FragInput) : Prop where
  first : ∃ k, o.Part k x.packet
  fresh : ∀ i, ((t i).expire x.now).inUse = true → (t i).key ≠ o.key
  one : ∀ i j, ((t i).expire x.now).inUse = true → ((t j).expire x.now).inUse = true → i = j

/-- **A packet in the time of the reassembly**: a fragment of the original, or a packet of another
stream that finds no third one open. -/
structure Arrives (start : UInt64) (t : FragTable) (x : FragInput) : Prop where
  inTime : x.now - start ≤ fragTimeoutMs
  part_or_other : (∃ k, o.Part k x.packet) ∨ ∀ f, parseFragment x.packet = some f →
    f.key ≠ o.key ∧ ∀ i, ((t i).expire x.now).inUse = true →
      (t i).key = o.key ∨ (t i).key = f.key

variable {o} {start : UInt64} {t : FragTable} {x : FragInput} {xs : List FragInput} {k : Nat}

theorem Part.parse (h : o.Part k x.packet) :
    ∃ f, parseFragment x.packet = some f ∧ f.key = o.key ∧ f.total = o.chunks.length ∧
      f.index = k ∧ o.chunks[k]? = some f.chunk := by
  obtain ⟨hsender, origType, chunk, hchunk, hpayload⟩ := h
  have hk : k < o.chunks.length := (List.getElem?_eq_some_iff.mp hchunk).1
  have hmem : chunk ∈ o.chunks := List.mem_of_getElem? hchunk
  refine ⟨_, parseFragment_payload hpayload hk o.le (o.chunk_pos _ hmem) (o.chunk_le _ hmem), ?_,
    rfl, rfl, hchunk⟩
  show (⟨x.packet.senderId, o.key.fragId⟩ : FragKey) = o.key
  rw [hsender]

theorem Part.unique {k' : Nat} (h : o.Part k x.packet) (h' : o.Part k' x.packet) : k = k' := by
  obtain ⟨f, hf, -, -, hk, -⟩ := h.parse
  obtain ⟨f', hf', -, -, hk', -⟩ := h'.parse
  rw [hf, Option.some.injEq] at hf'
  rw [← hk, ← hk', hf']

theorem arrived_concat : o.Arrived (xs ++ [x]) k ↔ o.Arrived xs k ∨ o.Part k x.packet := by
  unfold Arrived
  constructor
  · rintro ⟨y, hy, hpart⟩
    rcases List.mem_append.mp hy with hy | hy
    · exact .inl ⟨y, hy, hpart⟩
    · rw [List.mem_singleton.mp hy] at hpart
      exact .inr hpart
  · rintro (⟨y, hy, hpart⟩ | hpart)
    · exact ⟨y, List.mem_append_left _ hy, hpart⟩
    · exact ⟨x, List.mem_append_right _ (List.mem_singleton_self x), hpart⟩

/-- The slot has the chunks that have arrived, and no others. -/
def Has (o : Original) (xs : List FragInput) (s : FragSlot) : Prop :=
  ∀ k c, s.held k = some c ↔ o.Arrived xs k ∧ o.chunks[k]? = some c

/-- **The reassembly is under way**: one slot has what has arrived, and no other is open for the
stream. -/
structure Holding (o : Original) (start : UInt64) (xs : List FragInput) (t : FragTable)
    (i : Fin fragSlots) : Prop where
  inUse : (t i).inUse = true
  key : (t i).key = o.key
  total : (t i).total = o.chunks.length
  started : (t i).startedMs = start
  has : o.Has xs (t i)
  only : ∀ j, j ≠ i → (t j).inUse = true → (t j).key ≠ o.key

/-- One more chunk in the slot. -/
theorem Has.store {s : FragSlot} (hs : o.Has xs s) {f : Fragment}
    (hparse : parseFragment x.packet = some f) (hpart : o.Part k x.packet) :
    o.Has (xs ++ [x]) (s.store f) := by
  obtain ⟨g, hg, -, -, hindex, hchunk⟩ := hpart.parse
  rw [hparse, Option.some.injEq] at hg
  subst hg
  intro j c
  rw [FragSlot.held_store, arrived_concat]
  by_cases hj : j = f.index
  · have hjk : j = k := hj.trans hindex
    rw [if_pos hj, hjk, hchunk]
    exact ⟨fun hc => ⟨.inr hpart, hc⟩, fun h => h.2⟩
  · rw [if_neg hj, hs]
    refine and_congr_left fun _ => (or_iff_left fun hpart' => ?_).symm
    exact hj ((hpart'.unique hpart).trans hindex.symm)

/-- The slot has everything exactly when every index has arrived. -/
theorem Has.complete_iff {s : FragSlot} (hs : o.Has xs s) :
    o.Complete xs ↔ ∀ k < o.chunks.length, (s.held k).isSome := by
  refine forall₂_congr fun k hk => ?_
  rw [Option.isSome_iff_exists]
  constructor
  · exact fun harrived => ⟨_, (hs k _).mpr ⟨harrived, List.getElem?_eq_getElem hk⟩⟩
  · rintro ⟨c, hc⟩
    exact ((hs k c).mp hc).1

/-- A slot that has everything has the original. -/
theorem Has.joined {s : FragSlot} (hs : o.Has xs s) (hall : o.Complete xs) :
    s.joined o.chunks.length = o.chunks.flatten := by
  have hmap : (List.range o.chunks.length).map (fun k => (s.held k).getD []) = o.chunks := by
    apply List.ext_getElem?
    intro k
    by_cases hk : k < o.chunks.length
    · have hheld := (hs k _).mpr ⟨hall k hk, List.getElem?_eq_getElem hk⟩
      rw [List.getElem?_map, List.getElem?_range hk, Option.map_some, hheld,
        List.getElem?_eq_getElem hk]
      rfl
    · rw [List.getElem?_eq_none (by simpa using hk), List.getElem?_eq_none (by omega)]
  unfold FragSlot.joined
  rw [List.flatMap_def, hmap]

/-- What comes of a fragment of the original, in a slot that has what arrived before it. -/
def Outcome (o : Original) (xs : List FragInput) (t : FragTable) (x : FragInput) : Prop :=
  (o.Complete (xs ++ [x]) → (reassemble t x).2 = some o.chunks.flatten) ∧
    (¬o.Complete (xs ++ [x]) → (reassemble t x).2 = none)

variable (xs) in
/-- **A fragment of the original**, in the slot of its stream. -/
theorem step_taken (hpart : o.Part k x.packet)
    (hslot : ∀ f i s, f.key = o.key → f.total = o.chunks.length →
      FragTaken x.now (fun i => (t i).expire x.now) f i s →
      s.inUse = true ∧ s.key = o.key ∧ s.total = o.chunks.length ∧ s.startedMs = start ∧
        o.Has xs s ∧ ∀ j, j ≠ i → ((t j).expire x.now).inUse = true →
          ((t j).expire x.now).key ≠ o.key) :
    o.Outcome xs t x ∧
      (¬o.Complete (xs ++ [x]) → ∃ i, o.Holding start (xs ++ [x]) (fragStep t x) i) := by
  obtain ⟨f, hparse, hfkey, hftotal, -⟩ := hpart.parse
  obtain ⟨i, s, htaken, hcases⟩ := reassemble_cases (t := t) hparse
  obtain ⟨hused, hkey, htotal, hstart, hhas, honly⟩ := hslot f i s hfkey hftotal htaken
  have hstore := hhas.store hparse hpart
  have hiff := hstore.complete_iff
  rcases hcases with ⟨hne, -⟩ | ⟨-, ⟨j, hj, hnone⟩, heq⟩ | ⟨-, hall, heq⟩
  · exact absurd (htotal.trans hftotal.symm) hne
  · -- a chunk is missing
    have hnot : ¬o.Complete (xs ++ [x]) := by
      intro hcomplete
      have hsome := hiff.mp hcomplete j (hftotal ▸ hj)
      rw [hnone] at hsome
      cases hsome
    refine ⟨⟨fun h => absurd h hnot, fun _ => by rw [heq]⟩, fun _ => ⟨i, ?_⟩⟩
    have hstep : fragStep t x = Function.update (fun i => (t i).expire x.now) i (s.store f) := by
      unfold fragStep
      rw [heq]
    have hi : fragStep t x i = s.store f := by rw [hstep, Function.update_self]
    refine ⟨by rw [hi]; exact hused, by rw [hi]; exact hkey, by rw [hi]; exact htotal,
      by rw [hi]; exact hstart, by rw [hi]; exact hstore, fun j hj hjused => ?_⟩
    have hj' : fragStep t x j = (t j).expire x.now := by rw [hstep, Function.update_of_ne hj]
    rw [hj'] at hjused ⊢
    exact honly j hj hjused
  · rw [hftotal] at hall heq
    have hcomplete := hiff.mpr hall
    refine ⟨⟨fun _ => ?_, fun h => absurd hcomplete h⟩, fun h => absurd hcomplete h⟩
    rw [heq, hstore.joined hcomplete]

/-- **The first fragment** is kept in a free slot. -/
theorem Begins.step (h : o.Begins t x) :
    o.Outcome [] t x ∧ (¬o.Complete [x] → ∃ i, o.Holding x.now [x] (fragStep t x) i) := by
  obtain ⟨k, hpart⟩ := h.first
  have hnot : ∀ i, ((t i).expire x.now).inUse = true → ((t i).expire x.now).key ≠ o.key := by
    intro i hi
    rw [(FragSlot.expire_of_inUse hi).1]
    exact h.fresh i hi
  refine step_taken [] hpart fun f i s hkey htotal htaken => ?_
  cases htaken with
  | hit hholds =>
    obtain ⟨hused, hk⟩ := FragSlot.holds_iff.mp hholds
    exact absurd (hk.trans hkey) (hnot i hused)
  | fresh miss room =>
    refine ⟨rfl, hkey, htotal, rfl, fun k c => ?_, fun j _ hused => hnot j hused⟩
    rw [FragSlot.held_opened]
    refine iff_of_false nofun ?_
    rintro ⟨⟨y, hy, -⟩, -⟩
    cases hy

/-- A slot in time is not expired. -/
theorem Holding.expire {i : Fin fragSlots} (h : o.Holding start xs t i)
    (htime : x.now - start ≤ fragTimeoutMs) : (t i).expire x.now = t i := by
  unfold FragSlot.expire
  rw [h.started, h.inUse, Bool.true_and, if_neg]
  rw [decide_eq_true_iff]
  exact UInt64.not_lt.mpr htime

/-- A slot that is in use after the expiry was in use before, with the same stream. -/
theorem Holding.only_expire {i : Fin fragSlots} (h : o.Holding start xs t i) {j : Fin fragSlots}
    (hj : j ≠ i) (hused : ((t j).expire x.now).inUse = true) :
    ((t j).expire x.now).key ≠ o.key := by
  obtain ⟨hsame, hused', -⟩ := FragSlot.expire_of_inUse hused
  rw [hsame]
  exact h.only j hj hused'

/-- **A further fragment** is kept in the same slot. -/
theorem Holding.part {i : Fin fragSlots} (h : o.Holding start xs t i)
    (htime : x.now - start ≤ fragTimeoutMs) (hpart : o.Part k x.packet) :
    o.Outcome xs t x ∧
      (¬o.Complete (xs ++ [x]) → ∃ i, o.Holding start (xs ++ [x]) (fragStep t x) i) := by
  have hsame := h.expire htime
  have hholds : ((t i).expire x.now).holds o.key = true := by
    rw [hsame]
    exact FragSlot.holds_iff.mpr ⟨h.inUse, h.key⟩
  refine step_taken xs hpart fun f j s hkey htotal htaken => ?_
  cases htaken with
  | hit hhit =>
    obtain ⟨hused, hk⟩ := FragSlot.holds_iff.mp hhit
    have hji : j = i := by
      by_contra hji
      exact h.only_expire hji hused (hk.trans hkey)
    subst hji
    rw [hsame]
    exact ⟨h.inUse, h.key, h.total, h.started, h.has, fun k hk hused => h.only_expire hk hused⟩
  | fresh miss room =>
    have hmiss := miss i
    rw [hkey] at hmiss
    exact absurd hholds (by rw [hmiss]; exact Bool.false_ne_true)

/-- **A packet of another stream** takes another slot. -/
theorem Holding.other {i : Fin fragSlots} (h : o.Holding start xs t i)
    (htime : x.now - start ≤ fragTimeoutMs)
    (hother : ∀ f, parseFragment x.packet = some f →
      f.key ≠ o.key ∧ ∀ i, ((t i).expire x.now).inUse = true →
        (t i).key = o.key ∨ (t i).key = f.key) :
    o.Holding start (xs ++ [x]) (fragStep t x) i := by
  have hsame := h.expire htime
  have hhas : o.Has (xs ++ [x]) (t i) := by
    intro k c
    have hk : ¬o.Part k x.packet := by
      intro hpart
      obtain ⟨f, hf, hkey, -⟩ := hpart.parse
      exact (hother f hf).1 hkey
    rw [h.has, arrived_concat, or_iff_left hk]
  -- all that is needed of the table after the packet
  have hkeep : fragStep t x i = t i → (∀ j, j ≠ i → (fragStep t x j).inUse = true →
      (fragStep t x j).key ≠ o.key) → o.Holding start (xs ++ [x]) (fragStep t x) i := by
    intro hi honly
    refine ⟨?_, ?_, ?_, ?_, ?_, honly⟩
    · rw [hi]
      exact h.inUse
    · rw [hi]
      exact h.key
    · rw [hi]
      exact h.total
    · rw [hi]
      exact h.started
    · rw [hi]
      exact hhas
  cases hparse : parseFragment x.packet with
  | none =>
    have hstep : fragStep t x = t := by
      unfold fragStep reassemble
      rw [hparse]
    exact hkeep (by rw [hstep]) (by rw [hstep]; exact h.only)
  | some f =>
    obtain ⟨hne, hroom⟩ := hother f hparse
    obtain ⟨j, s, htaken, hcases⟩ := reassemble_cases (t := t) hparse
    -- the packet's slot is not this one: neither its own nor the oldest
    have hskey : j ≠ i ∧ s.key = f.key := by
      cases htaken with
      | hit hholds =>
        obtain ⟨-, hk⟩ := FragSlot.holds_iff.mp hholds
        refine ⟨?_, hk⟩
        rintro rfl
        rw [hsame, h.key] at hk
        exact hne hk.symm
      | fresh miss room =>
        refine ⟨?_, rfl⟩
        rintro rfl
        rcases room with hfree | hall
        · rw [hsame, h.inUse] at hfree
          cases hfree
        · -- both are busy: the other one is of this stream or of the packet's
          obtain ⟨j', hj'⟩ : ∃ j', j' ≠ j := (by decide : ∀ j : Fin fragSlots, ∃ j', j' ≠ j) j
          have hjsame := (FragSlot.expire_of_inUse (hall j')).1
          rcases hroom j' (hall j') with hk | hk
          · exact h.only_expire hj' (hall j') (by rw [hjsame]; exact hk)
          · have hmiss := miss j'
            rw [FragSlot.holds_iff.mpr ⟨hall j', by rw [hjsame]; exact hk⟩] at hmiss
            cases hmiss
    obtain ⟨hji, hskey⟩ := hskey
    have hupdate : ∀ s' : FragSlot, s'.key = f.key →
        fragStep t x = Function.update (fun i => (t i).expire x.now) j s' →
        o.Holding start (xs ++ [x]) (fragStep t x) i := by
      intro s' hs' hstep
      refine hkeep ?_ fun l hl hused => ?_
      · rw [hstep, Function.update_of_ne (Ne.symm hji), hsame]
      · rw [hstep] at hused ⊢
        by_cases hlj : l = j
        · rw [hlj, Function.update_self, hs']
          exact hne
        · rw [Function.update_of_ne hlj] at hused ⊢
          exact h.only_expire hl hused
    rcases hcases with ⟨htotal, heq⟩ | ⟨-, -, heq⟩ | ⟨-, -, heq⟩
    · have hstep : fragStep t x = fun i => (t i).expire x.now := by
        unfold fragStep
        rw [heq]
      refine hkeep (Eq.trans (congrFun hstep i) hsame) fun l hl hused => ?_
      · rw [hstep] at hused ⊢
        exact h.only_expire hl hused
    · exact hupdate (s.store f) hskey (by unfold fragStep; rw [heq])
    · exact hupdate { s.store f with inUse := false } hskey (by unfold fragStep; rw [heq])

/-- More packets, more indices. -/
theorem Complete.mono {ys : List FragInput} (h : o.Complete xs) : o.Complete (xs ++ ys) := by
  intro k hk
  obtain ⟨x, hx, hpart⟩ := h k hk
  exact ⟨x, List.mem_append_left _ hx, hpart⟩

/-- **The whole reassembly**, by induction on the packets behind the first: until every index has
arrived, one slot has what did. -/
theorem holding_run {x₀ : FragInput} (hbegins : o.Begins t x₀) (rest : List FragInput)
    (hrun : Along fragStep (o.Arrives x₀.now) t (x₀ :: rest))
    (hnot : ¬o.Complete (x₀ :: rest)) :
    ∃ i, o.Holding x₀.now (x₀ :: rest) (final fragStep t (x₀ :: rest)) i := by
  induction rest using List.reverseRec with
  | nil => exact hbegins.step.2 hnot
  | append_singleton rest x ih =>
    rw [← List.cons_append] at hrun hnot ⊢
    obtain ⟨hpre, hlast, -⟩ := (along_append _ _ _).mp hrun
    obtain ⟨i, hi⟩ := ih hpre fun hc => hnot hc.mono
    rw [final_append]
    rcases hlast.part_or_other with ⟨k, hpart⟩ | hother
    · exact (hi.part hlast.inTime hpart).2 hnot
    · exact ⟨i, hi.other hlast.inTime hother⟩

/-- A fragment of the original, at any point of the reassembly. -/
theorem outcome_run {x₀ : FragInput} (hbegins : o.Begins t x₀) {rest pre post : List FragInput}
    (hrun : Along fragStep (o.Arrives x₀.now) t (x₀ :: rest))
    (hsplit : x₀ :: rest = pre ++ x :: post) (hpart : o.Part k x.packet)
    (hnot : ¬o.Complete pre) : o.Outcome pre (final fragStep t pre) x := by
  cases pre with
  | nil =>
    obtain ⟨rfl, -⟩ := List.cons.inj hsplit
    exact hbegins.step.1
  | cons y pre =>
    rw [hsplit] at hrun
    obtain ⟨rfl, -⟩ := List.cons.inj hsplit
    obtain ⟨hpre, hlast, -⟩ := (along_append _ _ _).mp hrun
    obtain ⟨i, hi⟩ := holding_run hbegins pre hpre hnot
    exact (hi.part hlast.inTime hpart).1

end Original

/-- **Reassembly.** In every run, the bytes that are decoded are the chunks last received for each
index, with the sender, fragment ID and total of the packet that completes them, since the slot was
opened at most `FRAG_TIMEOUT_MS` earlier. And whichever way the fragments of an original come in,
in time and with no more than one other reassembly beside it, they give the original exactly when
the last missing index arrives. -/
theorem fragments_reassembled :
    (∀ (h : List FragInput) (x : FragInput) (bytes : List UInt8),
      (reassemble (final fragStep (fun _ => {}) h) x).2 = some bytes →
      ∃ f pre o rest, parseFragment x.packet = some f ∧ h ++ [x] = pre ++ o :: rest ∧
        OpenSince pre o rest f.key f.total ∧ x.now - o.now ≤ fragTimeoutMs ∧
        ∃ chunks : List (List UInt8), chunks.length = f.total ∧ bytes = chunks.flatten ∧
          ∀ k < f.total, lastChunk (streamOf f.key f.total (o :: rest)) k = chunks[k]?) ∧
    ∀ (o : Original) (t : FragTable) (x₀ : FragInput) (rest : List FragInput),
      o.Begins t x₀ → Along fragStep (o.Arrives x₀.now) t (x₀ :: rest) →
      ∀ pre x post k, x₀ :: rest = pre ++ x :: post → o.Part k x.packet → ¬o.Complete pre →
        (o.Complete (pre ++ [x]) →
          (reassemble (final fragStep t pre) x).2 = some o.chunks.flatten) ∧
        (¬o.Complete (pre ++ [x]) → (reassemble (final fragStep t pre) x).2 = none) := by
  constructor
  · intro h x bytes hout
    exact reassembled_since hout
  · intro o t x₀ rest hbegins hrun pre x post k hsplit hpart hnot
    exact Original.outcome_run hbegins hrun hsplit hpart hnot

/-- A packet of two chunks. -/
def twoChunks : Original where
  key := ⟨zeros 8, 7⟩
  chunks := [[1, 2], [3]]
  pos := by decide
  le := by decide
  chunk_pos := by decide
  chunk_le := by decide

/-- One of its fragments. -/
def twoChunksPart (now : UInt64) (k : Nat) (chunk : List UInt8)
    (h : (fragmentPayload 7 k 2 0x02 chunk).length < 65536) : FragInput where
  now := now
  packet :=
    { version := 1, type := bitchatMsgFragment, ttl := 7, timestampMs := 0, senderId := zeros 8
      recipientId := zeros 8, hasRecipient := false, isCompressed := false, isRsr := false
      opaqueOnly := false, payload := ⟨fragmentPayload 7 k 2 0x02 chunk, h⟩
      signature := zeros 64, hasSignature := false }

/-- The second fragment first, and then the first one. -/
theorem fragments_reassembled_swapped :
    (reassemble (final fragStep (fun _ => {}) [twoChunksPart 10 1 [3] (by decide)])
      (twoChunksPart 400 0 [1, 2] (by decide))).2 = some [1, 2, 3] := by
  have hpart₁ : twoChunks.Part 1 (twoChunksPart 10 1 [3] (by decide)).packet :=
    ⟨rfl, 0x02, [3], rfl, rfl⟩
  have hpart₀ : twoChunks.Part 0 (twoChunksPart 400 0 [1, 2] (by decide)).packet :=
    ⟨rfl, 0x02, [1, 2], rfl, rfl⟩
  have hrun : Along fragStep (twoChunks.Arrives 10) (fun _ => {})
      [twoChunksPart 10 1 [3] (by decide), twoChunksPart 400 0 [1, 2] (by decide)] :=
    ⟨⟨by decide, .inl ⟨1, hpart₁⟩⟩, ⟨by decide, .inl ⟨0, hpart₀⟩⟩, trivial⟩
  have hnot : ¬twoChunks.Complete [twoChunksPart 10 1 [3] (by decide)] := by
    intro hall
    obtain ⟨x, hx, hpart⟩ := hall 0 (by decide)
    rw [List.mem_singleton.mp hx] at hpart
    exact absurd (hpart.unique hpart₁) (by decide)
  refine (fragments_reassembled.2 twoChunks (fun _ => {}) _ _ ?_ hrun
    [twoChunksPart 10 1 [3] (by decide)] _ [] 0 rfl hpart₀ hnot).1 ?_
  · exact ⟨⟨1, hpart₁⟩, (fun _ hi => nomatch hi), (fun _ _ hi => nomatch hi)⟩
  · intro k hk
    match k, hk with
    | 0, _ => exact ⟨_, List.mem_cons_of_mem _ (List.mem_singleton_self _), hpart₀⟩
    | 1, _ => exact ⟨_, List.mem_cons_self, hpart₁⟩

end Bitle
