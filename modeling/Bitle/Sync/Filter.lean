import Bitle.Sync.Gcs

/-!
# Bitle — filters from the wire (`main/bitle_sync.c`)

`gcs_decode` is run on bytes a peer has chosen. `gcsDecodeU64` is the decoder in the source's
own 64-bit arithmetic, where every operation that could leave 64 bits reports it; on anything
a request may carry it never does, and it computes what `gcsDecode` computes over `Nat`
(`gcsDecodeU64_eq`). What comes out is strictly increasing below `m` whatever the bytes are,
which is all the binary search needs.

The round trip is also taken here at every `p`: below seven the padding can spell further
codes, so the encoder's buckets are only a first part of what is decoded.
-/

namespace Bitle

open Wire

/-! ## Round trip at every `p` -/

/-- A bit that was put had room. -/
theorem bwPut_fits {w w' : BitWriter} {b : Bool} (h : bwPut w b = some w') :
    w.bit < 8 * w.buf.length ∧ w'.bit = w.bit + 1 ∧ w'.buf.length = w.buf.length := by
  rw [bwPut] at h
  split at h
  · cases h
  · next hroom =>
      cases h
      refine ⟨by omega, rfl, ?_⟩
      cases b with
      | false => rfl
      | true => exact List.length_set

theorem bwPutAll_fits {l : List Bool} {w w' : BitWriter} (hw : w.bit ≤ 8 * w.buf.length)
    (h : bwPutAll w l = some w') : w.bit + l.length ≤ 8 * w.buf.length := by
  induction l generalizing w with
  | nil => exact hw
  | cons b l ih =>
    rw [bwPutAll_cons] at h
    cases hput : bwPut w b with
    | none =>
      rw [hput] at h
      cases h
    | some w₁ =>
      rw [hput] at h
      obtain ⟨hlt, hbit, hlen⟩ := bwPut_fits hput
      have hrest := ih (by omega) h
      rw [List.length_cons]
      omega

/-- The encoder succeeds only when its bits fit. -/
theorem gcsBits_fit {sorted : List Nat} {p outCap : Nat} {bytes : List UInt8}
    (h : gcsEncode sorted p outCap = some bytes) : (gcsBits p 0 sorted).length ≤ 8 * outCap := by
  rw [gcsEncode, gcsEncodeLoop_eq] at h
  cases hput : bwPutAll { buf := List.replicate outCap 0 } (gcsBits p 0 sorted) with
  | none =>
    rw [hput] at h
    cases h
  | some w =>
    have hfit := bwPutAll_fits (Nat.zero_le _) hput
    rwa [Nat.zero_add, List.length_replicate] at hfit

/-- **Round trip at every `p`.** Whatever the encoder fits into its buffer is a first part of
what the decoder reads, and all of it once a code is longer than the padding. -/
theorem gcsDecode_of_gcsEncode {sorted : List Nat} {p m outCap room : Nat} {bytes : List UInt8}
    (hp : 1 ≤ p) (hp32 : p ≤ 32) (hsorted : sorted.Pairwise (· < ·))
    (hrange : ∀ b ∈ sorted, 1 ≤ b ∧ b < m) (henc : gcsEncode sorted p outCap = some bytes)
    (hroom : sorted.length ≤ room) :
    sorted <+: gcsDecode bytes p m room ∧ (7 ≤ p → gcsDecode bytes p m room = sorted) := by
  by_cases hm : m ≤ 1
  · -- no bucket is possible, and the decoder reads none
    have hnil : sorted = [] := by
      apply List.eq_nil_iff_forall_not_mem.mpr
      intro b hb
      have := hrange b hb
      omega
    rw [hnil, gcsDecode, if_pos (by omega)]
    exact ⟨List.prefix_rfl, fun _ => rfl⟩
  · obtain ⟨bytes', k, henc', hk, hbits, -⟩ := gcsEncode_eq_some (gcsBits_fit henc)
    obtain rfl : bytes = bytes' := Option.some.inj (henc.symm.trans henc')
    have hpos : (0 :: sorted).Pairwise (· < ·) :=
      List.pairwise_cons.mpr ⟨fun b hb => (hrange b hb).1, hsorted⟩
    obtain ⟨r, hrest, hdec⟩ := gcsDecodeLoop_append (r := { buf := bytes }) hpos
      (fun b hb => (hrange b hb).2) hroom hbits
    rw [gcsDecode, if_neg (by omega), Int.toNat_natCast, hdec]
    constructor
    · exact List.prefix_append _ _
    · -- seven zero bits are no code of eight or more
      intro hp7
      rw [gcsDecodeLoop_pad (show k ≤ p by omega) hrest, List.append_nil]

/-- Two buckets at `p = 7`. -/
theorem gcsDecode_of_gcsEncode_two :
    [3, 200] <+: gcsDecode [0x02, 0xa2, 0x00] (7 : Nat) 256 2 ∧
      ((7 : Nat) ≤ 7 → gcsDecode [0x02, 0xa2, 0x00] (7 : Nat) 256 2 = [3, 200]) :=
  gcsDecode_of_gcsEncode (by decide) (by decide) (by decide) (by decide)
    (show gcsEncode [3, 200] 7 3 = some [0x02, 0xa2, 0x00] by decide) (by decide)

/-! ## The decoder in 64-bit arithmetic -/

/-- An operation left the 64 bits. -/
structure Overflow where
  deriving DecidableEq

/-- `a + b` in `uint64_t`. -/
def addU64 (a b : UInt64) : Except Overflow UInt64 :=
  if a.toNat + b.toNat < 2 ^ 64 then .ok (a + b) else .error {}

/-- `a << k` in `uint64_t`. -/
def shlU64 (a : UInt64) (k : Nat) : Except Overflow UInt64 :=
  if k < 64 ∧ a.toNat * 2 ^ k < 2 ^ 64 then .ok (a <<< UInt64.ofNat k) else .error {}

theorem addU64_eq_ok {a b : UInt64} {n : Nat} (h : a.toNat + b.toNat = n) (hn : n < 2 ^ 64) :
    ∃ c, addU64 a b = .ok c ∧ c.toNat = n := by
  refine ⟨a + b, by rw [addU64, if_pos (by omega)], ?_⟩
  rw [UInt64.toNat_add, h, Nat.mod_eq_of_lt hn]

theorem shlU64_eq_ok {a : UInt64} {k n : Nat} (hk : k < 64) (h : a.toNat <<< k = n)
    (hn : n < 2 ^ 64) : ∃ c, shlU64 a k = .ok c ∧ c.toNat = n := by
  have hmul : a.toNat * 2 ^ k = n := by rw [← h, Nat.shiftLeft_eq]
  refine ⟨a <<< UInt64.ofNat k, by rw [shlU64, if_pos ⟨hk, by omega⟩], ?_⟩
  have hk' : (UInt64.ofNat k).toNat % 64 = k := by
    rw [UInt64.toNat_ofNat_of_lt' (by rw [UInt64.size]; omega), Nat.mod_eq_of_lt hk]
  rw [UInt64.toNat_shiftLeft, hk', h, Nat.mod_eq_of_lt hn]

/-- Every bit read moves the reader one bit on, inside the data. -/
theorem brGet_bit {r r' : BitReader} {b : Bool} (h : brGet r = some (b, r')) :
    r.bit < 8 * r.buf.length ∧ r'.buf = r.buf ∧ r'.bit = r.bit + 1 := by
  rw [brGet] at h
  split at h
  · cases h
  · next hin =>
      cases h
      exact ⟨by omega, rfl, rfl⟩

/-- The unary loop of `gcs_decode`, which ends because the data does. -/
def brUnaryU64 (r : BitReader) (q : UInt64) : Except Overflow (Option (UInt64 × BitReader)) :=
  match _h : brGet r with
  | none => .ok none
  | some (true, r') =>
    match addU64 q 1 with
    | .error e => .error e
    | .ok q => brUnaryU64 r' q
  | some (false, r') => .ok (some (q, r'))
  termination_by 8 * r.buf.length - r.bit
  decreasing_by
    have hbit := brGet_bit _h
    rw [hbit.2.1, hbit.2.2]
    omega

/-- The remainder loop of `gcs_decode`; the low bit after the shift is free. -/
def brGetBitsU64 : Nat → BitReader → UInt64 → Except Overflow (Option (UInt64 × BitReader))
  | 0, r, rem => .ok (some (rem, r))
  | i + 1, r, rem =>
    match brGet r with
    | none => .ok none
    | some (b, r) => do
      let rem ← shlU64 rem 1
      brGetBitsU64 i r (rem ||| (if b then 1 else 0))

/-- The loop of `gcs_decode`; `room` is `out_cap - n`. -/
def gcsDecodeLoopU64 (p : Nat) (m : UInt64) :
    Nat → BitReader → UInt64 → Except Overflow (List UInt64)
  | 0, _, _ => .ok []
  | room + 1, r, acc => do
    match ← brUnaryU64 r 0 with
    | none => return []
    | some (q, r) =>
      match ← brGetBitsU64 p r 0 with
      | none => return []
      | some (rem, r) =>
        let gap ← addU64 (← shlU64 q p) rem
        let acc ← addU64 acc (← addU64 gap 1)
        if acc ≥ m then return []
        else return acc :: (← gcsDecodeLoopU64 p m room r acc)

/-- `gcs_decode`. -/
def gcsDecodeU64 (data : List UInt8) (p : Int) (m : UInt32) (outCap : Nat) :
    Except Overflow (List UInt64) :=
  if p < 1 ∨ p > 32 ∨ m ≤ 1 then .ok []
  else gcsDecodeLoopU64 p.toNat m.toUInt64 outCap { buf := data } 0

/-! ## It never leaves them -/

/-- The unary count is at most the bits that were left. -/
theorem brUnary_le {fuel n q : Nat} {r r' : BitReader} (h : brUnary fuel r n = some (q, r')) :
    q + r.bit ≤ n + 8 * r.buf.length ∧ r'.buf = r.buf := by
  induction fuel generalizing r n with
  | zero => cases h
  | succ fuel ih =>
    rw [brUnary] at h
    split at h
    · cases h
    · -- a one: the count and the position both go up
      next r₁ hget =>
        obtain ⟨hin, hbuf, hbit⟩ := brGet_bit hget
        have hrest := ih h
        rw [hbuf, hbit] at hrest
        exact ⟨by omega, hrest.2⟩
    · next r₁ hget =>
        obtain ⟨hin, hbuf, -⟩ := brGet_bit hget
        cases h
        exact ⟨by omega, hbuf⟩

/-- `k` more bits make the number at most `2^k` times as large. -/
theorem brGetBits_lt {k rem v : Nat} {r r' : BitReader} (h : brGetBits k r rem = some (v, r')) :
    v < (rem + 1) * 2 ^ k ∧ r'.buf = r.buf := by
  induction k generalizing r rem with
  | zero =>
    cases h
    exact ⟨by omega, rfl⟩
  | succ k ih =>
    rw [brGetBits] at h
    cases hget : brGet r with
    | none =>
      rw [hget] at h
      cases h
    | some br =>
      obtain ⟨b, r₁⟩ := br
      rw [hget] at h
      obtain ⟨hlt, hbuf⟩ := ih h
      refine ⟨Nat.lt_of_lt_of_le hlt ?_, hbuf.trans (brGet_bit hget).2.1⟩
      calc (2 * rem + b.toNat + 1) * 2 ^ k
          ≤ (2 * (rem + 1)) * 2 ^ k :=
            Nat.mul_le_mul_right _ (by have := Bool.toNat_le b; omega)
        _ = (rem + 1) * 2 ^ (k + 1) := by rw [Nat.pow_succ]; ac_rfl

/-- A result in 64 bits, read as the unbounded one. -/
def wordResult (x : UInt64 × BitReader) : Nat × BitReader := (x.1.toNat, x.2)

/-- The unary loop counts without overflow: there are fewer than `2^64` bits. -/
theorem brUnaryU64_eq {fuel : Nat} {r : BitReader} {q : UInt64}
    (hfuel : 8 * r.buf.length - r.bit < fuel) (hroom : q.toNat + 8 * r.buf.length < 2 ^ 64 + r.bit) :
    ∃ out, brUnaryU64 r q = .ok out ∧ out.map wordResult = brUnary fuel r q.toNat := by
  induction fuel generalizing r q with
  | zero => omega
  | succ fuel ih =>
    rw [brUnary, brUnaryU64]
    split
    · next hget =>
        rw [hget]
        exact ⟨none, rfl, rfl⟩
    · next r₁ hget =>
        obtain ⟨hin, hbuf, hbit⟩ := brGet_bit hget
        obtain ⟨q₁, hadd, hq₁⟩ := addU64_eq_ok (a := q) (b := 1) rfl (by
          show q.toNat + 1 < 2 ^ 64
          omega)
        rw [hget, hadd]
        have hq₁' : q₁.toNat = q.toNat + 1 := hq₁
        have hrest := ih (r := r₁) (q := q₁) (by rw [hbuf, hbit]; omega)
          (by rw [hbuf, hbit]; omega)
        rwa [hq₁'] at hrest
    · next r₁ hget =>
        rw [hget]
        exact ⟨some (q, r₁), rfl, rfl⟩

/-- The remainder loop stays below `2^32` when it starts at zero. -/
theorem brGetBitsU64_eq {k : Nat} {r : BitReader} {rem : UInt64}
    (hroom : (rem.toNat + 1) * 2 ^ k ≤ 2 ^ 64) :
    ∃ out, brGetBitsU64 k r rem = .ok out ∧ out.map wordResult = brGetBits k r rem.toNat := by
  induction k generalizing r rem with
  | zero => exact ⟨some (rem, r), rfl, rfl⟩
  | succ k ih =>
    rw [brGetBitsU64, brGetBits]
    cases hget : brGet r with
    | none => exact ⟨none, rfl, rfl⟩
    | some br =>
      obtain ⟨b, r₁⟩ := br
      have hpow : 0 < 2 ^ k := Nat.two_pow_pos k
      rw [Nat.pow_succ] at hroom
      have hdouble : 2 * (rem.toNat + 1) ≤ 2 ^ 64 :=
        calc 2 * (rem.toNat + 1) = (rem.toNat + 1) * (1 * 2) := by omega
          _ ≤ (rem.toNat + 1) * (2 ^ k * 2) := Nat.mul_le_mul_left _ (by omega)
          _ ≤ 2 ^ 64 := hroom
      obtain ⟨rem₁, hshl, hrem₁⟩ := shlU64_eq_ok (a := rem) (k := 1) (by decide) rfl (by
        rw [Nat.shiftLeft_eq]
        omega)
      rw [Nat.shiftLeft_eq] at hrem₁
      -- the shifted number is even, so the bit is added
      have hor : (rem₁ ||| (if b then 1 else 0)).toNat = 2 * rem.toNat + b.toNat := by
        rw [UInt64.toNat_or, hrem₁]
        cases b with
        | false =>
          show rem.toNat * 2 ^ 1 ||| 0 = _
          rw [Nat.or_zero]
          show _ = 2 * rem.toNat + 0
          omega
        | true =>
          show rem.toNat * 2 ^ 1 ||| 1 = _
          rw [← Nat.shiftLeft_eq, ← Nat.shiftLeft_add_eq_or_of_lt (by decide), Nat.shiftLeft_eq]
          show _ = 2 * rem.toNat + 1
          omega
      have hrest := @ih r₁ (rem₁ ||| (if b then 1 else 0)) (by
        rw [hor]
        calc (2 * rem.toNat + b.toNat + 1) * 2 ^ k
            ≤ (2 * (rem.toNat + 1)) * 2 ^ k :=
              Nat.mul_le_mul_right _ (by have := Bool.toNat_le b; omega)
          _ = (rem.toNat + 1) * (2 ^ k * 2) := by ac_rfl
          _ ≤ 2 ^ 64 := hroom)
      rw [hor] at hrest
      obtain ⟨out, hout, hmap⟩ := hrest
      exact ⟨out, by rw [hshl]; exact hout, hmap⟩

/-- One decoder computes the other, on data short enough for the shifted quotient. -/
theorem gcsDecodeLoopU64_eq {p room : Nat} {m acc : UInt64} {r : BitReader} (hp : p ≤ 32)
    (hm : m.toNat < 2 ^ 32) (hacc : acc.toNat < 2 ^ 32) (hlen : 8 * r.buf.length < 2 ^ 31) :
    ∃ out, gcsDecodeLoopU64 p m room r acc = .ok out ∧
      out.map UInt64.toNat = gcsDecodeLoop p m.toNat room r acc.toNat := by
  induction room generalizing r acc with
  | zero => exact ⟨[], rfl, rfl⟩
  | succ room ih =>
    obtain ⟨oq, hq, hqmap⟩ := @brUnaryU64_eq (8 * r.buf.length + 1) r 0
      (by omega) (by show 0 + 8 * r.buf.length < 2 ^ 64 + r.bit; omega)
    rw [gcsDecodeLoopU64, gcsDecodeLoop, hq]
    change _ = brUnary _ r 0 at hqmap
    cases oq with
    | none =>
      rw [← hqmap]
      exact ⟨[], rfl, rfl⟩
    | some qr =>
      obtain ⟨q, r₁⟩ := qr
      change some (q.toNat, r₁) = _ at hqmap
      obtain ⟨hqle, hbuf₁⟩ := brUnary_le hqmap.symm
      have hpow : 2 ^ p ≤ 2 ^ 32 := Nat.pow_le_pow_right (by decide) hp
      obtain ⟨orem, hrem, hremmap⟩ := @brGetBitsU64_eq p r₁ 0 (by
        show (0 + 1) * 2 ^ p ≤ 2 ^ 64
        omega)
      change _ = brGetBits p r₁ 0 at hremmap
      rw [← hqmap]
      dsimp only [bind, Except.bind]
      rw [hrem, ← hremmap]
      cases orem with
      | none => exact ⟨[], rfl, rfl⟩
      | some remr =>
        obtain ⟨rem, r₂⟩ := remr
        obtain ⟨hremlt, hbuf₂⟩ := brGetBits_lt hremmap.symm
        change rem.toNat < (0 + 1) * 2 ^ p at hremlt
        -- the whole gap is below `2^63 + 2^32`, the running value below `2^32`
        have hqlt : q.toNat <<< p < 2 ^ 63 := by
          rw [Nat.shiftLeft_eq]
          calc q.toNat * 2 ^ p ≤ q.toNat * 2 ^ 32 := Nat.mul_le_mul_left _ hpow
            _ < 2 ^ 31 * 2 ^ 32 := by omega
        have hremlt' : rem.toNat < 2 ^ 32 := by omega
        obtain ⟨qp, hshl, hqp⟩ := shlU64_eq_ok (a := q) (k := p) (by omega) rfl (by omega)
        obtain ⟨gap, hgap, hgapv⟩ := addU64_eq_ok (a := qp) (b := rem) rfl (by omega)
        have hone : (1 : UInt64).toNat = 1 := rfl
        obtain ⟨gap₁, hgap₁, hgapv₁⟩ := addU64_eq_ok (a := gap) (b := 1) rfl (by omega)
        obtain ⟨acc₁, hacc₁, haccv⟩ := addU64_eq_ok (a := acc) (b := gap₁) rfl (by omega)
        have haccv' : acc₁.toNat = acc.toNat + (q.toNat <<< p + rem.toNat + 1) := by omega
        dsimp only [Option.map, wordResult]
        rw [hshl]
        dsimp only
        rw [hgap]
        dsimp only
        rw [hgap₁]
        dsimp only
        rw [hacc₁, ← haccv']
        dsimp only
        split
        · next hge =>
            rw [if_pos (UInt64.le_iff_toNat_le.mp hge)]
            exact ⟨[], rfl, rfl⟩
        · next hlt =>
            have hlt' : acc₁.toNat < m.toNat := by
              have := mt UInt64.le_iff_toNat_le.mpr hlt
              omega
            obtain ⟨out, hout, hmap⟩ := @ih acc₁ r₂ (by omega)
              (by rw [hbuf₂, hbuf₁]; exact hlen)
            rw [if_neg (by omega), hout, ← hmap]
            exact ⟨acc₁ :: out, rfl, rfl⟩

/-- On everything a request may carry, the 64-bit decoder is the unbounded one. -/
theorem gcsDecodeU64_eq {data : List UInt8} {p : Int} {m : UInt32} {outCap : Nat}
    (hlen : data.length ≤ gcsMaxAccept) :
    ∃ out, gcsDecodeU64 data p m outCap = .ok out ∧
      out.map UInt64.toNat = gcsDecode data p m.toNat outCap := by
  rw [gcsDecodeU64, gcsDecode]
  have hm1 : m ≤ 1 ↔ m.toNat ≤ 1 := UInt32.le_iff_toNat_le
  by_cases hbad : p < 1 ∨ p > 32 ∨ m ≤ 1
  · rw [if_pos hbad, if_pos (by rwa [← hm1])]
    exact ⟨[], rfl, rfl⟩
  · rw [if_neg hbad, if_neg (by rwa [← hm1])]
    rw [gcsMaxAccept] at hlen
    have hm32 : m.toUInt64.toNat = m.toNat := UInt32.toNat_toUInt64 m
    have h := @gcsDecodeLoopU64_eq p.toNat outCap m.toUInt64 0 { buf := data } (by omega)
      (by rw [hm32]; exact m.toNat_lt) (by decide)
      (by show 8 * data.length < 2 ^ 31; omega)
    rwa [hm32] at h

/-! ## What is decoded is ordered -/

/-- Every round adds at least one and stops at `m`. -/
theorem gcsDecodeLoop_increasing (p m room : Nat) (r : BitReader) (acc : Nat) :
    (acc :: gcsDecodeLoop p m room r acc).Pairwise (· < ·) ∧
      ∀ v ∈ gcsDecodeLoop p m room r acc, v < m := by
  induction room generalizing r acc with
  | zero => exact ⟨List.pairwise_singleton _ _, fun v hv => absurd hv List.not_mem_nil⟩
  | succ room ih =>
    rw [gcsDecodeLoop]
    split
    · exact ⟨List.pairwise_singleton _ _, fun v hv => absurd hv List.not_mem_nil⟩
    · next q r₁ _ =>
        split
        · exact ⟨List.pairwise_singleton _ _, fun v hv => absurd hv List.not_mem_nil⟩
        · next rem r₂ _ =>
            dsimp only
            generalize hnext : acc + (q <<< p + rem + 1) = next
            split
            · exact ⟨List.pairwise_singleton _ _, fun v hv => absurd hv List.not_mem_nil⟩
            · next hlt =>
                obtain ⟨hpair, hbelow⟩ := ih r₂ next
                have hup : acc < next := by
                  rw [← hnext]
                  exact Nat.lt_add_of_pos_right (Nat.succ_pos _)
                constructor
                · apply List.pairwise_cons.mpr
                  constructor
                  · intro v hv
                    rcases List.mem_cons.mp hv with rfl | hv
                    · omega
                    · have := List.rel_of_pairwise_cons hpair hv
                      omega
                  · exact hpair
                · exact List.forall_mem_cons.mpr ⟨by omega, hbelow⟩

theorem length_gcsDecodeLoop_le (p m room : Nat) (r : BitReader) (acc : Nat) :
    (gcsDecodeLoop p m room r acc).length ≤ room := by
  induction room generalizing r acc with
  | zero => exact Nat.le_refl 0
  | succ room ih =>
    rw [gcsDecodeLoop]
    split
    · exact Nat.zero_le _
    · split
      · exact Nat.zero_le _
      · dsimp only
        split
        · exact Nat.zero_le _
        · exact Nat.succ_le_succ (ih _ _)

theorem length_gcsDecode_le (data : List UInt8) (p : Int) (m outCap : Nat) :
    (gcsDecode data p m outCap).length ≤ outCap := by
  rw [gcsDecode]
  split
  · exact Nat.zero_le _
  · exact length_gcsDecodeLoop_le _ _ _ _ _

theorem gcsDecode_increasing (data : List UInt8) (p : Int) (m outCap : Nat) :
    (gcsDecode data p m outCap).Pairwise (· < ·) ∧
      ∀ v ∈ gcsDecode data p m outCap, 1 ≤ v ∧ v < m := by
  rw [gcsDecode]
  split
  · exact ⟨List.Pairwise.nil, fun v hv => absurd hv List.not_mem_nil⟩
  · obtain ⟨hpair, hbelow⟩ := gcsDecodeLoop_increasing p.toNat m outCap { buf := data } 0
    exact ⟨hpair.of_cons, fun v hv => ⟨List.rel_of_pairwise_cons hpair hv, hbelow v hv⟩⟩

/-- The search reports only what it has seen. -/
theorem mem_of_sortedContainsLoop {values : List Nat} {needle fuel lo hi : Nat}
    (hhi : hi ≤ values.length) (h : sortedContainsLoop values needle fuel lo hi = true) :
    needle ∈ values := by
  induction fuel generalizing lo hi with
  | zero => cases h
  | succ fuel ih =>
    rw [sortedContainsLoop] at h
    split at h
    · next hlt =>
        dsimp only at h
        split at h
        · exact ih hhi h
        · split at h
          · exact ih (by omega) h
          · next hnlt hngt =>
              have heq : values.getD ((lo + hi) / 2) 0 = needle := by omega
              have hin : (lo + hi) / 2 < values.length := by omega
              rw [List.getD_eq_getElem?_getD, List.getElem?_eq_getElem hin,
                Option.getD_some] at heq
              rw [← heq]
              exact List.getElem_mem hin
    · cases h

/-- On a strictly increasing list the binary search is membership. -/
theorem sortedContains_iff {values : List Nat} (hsorted : values.Pairwise (· < ·)) (needle : Nat) :
    sortedContains values needle = true ↔ needle ∈ values :=
  ⟨mem_of_sortedContainsLoop (Nat.le_refl _), sortedContains_of_mem hsorted⟩

/-- **Hostile filters.** Whatever bytes a request carries, the decoder runs to its end without
leaving 64 bits, its values are strictly increasing between one and `m`, and searching them
finds exactly the members. -/
theorem gcsDecode_hostile {data : List UInt8} (p : Int) (m : UInt32) (outCap : Nat)
    (hlen : data.length ≤ gcsMaxAccept) :
    ∃ out, gcsDecodeU64 data p m outCap = .ok out ∧
      out.map UInt64.toNat = gcsDecode data p m.toNat outCap ∧ out.length ≤ outCap ∧
      out.Pairwise (· < ·) ∧ (∀ v ∈ out, 1 ≤ v ∧ v < m.toUInt64) ∧
      ∀ needle : UInt64,
        sortedContains (out.map UInt64.toNat) needle.toNat = true ↔ needle ∈ out := by
  obtain ⟨out, hout, hmap⟩ := @gcsDecodeU64_eq data p m outCap hlen
  obtain ⟨hpair, hrange⟩ := gcsDecode_increasing data p m.toNat outCap
  have hcap := length_gcsDecode_le data p m.toNat outCap
  rw [← hmap] at hpair hrange hcap
  rw [List.length_map] at hcap
  refine ⟨out, hout, hmap, hcap, ?_, ?_, ?_⟩
  · apply (List.pairwise_map.mp hpair).imp
    intro a b hab
    exact UInt64.lt_iff_toNat_lt.mpr hab
  · intro v hv
    obtain ⟨hlo, hhi⟩ := hrange v.toNat (List.mem_map_of_mem hv)
    constructor
    · exact UInt64.le_iff_toNat_le.mpr hlo
    · rw [UInt64.lt_iff_toNat_lt, UInt32.toNat_toUInt64]
      exact hhi
  · intro needle
    rw [sortedContains_iff hpair, List.mem_map]
    constructor
    · intro ⟨v, hv, heq⟩
      rwa [← UInt64.toNat_inj.mp heq]
    · intro hv
      exact ⟨needle, hv, rfl⟩

/-- A byte of ones and zeros is such a string. -/
theorem gcsDecode_hostile_byte :
    ∃ out, gcsDecodeU64 [0xb5] 2 100 4 = .ok out ∧
      out.map UInt64.toNat = gcsDecode [0xb5] 2 (100 : UInt32).toNat 4 ∧ out.length ≤ 4 ∧
      out.Pairwise (· < ·) ∧ (∀ v ∈ out, 1 ≤ v ∧ v < (100 : UInt32).toUInt64) ∧
      ∀ needle : UInt64,
        sortedContains (out.map UInt64.toNat) needle.toNat = true ↔ needle ∈ out :=
  gcsDecode_hostile 2 100 4 (by decide)

end Bitle
