import Bitle.Ota.Transfer

/-!
# Bitle — the chunk a request gets (`main/bitle_ota.c`)

`handle_req` computes the offset of the requested chunk in 32 bits and compares that with the
image size. For the indices of an image the product is exact, and the answer is the chunk
`handle_chunk` expects. The index comes from the peer, though, and beyond the image the product
can wrap around to an offset inside it: such a request is answered with a piece of the image
under an index the image does not have (`servesChunk_iff`).
-/

namespace Bitle

open Wire Flash

/-- The number of chunks of an image, `⌈size / chunk_size⌉`. -/
def chunkCount (m : OtaManifest) : Nat :=
  (m.size.toNat + m.chunkSize.toNat - 1) / m.chunkSize.toNat

/-- Where chunk `i` begins, and where it ends. -/
def chunkStart (m : OtaManifest) (i : UInt32) : Nat := i.toNat * m.chunkSize.toNat

def chunkEnd (m : OtaManifest) (i : UInt32) : Nat :=
  min ((i.toNat + 1) * m.chunkSize.toNat) m.size.toNat

/-- `handle_req` answers exactly the indices of the image, with the bytes of that chunk, and they
are as many as `handle_chunk` expects. -/
def ServesChunk (env : OtaEnv) (st : OtaState) (evt : OtaEvent) : Prop :=
  let m := st.serveManifest
  let i := u32At evt.payload 4
  ((handleReq env st evt).log ≠ st.log ↔ i.toNat < chunkCount m) ∧
    (i.toNat < chunkCount m →
      (handleReq env st evt).log = st.log ++ [.send evt.connHandle bitleMsgOtaChunk evt.peer
        (evt.payload.take 8 ++
          read (st.slots st.running) (chunkStart m i) (chunkEnd m i - chunkStart m i))] ∧
      (expectedLen m i).toNat = chunkEnd m i - chunkStart m i)

/-- What `parse_manifest` checks of the two sizes. -/
theorem parseManifest_sizes {ed25519SignOpen : List UInt8 → Bytes 32 → Bytes 64 → Bool}
    {data : List UInt8} {m : OtaManifest} (h : parseManifest ed25519SignOpen data = some m) :
    0 < m.size.toNat ∧ 64 ≤ m.chunkSize.toNat ∧ m.chunkSize.toNat ≤ 480 := by
  rw [parseManifest] at h
  split at h
  · exact nomatch h
  · split at h
    · exact nomatch h
    · dsimp only at h
      split at h
      · exact nomatch h
      · next hsizes =>
          obtain rfl := Option.some.inj h
          obtain ⟨hsize, hmin, hmax⟩ := not_or.mp hsizes |>.imp id not_or.mp
          refine ⟨?_, ?_, ?_⟩
          · apply Nat.pos_of_ne_zero
            exact fun h0 => hsize (UInt32.toNat_inj.mp h0)
          · exact UInt16.le_iff_toNat_le.mp (UInt16.not_lt.mp hmin)
          · exact UInt16.le_iff_toNat_le.mp (UInt16.not_lt.mp hmax)

/-- An index is one of the image when its chunk begins inside the image. -/
theorem lt_chunkCount_iff {m : OtaManifest} (hc : 0 < m.chunkSize.toNat) (i : UInt32) :
    i.toNat < chunkCount m ↔ chunkStart m i < m.size.toNat := by
  rw [chunkCount, chunkStart, Nat.lt_iff_add_one_le, Nat.le_div_iff_mul_le hc, Nat.add_mul]
  omega

section Request

variable {env : OtaEnv} {st : OtaState} {evt : OtaEvent}

/-- What `handle_req` does with a request for the version it serves. -/
theorem handleReq_log (hserve : st.canServe = true) (hlen : 8 ≤ evt.payload.length)
    (hversion : u32At evt.payload 0 = st.serveManifest.version)
    (hread : ∀ off, env.readOk off = true) :
    (handleReq env st evt).log =
      if chunkStart st.serveManifest (u32At evt.payload 4) % 2 ^ 32 < st.serveManifest.size.toNat
      then st.log ++ [.send evt.connHandle bitleMsgOtaChunk evt.peer (evt.payload.take 8 ++
        read (st.slots st.running)
          (u32At evt.payload 4 * st.serveManifest.chunkSize.toUInt32).toNat
          (expectedLen st.serveManifest (u32At evt.payload 4)).toNat)]
      else st.log := by
  have hoff : (u32At evt.payload 4 * st.serveManifest.chunkSize.toUInt32).toNat =
      chunkStart st.serveManifest (u32At evt.payload 4) % 2 ^ 32 := by
    rw [UInt32.toNat_mul, UInt16.toNat_toUInt32, chunkStart]
  rw [handleReq, hserve, if_neg (by simp; omega)]
  dsimp only
  rw [if_neg (not_not.mpr hversion), partitionRead, if_pos (hread _)]
  split
  · next hge =>
      have := UInt32.le_iff_toNat_le.mp hge
      rw [if_neg (by omega)]
  · next hlt =>
      have := UInt32.lt_iff_toNat_lt.mp (UInt32.not_le.mp hlt)
      rw [if_pos (by omega)]
      rfl

/-- **The chunk a request gets.** For every accepted manifest and every index: the request is
served as the image's chunks say exactly when its offset stays in 32 bits, or wraps to a place
behind the image. -/
theorem servesChunk_iff {ed25519SignOpen : List UInt8 → Bytes 32 → Bytes 64 → Bool}
    {data : List UInt8} (hm : parseManifest ed25519SignOpen data = some st.serveManifest)
    (hserve : st.canServe = true) (hlen : 8 ≤ evt.payload.length)
    (hversion : u32At evt.payload 0 = st.serveManifest.version)
    (hread : ∀ off, env.readOk off = true) :
    ServesChunk env st evt ↔
      chunkStart st.serveManifest (u32At evt.payload 4) < 2 ^ 32 ∨
        st.serveManifest.size.toNat ≤
          chunkStart st.serveManifest (u32At evt.payload 4) % 2 ^ 32 := by
  obtain ⟨hsize, hmin, -⟩ := parseManifest_sizes hm
  have hcount := lt_chunkCount_iff (m := st.serveManifest) (by omega) (u32At evt.payload 4)
  have hlog := handleReq_log hserve hlen hversion hread
  have hsize32 := st.serveManifest.size.toNat_lt
  rw [ServesChunk]
  generalize hi : u32At evt.payload 4 = i at hcount hlog
  by_cases hin : chunkStart st.serveManifest i < st.serveManifest.size.toNat
  · -- a chunk of the image: the offset is exact
    have hmod : chunkStart st.serveManifest i % 2 ^ 32 = chunkStart st.serveManifest i :=
      Nat.mod_eq_of_lt (by omega)
    have hexp : (expectedLen st.serveManifest i).toNat =
        chunkEnd st.serveManifest i - chunkStart st.serveManifest i := by
      rw [toNat_expectedLen_of_lt hin, chunkEnd, chunkStart, Nat.add_mul]
      omega
    rw [hmod, if_pos hin, toNat_offset_of_lt hin, hexp] at hlog
    refine iff_of_true ⟨iff_of_true ?_ (hcount.mpr hin), fun _ => ⟨hlog, hexp⟩⟩ (.inl (by omega))
    rw [hlog]
    simp
  · constructor
    · -- no chunk of the image, so nothing was sent
      intro ⟨hanswers, _⟩
      by_contra hwraps
      rw [not_or, Nat.not_lt, Nat.not_le] at hwraps
      rw [if_pos hwraps.2] at hlog
      apply hin
      apply hcount.mp
      apply hanswers.mp
      rw [hlog]
      simp
    · intro hcases
      have hback : ¬ chunkStart st.serveManifest i % 2 ^ 32 < st.serveManifest.size.toNat := by
        rcases hcases with hsmall | hback
        · rw [Nat.mod_eq_of_lt hsmall]
          exact hin
        · omega
      rw [if_neg hback] at hlog
      refine ⟨iff_of_false (not_not.mpr hlog) (fun h => hin (hcount.mp h)), ?_⟩
      exact fun h => absurd (hcount.mp h) hin

end Request

/-! ### A request beyond the image -/

/-- The manifest of an image of 100 bytes in chunks of 64. -/
def smallManifest : OtaManifest :=
  { version := 6, size := 100, sha256 := zeros 32, chunkSize := 64
    raw := copyAt 110 (manifestEvent 6 100 (zeros 32)).payload 0 }

/-- A node that serves it. -/
def smallServer : OtaState :=
  { OtaState.off updateSlots none (zeros 110) with canServe := true, serveManifest := smallManifest }

/-- A request for a chunk of it. -/
def chunkRequest (index : Nat) : OtaEvent where
  type := bitleMsgOtaReq
  connHandle := 1
  peer := zeros 8
  payload := beBytes 4 6 ++ beBytes 4 index
  payload_le := by
    have hmax : otaChunkMax.toNat = 480 := rfl
    simp only [List.length_append, length_beBytes]
    omega

/-- The second and last chunk. -/
theorem servesChunk_last :
    ServesChunk {} smallServer (chunkRequest 1) ↔
      chunkStart smallManifest (u32At (chunkRequest 1).payload 4) < 2 ^ 32 ∨
        smallManifest.size.toNat ≤
          chunkStart smallManifest (u32At (chunkRequest 1).payload 4) % 2 ^ 32 :=
  @servesChunk_iff {} smallServer (chunkRequest 1) (fun _ _ _ => true)
    (manifestEvent 6 100 (zeros 32)).payload (by decide +kernel) rfl (by decide +kernel)
    (by decide +kernel) (fun _ => rfl)

/-- Index `2^26` of a two-chunk image is answered with the image's first 64 bytes. -/
theorem serves_wrapped_chunk :
    parseManifest (fun _ _ _ => true) (manifestEvent 6 100 (zeros 32)).payload =
        some smallServer.serveManifest ∧
      chunkCount smallServer.serveManifest = 2 ∧
      (handleReq {} smallServer (chunkRequest (2 ^ 26))).log =
        [.send 1 bitleMsgOtaChunk (zeros 8) (beBytes 4 6 ++ beBytes 4 (2 ^ 26) ++
          read (smallServer.slots smallServer.running) 0 64)] ∧
      ¬ ServesChunk {} smallServer (chunkRequest (2 ^ 26)) := by
  refine ⟨by decide +kernel, by decide +kernel, by decide +kernel, ?_⟩
  intro ⟨hanswers, _⟩
  have hcount : ¬ (u32At (chunkRequest (2 ^ 26)).payload 4).toNat <
      chunkCount smallServer.serveManifest := by decide +kernel
  apply hcount
  apply hanswers.mp
  decide +kernel

end Bitle
