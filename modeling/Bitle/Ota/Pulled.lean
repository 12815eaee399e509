import Bitle.Ota.Update
import Mathlib.Data.List.InsertIdx

/-!
# Bitle — an update completes

The two nodes and what is on its way go on as `Pull` does (`Pulls.step`), from the round in which
the manifest arrives. So what `Pull` says of its pieces and questions holds of chunks and requests
(`update_completes`).
-/

namespace Bitle

open Wire Flash Relation

/-! ## The network is a receiver that pulls -/

/-- The network shows the state of `Pull`; the manifest was the first message to arrive. -/
structure Pulls (m : OtaManifest) (image : List UInt8) (net : UpdateNet) (s : Pull.State) :
    Prop where
  server : Serving m image net.server
  receiver : Stage m image s.phase s.next net.receiver
  air : net.air = s.air.map (tokenMessage m image)
  retried : net.retried = s.asked
  lost : net.lost = s.lost
  delivered : net.delivered = s.delivered + 1

/-- The receiver had asked for one chunk again as often as it does. -/
def OutOfRetries (net : UpdateNet) : Prop :=
  ∃ t, net.receiver.rx = some t ∧ t.retries = otaRxMaxRetries

section Simulation

variable {sha256 : List UInt8 → Bytes 32}
  {ed25519SignOpen : List UInt8 → Bytes 32 → Bytes 64 → Bool} {api : OtaApi}
  {connHandle : UpdateNode → UInt16} {peer : UpdateNode → Bytes 8}
  {m : OtaManifest} {image : List UInt8} {net net' : UpdateNet} {env : OtaEnv}
  {evt : Option OtaEvent} {s : Pull.State} {l : List OtaCall} {i total : Nat}

variable (sha256 ed25519SignOpen api env evt) in
/-- A round of a node that receives nothing and has no restart to make, after its handler. -/
theorem idle_round {st : OtaState} (hhalted : st.halted = false)
    (hrx : (handled sha256 ed25519SignOpen api env st evt).rx = none)
    (hreboot : (handled sha256 ed25519SignOpen api env st evt).rebootAtMs = 0) :
    ∃ pending halted rest, otaStep sha256 ed25519SignOpen api st (.round evt env) =
        { handled sha256 ed25519SignOpen api env st evt with
          pendingVerify := pending, halted := halted
          log := (handled sha256 ed25519SignOpen api env st evt).log ++ rest } ∧
      (∀ dst, sentTo dst rest = []) ∧
      halted = (handled sha256 ed25519SignOpen api env st evt).halted := by
  obtain ⟨pending, halted, rest, hpoll, hrest, hsame⟩ :=
    poll_calm env (handled sha256 ed25519SignOpen api env st evt)
  have hreceive : pollReceive env (handled sha256 ed25519SignOpen api env st evt) =
      handled sha256 ed25519SignOpen api env st evt := by
    unfold pollReceive
    rw [hrx]
  have hstep : otaStep sha256 ed25519SignOpen api st (.round evt env) =
      pollReboot env (pollHealth env
        (pollReceive env (handled sha256 ed25519SignOpen api env st evt))) := by
    unfold otaStep
    dsimp only
    rw [hhalted, if_neg Bool.false_ne_true]
    cases evt <;> rfl
  rw [hreceive, hpoll] at hstep
  exact ⟨pending, halted, rest, hstep, hrest, hsame hreboot⟩

variable (net) in
/-- A round of the server, after its handler. -/
theorem server_round (hhalted : net.server.halted = false)
    (h : Serving m image (handled sha256 ed25519SignOpen api env net.server evt))
    (hl : (handled sha256 ed25519SignOpen api env net.server evt).log = net.server.log ++ l) :
    ∃ st, net.round sha256 ed25519SignOpen api env evt .server =
        { net with server := st, air := net.air ++ sentTo .receiver l } ∧
      Serving m image st := by
  obtain ⟨pending, halted, rest, hstep, hrest, hsame⟩ :=
    idle_round sha256 ed25519SignOpen api env evt hhalted h.rx h.rebootAtMs
  refine ⟨otaStep sha256 ed25519SignOpen api net.server (.round evt env), ?_, ?_⟩
  · have hsent : sentTo .receiver ((otaStep sha256 ed25519SignOpen api net.server
        (.round evt env)).log.drop net.server.log.length) = sentTo .receiver l := by
      rw [hstep]
      dsimp only
      rw [hl, List.append_assoc, List.drop_left]
      unfold sentTo at hrest ⊢
      rw [List.filterMap_append, hrest, List.append_nil]
    unfold UpdateNet.round
    dsimp only
    rw [hsent]
  · rw [hstep]
    exact { h with halted := hsame.trans h.halted }

variable (sha256 ed25519SignOpen api net env) in
/-- A round of the server without an event sends nothing. -/
theorem server_tick (h : Serving m image net.server) :
    ∃ st, net.round sha256 ed25519SignOpen api env none .server = { net with server := st } ∧
      Serving m image st := by
  have hround : ∃ st, net.round sha256 ed25519SignOpen api env none .server =
      { net with server := st, air := net.air ++ sentTo .receiver [] } ∧ Serving m image st :=
    server_round net h.halted h (List.append_nil _).symm
  rw [show net.air ++ sentTo .receiver [] = net.air from List.append_nil _] at hround
  exact hround

variable (sha256 ed25519SignOpen api net env) in
/-- A round of a receiver that has not heard of the update. -/
theorem stale_round (h : Stale m net.receiver) :
    ∃ st, net.round sha256 ed25519SignOpen api env none .receiver = { net with receiver := st } ∧
      Stale m st := by
  obtain ⟨pending, halted, rest, hstep, hrest, hsame⟩ :=
    idle_round sha256 ed25519SignOpen api env none h.halted h.rx h.rebootAtMs
  refine ⟨otaStep sha256 ed25519SignOpen api net.receiver (.round none env), ?_, ?_⟩
  · have hsent : sentTo .server ((otaStep sha256 ed25519SignOpen api net.receiver
        (.round none env)).log.drop net.receiver.log.length) = [] := by
      rw [hstep]
      show sentTo .server ((net.receiver.log ++ rest).drop net.receiver.log.length) = []
      rw [List.drop_left]
      exact hrest .server
    have hretries : retriesOf sha256 ed25519SignOpen api env net.receiver none = 0 := by
      unfold retriesOf
      rw [h.halted, if_neg Bool.false_ne_true]
      show (sentTo .server
        ((pollReceive env net.receiver).log.drop net.receiver.log.length)).length = 0
      unfold pollReceive
      rw [h.rx]
      dsimp only
      rw [List.drop_length]
      rfl
    unfold UpdateNet.round
    dsimp only
    rw [hsent, hretries, List.append_nil]
    rfl
  · rw [hstep]
    exact { h with halted := hsame.trans h.halted }

variable (net s total) in
/-- A round of the receiver, after its handler: the timeout asks again, or gives up. -/
theorem receiver_round (hhalted : net.receiver.halted = false)
    (hserver : Serving m image net.server)
    (hstage : Stage m image s.phase s.next
      (handled sha256 ed25519SignOpen api env net.receiver evt))
    (hl : (handled sha256 ed25519SignOpen api env net.receiver evt).log = net.receiver.log ++ l)
    (hair : net.air ++ sentTo .server l = s.air.map (tokenMessage m image))
    (hretried : net.retried = s.asked) (hlost : net.lost = s.lost)
    (hdelivered : net.delivered = s.delivered + 1) :
    ∃ s', ReflTransGen (Pull.Step total) s s' ∧
      Pulls m image (net.round sha256 ed25519SignOpen api env evt .receiver) s' ∧
      (s'.phase = .stopped → s.phase = .stopped ∨
        ∃ t, (handled sha256 ed25519SignOpen api env net.receiver evt).rx = some t ∧
          t.retries = otaRxMaxRetries) := by
  let st := handled sha256 ed25519SignOpen api env net.receiver evt
  obtain ⟨again, phase, hlog, hphase, hcases⟩ := hstage.poll env
  obtain ⟨pending, halted, rest, hpoll, hrest, hsame⟩ := poll_calm env (pollReceive env st)
  have hstep : otaStep sha256 ed25519SignOpen api net.receiver (.round evt env) =
      { pollReceive env st with
        pendingVerify := pending, halted := halted, log := (pollReceive env st).log ++ rest } := by
    rw [← hpoll]
    unfold otaStep
    dsimp only
    rw [hhalted, if_neg Bool.false_ne_true]
    cases evt <;> rfl
  have hretries : retriesOf sha256 ed25519SignOpen api env net.receiver evt =
      (sentTo .server again).length := by
    unfold retriesOf
    rw [hhalted, if_neg Bool.false_ne_true]
    dsimp only
    rw [hlog, List.drop_left]
  have hsent : sentTo .server ((otaStep sha256 ed25519SignOpen api net.receiver
      (.round evt env)).log.drop net.receiver.log.length) =
        sentTo .server l ++ sentTo .server again := by
    rw [hstep]
    dsimp only
    rw [hlog, hl, List.append_assoc, List.append_assoc, List.drop_left]
    unfold sentTo at hrest ⊢
    rw [List.filterMap_append, List.filterMap_append, hrest, List.append_nil]
  have hround : ∀ s' : Pull.State, Stage m image s'.phase s'.next (pollReceive env st) →
      s'.air.map (tokenMessage m image) = s.air.map (tokenMessage m image) ++ sentTo .server again →
      s'.asked = s.asked + (sentTo .server again).length → s'.lost = s.lost →
      s'.delivered = s.delivered →
      Pulls m image (net.round sha256 ed25519SignOpen api env evt .receiver) s' := by
    intro s' hs' hair' hasked hlost' hdelivered'
    constructor
    · exact hserver
    · show Stage m image s'.phase s'.next
        (otaStep sha256 ed25519SignOpen api net.receiver (.round evt env))
      rw [hstep]
      exact hs'.calm _ _ hsame
    · show net.air ++ sentTo .server _ = _
      rw [hsent, ← List.append_assoc, hair, hair']
    · show net.retried + retriesOf sha256 ed25519SignOpen api env net.receiver evt = _
      rw [hretries, hretried, hasked]
    · exact hlost.trans hlost'.symm
    · exact hdelivered.trans (congrArg (· + 1) hdelivered'.symm)
  rcases hcases with ⟨rfl, hnone⟩ | ⟨hpull, rfl, hone⟩ | ⟨hpull, rfl, hnone, hmax⟩
  · -- no timeout
    refine ⟨s, .refl, hround s hphase ?_ ?_ rfl rfl, .inl⟩
    · rw [hnone, List.append_nil]
    · rw [hnone]
      rfl
  · -- the request is repeated
    refine ⟨s.again, .single (.again hpull), hround s.again ?_ ?_ ?_ rfl rfl, ?_⟩
    · show Stage m image s.phase s.next _
      rw [hpull]
      exact hphase
    · rw [hone]
      exact List.map_append
    · rw [hone]
      rfl
    · intro hstop
      exact .inl hstop
  · -- it gives up
    refine ⟨{ s with phase := .stopped }, .single (.stop hpull), hround _ hphase ?_ ?_ rfl rfl,
      fun _ => .inr hmax⟩
    · rw [hnone, List.append_nil]
    · rw [hnone]
      rfl

/-- The messages fit the events of the task. -/
theorem tokenMessage_fits (image : List UInt8) (hu : Usable m) (tok : Pull.Token) :
    (tokenMessage m image tok).payload ≠ [] ∧
      (tokenMessage m image tok).payload.length ≤ otaChunkMax.toNat + 16 := by
  have hmax : otaChunkMax.toNat + 16 = 496 := rfl
  obtain ⟨-, -, -, hchunk⟩ := hu.bounds
  rw [hmax, ← List.length_pos_iff]
  cases tok with
  | ask i =>
    show 0 < (beBytes 4 _ ++ beBytes 4 i).length ∧ (beBytes 4 _ ++ beBytes 4 i).length ≤ 496
    rw [List.length_append, length_beBytes, length_beBytes]
    omega
  | piece i =>
    show 0 < (beBytes 4 _ ++ beBytes 4 i ++ pieceOf m image i).length ∧
      (beBytes 4 _ ++ beBytes 4 i ++ pieceOf m image i).length ≤ 496
    have hpiece : (pieceOf m image i).length ≤ m.chunkSize.toNat := List.length_take_le _ _
    rw [List.length_append, List.length_append, length_beBytes, length_beBytes]
    omega
  | note =>
    show 0 < ([0x00] : List UInt8).length ∧ ([0x00] : List UInt8).length ≤ 496
    decide

theorem handlePacket_fits {payload : List UInt8} (conn : UInt16) (id : Bytes 8) (type : UInt8)
    (hne : payload ≠ []) (hle : payload.length ≤ otaChunkMax.toNat + 16) :
    ∃ evt, bitleOtaHandlePacket conn id type payload = some evt ∧ evt.type = type ∧
      evt.payload = payload := by
  unfold bitleOtaHandlePacket
  rw [if_neg hne, dif_pos hle]
  exact ⟨_, rfl, rfl, rfl⟩

/-- A message reaches the server. -/
theorem Pulls.deliver_server (h : Pulls m image net s) (hu : Usable m) (hworks : env.Works)
    {tok : Pull.Token} (hi : s.air[i]? = some tok) (hwithin : tok.Within (totalChunks m).toNat)
    (hdst : (tokenMessage m image tok).dst = .server) {evt : OtaEvent}
    (htype : evt.type = (tokenMessage m image tok).type)
    (hpayload : evt.payload = (tokenMessage m image tok).payload) :
    Pulls m image ((net.take i).round sha256 ed25519SignOpen api env (some evt) .server)
      (s.deliver (totalChunks m).toNat i tok) := by
  have hair : (net.take i).air = (s.air.eraseIdx i).map (tokenMessage m image) := by
    show net.air.eraseIdx i = _
    rw [h.air, List.eraseIdx_map]
  cases tok with
  | piece j => cases hdst
  -- a request is answered with the chunk it asks for
  | ask j =>
    have hlt : j < 2 ^ 32 := lt_trans hwithin (totalChunks m).toNat_lt
    have hj : (UInt32.ofNat j).toNat = j := UInt32.toNat_ofNat_of_lt' hlt
    have hreq : handleReq env net.server evt =
        net.server.call (.send evt.connHandle bitleMsgOtaChunk evt.peer
          (tokenMessage m image (.piece (UInt32.ofNat j).toNat)).payload) :=
      handleReq_serving h.server hu hworks
        (UInt32.lt_iff_toNat_lt.mpr (by rw [hj]; exact hwithin)) (by rw [hj, hpayload]; rfl)
    rw [hj] at hreq
    have hhandled : handled sha256 ed25519SignOpen api env net.server (some evt) =
        net.server.call (.send evt.connHandle bitleMsgOtaChunk evt.peer
          (tokenMessage m image (.piece j)).payload) := by
      show handleEvent sha256 ed25519SignOpen api env net.server evt = _
      unfold handleEvent
      rw [htype]
      exact hreq
    obtain ⟨st, hround, hst⟩ := server_round (net.take i)
      (l := [.send evt.connHandle bitleMsgOtaChunk evt.peer
        (tokenMessage m image (.piece j)).payload]) h.server.halted
      (show Serving m image (handled sha256 ed25519SignOpen api env net.server (some evt)) by
        rw [hhandled]
        exact { h.server with })
      (show (handled sha256 ed25519SignOpen api env net.server (some evt)).log = _ by
        rw [hhandled]
        rfl)
    rw [hround]
    refine ⟨hst, h.receiver, ?_, h.retried, h.lost, congrArg (· + 1) h.delivered⟩
    show (net.take i).air ++ _ = (s.air.eraseIdx i ++ [Pull.Token.piece j]).map _
    rw [hair, List.map_append]
    rfl
  -- a status is read and not answered
  | note =>
    have hhandled : handled sha256 ed25519SignOpen api env net.server (some evt) = net.server := by
      show handleEvent sha256 ed25519SignOpen api env net.server evt = _
      unfold handleEvent
      rw [htype]
      rfl
    obtain ⟨st, hround, hst⟩ := server_round (net.take i) (l := []) h.server.halted
      (show Serving m image (handled sha256 ed25519SignOpen api env net.server (some evt)) by
        rw [hhandled]
        exact h.server)
      (show (handled sha256 ed25519SignOpen api env net.server (some evt)).log = _ by
        rw [hhandled, List.append_nil]
        rfl)
    rw [hround]
    refine ⟨hst, h.receiver, ?_, h.retried, h.lost, congrArg (· + 1) h.delivered⟩
    show (net.take i).air ++ [] = (s.air.eraseIdx i ++ []).map _
    rw [hair, List.append_nil, List.append_nil]

variable (net) in
/-- A receiver that restarted does nothing more. -/
theorem receiver_halted (hhalted : net.receiver.halted = true) :
    net.round sha256 ed25519SignOpen api env evt .receiver = net := by
  have hstep : otaStep sha256 ed25519SignOpen api net.receiver (.round evt env) = net.receiver := by
    unfold otaStep
    exact if_pos hhalted
  have hretries : retriesOf sha256 ed25519SignOpen api env net.receiver evt = 0 := by
    unfold retriesOf
    exact if_pos hhalted
  unfold UpdateNet.round
  dsimp only
  rw [hstep, hretries, List.drop_length]
  show { net with air := net.air ++ [] } = net
  rw [List.append_nil]

theorem Pulls.not_halted (h : Pulls m image net s) (hphase : s.phase = .pulling) :
    net.receiver.halted = false := by
  have hstage := h.receiver
  rw [hphase] at hstage
  obtain ⟨t, ht⟩ := hstage
  exact ht.halted

/-- A chunk reaches the receiver. -/
theorem Pulls.deliver_receiver (h : Pulls m image net s) (hapi : api.Lawful) (hworks : env.Works)
    (hu : Usable m) (hlen : image.length = m.size.toNat) (hdigest : sha256 image = m.sha256)
    {j : Nat} (hj : j < (totalChunks m).toNat) {evt : OtaEvent}
    (htype : evt.type = bitleMsgOtaChunk)
    (hpayload : evt.payload = (tokenMessage m image (.piece j)).payload) :
    ∃ s', ReflTransGen (Pull.Step (totalChunks m).toNat)
        (s.deliver (totalChunks m).toNat i (.piece j)) s' ∧
      Pulls m image ((net.take i).round sha256 ed25519SignOpen api env (some evt) .receiver) s' ∧
      (s'.phase = .stopped → s.phase = .stopped ∨ OutOfRetries net) := by
  have hair : (net.take i).air = (s.air.eraseIdx i).map (tokenMessage m image) := by
    show net.air.eraseIdx i = _
    rw [h.air, List.eraseIdx_map]
  have hdelivered : (net.take i).delivered =
      (s.deliver (totalChunks m).toNat i (.piece j)).delivered + 1 :=
    congrArg (· + 1) h.delivered
  by_cases hhalted : net.receiver.halted = true
  · -- it has restarted, and is not pulling
    have hphase : s.phase ≠ .pulling := by
      intro hp
      rw [h.not_halted hp] at hhalted
      cases hhalted
    have hreact : Pull.react (totalChunks m).toNat s.phase s.next (.piece j) =
        (s.phase, s.next, []) := Pull.react_of_ne hphase s.next j
    rw [receiver_halted (net.take i) hhalted]
    refine ⟨_, .refl, ?_, ?_⟩
    · unfold Pull.State.deliver
      rw [hreact]
      refine ⟨h.server, h.receiver, ?_, h.retried, h.lost, congrArg (· + 1) h.delivered⟩
      show _ = (s.air.eraseIdx i ++ []).map _
      rw [List.append_nil]
      exact hair
    · exact fun hp => .inl (Pull.react_stopped hp)
  · have hhandled : handled sha256 ed25519SignOpen api env net.receiver (some evt) =
        handleChunk sha256 api env net.receiver evt := by
      show handleEvent sha256 ed25519SignOpen api env net.receiver evt = _
      unfold handleEvent
      rw [htype]
      rfl
    obtain ⟨l, hreacted⟩ := h.receiver.chunk hapi hworks hu hlen hdigest hj hpayload
    rw [← hhandled] at hreacted
    obtain ⟨s', hrun, hpulls, hstop⟩ := receiver_round (net.take i)
      (s.deliver (totalChunks m).toNat i (.piece j)) (totalChunks m).toNat
      (Bool.eq_false_of_not_eq_true hhalted) h.server hreacted.stage hreacted.log
      (by rw [hair, hreacted.sent, ← List.map_append]; rfl) h.retried h.lost hdelivered
    refine ⟨s', hrun, hpulls, ?_⟩
    intro hp
    rcases hstop hp with hstopped | ⟨t, ht, hretries⟩
    · exact .inl (Pull.react_stopped hstopped)
    · exact .inr (hreacted.retries t ht hretries)

/-- **One step.** The network goes on as `Pull` does. -/
theorem Pulls.step (h : Pulls m image net s) (hinv : Pull.Inv (totalChunks m).toNat s)
    (hapi : api.Lawful) (hu : Usable m) (hlen : image.length = m.size.toNat)
    (hdigest : sha256 image = m.sha256)
    (hstep : UpdateStep sha256 ed25519SignOpen api connHandle peer net net') :
    ∃ s', ReflTransGen (Pull.Step (totalChunks m).toNat) s s' ∧ Pulls m image net' s' ∧
      (s'.phase = .stopped → s.phase = .stopped ∨ OutOfRetries net) := by
  cases hstep with
  | @deliver i msg env hi hworks =>
    rw [h.air, List.getElem?_map, Option.map_eq_some_iff] at hi
    obtain ⟨tok, hi, rfl⟩ := hi
    have hwithin := hinv.within tok (List.mem_of_getElem? hi)
    obtain ⟨hne, hle⟩ := tokenMessage_fits image hu tok
    obtain ⟨evt, hevt, htype, hpayload⟩ := handlePacket_fits
      (connHandle (tokenMessage m image tok).dst) (peer (tokenMessage m image tok).dst)
      (tokenMessage m image tok).type hne hle
    -- the message is a token of the pull, which is delivered there as well
    have hone : Pull.Step (totalChunks m).toNat s (s.deliver (totalChunks m).toNat i tok) :=
      .deliver hi
    unfold UpdateNet.arrive
    rw [hevt]
    dsimp only
    cases tok with
    | piece j =>
      obtain ⟨s', hrun, hpulls, hstop⟩ :=
        h.deliver_receiver (i := i) hapi hworks hu hlen hdigest hwithin htype hpayload
      exact ⟨s', .head hone hrun, hpulls, hstop⟩
    | ask j =>
      exact ⟨_, .single hone, h.deliver_server hu hworks hi hwithin rfl htype hpayload,
        fun hp => .inl (Pull.react_stopped hp)⟩
    | note =>
      exact ⟨_, .single hone, h.deliver_server hu hworks hi hwithin rfl htype hpayload,
        fun hp => .inl (Pull.react_stopped hp)⟩
  | @lose i msg hi =>
    rw [h.air, List.getElem?_map, Option.map_eq_some_iff] at hi
    obtain ⟨tok, hi, -⟩ := hi
    refine ⟨_, .single (.lose hi), ⟨h.server, h.receiver, ?_, h.retried, ?_, h.delivered⟩, .inl⟩
    · show net.air.eraseIdx i = _
      rw [h.air, List.eraseIdx_map]
    · exact congrArg (· + 1) h.lost
  | @tick env n hworks =>
    cases n with
    | server =>
      obtain ⟨st, hround, hst⟩ := server_tick sha256 ed25519SignOpen api net env h.server
      rw [hround]
      exact ⟨s, .refl, ⟨hst, h.receiver, h.air, h.retried, h.lost, h.delivered⟩, .inl⟩
    | receiver =>
      -- a tick of the receiver is a round without a message: it may ask again
      by_cases hhalted : net.receiver.halted = true
      · rw [receiver_halted net hhalted]
        exact ⟨s, .refl, h, .inl⟩
      · exact receiver_round net s _ (Bool.eq_false_of_not_eq_true hhalted) h.server h.receiver
          (List.append_nil _).symm ((List.append_nil _).trans h.air) h.retried h.lost h.delivered

/-! ## The offer -/

/-- The server's message with its manifest. -/
def manifestMessage (m : OtaManifest) : OtaMessage :=
  ⟨.receiver, bitleMsgOtaManifest, m.raw.val⟩

/-- The manifest is on its way, or was lost. -/
structure Offered (m : OtaManifest) (image : List UInt8) (net : UpdateNet) : Prop where
  server : Serving m image net.server
  receiver : Stale m net.receiver
  air : net.air = [manifestMessage m] ∧ net.lost = 0 ∨ net.air = [] ∧ net.lost = 1
  retried : net.retried = 0
  delivered : net.delivered = 0

/-- **The offer.** A server that sees an older version sends its manifest, when it sent none on this
link before. -/
theorem offered_offerUpdate {server receiver : OtaState} (hserving : Serving m image server)
    (hstale : Stale m receiver) (hversion : receiver.fwVersion ≠ 0)
    (hquiet : server.lastOfferMs (Fin.ofNat 8 (connHandle .server).toNat) = 0) (env : OtaEnv) :
    Offered m image
      (offerUpdate sha256 ed25519SignOpen api connHandle peer env server receiver) := by
  have hseen : ¬ (!server.canServe || receiver.fwVersion = 0 ||
      receiver.fwVersion ≥ server.serveManifest.version) = true := by
    have hlt := UInt32.not_le.mpr hstale.newer
    rw [hserving.canServe, hserving.manifest]
    simp [hversion, hlt]
  unfold offerUpdate bitleOtaPeerVersionSeen
  rw [if_neg hseen]
  dsimp only
  generalize hevt : (⟨0xFF, connHandle .server, peer .server, [], Nat.zero_le _⟩ : OtaEvent) = evt
  have htype : evt.type = 0xFF := by rw [← hevt]
  have hconn : evt.connHandle = connHandle .server := by rw [← hevt]
  have hidle : ¬ (!server.canServe || server.rx.isSome) = true := by
    rw [hserving.canServe, hserving.rx]
    decide
  have hfirst : ¬ (server.lastOfferMs (Fin.ofNat 8 evt.connHandle.toNat) ≠ 0 ∧ env.nowMs -
      server.lastOfferMs (Fin.ofNat 8 evt.connHandle.toNat) < otaOfferIntervalMs) := by
    rw [hconn]
    exact fun h => h.1 hquiet
  -- the server is idle and has offered nothing on this link, so it sends its manifest
  have hhandled : handled sha256 ed25519SignOpen api env server (some evt) =
      { server with
        lastOfferMs := Function.update server.lastOfferMs
          (Fin.ofNat 8 evt.connHandle.toNat) env.nowMs }.call
        (.send evt.connHandle bitleMsgOtaManifest evt.peer server.serveManifest.raw.val) := by
    show handleEvent sha256 ed25519SignOpen api env server evt = _
    unfold handleEvent
    rw [htype]
    show handleOffer env server evt = _
    unfold handleOffer
    rw [if_neg hidle]
    exact if_neg hfirst
  have hround : ∃ st, UpdateNet.round sha256 ed25519SignOpen api
      { server := server, receiver := receiver } env (some evt) .server =
        { server := st, receiver := receiver
          air := [] ++ sentTo .receiver [.send evt.connHandle bitleMsgOtaManifest evt.peer
            server.serveManifest.raw.val] } ∧ Serving m image st := by
    refine server_round { server := server, receiver := receiver } hserving.halted ?_ ?_
    · rw [hhandled]
      exact { hserving with }
    · rw [hhandled]
      rfl
  obtain ⟨st, hround, hst⟩ := hround
  rw [hround]
  -- the message in the air is the manifest
  refine ⟨hst, hstale, .inl ⟨?_, rfl⟩, rfl, rfl⟩
  show [(⟨.receiver, bitleMsgOtaManifest, server.serveManifest.raw.val⟩ : OtaMessage)] = _
  rw [hserving.manifest]
  rfl

/-- The manifest arrives, and the receiver begins to pull. -/
theorem Offered.arrives (h : Offered m image net) (hair : net.air = [manifestMessage m])
    (hlost : net.lost = 0) (hm : parseManifest ed25519SignOpen m.raw.val = some m)
    (hfits : m.size.toNat ≤ otaPartSize) (hworks : env.Works) :
    ∃ s', ReflTransGen (Pull.Step (totalChunks m).toNat) {} s' ∧
      Pulls m image ((net.take 0).arrive sha256 ed25519SignOpen api connHandle peer env
        (manifestMessage m)) s' ∧ s'.phase ≠ .stopped := by
  have hraw : m.raw.val.length = 110 := m.raw.property
  have hne : m.raw.val ≠ [] := by
    rw [← List.length_pos_iff]
    omega
  have hle : m.raw.val.length ≤ otaChunkMax.toNat + 16 := by
    rw [hraw]
    decide
  obtain ⟨evt, hevt, htype, hpayload⟩ := handlePacket_fits (connHandle .receiver) (peer .receiver)
    bitleMsgOtaManifest hne hle
  have harrive : (net.take 0).arrive sha256 ed25519SignOpen api connHandle peer env
      (manifestMessage m) =
        (net.take 0).round sha256 ed25519SignOpen api env (some evt) .receiver := by
    unfold UpdateNet.arrive manifestMessage
    dsimp only
    rw [hevt]
  have hhandled : handled sha256 ed25519SignOpen api env net.receiver (some evt) =
      handleManifest sha256 ed25519SignOpen api env net.receiver evt := by
    show handleEvent sha256 ed25519SignOpen api env net.receiver evt = _
    unfold handleEvent
    rw [htype]
    rfl
  -- a receiver with an older version opens a transfer and asks for the first chunk
  obtain ⟨t, l, hpulling, hlog, hsent, hretries⟩ :=
    handleManifest_stale sha256 api image h.receiver hm hfits hworks hpayload
  rw [← hhandled] at hpulling hlog
  have hempty : (net.take 0).air = [] := by
    show net.air.eraseIdx 0 = []
    rw [hair]
    rfl
  obtain ⟨s', hrun, hpulls, hstop⟩ := receiver_round (net.take 0) {} (totalChunks m).toNat
    h.receiver.halted h.server ⟨t, hpulling⟩ hlog (by rw [hempty, hsent]; rfl) h.retried hlost
    (congrArg (· + 1) h.delivered)
  rw [harrive]
  refine ⟨s', hrun, hpulls, ?_⟩
  intro hp
  -- a transfer just opened has no retries, so it has not given up
  rcases hstop hp with hnever | ⟨u, hu, hmax⟩
  · cases hnever
  · have hsame : t = u := Option.some.inj (hpulling.rx.symm.trans hu)
    rw [← hsame, hretries] at hmax
    exact absurd hmax (by decide)

/-- **One step.** The receiver begins to pull, or the manifest stays on its way or is lost. -/
theorem Offered.step (h : Offered m image net)
    (hm : parseManifest ed25519SignOpen m.raw.val = some m) (hfits : m.size.toNat ≤ otaPartSize)
    (hstep : UpdateStep sha256 ed25519SignOpen api connHandle peer net net') :
    Offered m image net' ∨ ∃ s', ReflTransGen (Pull.Step (totalChunks m).toNat) {} s' ∧
      Pulls m image net' s' ∧ s'.phase ≠ .stopped := by
  -- nothing but the manifest is in the air
  have hfirst : ∀ {i : Nat} {msg : OtaMessage}, net.air[i]? = some msg →
      i = 0 ∧ msg = manifestMessage m ∧ net.air = [manifestMessage m] ∧ net.lost = 0 := by
    intro i msg hi
    rcases h.air with ⟨hair, hlost⟩ | ⟨hair, -⟩
    · rw [hair] at hi
      cases i with
      | zero => exact ⟨rfl, (Option.some.inj hi).symm, hair, hlost⟩
      | succ i => cases hi
    · rw [hair] at hi
      cases hi
  cases hstep with
  | @deliver i msg env hi hworks =>
    obtain ⟨rfl, rfl, hair, hlost⟩ := hfirst hi
    exact .inr (h.arrives hair hlost hm hfits hworks)
  | @lose i msg hi =>
    obtain ⟨rfl, rfl, hair, hlost⟩ := hfirst hi
    refine .inl ⟨h.server, h.receiver, .inr ⟨?_, congrArg (· + 1) hlost⟩, h.retried, h.delivered⟩
    show net.air.eraseIdx 0 = []
    rw [hair]
    rfl
  | @tick env n hworks =>
    refine .inl ?_
    cases n with
    | server =>
      obtain ⟨st, hround, hst⟩ := server_tick sha256 ed25519SignOpen api net env h.server
      rw [hround]
      exact ⟨hst, h.receiver, h.air, h.retried, h.delivered⟩
    | receiver =>
      obtain ⟨st, hround, hst⟩ := stale_round sha256 ed25519SignOpen api net env h.receiver
      rw [hround]
      exact ⟨h.server, hst, h.air, h.retried, h.delivered⟩

/-- **A whole run.** -/
theorem Offered.run {start : UpdateNet} (h : Offered m image start)
    (hm : parseManifest ed25519SignOpen m.raw.val = some m) (hfits : m.size.toNat ≤ otaPartSize)
    (hapi : api.Lawful) (hu : Usable m) (hlen : image.length = m.size.toNat)
    (hdigest : sha256 image = m.sha256)
    (hrun : ReflTransGen (UpdateStep sha256 ed25519SignOpen api connHandle peer) start net) :
    Offered m image net ∨ ∃ s, Pull.Inv (totalChunks m).toNat s ∧ Pulls m image net s ∧
      (s.phase = .stopped → ∃ before,
        ReflTransGen (UpdateStep sha256 ed25519SignOpen api connHandle peer) start before ∧
        ReflTransGen (UpdateStep sha256 ed25519SignOpen api connHandle peer) before net ∧
        OutOfRetries before) := by
  have htotal : 0 < (totalChunks m).toNat := by
    have hzero := (lt_totalChunks_iff hu 0).mpr (by simpa using hu.bounds.1)
    exact UInt32.lt_iff_toNat_lt.mp hzero
  induction hrun with
  | refl => exact .inl h
  | @tail net net' hrun hstep ih =>
    rcases ih with hoffered | ⟨s, hinv, hpulls, hgave⟩
    · rcases hoffered.step hm hfits hstep with hoffered' | ⟨s', hrun', hpulls', hphase⟩
      · exact .inl hoffered'
      · exact .inr ⟨s', (Pull.inv_start htotal).run hrun', hpulls', fun hp => absurd hp hphase⟩
    · obtain ⟨s', hrun', hpulls', hstop⟩ := hpulls.step hinv hapi hu hlen hdigest hstep
      refine .inr ⟨s', hinv.run hrun', hpulls', ?_⟩
      intro hp
      rcases hstop hp with hstopped | hout
      · obtain ⟨before, hbefore, hafter, hout⟩ := hgave hstopped
        exact ⟨before, hbefore, hafter.tail hstep, hout⟩
      · exact ⟨net, hrun, .single hstep, hout⟩

end Simulation

/-- **An update completes.** In every run from an offer of a signed manifest to a node with an older
version, the number of messages that arrive is bounded by the number of chunks and of repeated
requests; and when no message is left on its way and no more were lost than requests were repeated,
the receiver boots the image of the server next, and serves it. Otherwise it had repeated a request
forty times without an answer. -/
theorem update_completes (sha256 : List UInt8 → Bytes 32)
    (ed25519SignOpen : List UInt8 → Bytes 32 → Bytes 64 → Bool) (api : OtaApi) (hapi : api.Lawful)
    (connHandle : UpdateNode → UInt16) (peer : UpdateNode → Bytes 8) {m : OtaManifest}
    {image : List UInt8} {server receiver : OtaState} {env : OtaEnv} {net : UpdateNet}
    (hm : parseManifest ed25519SignOpen m.raw.val = some m) (hfits : m.size.toNat ≤ otaPartSize)
    (hdigest : sha256 image = m.sha256) (hserving : Serving m image server)
    (hstale : Stale m receiver) (hversion : receiver.fwVersion ≠ 0)
    (hquiet : server.lastOfferMs (Fin.ofNat 8 (connHandle .server).toNat) = 0)
    (hrun : ReflTransGen (UpdateStep sha256 ed25519SignOpen api connHandle peer)
      (offerUpdate sha256 ed25519SignOpen api connHandle peer env server receiver) net) :
    net.delivered ≤ (2 * (totalChunks m).toNat + 2) * (net.retried + 1) + 1 ∧
    (net.air = [] → net.lost ≤ net.retried → Updated m image net.receiver ∨ ∃ before,
      ReflTransGen (UpdateStep sha256 ed25519SignOpen api connHandle peer)
        (offerUpdate sha256 ed25519SignOpen api connHandle peer env server receiver) before ∧
      ReflTransGen (UpdateStep sha256 ed25519SignOpen api connHandle peer) before net ∧
      OutOfRetries before) := by
  obtain ⟨-, -, hsize, hle, hge⟩ := parseManifest_eq_some hm
  have hu : Usable m := ⟨hsize, hle, hge, hfits⟩
  have hlen : image.length = m.size.toNat := by
    rw [← hserving.image]
    exact length_read _ _ _
  have hoffered : Offered m image
      (offerUpdate sha256 ed25519SignOpen api connHandle peer env server receiver) :=
    offered_offerUpdate hserving hstale hversion hquiet env
  -- the manifest is still on its way or lost, or the receiver pulls
  rcases hoffered.run hm hfits hapi hu hlen hdigest hrun with h | ⟨s, hinv, hpulls, hgave⟩
  · constructor
    · rw [h.delivered]
      exact Nat.zero_le _
    · intro hair hlost
      rcases h.air with ⟨hone, -⟩ | ⟨-, hgone⟩
      · rw [hone] at hair
        cases hair
      · rw [hgone, h.retried] at hlost
        exact absurd hlost (Nat.not_succ_le_zero 0)
  · constructor
    · rw [hpulls.delivered, hpulls.retried]
      exact Nat.add_le_add_right ((Nat.le_add_right _ _).trans hinv.spent) 1
    · intro hair hlost
      have hsair : s.air = [] := List.map_eq_nil_iff.mp (hpulls.air.symm.trans hair)
      rw [hpulls.lost, hpulls.retried] at hlost
      have hnot := hinv.not_pulling hsair hlost
      have hstage := hpulls.receiver
      cases hphase : s.phase with
      | pulling => exact absurd hphase hnot
      | stopped => exact .inr (hgave hphase)
      | complete =>
        rw [hphase] at hstage
        exact .inl hstage

/-! ## An update of two chunks -/

/-- The image of version 6, with 64 bytes behind it. -/
def longImage : Bytes 66 := ⟨[0xE9, 6] ++ List.replicate 64 0xFF, rfl⟩

def longManifest : OtaManifest where
  version := 6
  size := 66
  sha256 := copyAt 32 longImage.val 0
  chunkSize := 64
  raw := copyAt 110 (manifestEvent 6 66 (copyAt 32 longImage.val 0)).payload 0

/-- A node that serves version 6. -/
def updateServer : OtaState :=
  { OtaState.off (fun _ i => if i = 0 then 0xE9 else if i = 1 then 6 else 0xFF) none
      (zeros 110) with
    fwVersion := 6, serveManifest := longManifest, canServe := true, halted := false }

/-- A node that runs version 5. -/
def updateReceiver : OtaState :=
  { OtaState.off updateSlots none (zeros 110) with fwVersion := 5, halted := false }

/-- What is done with the first message on its way; or the receiver has a round ten seconds later. -/
inductive UpdateMove where
  | deliver
  | lose
  | wait

def playMove (net : UpdateNet) : UpdateMove → UpdateNet
  | .deliver =>
    match net.air with
    | [] => net
    | msg :: _ =>
      (net.take 0).arrive (fun l => copyAt 32 l 0) (fun _ _ _ => true) plainApi (fun _ => 1)
        (fun _ => zeros 8) {} msg
  | .lose =>
    match net.air with
    | [] => net
    | _ :: _ => { net with air := net.air.eraseIdx 0, lost := net.lost + 1 }
  | .wait =>
    net.round (fun l => copyAt 32 l 0) (fun _ _ _ => true) plainApi { loopMs := 10000 } none
      .receiver

theorem playMove_run (net : UpdateNet) (move : UpdateMove) :
    ReflTransGen (UpdateStep (fun l => copyAt 32 l 0) (fun _ _ _ => true) plainApi (fun _ => 1)
      fun _ => zeros 8) net (playMove net move) := by
  cases move with
  | deliver =>
    unfold playMove
    cases hair : net.air with
    | nil => exact .refl
    | cons msg rest =>
      exact .single (.deliver (by rw [hair]; rfl) ⟨rfl, rfl, rfl, rfl, rfl, rfl, fun _ => rfl⟩)
  | lose =>
    unfold playMove
    cases hair : net.air with
    | nil => exact .refl
    | cons msg rest =>
      have hstep : UpdateStep (fun l => copyAt 32 l 0) (fun _ _ _ => true) plainApi (fun _ => 1)
          (fun _ => zeros 8) net { net with air := net.air.eraseIdx 0, lost := net.lost + 1 } :=
        .lose (i := 0) (m := msg) (by rw [hair]; rfl)
      rw [hair] at hstep
      exact .single hstep
  | wait => exact .single (.tick .receiver ⟨rfl, rfl, rfl, rfl, rfl, rfl, fun _ => rfl⟩)

theorem playMoves_run (moves : List UpdateMove) (net : UpdateNet) :
    ReflTransGen (UpdateStep (fun l => copyAt 32 l 0) (fun _ _ _ => true) plainApi (fun _ => 1)
      fun _ => zeros 8) net (moves.foldl playMove net) := by
  induction moves generalizing net with
  | nil => exact .refl
  | cons move moves ih => exact (playMove_run net move).trans (ih _)

/-- The first chunk is lost on its way, and requested again. -/
theorem update_completes_lost_chunk :
    let start := offerUpdate (fun l => copyAt 32 l 0) (fun _ _ _ => true) plainApi (fun _ => 1)
      (fun _ => zeros 8) {} updateServer updateReceiver
    let net := [UpdateMove.deliver, .deliver, .lose, .wait, .deliver, .deliver, .deliver, .deliver,
      .deliver].foldl playMove start
    net.air = [] ∧ net.lost = 1 ∧ net.retried = 1 ∧ net.delivered = 7 ∧
      net.delivered ≤ 6 * (net.retried + 1) + 1 ∧ net.receiver.boot = .ota1 := by
  intro start net
  have hrun := playMoves_run [UpdateMove.deliver, .deliver, .lose, .wait, .deliver, .deliver,
    .deliver, .deliver, .deliver] start
  have hserving : Serving longManifest longImage.val updateServer :=
    ⟨rfl, rfl, by decide +kernel, rfl, rfl, rfl⟩
  have hstale : Stale longManifest updateReceiver := ⟨by decide, rfl, rfl, rfl⟩
  have hall := update_completes (fun l => copyAt 32 l 0) (fun _ _ _ => true) plainApi
    plainApi_lawful (fun _ => 1) (fun _ => zeros 8) (by decide +kernel) (by decide)
    (by decide +kernel) hserving hstale (by decide) rfl hrun
  refine ⟨by decide +kernel, by decide +kernel, by decide +kernel, by decide +kernel, ?_,
    by decide +kernel⟩
  have htotal : (totalChunks longManifest).toNat = 2 := by decide +kernel
  rw [htotal] at hall
  exact hall.1

end Bitle
