import Bitle.Lora.Task
import Bitle.Lib.Run

/-!
# Bitle — what the radio task keeps (`lora_task` of `main/bitle_lora.c`)

The task means to start an operation only while the radio is idle, and to send a frame at most
`ARQ_TRIES` times. The block that resolves the ack wait does not ask whether the ack that the
block before it sent is still on the air: the CAD it starts cancels the ack, and with it the
`TX_DONE` that would have cleared `awaiting_tx_done` and `tx_is_ack`. An ack that times out leaves
`tx_is_ack` set as well. A data frame's `TX_DONE` is then taken for the ack's, and the frame is
armed again without a look at its sends.
-/

namespace Bitle

open Run

/-! ## Taking a batch

It touches the batch and the queue only. -/

namespace LoraTask

variable {t : LoraTask}

theorem nextBatch_eq (t : LoraTask) : ∃ haveBatch queue batch idx,
    t.nextBatch = { t with haveBatch := haveBatch, queue := queue, batch := batch
                           batchNextIdx := idx } := by
  unfold nextBatch
  dsimp only
  split
  · split
    · exact ⟨_, _, _, _, rfl⟩
    · split
      · exact ⟨_, _, _, _, rfl⟩
      · exact ⟨_, _, _, _, rfl⟩
  · split
    · exact ⟨t.haveBatch, t.queue, t.batch, t.batchNextIdx, rfl⟩
    · split
      · exact ⟨t.haveBatch, t.queue, t.batch, t.batchNextIdx, rfl⟩
      · exact ⟨_, _, _, _, rfl⟩

theorem log_nextBatch : t.nextBatch.log = t.log := by
  obtain ⟨haveBatch, queue, batch, idx, heq⟩ := t.nextBatch_eq
  rw [heq]

theorem radio_nextBatch : t.nextBatch.radio = t.radio := by
  obtain ⟨haveBatch, queue, batch, idx, heq⟩ := t.nextBatch_eq
  rw [heq]

theorem awaitingAck_nextBatch : t.nextBatch.awaitingAck = t.awaitingAck := by
  obtain ⟨haveBatch, queue, batch, idx, heq⟩ := t.nextBatch_eq
  rw [heq]

end LoraTask

/-! ## One operation at a time -/

def isTx : Option RadioOp → Bool
  | some (.tx _) => true
  | _ => false

def isCad : Option RadioOp → Bool
  | some .cad => true
  | _ => false

/-- The call found the radio idle. -/
def TaskCall.Clear : TaskCall → Prop
  | .produced _ => True
  | .startCad outstanding | .transmitAck outstanding | .transmitData outstanding =>
    outstanding = none

/-- The flags say what the radio is doing, and no call was made while it was doing something. -/
structure RadioSync (t : LoraTask) : Prop where
  tx : t.awaitingTxDone = isTx t.radio
  cad : t.awaitingCad = isCad t.radio
  ack : t.awaitingAck = true → t.awaitingCad = false
  clear : ∀ c ∈ t.log, c.Clear

namespace RadioSync

variable {t : LoraTask}

theorem radio_none (h : RadioSync t) (htx : t.awaitingTxDone = false)
    (hcad : t.awaitingCad = false) : t.radio = none := by
  have h1 := h.tx.symm.trans htx
  have h2 := h.cad.symm.trans hcad
  cases hr : t.radio with
  | none => rfl
  | some op =>
    rw [hr] at h1 h2
    cases op with
    | cad => cases h2
    | tx isAck => cases h1

theorem init (srcTag : Wire.Bytes 4) : RadioSync (.init srcTag) where
  tx := rfl
  cad := rfl
  ack := fun h => absurd h Bool.false_ne_true
  clear := fun _ hc => absurd hc (List.not_mem_nil)

/-- With the radio idle and no ack awaited, a CAD may be started. -/
theorem armCad (h : RadioSync t) (hidle : t.radio = none) (hack : t.awaitingAck = false)
    (ok : Bool) : RadioSync (t.armCad ok) := by
  have htx : t.awaitingTxDone = false := by rw [h.tx, hidle]; rfl
  have hcad : t.awaitingCad = false := by rw [h.cad, hidle]; rfl
  have hlog : ∀ c ∈ TaskCall.startCad t.radio :: t.log, c.Clear := by
    intro c hc
    rcases List.mem_cons.mp hc with rfl | hc
    · exact hidle
    · exact h.clear c hc
  cases ok with
  | true => exact ⟨htx, rfl, fun hw => absurd (hack.symm.trans hw) Bool.false_ne_true, hlog⟩
  | false => exact ⟨htx, hcad, fun _ => hcad, hlog⟩

/-- With the radio idle, an ack may be sent. -/
theorem transmitAckNow (h : RadioSync t) (hidle : t.radio = none) (ok : Bool) :
    RadioSync (t.transmitAckNow ok) := by
  have htx : t.awaitingTxDone = false := by rw [h.tx, hidle]; rfl
  have hcad : t.awaitingCad = false := by rw [h.cad, hidle]; rfl
  unfold LoraTask.transmitAckNow
  split
  · exact h
  · have hlog : ∀ c ∈ TaskCall.transmitAck t.radio :: t.log, c.Clear := by
      intro c hc
      rcases List.mem_cons.mp hc with rfl | hc
      · exact hidle
      · exact h.clear c hc
    cases ok with
    | true => exact ⟨rfl, hcad, fun _ => hcad, hlog⟩
    | false => exact ⟨htx, hcad, fun _ => hcad, hlog⟩

theorem onTxDone (h : RadioSync t) (airtime : Nat → UInt64) (now : UInt64)
    (hp : ∃ isAck, t.radio = some (.tx isAck)) : RadioSync (t.onTxDone airtime now) := by
  have hcad : t.awaitingCad = false := by
    obtain ⟨isAck, hr⟩ := hp
    rw [h.cad, hr]
    rfl
  unfold LoraTask.onTxDone
  dsimp only
  split
  · split
    · exact ⟨rfl, hcad, fun _ => hcad, h.clear⟩
    · exact ⟨rfl, hcad, fun _ => hcad, h.clear⟩
  · split
    · exact ⟨rfl, hcad, fun _ => hcad, h.clear⟩
    · exact ⟨rfl, hcad, fun _ => hcad, h.clear⟩

theorem onCadClear (h : RadioSync t) (ok : Bool) (hp : t.radio = some .cad) :
    RadioSync (t.onCadClear ok) := by
  have htx : t.awaitingTxDone = false := by rw [h.tx, hp]; rfl
  have hidle : RadioSync { t with radio := none, awaitingCad := false } :=
    ⟨htx, rfl, fun _ => rfl, h.clear⟩
  unfold LoraTask.onCadClear
  dsimp only
  split
  · exact hidle.transmitAckNow rfl ok
  · split
    · have hlog : ∀ c ∈ TaskCall.transmitData none :: t.log, c.Clear := by
        intro c hc
        rcases List.mem_cons.mp hc with rfl | hc
        · exact rfl
        · exact h.clear c hc
      cases ok with
      | true => exact ⟨rfl, rfl, fun _ => rfl, hlog⟩
      | false => exact ⟨htx, rfl, fun _ => rfl, hlog⟩
    · exact hidle

theorem onCadBusy (h : RadioSync t) (ok : Bool) (hp : t.radio = some .cad) :
    RadioSync (t.onCadBusy ok) := by
  have htx : t.awaitingTxDone = false := by rw [h.tx, hp]; rfl
  -- while the CAD was on, no ack was awaited
  have hack : t.awaitingAck = false := by
    by_contra hw
    have hcad := h.ack (by simpa using hw)
    rw [h.cad, hp] at hcad
    cases hcad
  unfold LoraTask.onCadBusy
  dsimp only
  split
  · split
    · have hlog : ∀ c ∈ TaskCall.startCad none :: t.log, c.Clear := by
        intro c hc
        rcases List.mem_cons.mp hc with rfl | hc
        · exact rfl
        · exact h.clear c hc
      cases ok with
      | true => exact ⟨htx, rfl, fun hw => absurd (hack.symm.trans hw) Bool.false_ne_true, hlog⟩
      | false => exact ⟨htx, rfl, fun _ => rfl, hlog⟩
    · exact ⟨htx, rfl, fun _ => rfl, h.clear⟩
  · exact ⟨htx, rfl, fun _ => rfl, h.clear⟩

theorem onTimeout (h : RadioSync t) (hp : ∃ isAck, t.radio = some (.tx isAck)) :
    RadioSync t.onTimeout := by
  have hcad : t.awaitingCad = false := by
    obtain ⟨isAck, hr⟩ := hp
    rw [h.cad, hr]
    rfl
  exact ⟨rfl, hcad, fun _ => hcad, h.clear⟩

theorem sendAck (h : RadioSync t) (ok : Bool) : RadioSync (t.sendAck ok) := by
  unfold LoraTask.sendAck
  split
  · next hc =>
    simp only [Bool.and_eq_true, Bool.not_eq_true'] at hc
    exact h.transmitAckNow (h.radio_none hc.1.2 hc.2) ok
  · exact h

/-- The one step that needs a condition: a retransmission is due only with the radio idle. -/
theorem resolveAck (h : RadioSync t) (now : UInt64) (ok : Bool)
    (hfree : t.retransmitDue now = true → t.awaitingTxDone = false) :
    RadioSync (t.resolveAck now ok) := by
  unfold LoraTask.resolveAck
  split
  · next hwait =>
    simp only [Bool.and_eq_true] at hwait
    have hcad := h.ack hwait.1
    split
    · exact ⟨h.tx, h.cad, fun _ => hcad, h.clear⟩
    · next hacked =>
      split
      · next hdue =>
        dsimp only
        split
        · next hsends =>
          have htx : t.awaitingTxDone = false := by
            apply hfree
            simp only [LoraTask.retransmitDue, hwait.1, hwait.2, hacked, hdue, hsends]
            decide
          refine armCad ?_ ?_ rfl ok
          · exact ⟨h.tx, h.cad, fun _ => hcad, h.clear⟩
          · exact h.radio_none htx hcad
        · exact ⟨h.tx, h.cad, fun _ => hcad, h.clear⟩
      · exact h
  · exact h

theorem rearmPending (h : RadioSync t) (ok : Bool) : RadioSync (t.rearmPending ok) := by
  unfold LoraTask.rearmPending
  split
  · next hc =>
    simp only [Bool.and_eq_true, Bool.not_eq_true'] at hc
    exact h.armCad (h.radio_none hc.1.2 hc.1.1.2) hc.2 ok
  · exact h

theorem nextBatch (h : RadioSync t) : RadioSync t.nextBatch := by
  obtain ⟨haveBatch, queue, batch, idx, heq⟩ := t.nextBatch_eq
  rw [heq]
  exact ⟨h.tx, h.cad, h.ack, h.clear⟩

theorem nextFrame (h : RadioSync t) (ok : Bool) : RadioSync (t.nextFrame ok) := by
  unfold LoraTask.nextFrame
  split
  · next hc =>
    simp only [Bool.and_eq_true, Bool.not_eq_true'] at hc
    have hb := h.nextBatch
    have hack : t.nextBatch.awaitingAck = false := LoraTask.awaitingAck_nextBatch.trans hc.2
    have hidle : t.nextBatch.radio = none :=
      LoraTask.radio_nextBatch.trans (h.radio_none hc.1.1.2 hc.1.2)
    dsimp only
    split
    · split
      · exact hb
      · next frame idx hnext =>
        have hlog : ∀ c ∈ TaskCall.produced frame :: t.nextBatch.log, c.Clear := by
          intro c hmem
          rcases List.mem_cons.mp hmem with rfl | hmem
          · trivial
          · exact hb.clear c hmem
        apply armCad
        · exact ⟨hb.tx, hb.cad, hb.ack, hlog⟩
        · exact hidle
        · exact hack
    · exact hb
  · exact h

end RadioSync

/-! ### The condition -/

namespace LoraTask

variable {t : LoraTask}

/-- The block that sends acks does not touch what the retransmission depends on. -/
theorem retransmitDue_sendAck (ok : Bool) (now : UInt64) :
    (t.sendAck ok).retransmitDue now = t.retransmitDue now := by
  unfold sendAck transmitAckNow
  split
  · split
    · rfl
    · cases ok with
      | true => rfl
      | false => rfl
  · rfl

/-- A transmission is on after that block if there was one, or if an ack went out. -/
theorem awaitingTxDone_sendAck (ok : Bool) :
    (t.sendAck ok).awaitingTxDone = true ↔
      t.awaitingTxDone = true ∨
        (t.receiver.ackOutbox ≠ [] ∧ t.awaitingCad = false ∧ ok = true) := by
  cases htx : t.awaitingTxDone <;> cases hcad : t.awaitingCad <;>
    cases hbox : t.receiver.ackOutbox <;> cases ok <;>
      simp [sendAck, transmitAckNow, htx, hcad, hbox]

/-- A retransmission starts a CAD whatever the radio is doing. -/
theorem log_resolveAck {now : UInt64} (h : t.retransmitDue now = true) (ok : Bool) :
    .startCad t.radio ∈ (t.resolveAck now ok).log := by
  simp only [retransmitDue, Bool.and_eq_true, Bool.not_eq_true', decide_eq_true_eq] at h
  obtain ⟨⟨⟨⟨hwait, hpending⟩, hacked⟩, hdue⟩, hsends⟩ := h
  unfold resolveAck
  rw [if_pos (by rw [hwait, hpending]; rfl), if_neg (by rw [hacked]; decide), if_pos hdue]
  dsimp only
  rw [if_pos hsends]
  cases ok with
  | true => exact List.mem_cons_self
  | false => exact List.mem_cons_self

theorem log_armCad {c : TaskCall} (h : c ∈ t.log) (ok : Bool) : c ∈ (t.armCad ok).log := by
  cases ok with
  | true => exact List.mem_cons_of_mem _ h
  | false => exact List.mem_cons_of_mem _ h

theorem log_rearmPending {c : TaskCall} (h : c ∈ t.log) (ok : Bool) :
    c ∈ (t.rearmPending ok).log := by
  unfold rearmPending
  split
  · exact log_armCad h ok
  · exact h

theorem log_nextFrame {c : TaskCall} (h : c ∈ t.log) (ok : Bool) : c ∈ (t.nextFrame ok).log := by
  have hb : c ∈ t.nextBatch.log := by rw [log_nextBatch]; exact h
  unfold nextFrame
  split
  · dsimp only
    split
    · split
      · exact hb
      · apply log_armCad
        exact List.mem_cons_of_mem _ hb
    · exact hb
  · exact h

end LoraTask

/-- No retransmission falls due in an iteration that has an ack on the air, or puts one there. -/
def TaskStep.NoOverlap (t : LoraTask) : TaskStep → Prop
  | .blocks ackOk now _ _ _ =>
    t.retransmitDue now = true →
      t.awaitingTxDone = false ∧ (t.receiver.ackOutbox = [] ∨ ackOk = false)
  | .queue _ | .poll _ => True

/-- What the task means to keep: every radio call found the radio idle, and it waits for a
transmission or a CAD only while there is one. -/
def OneAtATime (t : LoraTask) : Prop :=
  (∀ c ∈ t.log, c.Clear) ∧
    (t.awaitingTxDone = true → ∃ isAck, t.radio = some (.tx isAck)) ∧
    (t.awaitingCad = true → t.radio = some .cad)

namespace RadioSync

variable {t : LoraTask}

/-- **One step** keeps flags and radio together, unless a retransmission falls due while an ack is
on the air. -/
theorem step (h : RadioSync t) (airtime : Nat → UInt64) {s : TaskStep} (hp : s.Possible t)
    (hfree : s.NoOverlap t) : RadioSync (taskStep airtime t s) := by
  cases s with
  | queue batch => exact ⟨h.tx, h.cad, h.ack, h.clear⟩
  | poll event =>
    cases event with
    | rxDone now frame => exact ⟨h.tx, h.cad, h.ack, h.clear⟩
    | rxCrcError => exact h
    | txDone now => exact h.onTxDone airtime now hp
    | cadClear ok => exact h.onCadClear ok hp
    | cadBusy ok => exact h.onCadBusy ok hp
    | timeout => exact h.onTimeout hp
  | blocks ackOk now arqOk rearmOk frameOk =>
    have hack := h.sendAck ackOk
    have hres := hack.resolveAck now arqOk fun hdue => by
      rw [LoraTask.retransmitDue_sendAck] at hdue
      obtain ⟨htx, hbox⟩ := hfree hdue
      by_contra hon
      rcases (LoraTask.awaitingTxDone_sendAck ackOk).mp (by simpa using hon) with hw | ⟨hne, -, hok⟩
      · exact absurd (htx.symm.trans hw) Bool.false_ne_true
      · rcases hbox with hnil | hfail
        · exact hne hnil
        · exact absurd (hfail.symm.trans hok) Bool.false_ne_true
    exact (hres.rearmPending rearmOk).nextFrame frameOk

/-- A retransmission that falls due while an ack is on the air makes a call that cancels it. -/
theorem not_clear_of_overlap (h : RadioSync t) (airtime : Nat → UInt64) {s : TaskStep}
    (hover : ¬ s.NoOverlap t) : ∃ c ∈ (taskStep airtime t s).log, ¬ c.Clear := by
  cases s with
  | queue batch => exact absurd trivial hover
  | poll event => exact absurd trivial hover
  | blocks ackOk now arqOk rearmOk frameOk =>
    simp only [TaskStep.NoOverlap, not_forall, not_and_or, not_or] at hover
    obtain ⟨hdue, hover⟩ := hover
    have hcad : t.awaitingCad = false := by
      apply h.ack
      simp only [LoraTask.retransmitDue, Bool.and_eq_true] at hdue
      exact hdue.1.1.1.1
    have htx : (t.sendAck ackOk).awaitingTxDone = true := by
      apply (LoraTask.awaitingTxDone_sendAck ackOk).mpr
      rcases hover with hw | ⟨hne, hok⟩
      · exact .inl (by simpa using hw)
      · exact .inr ⟨hne, hcad, by simpa using hok⟩
    refine ⟨.startCad (t.sendAck ackOk).radio, ?_, ?_⟩
    · apply LoraTask.log_nextFrame
      apply LoraTask.log_rearmPending
      apply LoraTask.log_resolveAck
      rw [LoraTask.retransmitDue_sendAck]
      exact hdue
    · intro hidle
      have hsync := (h.sendAck ackOk).tx
      rw [htx, show (t.sendAck ackOk).radio = none from hidle] at hsync
      cases hsync

theorem oneAtATime (h : RadioSync t) : OneAtATime t := by
  refine ⟨h.clear, ?_, ?_⟩
  · intro htx
    rw [h.tx] at htx
    match hr : t.radio with
    | some (.tx isAck) => exact ⟨isAck, rfl⟩
    | some .cad => rw [hr] at htx; cases htx
    | none => rw [hr] at htx; cases htx
  · intro hcad
    rw [h.cad] at hcad
    match hr : t.radio with
    | some .cad => rfl
    | some (.tx isAck) => rw [hr] at hcad; cases hcad
    | none => rw [hr] at hcad; cases hcad

end RadioSync

/-- **One operation at a time.** Whatever the radio reports and whatever is received and queued,
a run keeps it in every state exactly when no retransmission of the run falls due while an ack is
on the air. -/
theorem one_operation_at_a_time_iff (airtime : Nat → UInt64) (srcTag : Wire.Bytes 4)
    (steps : List TaskStep)
    (hrun : Along (taskStep airtime) (fun t s => s.Possible t) (.init srcTag) steps) :
    (∀ pre, pre <+: steps → OneAtATime (final (taskStep airtime) (.init srcTag) pre)) ↔
      Along (taskStep airtime) (fun t s => s.NoOverlap t) (.init srcTag) steps := by
  have hinit := RadioSync.init srcTag
  generalize LoraTask.init srcTag = t at hinit hrun ⊢
  induction steps generalizing t with
  | nil =>
    constructor
    · intro _
      trivial
    · intro _ pre hpre
      rw [List.prefix_nil.mp hpre]
      exact hinit.oneAtATime
  | cons s steps ih =>
    obtain ⟨hp, hrun⟩ := hrun
    constructor
    · intro hall
      -- a step that overlaps would have logged the call in the state right after it
      have hfree : s.NoOverlap t := by
        by_contra hover
        obtain ⟨c, hc, hbad⟩ := hinit.not_clear_of_overlap airtime hover
        exact hbad ((hall [s] (List.prefix_append [s] steps)).1 c hc)
      refine ⟨hfree, (ih _ (hinit.step airtime hp hfree) hrun).mp fun pre hpre => ?_⟩
      exact hall (s :: pre) (List.cons_prefix_cons.mpr ⟨rfl, hpre⟩)
    · rintro ⟨hfree, hrest⟩ pre hpre
      cases pre with
      | nil => exact hinit.oneAtATime
      | cons s' pre =>
        obtain ⟨rfl, hsteps⟩ := List.cons_prefix_cons.mp hpre
        exact (ih _ (hinit.step airtime hp hfree) hrun).mpr hrest pre hsteps

/-! ### A run that overlaps -/

/-- This node, and a neighbour. -/
def nodeTag : Wire.Bytes 4 := ⟨[1, 0, 0, 0], rfl⟩
def neighbourTag : Wire.Bytes 4 := ⟨[2, 0, 0, 0], rfl⟩

/-- A packet of one frame, and the frame a neighbour sends of it. -/
def oneFrame (wantAck : Bool) : LoraBatch := ⟨0, 1, wantAck, [7]⟩
def neighbourFrame : List UInt8 := (batchFrame neighbourTag (oneFrame true) 0).data

/-- The blocks of an iteration at `now`, with a radio that takes every call. -/
def iteration (now : UInt64) : TaskStep := .blocks true now true true true

/-- A frame is sent and its ack awaited; the neighbour's frame asks for an ack as the wait runs
out. -/
def overlapRun : List TaskStep :=
  [.queue (oneFrame true), iteration 0, .poll (.cadClear true), .poll (.txDone 1000),
    .poll (.rxDone 2500 neighbourFrame), iteration 2600]

/-- The retransmission cancels the ack, whose `TX_DONE` the task still waits for once the CAD has
ended. -/
theorem retransmission_cancels_ack :
    ¬ ∀ (airtime : Nat → UInt64) (srcTag : Wire.Bytes 4) (steps : List TaskStep),
      Along (taskStep airtime) (fun t s => s.Possible t) (.init srcTag) steps →
        OneAtATime (final (taskStep airtime) (.init srcTag) steps) := by
  intro h
  have hrun : Along (taskStep fun _ => 330) (fun t s => s.Possible t) (.init nodeTag)
      overlapRun := ⟨trivial, trivial, rfl, ⟨false, rfl⟩, trivial, trivial, trivial⟩
  have hbad := (h _ _ _ hrun).1 (.startCad (some (.tx true))) (by decide)
  cases hbad

/-- Until the retransmission falls due, the run keeps to one operation at a time. -/
theorem one_operation_at_a_time_iff_awaiting :
    Along (taskStep fun _ => 330) (fun t s => s.Possible t) (.init nodeTag) (overlapRun.take 5) ∧
      ∀ pre, pre <+: overlapRun.take 5 →
        OneAtATime (final (taskStep fun _ => 330) (.init nodeTag) pre) := by
  have hrun : Along (taskStep fun _ => 330) (fun t s => s.Possible t) (.init nodeTag)
      (overlapRun.take 5) := ⟨trivial, trivial, rfl, ⟨false, rfl⟩, trivial, trivial⟩
  refine ⟨hrun, (one_operation_at_a_time_iff _ _ _ hrun).mpr ?_⟩
  exact ⟨trivial, fun hdue => absurd hdue (by decide), trivial, trivial, trivial, trivial⟩

/-! ## Sends of a frame -/

/-- How often a frame may be handed to the radio. -/
def LoraFrame.tries (f : LoraFrame) : Nat := if f.wantAck then arqTries else 1

/-- The frames produced, newest first, each with how often it was handed to `sx1262_transmit`;
only the frame produced last is ever handed over. -/
def sends : List TaskCall → List (LoraFrame × Nat)
  | [] => []
  | .produced frame :: log => (frame, 0) :: sends log
  | .transmitData _ :: log =>
    match sends log with
    | [] => []
    | (frame, n) :: older => (frame, n + 1) :: older
  | .startCad _ :: log | .transmitAck _ :: log => sends log

/-- No frame of the log was handed over more often than it may be. -/
def WithinTries (log : List TaskCall) : Prop := ∀ p ∈ sends log, p.2 ≤ p.1.tries

/-- What carries the bound. While the frame waits for its CAD (`left`) it has a send left; a
`TX_DONE` that is taken for an ack's while the frame was on the air would break that. -/
structure SendsLeft (t : LoraTask) : Prop where
  tx : isTx t.radio = true → t.awaitingTxDone = true
  ackTx : t.radio = some (.tx true) → t.txIsAck = true
  cad : t.radio = some .cad → t.awaitingCad = true ∧ t.awaitingAck = false
  want : t.awaitingAck = true → t.havePending = true → t.pending.wantAck = true
  count : t.havePending = true → ∃ older, sends t.log = (t.pending, t.arqSends) :: older
  left : t.havePending = true → t.awaitingAck = false → t.radio ≠ some (.tx false) →
    t.arqSends < t.pending.tries
  within : WithinTries t.log

namespace SendsLeft

variable {t : LoraTask}

theorem init (srcTag : Wire.Bytes 4) : SendsLeft (.init srcTag) where
  tx := fun h => absurd h Bool.false_ne_true
  ackTx := fun h => nomatch h
  cad := fun h => nomatch h
  want := fun h => absurd h Bool.false_ne_true
  count := fun h => absurd h Bool.false_ne_true
  left := fun h => absurd h Bool.false_ne_true
  within := fun _ h => absurd h List.not_mem_nil

/-- With the radio idle, only the pending frame is left to look at. -/
theorem of_idle (hidle : t.radio = none)
    (hwant : t.awaitingAck = true → t.havePending = true → t.pending.wantAck = true)
    (hcount : t.havePending = true → ∃ older, sends t.log = (t.pending, t.arqSends) :: older)
    (hleft : t.havePending = true → t.awaitingAck = false → t.arqSends < t.pending.tries)
    (hwithin : WithinTries t.log) : SendsLeft t where
  tx := fun hr => by rw [hidle] at hr; cases hr
  ackTx := fun hr => by rw [hidle] at hr; cases hr
  cad := fun hr => by rw [hidle] at hr; cases hr
  want := hwant
  count := hcount
  left := fun hp ha _ => hleft hp ha
  within := hwithin

/-- A frame is given up. -/
theorem dropped (hp : t.havePending = false) (htx : isTx t.radio = true → t.awaitingTxDone = true)
    (hackTx : t.radio = some (.tx true) → t.txIsAck = true)
    (hcad : t.radio = some .cad → t.awaitingCad = true ∧ t.awaitingAck = false)
    (hwithin : WithinTries t.log) : SendsLeft t where
  tx := htx
  ackTx := hackTx
  cad := hcad
  want := fun _ hp' => absurd (hp.symm.trans hp') Bool.false_ne_true
  count := fun hp' => absurd (hp.symm.trans hp') Bool.false_ne_true
  left := fun hp' => absurd (hp.symm.trans hp') Bool.false_ne_true
  within := hwithin

/-- A frame is given up with the radio idle. -/
theorem dropped_idle (hp : t.havePending = false) (hidle : t.radio = none)
    (hwithin : WithinTries t.log) : SendsLeft t := by
  apply dropped hp
  · intro hr
    rw [hidle] at hr
    cases hr
  · intro hr
    rw [hidle] at hr
    cases hr
  · intro hr
    rw [hidle] at hr
    cases hr
  · exact hwithin

/-- A frame with a send left may wait for a CAD. -/
theorem armCad (h : SendsLeft t) (hack : t.awaitingAck = false)
    (hleft : t.havePending = true → t.arqSends < t.pending.tries) (ok : Bool) :
    SendsLeft (t.armCad ok) := by
  cases ok with
  | true =>
    refine ⟨?_, ?_, fun _ => ⟨rfl, hack⟩, h.want, h.count, fun hp _ _ => hleft hp, h.within⟩
    · intro hr
      cases hr
    · intro hr
      cases hr
  | false =>
    exact dropped_idle rfl rfl h.within

/-- An ack goes out on an idle radio; the pending frame stays as it is. -/
theorem transmitAckNow (h : SendsLeft t) (hidle : t.radio = none) (ok : Bool) :
    SendsLeft (t.transmitAckNow ok) := by
  have hleft : t.havePending = true → t.awaitingAck = false → t.arqSends < t.pending.tries := by
    intro hp ha
    apply h.left hp ha
    rw [hidle]
    exact nofun
  unfold LoraTask.transmitAckNow
  split
  · exact h
  · cases ok with
    | true =>
      refine ⟨fun _ => rfl, fun _ => rfl, ?_, h.want, h.count, fun hp ha _ => hleft hp ha, h.within⟩
      intro hr
      cases hr
    | false => exact of_idle rfl h.want h.count hleft h.within

/-- The frame's own `TX_DONE` ends its time on the air: it waits for its ack, or it is through.
An ack's changes nothing for it. -/
theorem onTxDone (h : SendsLeft t) (airtime : Nat → UInt64) (now : UInt64)
    (hown : ¬ (t.radio = some (.tx false) ∧ t.txIsAck = true)) :
    SendsLeft (t.onTxDone airtime now) := by
  have hleft : t.txIsAck = true → t.havePending = true → t.awaitingAck = false →
      t.arqSends < t.pending.tries :=
    fun hk hp ha => h.left hp ha fun hr => hown ⟨hr, hk⟩
  unfold LoraTask.onTxDone
  dsimp only
  split
  · next hk =>
    split
    · exact of_idle rfl h.want h.count (hleft hk) h.within
    · exact of_idle rfl h.want h.count (hleft hk) h.within
  · split
    · next hwant =>
      simp only [Bool.and_eq_true] at hwant
      apply of_idle rfl
      · exact fun _ _ => hwant.2
      · exact h.count
      · intro _ ha
        cases ha
      · exact h.within
    · exact dropped_idle rfl rfl h.within

/-- Handing over a frame that has a send left keeps the bound. -/
theorem within_transmit (h : SendsLeft t) (hp : t.havePending = true)
    (hleft : t.arqSends < t.pending.tries) (outstanding : Option RadioOp) :
    (∃ older, sends (.transmitData outstanding :: t.log) = (t.pending, t.arqSends + 1) :: older) ∧
      WithinTries (.transmitData outstanding :: t.log) := by
  obtain ⟨older, hlog⟩ := h.count hp
  have hnext : sends (.transmitData outstanding :: t.log) = (t.pending, t.arqSends + 1) :: older := by
    rw [sends, hlog]
  refine ⟨⟨older, hnext⟩, ?_⟩
  intro p hmem
  rw [hnext] at hmem
  rcases List.mem_cons.mp hmem with rfl | hmem
  · exact hleft
  · exact h.within p (by rw [hlog]; exact List.mem_cons_of_mem _ hmem)

theorem onCadClear (h : SendsLeft t) (ok : Bool) (hp : t.radio = some .cad) :
    SendsLeft (t.onCadClear ok) := by
  obtain ⟨-, hack⟩ := h.cad hp
  have hleft : t.havePending = true → t.arqSends < t.pending.tries := by
    intro hpend
    apply h.left hpend hack
    rw [hp]
    exact nofun
  have hidle : SendsLeft { t with radio := none, awaitingCad := false } :=
    of_idle rfl h.want h.count (fun hpend _ => hleft hpend) h.within
  unfold LoraTask.onCadClear
  dsimp only
  split
  · exact hidle.transmitAckNow rfl ok
  · split
    · next hpend =>
      obtain ⟨hcount, hwithin⟩ := h.within_transmit hpend (hleft hpend) none
      cases ok with
      | true =>
        -- on the air: `left` says nothing until the `TX_DONE`
        refine ⟨fun _ => rfl, ?_, ?_, h.want, fun _ => hcount, ?_, hwithin⟩
        · intro hr
          cases hr
        · intro hr
          cases hr
        · intro _ _ hr
          exact absurd rfl hr
      | false =>
        exact dropped_idle rfl rfl hwithin
    · exact hidle

theorem onCadBusy (h : SendsLeft t) (ok : Bool) (hp : t.radio = some .cad) :
    SendsLeft (t.onCadBusy ok) := by
  obtain ⟨-, hack⟩ := h.cad hp
  have hleft : t.havePending = true → t.arqSends < t.pending.tries := by
    intro hpend
    apply h.left hpend hack
    rw [hp]
    exact nofun
  unfold LoraTask.onCadBusy
  dsimp only
  split
  · split
    · cases ok with
      | true =>
        refine ⟨?_, ?_, fun _ => ⟨rfl, hack⟩, h.want, h.count, fun hp _ _ => hleft hp, h.within⟩
        · intro hr
          cases hr
        · intro hr
          cases hr
      | false => exact of_idle rfl h.want h.count (fun hp _ => hleft hp) h.within
    · exact dropped_idle rfl rfl h.within
  · exact dropped_idle rfl rfl h.within

theorem onTimeout (h : SendsLeft t) : SendsLeft t.onTimeout :=
  dropped_idle rfl rfl h.within

/-- No flag says that the radio is busy, and it is not. -/
theorem radio_none (h : SendsLeft t) (htx : t.awaitingTxDone = false)
    (hcad : t.awaitingCad = false) : t.radio = none := by
  match hr : t.radio with
  | none => rfl
  | some (.tx isAck) => exact absurd (htx.symm.trans (h.tx (by rw [hr]; rfl))) Bool.false_ne_true
  | some .cad => exact absurd (hcad.symm.trans (h.cad hr).1) Bool.false_ne_true

theorem sendAck (h : SendsLeft t) (ok : Bool) : SendsLeft (t.sendAck ok) := by
  unfold LoraTask.sendAck
  split
  · next hc =>
    simp only [Bool.and_eq_true, Bool.not_eq_true'] at hc
    exact h.transmitAckNow (h.radio_none hc.1.2 hc.2) ok
  · exact h

theorem resolveAck (h : SendsLeft t) (now : UInt64) (ok : Bool) :
    SendsLeft (t.resolveAck now ok) := by
  unfold LoraTask.resolveAck
  split
  · next hwait =>
    simp only [Bool.and_eq_true] at hwait
    -- a frame whose ack is awaited asked for one, so it has `ARQ_TRIES` sends
    have htries : t.pending.tries = arqTries := by
      rw [LoraFrame.tries, if_pos (h.want hwait.1 hwait.2)]
    have hcad : t.radio ≠ some .cad := fun hr =>
      absurd ((h.cad hr).2.symm.trans hwait.1) Bool.false_ne_true
    split
    · exact dropped rfl h.tx h.ackTx (fun hr => absurd hr hcad) h.within
    · split
      · dsimp only
        split
        · next hsends =>
          have hleft : t.arqSends < t.pending.tries := by rw [htries]; exact hsends
          apply armCad
          · refine ⟨h.tx, h.ackTx, fun hr => absurd hr hcad, ?_, h.count, ?_, h.within⟩
            · intro hw
              cases hw
            · exact fun _ _ _ => hleft
          · rfl
          · exact fun _ => hleft
        · exact dropped rfl h.tx h.ackTx (fun hr => absurd hr hcad) h.within
      · exact h
  · exact h

theorem rearmPending (h : SendsLeft t) (ok : Bool) : SendsLeft (t.rearmPending ok) := by
  unfold LoraTask.rearmPending
  split
  · next hc =>
    simp only [Bool.and_eq_true, Bool.not_eq_true'] at hc
    refine h.armCad hc.2 (fun hp => h.left hp hc.2 ?_) ok
    rw [h.radio_none hc.1.2 hc.1.1.2]
    exact nofun
  · exact h

theorem nextBatch (h : SendsLeft t) : SendsLeft t.nextBatch := by
  obtain ⟨haveBatch, queue, batch, idx, heq⟩ := t.nextBatch_eq
  rw [heq]
  exact ⟨h.tx, h.ackTx, h.cad, h.want, h.count, h.left, h.within⟩

theorem tries_pos (f : LoraFrame) : 0 < f.tries := by
  unfold LoraFrame.tries arqTries
  split <;> omega

/-- A new frame starts with no sends. -/
theorem nextFrame (h : SendsLeft t) (ok : Bool) : SendsLeft (t.nextFrame ok) := by
  unfold LoraTask.nextFrame
  split
  · next hc =>
    simp only [Bool.and_eq_true, Bool.not_eq_true'] at hc
    have hb := h.nextBatch
    have hack : t.nextBatch.awaitingAck = false := LoraTask.awaitingAck_nextBatch.trans hc.2
    have hidle : t.nextBatch.radio = none :=
      LoraTask.radio_nextBatch.trans (h.radio_none hc.1.1.2 hc.1.2)
    dsimp only
    split
    · split
      · exact hb
      · next frame idx hnext =>
        have hwithin : WithinTries (.produced frame :: t.nextBatch.log) := by
          intro p hmem
          rcases List.mem_cons.mp hmem with rfl | hmem
          · exact Nat.zero_le _
          · exact hb.within p hmem
        apply armCad
        · apply of_idle
          · exact hidle
          · intro hw
            exact absurd (hack.symm.trans hw) Bool.false_ne_true
          · exact fun _ => ⟨sends t.nextBatch.log, rfl⟩
          · exact fun _ _ => tries_pos frame
          · exact hwithin
        · exact hack
        · exact fun _ => tries_pos frame
    · exact hb
  · exact h

end SendsLeft

/-- A `TX_DONE` of a data frame is not taken for an ack's. -/
def TaskStep.OwnTxDone (t : LoraTask) : TaskStep → Prop
  | .poll (.txDone _) => ¬ (t.radio = some (.tx false) ∧ t.txIsAck = true)
  | .poll _ | .queue _ | .blocks .. => True

/-- **One step** keeps the bound, unless it takes a data frame's `TX_DONE` for an ack's. -/
theorem SendsLeft.step {t : LoraTask} (h : SendsLeft t) (airtime : Nat → UInt64) {s : TaskStep}
    (hp : s.Possible t) (hown : s.OwnTxDone t) : SendsLeft (taskStep airtime t s) := by
  cases s with
  | queue batch => exact ⟨h.tx, h.ackTx, h.cad, h.want, h.count, h.left, h.within⟩
  | poll event =>
    cases event with
    | rxDone now frame => exact ⟨h.tx, h.ackTx, h.cad, h.want, h.count, h.left, h.within⟩
    | rxCrcError => exact h
    | txDone now => exact h.onTxDone airtime now hown
    | cadClear ok => exact h.onCadClear ok hp
    | cadBusy ok => exact h.onCadBusy ok hp
    | timeout => exact h.onTimeout
  | blocks ackOk now arqOk rearmOk frameOk =>
    exact (((h.sendAck ackOk).resolveAck now arqOk).rearmPending rearmOk).nextFrame frameOk

/-- **Sends are bounded.** In every run in which no `TX_DONE` of a data frame is taken for an
ack's, a frame that asks for an ack is handed over at most `ARQ_TRIES` times, another at most
once. -/
theorem sends_within_tries (airtime : Nat → UInt64) (srcTag : Wire.Bytes 4)
    (steps : List TaskStep)
    (hrun : Along (taskStep airtime) (fun t s => s.Possible t ∧ s.OwnTxDone t) (.init srcTag)
      steps) :
    WithinTries (final (taskStep airtime) (.init srcTag) steps).log := by
  have hstep : ∀ t s, SendsLeft t → s.Possible t ∧ s.OwnTxDone t →
      SendsLeft (taskStep airtime t s) := fun t s h hok => h.step airtime hok.1 hok.2
  exact (hrun.invariant hstep (SendsLeft.init srcTag)).within

/-- The ack for a neighbour's frame times out on the air; a packet that asks for no ack follows. -/
def staleAckRun : List TaskStep :=
  [.poll (.rxDone 0 neighbourFrame), iteration 0, .poll .timeout, .queue (oneFrame false),
    iteration 2500, .poll (.cadClear true), .poll (.txDone 3000), iteration 3000,
    .poll (.cadClear true)]

/-- `tx_is_ack` outlives the ack: the frame's `TX_DONE` is taken for it, and the frame that asked
for no ack is armed and sent again. -/
theorem frame_sent_twice :
    ¬ ∀ (airtime : Nat → UInt64) (srcTag : Wire.Bytes 4) (steps : List TaskStep),
      Along (taskStep airtime) (fun t s => s.Possible t) (.init srcTag) steps →
        WithinTries (final (taskStep airtime) (.init srcTag) steps).log := by
  intro h
  have hrun : Along (taskStep fun _ => 330) (fun t s => s.Possible t) (.init nodeTag)
      staleAckRun :=
    ⟨trivial, trivial, ⟨true, rfl⟩, trivial, trivial, rfl, ⟨false, rfl⟩, trivial, rfl, trivial⟩
  have hbad := h _ _ _ hrun (batchFrame nodeTag (oneFrame false) 0, 2) (by decide)
  exact absurd hbad (by decide)

/-- A packet that asks for an ack and is never acked is sent three times and given up. -/
def unackedRun : List TaskStep :=
  [.queue (oneFrame true), iteration 0, .poll (.cadClear true), .poll (.txDone 1000),
    iteration 3000, .poll (.cadClear true), .poll (.txDone 4000), iteration 6000,
    .poll (.cadClear true), .poll (.txDone 7000), iteration 9000]

theorem sends_within_tries_unacked :
    WithinTries (final (taskStep fun _ => 330) (.init nodeTag) unackedRun).log ∧
      sends (final (taskStep fun _ => 330) (.init nodeTag) unackedRun).log =
        [(batchFrame nodeTag (oneFrame true) 0, 3)] := by
  have hdata : ∀ t : LoraTask, t.txIsAck = false →
      ¬ (t.radio = some (.tx false) ∧ t.txIsAck = true) :=
    fun t hk h => absurd (hk.symm.trans h.2) Bool.false_ne_true
  refine ⟨sends_within_tries _ _ _ ?_, by decide⟩
  exact ⟨⟨trivial, trivial⟩, ⟨trivial, trivial⟩, ⟨rfl, trivial⟩, ⟨⟨false, rfl⟩, hdata _ rfl⟩,
    ⟨trivial, trivial⟩, ⟨rfl, trivial⟩, ⟨⟨false, rfl⟩, hdata _ rfl⟩, ⟨trivial, trivial⟩,
    ⟨rfl, trivial⟩, ⟨⟨false, rfl⟩, hdata _ rfl⟩, ⟨trivial, trivial⟩, trivial⟩

end Bitle
