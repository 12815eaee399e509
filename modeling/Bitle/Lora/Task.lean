import Bitle.Lora.Fragment

/-!
# Bitle — the radio task (`lora_task` of `main/bitle_lora.c`)

One task owns the radio. An iteration first handles every event `sx1262_poll_event` returns, then
runs four blocks: send a queued ack, resolve the wait for an ack, re-arm a stranded frame, take the
next frame. `TaskStep.poll` is one round of the poll loop and `TaskStep.blocks` the rest of an
iteration, so a list of steps is a run of the task; other tasks queue batches in between.

The radio does one thing at a time: `radio` is the operation that was started last and whose
completion has not been polled yet. `sx1262_start_cad` and `sx1262_transmit` force standby, so they
cancel it. The calls of the task are logged, newest first, each with what it cancelled.

The frame airtime (floating point) is a parameter. `sx1262_resume_rx` starts nothing that the task
waits for and is left out.
-/

namespace Bitle

open Wire

def arqTries : Nat := 3
def arqMarginMs : UInt64 := 1200
def cadRetries : Nat := 5

/-- An operation of the radio with a completion event; a transmission carries an ack or data. -/
inductive RadioOp where
  | cad
  | tx (isAck : Bool)
  deriving DecidableEq

/-- What the task did: `batch_next_frame` produced a frame, or a radio call, with the operation it
found outstanding. -/
inductive TaskCall where
  | produced (frame : LoraFrame)
  | startCad (outstanding : Option RadioOp)
  | transmitAck (outstanding : Option RadioOp)
  | transmitData (outstanding : Option RadioOp)
  deriving DecidableEq

/-- The locals of `lora_task` and the statics it works on. -/
structure LoraTask where
  batch : LoraBatch
  haveBatch : Bool := false
  batchNextIdx : Nat := 0
  pending : LoraFrame
  havePending : Bool := false
  cadTries : Nat := 0
  arqSends : Nat := 0
  awaitingTxDone : Bool := false
  txIsAck : Bool := false
  awaitingCad : Bool := false
  awaitingAck : Bool := false
  ackDeadline : UInt64 := 0
  receiver : Receiver
  queue : List LoraBatch := []
  radio : Option RadioOp := none
  log : List TaskCall := []

/-- The task as it starts; `batch` and `pending` are not read before they are written. -/
def LoraTask.init (srcTag : Bytes 4) : LoraTask where
  batch := ⟨0, 0, false, []⟩
  pending := ⟨false, []⟩
  receiver := .init srcTag

namespace LoraTask

/-! ## Radio calls -/

/-- `sx1262_start_cad`; `ok` is its result. -/
def startCad (t : LoraTask) (ok : Bool) : LoraTask :=
  { t with log := .startCad t.radio :: t.log, radio := if ok then some .cad else none }

/-- Listen before the pending frame is sent; without a CAD the frame and its batch are given up. -/
def armCad (t : LoraTask) (ok : Bool) : LoraTask :=
  let t := t.startCad ok
  if ok then { t with awaitingCad := true } else { t with havePending := false, haveBatch := false }

/-- `transmit_ack_now`, with the result of `sx1262_transmit`; nothing without an ack queued. -/
def transmitAckNow (t : LoraTask) (ok : Bool) : LoraTask :=
  match t.receiver.ackOutbox with
  | [] => t
  | _ :: outbox =>
    let t := { t with receiver := { t.receiver with ackOutbox := outbox }
                      log := .transmitAck t.radio :: t.log }
    if ok then { t with radio := some (.tx true), awaitingTxDone := true, txIsAck := true }
    else { t with radio := none }

/-- `sx1262_transmit` of the pending frame. -/
def transmitData (t : LoraTask) (ok : Bool) : LoraTask :=
  { t with log := .transmitData t.radio :: t.log, radio := if ok then some (.tx false) else none }

/-! ## Events -/

/-- `SX1262_EVT_RX_DONE`. -/
def onRxDone (t : LoraTask) (now : UInt64) (frame : List UInt8) : LoraTask :=
  { t with receiver := (rxFrame now t.receiver frame).1 }

/-- `SX1262_EVT_TX_DONE`. -/
def onTxDone (airtime : Nat → UInt64) (t : LoraTask) (now : UInt64) : LoraTask :=
  let t := { t with radio := none, awaitingTxDone := false }
  if t.txIsAck then
    let t := { t with txIsAck := false }
    if t.awaitingAck then { t with ackDeadline := t.ackDeadline + airtime trunkHdrLen + 300 } else t
  else if t.havePending && t.pending.wantAck then
    { t with awaitingAck := true, ackDeadline := now + airtime trunkHdrLen + arqMarginMs }
  else { t with havePending := false }

/-- `SX1262_EVT_CAD_CLEAR`: acks preempt data. -/
def onCadClear (t : LoraTask) (ok : Bool) : LoraTask :=
  let t := { t with radio := none, awaitingCad := false }
  if t.receiver.ackOutbox.length > 0 then t.transmitAckNow ok
  else if t.havePending then
    let t := t.transmitData ok
    if ok then { t with awaitingTxDone := true, arqSends := t.arqSends + 1 }
    else { t with havePending := false, haveBatch := false }
  else t

/-- `SX1262_EVT_CAD_BUSY`: `have_pending && ++cad_tries <= CAD_RETRIES`, so the counter moves only
with a frame pending. -/
def onCadBusy (t : LoraTask) (ok : Bool) : LoraTask :=
  let t := { t with radio := none, awaitingCad := false }
  if t.havePending then
    let t := { t with cadTries := t.cadTries + 1 }
    if t.cadTries ≤ cadRetries then
      let t := t.startCad ok
      if ok then { t with awaitingCad := true } else t
    else { t with havePending := false, haveBatch := false }
  else { t with havePending := false, haveBatch := false }

/-- `SX1262_EVT_TIMEOUT`. -/
def onTimeout (t : LoraTask) : LoraTask :=
  { t with radio := none, awaitingTxDone := false, havePending := false, haveBatch := false
           awaitingAck := false }

/-! ## The blocks behind the poll loop -/

/-- Acks fly the moment the radio is free. -/
def sendAck (t : LoraTask) (ok : Bool) : LoraTask :=
  if t.receiver.ackOutbox.length > 0 && !t.awaitingTxDone && !t.awaitingCad then t.transmitAckNow ok
  else t

/-- The awaited ack has been seen. -/
def acked (t : LoraTask) : Bool :=
  t.receiver.ackSeen && t.receiver.ackSeq == (beNat ((t.pending.data.drop 12).take 2)).toUInt16 &&
    t.receiver.ackIdx == byteAt t.pending.data 14

/-- The frame is waited for, its deadline has passed and it has sends left. -/
def retransmitDue (t : LoraTask) (now : UInt64) : Bool :=
  t.awaitingAck && t.havePending && !t.acked && now ≥ t.ackDeadline && t.arqSends < arqTries

/-- ARQ: resolve the ack wait. -/
def resolveAck (t : LoraTask) (now : UInt64) (ok : Bool) : LoraTask :=
  if t.awaitingAck && t.havePending then
    if t.acked then
      { t with receiver := { t.receiver with ackSeen := false }, awaitingAck := false
               havePending := false }
    else if now ≥ t.ackDeadline then
      let t := { t with awaitingAck := false }
      if t.arqSends < arqTries then { t with cadTries := 0 }.armCad ok
      else { t with havePending := false, haveBatch := false }
    else t
  else t

/-- Re-arm a frame that no wait state covers. -/
def rearmPending (t : LoraTask) (ok : Bool) : LoraTask :=
  if t.havePending && !t.awaitingCad && !t.awaitingTxDone && !t.awaitingAck then t.armCad ok
  else t

/-- The next batch, when the current one is through. -/
def nextBatch (t : LoraTask) : LoraTask :=
  let t := if t.haveBatch && t.batchNextIdx ≥ t.batch.total then { t with haveBatch := false } else t
  if t.haveBatch then t
  else
    match t.queue with
    | [] => t
    | b :: queue => { t with queue := queue, batch := b, haveBatch := true, batchNextIdx := 0 }

/-- Take the next frame and listen before it is sent. -/
def nextFrame (t : LoraTask) (ok : Bool) : LoraTask :=
  if !t.havePending && !t.awaitingTxDone && !t.awaitingCad && !t.awaitingAck then
    let t := t.nextBatch
    if t.haveBatch then
      match batchNextFrame t.receiver.srcTag t.batch t.batchNextIdx with
      | none => t
      | some (frame, idx) =>
        let t := { t with pending := frame, batchNextIdx := idx, havePending := true, cadTries := 0
                          arqSends := 0, receiver := { t.receiver with ackSeen := false }
                          log := .produced frame :: t.log }
        t.armCad ok
    else t
  else t

end LoraTask

/-! ## Runs -/

/-- A polled event, with the clock or the result of the radio call its handler uses. -/
inductive RadioEvent where
  | rxDone (now : UInt64) (frame : List UInt8)
  | rxCrcError
  | txDone (now : UInt64)
  | cadClear (ok : Bool)
  | cadBusy (ok : Bool)
  | timeout
  deriving DecidableEq

/-- One step of a run. -/
inductive TaskStep where
  | queue (batch : LoraBatch)
  | poll (event : RadioEvent)
  | blocks (ackOk : Bool) (now : UInt64) (arqOk rearmOk frameOk : Bool)

/-- One round of the poll loop. -/
def LoraTask.poll (airtime : Nat → UInt64) (t : LoraTask) : RadioEvent → LoraTask
  | .rxDone now frame => t.onRxDone now frame
  | .rxCrcError => t
  | .txDone now => t.onTxDone airtime now
  | .cadClear ok => t.onCadClear ok
  | .cadBusy ok => t.onCadBusy ok
  | .timeout => t.onTimeout

/-- A step of `lora_task`, or of another task that queues a batch. -/
def taskStep (airtime : Nat → UInt64) (t : LoraTask) : TaskStep → LoraTask
  | .queue batch => { t with queue := t.queue ++ [batch] }
  | .poll event => t.poll airtime event
  | .blocks ackOk now arqOk rearmOk frameOk =>
    (((t.sendAck ackOk).resolveAck now arqOk).rearmPending rearmOk).nextFrame frameOk

/-- The radio reports a completion only of what it is doing; a transmission ends or times out. -/
def RadioEvent.Possible (radio : Option RadioOp) : RadioEvent → Prop
  | .rxDone _ _ | .rxCrcError => True
  | .txDone _ | .timeout => ∃ isAck, radio = some (.tx isAck)
  | .cadClear _ | .cadBusy _ => radio = some .cad

/-- The step is one the radio allows. -/
def TaskStep.Possible (t : LoraTask) : TaskStep → Prop
  | .poll event => event.Possible t.radio
  | .queue _ | .blocks .. => True

end Bitle
