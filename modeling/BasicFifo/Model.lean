import BasicFifo.Trans

/-!
# BasicFifo.Model

The reference model `fifo_model` and what it means.

`predict` is the queue of `BoundedQueue` under the operation of the observed
transaction (`modelQ_observe`), and the flags it returns are the row of the
flag table for the fill level it reaches (`flags_predict`).  The fill level
itself moves by the controls alone (`stored`).

`FIFO_DEPTH` is a parameter of the definitions that mention it; those without
`At` in their names are the ones at its value.
-/

namespace BasicFifo

open FourState BoundedQueue

/-! ## the model -/

/-- The state of `fifo_model`. -/
structure FifoModel where
  modelQ : List Bits
  dataValid : Bool
deriving DecidableEq, Repr

namespace FifoModel

/-- `FIFO_DEPTH` of the model. -/
abbrev fifoDepth : Nat := 4

/-- `new()`. -/
def new : FifoModel := ⟨[], false⟩

/-- The queue update of `predict`, with `FIFO_DEPTH` set to `depth`. -/
def updateQAt (depth : Nat) (modelQ : List Bits) (actual : TransFifo) : List Bits :=
  let writeReq := !actual.fInN
  let readReq := !actual.fOutN
  if !actual.rstN || !actual.fClrN then []
  else
    match writeReq, readReq with
    | true, false =>
        if modelQ.length < depth then modelQ ++ [actual.dataIn] else modelQ
    | false, true =>
        if modelQ.length > 0 then modelQ.tail else modelQ
    | true, true =>
        if modelQ.length > 0 then modelQ.tail ++ [actual.dataIn] else modelQ
    | false, false => modelQ

/-- `predict` with `FIFO_DEPTH` set to `depth`: the new model state and the
expected transaction. -/
def predictAt (depth : Nat) (m : FifoModel) (actual : TransFifo) : FifoModel × TransFifo :=
  let modelQ := updateQAt depth m.modelQ actual
  let occupancy := modelQ.length
  let dataValid := decide (occupancy > 0)
  ({ modelQ, dataValid },
    { TransFifo.new with
      fEmptyN := .ofBool (occupancy != 0)
      fFirstN := .ofBool (decide (occupancy < 1))
      fSLastN := .ofBool (occupancy != depth - 2)
      fLastN := .ofBool (occupancy != depth - 1)
      fFullN := .ofBool (occupancy != depth)
      fData := if dataValid then .ofBits (modelQ.headD 0) else HasX.x })

/-- The model of that depth after a list of transactions. -/
def observeAt (depth : Nat) (m : FifoModel) (ts : List TransFifo) : FifoModel :=
  Run.run (fun m t => (m.predictAt depth t).1) m ts

@[simp] theorem observeAt_concat (depth : Nat) (m : FifoModel) (ts : List TransFifo)
    (t : TransFifo) :
    m.observeAt depth (ts ++ [t]) = ((m.observeAt depth ts).predictAt depth t).1 :=
  Run.run_concat ts t

/-- `predict` as the model is configured. -/
def predict (m : FifoModel) (actual : TransFifo) : FifoModel × TransFifo :=
  m.predictAt fifoDepth actual

/-- The model after a list of transactions. -/
def observe (m : FifoModel) (ts : List TransFifo) : FifoModel := m.observeAt fifoDepth ts

@[simp] theorem observe_concat (m : FifoModel) (ts : List TransFifo) (t : TransFifo) :
    m.observe (ts ++ [t]) = ((m.observe ts).predict t).1 := observeAt_concat fifoDepth m ts t

end FifoModel

/-! ## the flag table -/

/-- The README's flag table, occupancies 0 to 4.  No queue reaches the
occupancies beyond it. -/
def Flags.row : Nat → Flags
  | 0 => ⟨false, true, true, true, true⟩
  | 1 => ⟨true, false, true, true, true⟩
  | 2 => ⟨true, false, false, true, true⟩
  | 3 => ⟨true, false, true, false, true⟩
  | 4 => ⟨true, false, true, true, false⟩
  | _ => ⟨true, false, true, true, true⟩

/-- The flags `predict` returns at an occupancy, with `FIFO_DEPTH` set to
`depth`. -/
def Flags.rowAt (depth occupancy : Nat) : Flags where
  fEmptyN := occupancy != 0
  fFirstN := decide (occupancy < 1)
  fSLastN := occupancy != depth - 2
  fLastN := occupancy != depth - 1
  fFullN := occupancy != depth

/-- The table is that of the configured depth. -/
theorem Flags.rowAt_fdepth (n : Nat) : Flags.rowAt fdepth n = Flags.row n := by
  match n with
  | 0 | 1 | 2 | 3 | 4 => rfl
  | n + 5 => simp [Flags.rowAt, Flags.row, fdepth]

/-! ## fill level -/

/-- The fill level after an operation, from the level before it, in a FIFO of
`depth` words. -/
def FifoOp.levelAt (depth n : Nat) (o : FifoOp) : Nat := (o.queueOp ()).level depth n

theorem FifoOp.levelAt_queueOp (depth : Nat) (o : FifoOp) (d : β) (n : Nat) :
    (o.queueOp d).level depth n = o.levelAt depth n := by
  cases o <;> rfl

/-- The number of words a modelled FIFO of `depth` words holds after the cycles
`cs`. -/
def storedAt (depth : Nat) (cs : List (Cycle α)) : Nat :=
  Run.run (fun n c => c.op.levelAt depth n) 0 cs

@[simp] theorem storedAt_concat (depth : Nat) (cs : List (Cycle α)) (c : Cycle α) :
    storedAt depth (cs ++ [c]) = c.op.levelAt depth (storedAt depth cs) := Run.run_concat cs c

theorem storedAt_map (depth : Nat) (f : α → β) (cs : List (Cycle α)) :
    storedAt depth (cs.map (Cycle.map f)) = storedAt depth cs :=
  Run.run_map (fun n (c : Cycle α) => c.op.levelAt depth n)
    (fun n (c : Cycle β) => c.op.levelAt depth n) id (Cycle.map f) (fun _ _ => rfl) 0 cs

/-- The same at the configured depth. -/
def FifoOp.level (n : Nat) (o : FifoOp) : Nat := o.levelAt fdepth n

@[simp] theorem FifoOp.level_write (n : Nat) :
    FifoOp.write.level n = if n < 4 then n + 1 else n := rfl

@[simp] theorem FifoOp.level_read (n : Nat) : FifoOp.read.level n = n - 1 := rfl

@[simp] theorem FifoOp.level_readWrite (n : Nat) : FifoOp.readWrite.level n = n := rfl

theorem FifoOp.level_queueOp (o : FifoOp) (d : β) (n : Nat) :
    (o.queueOp d).level fdepth n = o.level n := o.levelAt_queueOp fdepth d n

/-- The number of words the modelled FIFO holds after the cycles `cs`. -/
def stored (cs : List (Cycle α)) : Nat := storedAt fdepth cs

@[simp] theorem stored_concat (cs : List (Cycle α)) (c : Cycle α) :
    stored (cs ++ [c]) = c.op.level (stored cs) := storedAt_concat fdepth cs c

@[simp] theorem stored_map (f : α → β) (cs : List (Cycle α)) :
    stored (cs.map (Cycle.map f)) = stored cs := storedAt_map fdepth f cs

/-! ## the model refines the queue -/

/-- What a transaction asks of a queue; reset clears like `FClrN` does. -/
def TransFifo.queueOp (t : TransFifo) : Op Bits :=
  if !t.rstN then .clear else t.req.op.queueOp t.dataIn

/-- The inputs of a transaction as the model takes them: a reset is a clear. -/
def TransFifo.cleared (t : TransFifo) : Cycle Bits :=
  ⟨{ t.req with fClrN := t.rstN && t.fClrN }, t.dataIn⟩

theorem TransFifo.queueOp_eq (t : TransFifo) : t.queueOp = t.cleared.op.queueOp t.dataIn := by
  obtain ⟨clr, inn, out, rst, d, _⟩ := t
  cases rst <;> cases clr <;> cases inn <;> cases out <;> rfl

/-- The history of a stream of transactions: what was accepted since the last
clear or reset, and how much of it was popped. -/
def history (ts : List TransFifo) : Log Bits fdepth :=
  Log.history (ts.map TransFifo.queueOp)

namespace FifoModel

theorem updateQAt_eq (q : Queue Bits depth) (t : TransFifo) :
    updateQAt depth q.items t = (q.step t.queueOp).items := by
  obtain ⟨clr, inn, out, rst, d, _⟩ := t
  cases rst with
  | false => rfl
  | true =>
      cases clr <;> cases inn <;> cases out <;>
        simp [updateQAt, TransFifo.queueOp, TransFifo.req, Req.op, FifoOp.queueOp]
      -- a read on an empty queue: the tail of nothing is nothing
      intro hnil
      rw [hnil, List.tail_nil]

/-- **Model refinement**: the model's queue is the bounded queue under the
operations of the observed transactions, at any depth. -/
theorem modelQ_observeAt (depth : Nat) (ts : List TransFifo) :
    (new.observeAt depth ts).modelQ =
      (Run.run Queue.step (Queue.empty : Queue Bits depth) (ts.map TransFifo.queueOp)).items := by
  induction ts using List.reverseRecOn with
  | nil => rfl
  | append_singleton ts t ih =>
      rw [observeAt_concat, List.map_append, List.map_singleton, Run.run_concat, ← updateQAt_eq,
        ← ih]
      rfl

theorem modelQ_observe (ts : List TransFifo) :
    (new.observe ts).modelQ = (history ts).queue.items := by
  rw [history, Log.queue_history]
  exact modelQ_observeAt fifoDepth ts

/-- The occupancy moves by the controls alone. -/
theorem length_modelQ_observeAt (depth : Nat) (ts : List TransFifo) :
    (new.observeAt depth ts).modelQ.length = storedAt depth (ts.map TransFifo.cleared) := by
  rw [modelQ_observeAt]
  induction ts using List.reverseRecOn with
  | nil => rfl
  | append_singleton ts t ih =>
      rw [List.map_append, List.map_singleton, Run.run_concat, Queue.length_step, ih,
        TransFifo.queueOp_eq, FifoOp.levelAt_queueOp, List.map_append, List.map_singleton,
        storedAt_concat]

/-- The flags `predict` returns are the row of the occupancy it reaches. -/
theorem flags_predictAt (depth : Nat) (m : FifoModel) (t : TransFifo) :
    (m.predictAt depth t).2.flags =
      (Flags.rowAt depth (m.predictAt depth t).1.modelQ.length).logic := rfl

theorem flags_predict (m : FifoModel) (t : TransFifo) :
    (m.predict t).2.flags = (Flags.row (m.predict t).1.modelQ.length).logic := by
  rw [← Flags.rowAt_fdepth]
  exact flags_predictAt fifoDepth m t

end FifoModel

end BasicFifo
