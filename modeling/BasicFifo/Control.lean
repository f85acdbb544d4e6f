import BasicFifo.Depth

/-!
# BasicFifo.Control

The control and status blocks at the configured depth: the results of `Depth` at
`fdepth`, and what `F_EmptyN` tells at any fill level.

The layout is the same for every result that follows:

* a *sync* relation between the registers and the request history, kept by the
  good steps (`InSync.next`, `InStep.next`);
* what the remaining steps do to the registers (`InSync.read_next`,
  `InSync.readWrite_next`, `InStep.next_breaks`);
* `Run.forall_run_iff`, which turns the two into an exact condition on runs.
-/

namespace BasicFifo

open FourState

/-! ## `F_EmptyN` and the latest request -/

/-- `F_FirstN` is asserted while `F_EmptyN` is not. -/
def FirstShown (r : Regs) : Prop := (r.fEmptyN && r.fFirstN) = false

/-- Whether the latest request since a clear, idle cycles aside, asserted
`FInN`. -/
def FifoOp.fresh (b : Bool) : FifoOp → Bool
  | .clear | .clearRead | .clearWrite | .clearReadWrite => false
  | .idle => b
  | .write | .readWrite => true
  | .read => false

theorem firstShown_reset : FirstShown Regs.reset := rfl

theorem FirstShown.next {r : Regs} (h : FirstShown r) (i : Req) : FirstShown (r.next true i) := by
  obtain ⟨o, rfl⟩ := i.exists_op
  cases o with
  | clear | clearRead | clearWrite | clearReadWrite =>
      rw [Regs.next_clear _ _ rfl]
      exact firstShown_reset
  | idle => rw [Regs.next_idle]; exact h
  | write => rw [Regs.next_write, FirstShown, Bool.true_and]; exact h
  | read => rw [Regs.next_read, FirstShown, Bool.and_comm r.fFirstN, h, Bool.false_and]
  | readWrite => rw [Regs.next_readWrite, FirstShown, Bool.true_and]; exact h

/-- `F_EmptyN` tells only whether the latest request was a write: every write
deasserts it and every read asserts it, at any fill level. -/
theorem FirstShown.fEmptyN_next {r : Regs} (h : FirstShown r) (i : Req) :
    (r.next true i).fEmptyN = i.op.fresh r.fEmptyN := by
  obtain ⟨o, rfl⟩ := i.exists_op
  rw [FifoOp.op_req]
  cases o with
  | clear | clearRead | clearWrite | clearReadWrite => rw [Regs.next_clear _ _ rfl]; rfl
  | idle => rw [Regs.next_idle]; rfl
  | write => rw [Regs.next_write]; rfl
  | read => rw [Regs.next_read, Bool.and_comm]; exact h
  | readWrite => rw [Regs.next_readWrite]; rfl

/-! ## registers in sync with a fill level -/

/-- The registers show fill level `n`. -/
abbrev InSync (n : Nat) (r : Regs) : Prop := InSyncAt fdepth n r

theorem inSync_reset : InSync 0 Regs.reset := inSyncAt_reset (by decide)

/-- The operations the counter and the flags agree on at fill level `n`: no
read with a second word stored, no simultaneous request on an empty or a full
FIFO. -/
def Steady (n : Nat) (o : FifoOp) : Prop := SteadyAt fdepth n o

instance : Decidable (Steady n o) := inferInstanceAs (Decidable (SteadyAt fdepth n o))

section
variable {n : Nat} {r : Regs} (h : InSync n r)
include h

theorem InSync.write : InSync (FifoOp.write.level n) (r.next true FifoOp.write.req) :=
  InSyncAt.write h (by decide) (by decide)

theorem InSync.read (hn : n ≤ 1) : InSync (FifoOp.read.level n) (r.next true FifoOp.read.req) :=
  InSyncAt.read h (by decide) hn

theorem InSync.readWrite (hn : 1 ≤ n ∧ n < 4) : InSync n (r.next true FifoOp.readWrite.req) :=
  InSyncAt.readWrite h hn

theorem InSync.next (i : Req) (hi : Steady n i.op) : InSync (i.op.level n) (r.next true i) :=
  InSyncAt.next h (by decide) (by decide) i hi

theorem InSync.read_next (hn : 2 ≤ n) :
    (r.next true FifoOp.read.req).fEmptyN = false ∧
      (r.next true FifoOp.read.req).fcounter = BitVec.ofNat fwidth n - 1 :=
  InSyncAt.read_next h hn

theorem InSync.readWrite_next :
    (r.next true FifoOp.readWrite.req).fEmptyN = true ∧
      (r.next true FifoOp.readWrite.req).fFullN = true ∧
      (r.next true FifoOp.readWrite.req).fcounter = BitVec.ofNat fwidth n :=
  InSyncAt.readWrite_next h

end

/-! ## the model on monitored transactions -/

/-- The model takes the monitored cycles with their data in two states. -/
theorem map_cleared_monitored (s : Fifo Word) (cs : List (Cycle Word)) :
    (s.monitored cs).map TransFifo.cleared = cs.map (Cycle.map LogicVec.toBits) := by
  induction cs generalizing s with
  | nil => rfl
  | cons c cs ih =>
      rw [Fifo.monitored, List.map_cons, List.map_cons, ih]
      rfl

/-- The model's queue follows the fill level of the monitored cycles. -/
theorem length_modelQ_monitored (s : Fifo Word) (cs : List (Cycle Word)) :
    (FifoModel.new.observe (s.monitored cs)).modelQ.length = stored cs := by
  rw [FifoModel.observe, FifoModel.length_modelQ_observeAt, map_cleared_monitored]
  exact stored_map LogicVec.toBits cs

/-- The flags `predict` returns for the next cycle are the table row of the
fill level after it. -/
theorem flags_predict_monitored (s : Fifo Word) (cs : List (Cycle Word)) (c : Cycle Word) :
    ((FifoModel.new.observe (s.monitored cs)).predict
      (.capture true c (s.run (cs ++ [c])).outs)).2.flags =
        (Flags.row (stored (cs ++ [c]))).logic := by
  rw [FifoModel.flags_predict, ← FifoModel.observe_concat, ← Fifo.monitored_concat,
    length_modelQ_monitored]

/-! ## flags against the model -/

/-- The operations after which flags and model agree at fill level `n`: no read
with a word stored, no simultaneous request on an empty or a full FIFO. -/
def Predicted (n : Nat) (o : FifoOp) : Prop := PredictedAt fdepth n o

theorem Predicted.steady {n : Nat} {o : FifoOp} (h : Predicted n o) : Steady n o :=
  PredictedAt.steady h

section
variable {n : Nat} {r : Regs} (h : InSync n r)
include h

theorem InSync.next_row (hr : r.toFlags = Flags.row n) (i : Req) (hi : Predicted n i.op) :
    (r.next true i).toFlags = Flags.row (i.op.level n) := by
  rw [← Flags.rowAt_fdepth] at hr ⊢
  exact InSyncAt.next_rowAt h (by decide) (by decide) hr i hi

theorem InSync.next_ne_row (i : Req) (hi : ¬ Predicted n i.op) :
    (r.next true i).toFlags ≠ Flags.row (i.op.level n) := by
  rw [← Flags.rowAt_fdepth]
  exact InSyncAt.next_ne_rowAt h i hi

end

end BasicFifo
