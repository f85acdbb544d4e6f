import BasicFifo.Lib.FourState
import BasicFifo.Lib.BoundedQueue
import Mathlib.Algebra.Group.Nat.Defs

/-!
# BasicFifo.Trans

What passes between the parts of the environment: the operations of
`fifo_pkg`, the signals of `inf_fifo` and the transactions of `trans_fifo`.

Controls are driven two-state throughout; data is four-state on the wires and
two-state in a transaction's inputs.  All controls and flags are active low
and carry the source's names, so `fInN = false` is an asserted write request.
-/

namespace BasicFifo

open FourState

/-- Width of the FIFO (`FWIDTH`), of its data and of its counters alike. -/
abbrev fwidth : Nat := 32

/-- Depth of the FIFO (`FDEPTH`). -/
abbrev fdepth : Nat := 4

/-- `bit [31:0]`. -/
abbrev Bits := BitVec fwidth

/-- `logic [31:0]`. -/
abbrev Word := LogicVec fwidth

/-! ## controls and operations -/

/-- The control inputs of one clock edge. -/
structure Req where
  fClrN : Bool
  fInN : Bool
  fOutN : Bool
deriving DecidableEq, Repr

/-- The operations of `fifo_op_t`. -/
inductive FifoOp where
  | clear
  | clearRead
  | clearWrite
  | clearReadWrite
  | idle
  | write
  | read
  | readWrite
deriving DecidableEq, Repr

/-- The controls `gen_fifo.send` sets for an operation. -/
def FifoOp.req : FifoOp → Req
  | .clear => ⟨false, true, true⟩
  | .clearRead => ⟨false, true, false⟩
  | .clearWrite => ⟨false, false, true⟩
  | .clearReadWrite => ⟨false, false, false⟩
  | .idle => ⟨true, true, true⟩
  | .write => ⟨true, false, true⟩
  | .read => ⟨true, true, false⟩
  | .readWrite => ⟨true, false, false⟩

/-- The operation a set of controls asks for. -/
def Req.op : Req → FifoOp
  | ⟨false, true, true⟩ => .clear
  | ⟨false, true, false⟩ => .clearRead
  | ⟨false, false, true⟩ => .clearWrite
  | ⟨false, false, false⟩ => .clearReadWrite
  | ⟨true, true, true⟩ => .idle
  | ⟨true, false, true⟩ => .write
  | ⟨true, true, false⟩ => .read
  | ⟨true, false, false⟩ => .readWrite

/-- Operations and control settings are two names for the same thing. -/
@[simp] theorem Req.req_op (r : Req) : r.op.req = r := by
  obtain ⟨clr, inn, out⟩ := r
  cases clr <;> cases inn <;> cases out <;> rfl

@[simp] theorem FifoOp.op_req (o : FifoOp) : o.req.op = o := by
  cases o <;> rfl

theorem Req.exists_op (r : Req) : ∃ o : FifoOp, o.req = r := ⟨r.op, r.req_op⟩

/-- What an operation with data `d` asks of a queue: a clear wins over the
requests that come with it. -/
def FifoOp.queueOp (d : β) : FifoOp → BoundedQueue.Op β
  | .clear | .clearRead | .clearWrite | .clearReadWrite => .clear
  | .idle => .idle
  | .write => .push d
  | .read => .pop
  | .readWrite => .replace d

/-! ## interface signals -/

/-- The input signals of `inf_fifo` at one clock edge. -/
structure Cycle (α : Type) extends Req where
  dataIn : α
deriving DecidableEq, Repr

/-- The same cycle with its data renamed. -/
def Cycle.map (f : α → β) (c : Cycle α) : Cycle β := ⟨c.toReq, f c.dataIn⟩

/-- The cycle in which operation `o` is applied with data `d`. -/
def FifoOp.cycle (o : FifoOp) (d : Bits) : Cycle Word := ⟨o.req, .ofBits d⟩

/-! ## request counts -/

/-- Cycles that asserted `FInN`. -/
def writes (cs : List (Cycle α)) : Nat := cs.countP fun c => !c.fInN

/-- Cycles that asserted `FOutN`. -/
def reads (cs : List (Cycle α)) : Nat := cs.countP fun c => !c.fOutN

@[simp] theorem writes_nil : writes ([] : List (Cycle α)) = 0 := rfl

@[simp] theorem reads_nil : reads ([] : List (Cycle α)) = 0 := rfl

@[simp] theorem writes_concat (cs : List (Cycle α)) (c : Cycle α) :
    writes (cs ++ [c]) = writes cs + if c.fInN then 0 else 1 := by
  cases h : c.fInN <;> simp [writes, h]

@[simp] theorem reads_concat (cs : List (Cycle α)) (c : Cycle α) :
    reads (cs ++ [c]) = reads cs + if c.fOutN then 0 else 1 := by
  cases h : c.fOutN <;> simp [reads, h]

/-- The data of the cycles that asserted `FInN`, oldest first. -/
def written (cs : List (Cycle α)) : List α :=
  cs.filterMap fun c => if c.fInN then none else some c.dataIn

@[simp] theorem written_nil : written ([] : List (Cycle α)) = [] := rfl

@[simp] theorem written_concat (cs : List (Cycle α)) (c : Cycle α) :
    written (cs ++ [c]) = written cs ++ if c.fInN then [] else [c.dataIn] := by
  cases h : c.fInN <;> simp [written, h]

@[simp] theorem length_written (cs : List (Cycle α)) : (written cs).length = writes cs := by
  induction cs using List.reverseRecOn with
  | nil => rfl
  | append_singleton cs c ih => cases h : c.fInN <;> simp [h, ih]

/-! ## outputs -/

/-- The five status outputs. -/
@[ext] structure Flags where
  fEmptyN : Bool
  fFirstN : Bool
  fSLastN : Bool
  fLastN : Bool
  fFullN : Bool
deriving DecidableEq, Repr

/-- The output signals of `inf_fifo`. -/
structure Outs extends Flags where
  fData : Word
deriving DecidableEq, Repr

/-! ## transactions -/

/-- Transaction class `trans_fifo`: inputs two-state, outputs four-state. -/
structure TransFifo where
  fClrN : Bool
  fInN : Bool
  fOutN : Bool
  rstN : Bool
  dataIn : Bits
  fData : Word
  fEmptyN : Logic
  fFirstN : Logic
  fSLastN : Logic
  fLastN : Logic
  fFullN : Logic
deriving DecidableEq, Repr

namespace TransFifo

/-- `new()`: two-state fields start at `0`, four-state fields at `x`. -/
def new : TransFifo where
  fClrN := false
  fInN := false
  fOutN := false
  rstN := false
  dataIn := 0
  fData := HasX.x
  fEmptyN := .x
  fFirstN := .x
  fSLastN := .x
  fLastN := .x
  fFullN := .x

/-- The controls of a transaction. -/
def req (t : TransFifo) : Req := ⟨t.fClrN, t.fInN, t.fOutN⟩

/-- The flags of a transaction, in the order the scoreboard concatenates them. -/
def flags (t : TransFifo) : Logic × Logic × Logic × Logic × Logic :=
  (t.fEmptyN, t.fFirstN, t.fSLastN, t.fLastN, t.fFullN)

/-- One iteration of `monitor_fifo.run`: a new transaction with the inputs and
outputs sampled at a clock edge. -/
def capture (rstN : Bool) (c : Cycle Word) (o : Outs) : TransFifo where
  fClrN := c.fClrN
  fInN := c.fInN
  fOutN := c.fOutN
  rstN := rstN
  dataIn := c.dataIn.toBits
  fData := o.fData
  fEmptyN := .ofBool o.fEmptyN
  fFirstN := .ofBool o.fFirstN
  fSLastN := .ofBool o.fSLastN
  fLastN := .ofBool o.fLastN
  fFullN := .ofBool o.fFullN

end TransFifo

/-- Two-state flags as a transaction carries them. -/
def Flags.logic (f : Flags) : Logic × Logic × Logic × Logic × Logic :=
  (.ofBool f.fEmptyN, .ofBool f.fFirstN, .ofBool f.fSLastN, .ofBool f.fLastN, .ofBool f.fFullN)

theorem Flags.logic_inj {f g : Flags} : f.logic = g.logic ↔ f = g := by
  simp only [logic, Prod.mk.injEq, Logic.ofBool_inj, Flags.ext_iff]

@[simp] theorem TransFifo.flags_capture (rstN : Bool) (c : Cycle Word) (o : Outs) :
    (capture rstN c o).flags = o.toFlags.logic := rfl

end BasicFifo
