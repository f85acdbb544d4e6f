import BasicFifo.Trans

/-!
# BasicFifo.Rtl

Module `fifo` with its memory block, always block by always block.

Each block reads the registers as they stand before the event and writes its
own (all assignments are nonblocking), so a block is a function of the old
registers, the reset line and the control inputs, and an event runs all blocks
on one old state.  The registers are kept apart from the memory block: no
control block ever reads data.

The depth is a parameter of the blocks that compare with it (`Regs.nextAt`);
`Regs.next` is the module as it is configured.

The memory is generic in what a cell holds.  The design uses it at `Word`; any
other type with an unknown value traces where a word came from
(`Fifo.map_posedge`).
-/

namespace BasicFifo

open FourState

/-! ## registers -/

/-- The counters of the control block, 32-bit registers that wrap. -/
structure Counters where
  fcounter : BitVec fwidth
  rdPtr : BitVec fwidth
  wrPtr : BitVec fwidth
deriving DecidableEq, Repr

/-- All registers of module `fifo`. -/
structure Regs extends Counters, Flags
deriving DecidableEq, Repr

/-- Control circuitry: `fcounter`, `rd_ptr` and `wr_ptr`.  The pointers move on
every request; only `fcounter` looks at the flags. -/
def controlBlock (rstN : Bool) (s : Regs) (i : Req) : Counters :=
  if !rstN then ⟨0, 0, 0⟩
  else if !i.fClrN then ⟨0, 0, 0⟩
  else
    { wrPtr := if !i.fInN then s.wrPtr + 1 else s.wrPtr
      rdPtr := if !i.fOutN then s.rdPtr + 1 else s.rdPtr
      fcounter :=
        if !i.fInN && i.fOutN && s.fFullN then s.fcounter + 1
        else if i.fInN && !i.fOutN && s.fEmptyN then s.fcounter - 1
        else s.fcounter }

/-- The always block of `F_EmptyN`. -/
def emptyBlock (rstN : Bool) (s : Regs) (i : Req) : Bool :=
  if !rstN then false
  else if i.fClrN then
    if s.fEmptyN == false && i.fInN == false then true
    else if s.fFirstN == false && i.fOutN == false && i.fInN == true then false
    else s.fEmptyN
  else false

/-- The always block of `F_FirstN`; its second branch assigns the value the
register already has. -/
def firstBlock (rstN : Bool) (s : Regs) (i : Req) : Bool :=
  if !rstN then true
  else if i.fClrN then
    if (s.fEmptyN == false && i.fInN == false) ||
        (s.fcounter == 2 && i.fOutN == false && i.fInN == true) then false
    else if s.fFirstN == false && (i.fInN ^^ i.fOutN) then false
    else s.fFirstN
  else true

/-- The always block of `F_SLastN`, with `FDEPTH` set to `depth`. -/
def slastBlockAt (depth : Nat) (rstN : Bool) (s : Regs) (i : Req) : Bool :=
  if !rstN then true
  else if i.fClrN then
    if (s.fLastN == false && i.fOutN == false && i.fInN == true) ||
        (s.fcounter == BitVec.ofNat fwidth (depth - 3) && i.fInN == false && i.fOutN == true) then
      false
    else if s.fSLastN == false && (i.fOutN ^^ i.fInN) then true
    else s.fSLastN
  else true

/-- The always block of `F_LastN`, with `FDEPTH` set to `depth`. -/
def lastBlockAt (depth : Nat) (rstN : Bool) (s : Regs) (i : Req) : Bool :=
  if !rstN then true
  else if i.fClrN then
    if (s.fFullN == false && i.fOutN == false) ||
        (s.fcounter == BitVec.ofNat fwidth (depth - 2) && i.fInN == false && i.fOutN == true) then
      false
    else if s.fLastN == false && (i.fOutN ^^ i.fInN) then true
    else s.fLastN
  else true

/-- The always block of `F_FullN`. -/
def fullBlock (rstN : Bool) (s : Regs) (i : Req) : Bool :=
  if !rstN then true
  else if i.fClrN then
    if s.fLastN == false && i.fInN == false && i.fOutN == true then false
    else if s.fFullN == false && i.fOutN == false then true
    else s.fFullN
  else true

/-- All control and status blocks on one event, with `FDEPTH` set to `depth`. -/
def Regs.nextAt (depth : Nat) (rstN : Bool) (s : Regs) (i : Req) : Regs where
  toCounters := controlBlock rstN s i
  fEmptyN := emptyBlock rstN s i
  fFirstN := firstBlock rstN s i
  fSLastN := slastBlockAt depth rstN s i
  fLastN := lastBlockAt depth rstN s i
  fFullN := fullBlock rstN s i

/-- The blocks as the module is configured. -/
def Regs.next (rstN : Bool) (s : Regs) (i : Req) : Regs := s.nextAt fdepth rstN i

/-- The registers under reset. -/
def Regs.reset : Regs :=
  ⟨⟨0, 0, 0⟩, ⟨false, true, true, true, true⟩⟩

/-! ### what an edge does, operation by operation -/

section
variable (depth : Nat) (s : Regs)

/-- Every block has a reset branch, and it wins over all inputs. -/
theorem Regs.nextAt_reset (i : Req) : s.nextAt depth false i = Regs.reset := rfl

/-- Every block has a clear branch, and it does what the reset branch does. -/
theorem Regs.nextAt_clear (i : Req) (h : i.fClrN = false) :
    s.nextAt depth true i = Regs.reset := by
  simp [nextAt, controlBlock, emptyBlock, firstBlock, slastBlockAt, lastBlockAt, fullBlock, h,
    reset]

theorem Regs.nextAt_idle : s.nextAt depth true FifoOp.idle.req = s := by
  obtain ⟨⟨fc, rd, wr⟩, e, f, sl, l, u⟩ := s
  simp [nextAt, controlBlock, emptyBlock, firstBlock, slastBlockAt, lastBlockAt, fullBlock,
    FifoOp.req]

/-- Only a write compares the counter with the thresholds of the depth. -/
theorem Regs.nextAt_write :
    s.nextAt depth true FifoOp.write.req =
      { fcounter := if s.fFullN then s.fcounter + 1 else s.fcounter
        rdPtr := s.rdPtr
        wrPtr := s.wrPtr + 1
        fEmptyN := true
        fFirstN := s.fEmptyN && s.fFirstN
        fSLastN := !(s.fcounter == BitVec.ofNat fwidth (depth - 3))
        fLastN := !(s.fcounter == BitVec.ofNat fwidth (depth - 2))
        fFullN := s.fLastN && s.fFullN } := by
  obtain ⟨⟨fc, rd, wr⟩, e, f, sl, l, u⟩ := s
  simp only [nextAt, controlBlock, emptyBlock, firstBlock, slastBlockAt, lastBlockAt, fullBlock,
    FifoOp.req]
  cases e <;> cases f <;> cases sl <;> cases l <;> cases u <;>
    cases fc == BitVec.ofNat fwidth (depth - 3) <;>
    cases fc == BitVec.ofNat fwidth (depth - 2) <;> simp

theorem Regs.nextAt_read :
    s.nextAt depth true FifoOp.read.req =
      { fcounter := if s.fEmptyN then s.fcounter - 1 else s.fcounter
        rdPtr := s.rdPtr + 1
        wrPtr := s.wrPtr
        fEmptyN := s.fFirstN && s.fEmptyN
        fFirstN := !(s.fcounter == 2) && s.fFirstN
        fSLastN := s.fLastN
        fLastN := s.fFullN
        fFullN := true } := by
  obtain ⟨⟨fc, rd, wr⟩, e, f, sl, l, u⟩ := s
  simp only [nextAt, controlBlock, emptyBlock, firstBlock, slastBlockAt, lastBlockAt, fullBlock,
    FifoOp.req]
  cases e <;> cases f <;> cases sl <;> cases l <;> cases u <;> cases fc == 2 <;> simp

theorem Regs.nextAt_readWrite :
    s.nextAt depth true FifoOp.readWrite.req =
      { fcounter := s.fcounter
        rdPtr := s.rdPtr + 1
        wrPtr := s.wrPtr + 1
        fEmptyN := true
        fFirstN := s.fEmptyN && s.fFirstN
        fSLastN := s.fSLastN
        fLastN := s.fFullN && s.fLastN
        fFullN := true } := by
  obtain ⟨⟨fc, rd, wr⟩, e, f, sl, l, u⟩ := s
  cases e <;> cases f <;> cases sl <;> cases l <;> cases u <;>
    simp [nextAt, controlBlock, emptyBlock, firstBlock, slastBlockAt, lastBlockAt, fullBlock,
      FifoOp.req]

end

/-! ### the same at the configured depth -/

section
variable (s : Regs)

theorem Regs.next_reset (i : Req) : s.next false i = Regs.reset := s.nextAt_reset fdepth i

theorem Regs.next_clear (i : Req) (h : i.fClrN = false) : s.next true i = Regs.reset :=
  s.nextAt_clear fdepth i h

theorem Regs.next_idle : s.next true FifoOp.idle.req = s := s.nextAt_idle fdepth

theorem Regs.next_write :
    s.next true FifoOp.write.req =
      { fcounter := if s.fFullN then s.fcounter + 1 else s.fcounter
        rdPtr := s.rdPtr
        wrPtr := s.wrPtr + 1
        fEmptyN := true
        fFirstN := s.fEmptyN && s.fFirstN
        fSLastN := !(s.fcounter == 1)
        fLastN := !(s.fcounter == 2)
        fFullN := s.fLastN && s.fFullN } := s.nextAt_write fdepth

theorem Regs.next_read :
    s.next true FifoOp.read.req =
      { fcounter := if s.fEmptyN then s.fcounter - 1 else s.fcounter
        rdPtr := s.rdPtr + 1
        wrPtr := s.wrPtr
        fEmptyN := s.fFirstN && s.fEmptyN
        fFirstN := !(s.fcounter == 2) && s.fFirstN
        fSLastN := s.fLastN
        fLastN := s.fFullN
        fFullN := true } := s.nextAt_read fdepth

theorem Regs.next_readWrite :
    s.next true FifoOp.readWrite.req =
      { fcounter := s.fcounter
        rdPtr := s.rdPtr + 1
        wrPtr := s.wrPtr + 1
        fEmptyN := true
        fFirstN := s.fEmptyN && s.fFirstN
        fSLastN := s.fSLastN
        fLastN := s.fFullN && s.fLastN
        fFullN := true } := s.nextAt_readWrite fdepth

end

/-! ## memory block -/

/-- The contents of `FIFO_MEM_BLK`: `reg FIFO[0:FDEPTH-1]`. -/
structure FifoMemBlk (α : Type) where
  fifo : Fin fdepth → α

namespace FifoMemBlk

/-- `assign data_out = FIFO[rd_addr]`: an address beyond the array reads `x`. -/
def dataOut [HasX α] (m : FifoMemBlk α) (rdAddr : BitVec fwidth) : α :=
  if h : rdAddr.toNat < fdepth then m.fifo ⟨rdAddr.toNat, h⟩ else HasX.x

/-- The write at a rising edge: an address beyond the array selects no cell. -/
def posedge (m : FifoMemBlk α) (writeN : Bool) (wrAddr : BitVec fwidth) (dataIn : α) :
    FifoMemBlk α :=
  if writeN == false then
    ⟨fun i => if (i : Nat) = wrAddr.toNat then dataIn else m.fifo i⟩
  else m

/-- The memory block with its cells renamed. -/
def map (f : α → β) (m : FifoMemBlk α) : FifoMemBlk β := ⟨fun i => f (m.fifo i)⟩

theorem dataOut_of_lt [HasX α] (m : FifoMemBlk α) {a : BitVec fwidth} (h : a.toNat < fdepth) :
    m.dataOut a = m.fifo ⟨a.toNat, h⟩ := dif_pos h

theorem dataOut_of_ge [HasX α] (m : FifoMemBlk α) {a : BitVec fwidth} (h : fdepth ≤ a.toNat) :
    m.dataOut a = HasX.x := dif_neg (Nat.not_lt.mpr h)

@[simp] theorem posedge_idle (m : FifoMemBlk α) (a : BitVec fwidth) (d : α) :
    m.posedge true a d = m := rfl

theorem fifo_posedge_write (m : FifoMemBlk α) (a : BitVec fwidth) (d : α) (i : Fin fdepth) :
    (m.posedge false a d).fifo i = if (i : Nat) = a.toNat then d else m.fifo i := rfl

theorem map_posedge (f : α → β) (m : FifoMemBlk α) (writeN : Bool) (a : BitVec fwidth) (d : α) :
    (m.map f).posedge writeN a (f d) = (m.posedge writeN a d).map f := by
  cases writeN with
  | true => rfl
  | false =>
      simp only [posedge, map, beq_self_eq_true, if_true, FifoMemBlk.mk.injEq]
      funext i
      split <;> rfl

theorem map_dataOut [HasX α] [HasX β] (f : α → β) (hx : f HasX.x = HasX.x)
    (m : FifoMemBlk α) (a : BitVec fwidth) : (m.map f).dataOut a = f (m.dataOut a) := by
  simp only [dataOut, map]
  split
  · rfl
  · exact hx.symm

end FifoMemBlk

/-! ## the module -/

/-- Module `fifo`: its registers and the instance `memblk`. -/
structure Fifo (α : Type) extends Regs where
  memblk : FifoMemBlk α

namespace Fifo

/-- `@(posedge Clk)`: every always block of both modules runs.  The memory
block has no reset: it writes whenever `FInN` is asserted. -/
def posedge (rstN : Bool) (s : Fifo α) (c : Cycle α) : Fifo α where
  toRegs := s.toRegs.next rstN c.toReq
  memblk := s.memblk.posedge c.fInN s.wrPtr c.dataIn

/-- `@(negedge RstN)`: the control and status blocks run with `RstN` low. -/
def negedgeRstN (s : Fifo α) (i : Req) : Fifo α where
  toRegs := s.toRegs.next false i
  memblk := s.memblk

/-- Assertion and release of `RstN`: the falling edge with inputs `i` applied,
then the clock edges `held` that pass before the release. -/
def assertReset (s : Fifo α) (i : Req) (held : List (Cycle α)) : Fifo α :=
  Run.run (posedge false) (s.negedgeRstN i) held

/-- One clock cycle out of reset. -/
def step (s : Fifo α) (c : Cycle α) : Fifo α := s.posedge true c

/-- The clock cycles `cs` out of reset. -/
def run (s : Fifo α) (cs : List (Cycle α)) : Fifo α := Run.run step s cs

/-- `assign F_Data = FIFODataOut`. -/
def fData [HasX α] (s : Fifo α) : α := s.memblk.dataOut s.rdPtr

/-- The output signals. -/
def outs (s : Fifo Word) : Outs := ⟨s.toFlags, s.fData⟩

/-- The state under reset at power-up, no memory cell ever written. -/
def powerUp [HasX α] : Fifo α := ⟨Regs.reset, ⟨fun _ => HasX.x⟩⟩

/-- The states of module `fifo`: from power-up through any clock edges, with
`RstN` high or low, and any falling edges of `RstN`. -/
inductive Reachable [HasX α] : Fifo α → Prop where
  | powerUp : Reachable powerUp
  | posedge {s} (rstN : Bool) (c : Cycle α) : Reachable s → Reachable (s.posedge rstN c)
  | negedgeRstN {s} (i : Req) : Reachable s → Reachable (s.negedgeRstN i)

/-- The module with its data renamed. -/
def map (f : α → β) (s : Fifo α) : Fifo β := ⟨s.toRegs, s.memblk.map f⟩

/-! ### equations -/

@[simp] theorem toRegs_step (s : Fifo α) (c : Cycle α) :
    (s.step c).toRegs = s.toRegs.next true c.toReq := rfl

@[simp] theorem memblk_step (s : Fifo α) (c : Cycle α) :
    (s.step c).memblk = s.memblk.posedge c.fInN s.wrPtr c.dataIn := rfl

/-- What a clock edge does to the memory, a clear or not: a write goes to the
cell under the old pointer. -/
theorem fifo_step (s : Fifo α) (c : Cycle α) (i : Fin fdepth) :
    (s.step c).memblk.fifo i =
      if c.fInN = false ∧ s.wrPtr.toNat = i then c.dataIn else s.memblk.fifo i := by
  rw [memblk_step]
  cases c.fInN with
  | true => simp
  | false => simp [FifoMemBlk.fifo_posedge_write, eq_comm]

/-- An idle cycle changes nothing. -/
theorem step_idle (s : Fifo α) (c : Cycle α) (hc : c.toReq = FifoOp.idle.req) : s.step c = s := by
  have hin : c.fInN = true := by rw [hc]; rfl
  obtain ⟨r, m⟩ := s
  rw [step, posedge, hin, hc, Regs.next_idle, FifoMemBlk.posedge_idle]

@[simp] theorem run_concat (s : Fifo α) (cs : List (Cycle α)) (c : Cycle α) :
    s.run (cs ++ [c]) = (s.run cs).step c := Run.run_concat cs c

/-- The registers run on the requests alone. -/
theorem toRegs_run (s : Fifo α) (cs : List (Cycle α)) :
    (s.run cs).toRegs = Run.run (Regs.next true) s.toRegs (cs.map Cycle.toReq) :=
  (Run.run_map step (Regs.next true) toRegs Cycle.toReq (fun _ _ => rfl) s cs).symm

/-- What the reset registers satisfy and every clock edge keeps holds of the
registers after every run out of a reset. -/
theorem toRegs_run_induct {P : Regs → Prop} (h0 : P Regs.reset)
    (hstep : ∀ r i, P r → P (r.next true i)) {t : Fifo α} (ht : t.toRegs = Regs.reset)
    (cs : List (Cycle α)) : P (t.run cs).toRegs :=
  Run.run_induct step t (fun _ u => P u.toRegs) (ht ▸ h0) (fun _ _ c h => hstep _ c.toReq h) cs

/-- Whatever passes while it is held, a reset ends in the reset registers. -/
@[simp] theorem toRegs_assertReset (s : Fifo α) (i : Req) (held : List (Cycle α)) :
    (s.assertReset i held).toRegs = Regs.reset :=
  Run.run_induct _ _ (fun _ (t : Fifo α) => t.toRegs = Regs.reset) (Regs.next_reset _ _)
    (fun _ t c _ => Regs.next_reset t.toRegs c.toReq) held

/-- A clear cycle ends in the reset registers too. -/
theorem toRegs_step_clear (s : Fifo α) (c : Cycle α) (h : c.fClrN = false) :
    (s.step c).toRegs = Regs.reset := Regs.next_clear _ _ h

/-- Renaming the data commutes with a clock edge. -/
theorem map_posedge (f : α → β) (rstN : Bool) (s : Fifo α) (c : Cycle α) :
    (s.map f).posedge rstN (c.map f) = (s.posedge rstN c).map f := by
  simp only [posedge, map, Cycle.map, FifoMemBlk.map_posedge]

/-- Renaming the data commutes with every run. -/
theorem map_run (f : α → β) (s : Fifo α) (cs : List (Cycle α)) :
    (s.map f).run (cs.map (Cycle.map f)) = (s.run cs).map f :=
  Run.run_map step step (map f) (Cycle.map f) (map_posedge f true) s cs

/-- Renaming the data renames the output, if `x` stays `x`. -/
theorem fData_map [HasX α] [HasX β] (f : α → β) (hx : f HasX.x = HasX.x) (s : Fifo α) :
    (s.map f).fData = f s.fData := FifoMemBlk.map_dataOut f hx s.memblk s.rdPtr

/-- Clock cycles out of reset stay among the reachable states. -/
theorem Reachable.run [HasX α] {s : Fifo α} (h : Reachable s) (cs : List (Cycle α)) :
    Reachable (s.run cs) :=
  Run.run_induct step s (fun _ t => Reachable t) h
    (fun _ _ c ht => Reachable.posedge true c ht) cs

/-- Every reachable state is the end of a run out of a reset. -/
theorem Reachable.exists_run [HasX α] {s : Fifo α} (h : Reachable s) :
    ∃ (t : Fifo α) (i : Req) (cs : List (Cycle α)), s = (t.assertReset i []).run cs := by
  induction h with
  | powerUp => exact ⟨Fifo.powerUp, FifoOp.idle.req, [], rfl⟩
  | @posedge s rstN c _ ih =>
      cases rstN with
      | false => exact ⟨s.posedge false c, FifoOp.idle.req, [], rfl⟩
      | true =>
          obtain ⟨t, i, cs, rfl⟩ := ih
          exact ⟨t, i, cs ++ [c], (run_concat _ cs c).symm⟩
  | @negedgeRstN s i _ _ => exact ⟨s, i, [], rfl⟩

/-! ### monitored transactions -/

/-- The transactions a monitor captures over the cycles `cs`: each carries the
inputs of its clock edge and the outputs that edge produced. -/
def monitored (s : Fifo Word) : List (Cycle Word) → List TransFifo
  | [] => []
  | c :: cs => TransFifo.capture true c (s.step c).outs :: (s.step c).monitored cs

@[simp] theorem length_monitored (s : Fifo Word) (cs : List (Cycle Word)) :
    (s.monitored cs).length = cs.length := by
  induction cs generalizing s with
  | nil => rfl
  | cons c cs ih => simp [monitored, ih]

theorem monitored_concat (s : Fifo Word) (cs : List (Cycle Word)) (c : Cycle Word) :
    s.monitored (cs ++ [c]) =
      s.monitored cs ++ [TransFifo.capture true c (s.run (cs ++ [c])).outs] := by
  induction cs generalizing s with
  | nil => rfl
  | cons d cs ih =>
      rw [List.cons_append, monitored, ih, monitored]
      rfl

theorem take_monitored (s : Fifo Word) (cs : List (Cycle Word)) (k : Nat) :
    (s.monitored cs).take k = s.monitored (cs.take k) := by
  induction cs generalizing s k with
  | nil => simp [monitored]
  | cons c cs ih =>
      cases k with
      | zero => rfl
      | succ k => simp [monitored, ih]

end Fifo

end BasicFifo
