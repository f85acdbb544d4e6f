import BasicFifo.Rtl
import BasicFifo.Scoreboard

/-!
# BasicFifo.Env

The environment `env_fifo` around the design: the generator, driver, monitor
and scoreboard processes that `env_fifo.run` forks, the mailboxes between them
and the clocking blocks of `inf_fifo`.

A process is cut at its blocking points, which its program counter names.
Between two blocking points it takes no time, so the processes interleave
freely and the clock moves on only when all of them are blocked (`Step`).

`run` is called between two rising edges.  What `driver_cb` is told to drive
before the first edge therefore counts as driven at that edge; what it is told
in the time slot of an edge reaches the signals before the next one.
-/

namespace BasicFifo

open FourState

/-! ## generator -/

/-- `random_t`. -/
inductive Random where
  | random
  | manual
deriving DecidableEq, Repr

/-- A call of `gen_fifo.send` with its arguments, and the value `randomize()`
gives `Data_In` if the call asks for one. -/
structure SendCall where
  op : FifoOp
  randomizeData : Random := .random
  data : Bits := 0
  randomized : Bits := 0
deriving DecidableEq, Repr

/-- The transaction a call of `send` builds. -/
def SendCall.tx (call : SendCall) : TransFifo :=
  let tx := TransFifo.new
  let tx := match call.randomizeData with
    | .random => { tx with dataIn := call.randomized }
    | .manual => { tx with dataIn := call.data }
  { tx with
    fClrN := call.op.req.fClrN
    fInN := call.op.req.fInN
    fOutN := call.op.req.fOutN }

/-- The state of `gen_fifo`; `num_trans` is an `int`. -/
structure GenFifo where
  q : List TransFifo
  numTrans : BitVec 32
deriving DecidableEq, Repr

/-- The data of a call: drawn, or as it is given. -/
theorem SendCall.dataIn_tx (call : SendCall) :
    call.tx.dataIn = if call.randomizeData = .random then call.randomized else call.data := by
  obtain ⟨op, randomizeData, data, randomized⟩ := call
  cases randomizeData <;> rfl

namespace GenFifo

/-- `new()`. -/
def new : GenFifo := ⟨[], 0⟩

/-- `send`. -/
def send (g : GenFifo) (call : SendCall) : GenFifo := ⟨g.q ++ [call.tx], g.numTrans + 1⟩

/-- The generator after a series of calls. -/
def sends (g : GenFifo) (calls : List SendCall) : GenFifo := Run.run send g calls

end GenFifo

/-! ## interface -/

/-- The signals of a transaction's inputs once they are driven. -/
def TransFifo.cycle (t : TransFifo) : Cycle Word := ⟨t.req, .ofBits t.dataIn⟩

/-- The outputs of `driver_cb` that are due. -/
structure DriverCb where
  fClrN : Option Bool
  fInN : Option Bool
  fOutN : Option Bool
  dataIn : Option Bits
deriving DecidableEq, Repr

namespace DriverCb

/-- Nothing is due. -/
def undriven : DriverCb := ⟨none, none, none, none⟩

/-- The initial values of `driver_fifo.run`, over whatever is due. -/
def idle (d : DriverCb) : DriverCb :=
  { d with fClrN := some true, fInN := some true, fOutN := some true }

/-- A transaction driven over whatever is due. -/
def drive (d : DriverCb) (tx : TransFifo) : DriverCb :=
  { d with
    fClrN := some tx.fClrN
    fInN := some tx.fInN
    fOutN := some tx.fOutN
    dataIn := some tx.dataIn }

/-- The signals once the outputs that are due have reached them. -/
def settle (d : DriverCb) (c : Cycle Word) : Cycle Word where
  fClrN := d.fClrN.getD c.fClrN
  fInN := d.fInN.getD c.fInN
  fOutN := d.fOutN.getD c.fOutN
  dataIn := (d.dataIn.map LogicVec.ofBits).getD c.dataIn

/-- A transaction driven last is what the signals settle to. -/
@[simp] theorem settle_drive (d : DriverCb) (tx : TransFifo) (c : Cycle Word) :
    (d.drive tx).settle c = tx.cycle := rfl

end DriverCb

/-- The interface `inf_fifo`.  `clocked` tells the time slot of a rising edge
from the one in which `run` is called. -/
structure InfFifo where
  rstN : Bool
  inputs : Cycle Word
  driverCb : DriverCb
  monitorCb : Cycle Word × Outs
  clocked : Bool

/-- The inputs the next rising edge finds. -/
def InfFifo.nextInputs (vif : InfFifo) : Cycle Word :=
  if vif.clocked then vif.driverCb.settle vif.inputs else vif.inputs

/-- The interface as the testbench leaves it: out of reset with idle controls,
and no data driven yet. -/
def InfFifo.idle (dut : Fifo Word) : InfFifo :=
  let inputs : Cycle Word := ⟨FifoOp.idle.req, HasX.x⟩
  ⟨true, inputs, .undriven, (inputs, dut.outs), false⟩

/-! ## processes -/

/-- Where `gen_fifo.run` stands: in its loop, or returned. -/
inductive GenPc where
  | loop
  | done
deriving DecidableEq, Repr

/-- Where `driver_fifo.run` stands: not started, at `mbx.get`, at the clocking
event with a transaction in hand, or past that event. -/
inductive DrvPc where
  | start
  | get
  | wait (tx : TransFifo)
  | drive (tx : TransFifo)
deriving DecidableEq, Repr

/-- Where `monitor_fifo.run` stands: at its first clocking event, at
`count_mbx.get`, at the head of the loop with `n` rounds to go, at the clocking
event or past it with `n` rounds to go after this one, or returned. -/
inductive MonPc where
  | first
  | count
  | loop (n : Nat)
  | wait (n : Nat)
  | sample (n : Nat)
  | done
deriving DecidableEq, Repr

/-- Where `scb_fifo.run` stands: not started, at `in_mbx.get`, or returned. -/
inductive ScbPc where
  | start
  | get
  | done
deriving DecidableEq, Repr

/-- What can be observed from outside: a rising edge and the inputs it finds,
and a message the scoreboard takes, `none` for `null`. -/
inductive Event where
  | edge (c : Cycle Word)
  | got (m : Option TransFifo)
deriving DecidableEq, Repr

/-- The inputs at the rising edges of an execution. -/
def edges (tr : List Event) : List (Cycle Word) :=
  tr.filterMap fun | .edge c => some c | .got _ => none

/-- The messages the scoreboard takes in an execution. -/
def gots (tr : List Event) : List (Option TransFifo) :=
  tr.filterMap fun | .edge _ => none | .got m => some m

/-- The environment with the design it is connected to.  The mailboxes are
unbounded. -/
structure EnvFifo where
  gen : GenFifo
  genPc : GenPc
  drvPc : DrvPc
  monPc : MonPc
  scb : ScbFifo
  scbPc : ScbPc
  gen2drvMbx : List TransFifo
  countMbx : List (BitVec 32)
  mon2scbMbx : List (Option TransFifo)
  vif : InfFifo
  dut : Fifo Word

namespace EnvFifo

/-- The environment when `run` is called: built, with the calls of `send` made
and nothing driven. -/
def build (vif : InfFifo) (dut : Fifo Word) (calls : List SendCall) : EnvFifo where
  gen := GenFifo.new.sends calls
  genPc := .loop
  drvPc := .start
  monPc := .first
  scb := ScbFifo.new
  scbPc := .start
  gen2drvMbx := []
  countMbx := []
  mon2scbMbx := []
  vif := { vif with driverCb := .undriven, clocked := false }
  dut := dut

/-- `gen_fifo.run`. -/
def genRun (s : EnvFifo) : Option EnvFifo :=
  match s.genPc, s.gen.q with
  | .loop, tr :: q =>
      some { s with gen := { s.gen with q }, gen2drvMbx := s.gen2drvMbx ++ [tr] }
  | .loop, [] => some { s with countMbx := s.countMbx ++ [s.gen.numTrans], genPc := .done }
  | .done, _ => none

/-- `driver_fifo.run`. -/
def drvRun (s : EnvFifo) : Option EnvFifo :=
  match s.drvPc, s.gen2drvMbx with
  | .start, _ =>
      some { s with vif := { s.vif with driverCb := s.vif.driverCb.idle }, drvPc := .get }
  | .get, tx :: mbx => some { s with gen2drvMbx := mbx, drvPc := .wait tx }
  | .get, [] => none
  | .wait _, _ => none
  | .drive tx, _ =>
      some { s with vif := { s.vif with driverCb := s.vif.driverCb.drive tx }, drvPc := .get }

/-- `monitor_fifo.run`.  `repeat` takes a negative count for none. -/
def monRun (s : EnvFifo) : Option EnvFifo :=
  match s.monPc, s.countMbx with
  | .first, _ => none
  | .count, [] => none
  | .count, expectedCount :: mbx =>
      some { s with countMbx := mbx, monPc := .loop expectedCount.toInt.toNat }
  | .loop 0, _ => some { s with mon2scbMbx := s.mon2scbMbx ++ [none], monPc := .done }
  | .loop (n + 1), _ => some { s with monPc := .wait n }
  | .wait _, _ => none
  | .sample n, _ =>
      let tx := TransFifo.capture s.vif.rstN s.vif.monitorCb.1 s.vif.monitorCb.2
      some { s with mon2scbMbx := s.mon2scbMbx ++ [some tx], monPc := .loop n }
  | .done, _ => none

/-- `scb_fifo.run`, with the message it takes. -/
def scbRun (s : EnvFifo) : Option (Option Event × EnvFifo) :=
  match s.scbPc, s.mon2scbMbx with
  | .start, _ => some (none, { s with scb := { s.scb with completed := false }, scbPc := .get })
  | .get, [] => none
  | .get, some actual :: mbx =>
      some (some (.got (some actual)), { s with scb := s.scb.check actual, mon2scbMbx := mbx })
  | .get, none :: mbx =>
      some (some (.got none),
        { s with scb := { s.scb with completed := true }, mon2scbMbx := mbx, scbPc := .done })
  | .done, _ => none

/-- Every process is blocked or has returned. -/
structure Settled (s : EnvFifo) : Prop where
  gen : s.genRun = none
  drv : s.drvRun = none
  mon : s.monRun = none
  scb : s.scbRun = none

/-- A rising edge: the design steps, `monitor_cb` samples after it, and the
processes at a clocking event go on.  What was told to `driver_cb` before the
first edge stays due. -/
def posedge (s : EnvFifo) : EnvFifo :=
  let inputs := s.vif.nextInputs
  let dut := s.dut.posedge s.vif.rstN inputs
  { s with
    vif := { s.vif with
      inputs
      driverCb := if s.vif.clocked then .undriven else s.vif.driverCb
      monitorCb := (inputs, dut.outs)
      clocked := true }
    dut
    drvPc := match s.drvPc with
      | .wait tx => .drive tx
      | pc => pc
    monPc := match s.monPc with
      | .first => .count
      | .wait n => .sample n
      | pc => pc }

/-! ### what a process does -/

section
variable {s s' : EnvFifo}

theorem genRun_cases (h : s.genRun = some s') :
    (∃ tr q, s.genPc = .loop ∧ s.gen.q = tr :: q ∧
      s' = { s with gen := { s.gen with q }, gen2drvMbx := s.gen2drvMbx ++ [tr] }) ∨
    (s.genPc = .loop ∧ s.gen.q = [] ∧
      s' = { s with countMbx := s.countMbx ++ [s.gen.numTrans], genPc := .done }) := by
  simp only [genRun] at h
  split at h
  · next tr q hpc hq => exact Or.inl ⟨tr, q, hpc, hq, (Option.some.inj h).symm⟩
  · next hpc hq => exact Or.inr ⟨hpc, hq, (Option.some.inj h).symm⟩
  · contradiction

theorem drvRun_cases (h : s.drvRun = some s') :
    (s.drvPc = .start ∧
      s' = { s with vif := { s.vif with driverCb := s.vif.driverCb.idle }, drvPc := .get }) ∨
    (∃ tx mbx, s.drvPc = .get ∧ s.gen2drvMbx = tx :: mbx ∧
      s' = { s with gen2drvMbx := mbx, drvPc := .wait tx }) ∨
    (∃ tx, s.drvPc = .drive tx ∧
      s' = { s with
        vif := { s.vif with driverCb := s.vif.driverCb.drive tx }, drvPc := .get }) := by
  simp only [drvRun] at h
  split at h
  · next hpc => exact Or.inl ⟨hpc, (Option.some.inj h).symm⟩
  · next tx mbx hpc hm => exact Or.inr (Or.inl ⟨tx, mbx, hpc, hm, (Option.some.inj h).symm⟩)
  · contradiction
  · contradiction
  · next tx hpc => exact Or.inr (Or.inr ⟨tx, hpc, (Option.some.inj h).symm⟩)

theorem monRun_cases (h : s.monRun = some s') :
    (∃ expectedCount mbx, s.monPc = .count ∧ s.countMbx = expectedCount :: mbx ∧
      s' = { s with countMbx := mbx, monPc := .loop expectedCount.toInt.toNat }) ∨
    (s.monPc = .loop 0 ∧
      s' = { s with mon2scbMbx := s.mon2scbMbx ++ [none], monPc := .done }) ∨
    (∃ n, s.monPc = .loop (n + 1) ∧ s' = { s with monPc := .wait n }) ∨
    (∃ n, s.monPc = .sample n ∧
      s' = { s with
        mon2scbMbx := s.mon2scbMbx ++
          [some (.capture s.vif.rstN s.vif.monitorCb.1 s.vif.monitorCb.2)]
        monPc := .loop n }) := by
  simp only [monRun] at h
  split at h
  · contradiction
  · contradiction
  · next m mbx hpc hm => exact Or.inl ⟨m, mbx, hpc, hm, (Option.some.inj h).symm⟩
  · next hpc => exact Or.inr (Or.inl ⟨hpc, (Option.some.inj h).symm⟩)
  · next n hpc => exact Or.inr (Or.inr (Or.inl ⟨n, hpc, (Option.some.inj h).symm⟩))
  · contradiction
  · next n hpc => exact Or.inr (Or.inr (Or.inr ⟨n, hpc, (Option.some.inj h).symm⟩))
  · contradiction

theorem scbRun_cases {e : Option Event} (h : s.scbRun = some (e, s')) :
    (s.scbPc = .start ∧ e = none ∧
      s' = { s with scb := { s.scb with completed := false }, scbPc := .get }) ∨
    (∃ actual mbx, s.scbPc = .get ∧ s.mon2scbMbx = some actual :: mbx ∧
      e = some (.got (some actual)) ∧
      s' = { s with scb := s.scb.check actual, mon2scbMbx := mbx }) ∨
    (∃ mbx, s.scbPc = .get ∧ s.mon2scbMbx = none :: mbx ∧ e = some (.got none) ∧
      s' = { s with
        scb := { s.scb with completed := true }, mon2scbMbx := mbx, scbPc := .done }) := by
  simp only [scbRun] at h
  split at h
  · next hpc =>
      obtain ⟨rfl, rfl⟩ := Prod.mk.inj (Option.some.inj h)
      exact Or.inl ⟨hpc, rfl, rfl⟩
  · contradiction
  · next t mbx hpc hm =>
      obtain ⟨rfl, rfl⟩ := Prod.mk.inj (Option.some.inj h)
      exact Or.inr (Or.inl ⟨t, mbx, hpc, hm, rfl, rfl⟩)
  · next mbx hpc hm =>
      obtain ⟨rfl, rfl⟩ := Prod.mk.inj (Option.some.inj h)
      exact Or.inr (Or.inr ⟨mbx, hpc, hm, rfl, rfl⟩)
  · contradiction

/-! ### where the processes block -/

theorem Settled.genPc (h : s.Settled) : s.genPc = .done := by
  have := h.gen
  simp only [genRun] at this
  split at this
  · contradiction
  · contradiction
  · next hpc => exact hpc

theorem Settled.drvPc (h : s.Settled) :
    (s.drvPc = .get ∧ s.gen2drvMbx = []) ∨ ∃ tx, s.drvPc = .wait tx := by
  have := h.drv
  simp only [drvRun] at this
  split at this
  · contradiction
  · contradiction
  · next hpc hm => exact Or.inl ⟨hpc, hm⟩
  · next tx hpc => exact Or.inr ⟨tx, hpc⟩
  · contradiction

theorem Settled.monPc (h : s.Settled) :
    s.monPc = .first ∨ (s.monPc = .count ∧ s.countMbx = []) ∨ (∃ n, s.monPc = .wait n) ∨
      s.monPc = .done := by
  have := h.mon
  simp only [monRun] at this
  split at this
  · next hpc => exact Or.inl hpc
  · next hpc hm => exact Or.inr (Or.inl ⟨hpc, hm⟩)
  · contradiction
  · contradiction
  · contradiction
  · next n hpc => exact Or.inr (Or.inr (Or.inl ⟨n, hpc⟩))
  · contradiction
  · next hpc => exact Or.inr (Or.inr (Or.inr hpc))

theorem Settled.scbPc (h : s.Settled) :
    (s.scbPc = .get ∧ s.mon2scbMbx = []) ∨ s.scbPc = .done := by
  have := h.scb
  simp only [scbRun] at this
  split at this
  · contradiction
  · next hpc hm => exact Or.inl ⟨hpc, hm⟩
  · contradiction
  · contradiction
  · next hpc => exact Or.inr hpc

end

/-! ### steps -/

/-- One step of the environment: any process that can goes on to its next
blocking point, or, when none can, the clock rises. -/
inductive Step : EnvFifo → Option Event → EnvFifo → Prop where
  | gen {s s'} : s.genRun = some s' → Step s none s'
  | drv {s s'} : s.drvRun = some s' → Step s none s'
  | mon {s s'} : s.monRun = some s' → Step s none s'
  | scb {s e s'} : s.scbRun = some (e, s') → Step s e s'
  | posedge {s} : s.Settled → Step s (some (.edge s.vif.nextInputs)) s.posedge

/-- The environment never stops: the clock rises when nothing else can happen. -/
theorem exists_step (s : EnvFifo) : ∃ e s', Step s e s' := by
  by_cases hg : s.genRun = none
  · by_cases hd : s.drvRun = none
    · by_cases hm : s.monRun = none
      · by_cases hs : s.scbRun = none
        · exact ⟨_, _, .posedge ⟨hg, hd, hm, hs⟩⟩
        · obtain ⟨⟨e, s'⟩, h⟩ := Option.ne_none_iff_exists'.mp hs
          exact ⟨e, s', .scb h⟩
      · obtain ⟨s', h⟩ := Option.ne_none_iff_exists'.mp hm
        exact ⟨none, s', .mon h⟩
    · obtain ⟨s', h⟩ := Option.ne_none_iff_exists'.mp hd
      exact ⟨none, s', .drv h⟩
  · obtain ⟨s', h⟩ := Option.ne_none_iff_exists'.mp hg
    exact ⟨none, s', .gen h⟩

end EnvFifo

end BasicFifo
