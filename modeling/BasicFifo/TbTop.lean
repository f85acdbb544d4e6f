import BasicFifo.Verdict
import Mathlib.Data.List.Nodup

/-!
# BasicFifo.TbTop

The testbench `tb_top_fifo`: reset, the test that `+TESTNAME` selects, its calls
of `send`, and the summary printed once the scoreboard has completed.
-/

namespace BasicFifo

open FourState Transition

/-! ## tests -/

/-- `base_test.send`; `cycle` is an `int`, and `repeat` takes a negative count
for none. -/
def BaseTest.send (op : FifoOp) (cycle : BitVec 32) (randomizeData : Random := .random)
    (data : Bits := 0) : List SendCall :=
  List.replicate cycle.toInt.toNat ⟨op, randomizeData, data, 0⟩

/-- The calls of a test, with what `randomize()` gives each of them. -/
def draw (draws : Nat → Bits) (calls : List SendCall) : List SendCall :=
  calls.mapIdx fun k call => { call with randomized := draws k }

namespace Test

open BaseTest

/-- `base_test.build` sends nothing. -/
def baseTest : List SendCall := []

def singleRnw : List SendCall :=
  send .write 1 .random ++ send .idle 1 ++
  send .write 1 .random ++ send .idle 1 ++
  send .read 1 ++ send .idle 1

def singleRw : List SendCall :=
  send .write 1 .random ++ send .idle 1 ++
  send .readWrite 1 .random ++ send .idle 1 ++
  send .readWrite 1 .random ++ send .idle 1

def multipleRnw : List SendCall :=
  send .write 4 .random ++ send .idle 1 ++ send .read 4 ++ send .idle 1

def multipleRw : List SendCall :=
  send .write 1 .random ++ send .idle 1 ++ send .readWrite 5 .random ++ send .idle 1

def readEmpty : List SendCall := send .read 6 ++ send .idle 1

def writeFull : List SendCall :=
  send .write 4 .random ++ send .idle 1 ++ send .write 4 .random ++ send .idle 1 ++ send .read 4

def rwEmpty : List SendCall := send .readWrite 3 .random ++ send .idle 1

def rwFull : List SendCall :=
  send .write 4 .random ++ send .idle 1 ++ send .readWrite 3 .random ++ send .idle 1 ++
  send .read 5

def firstn : List SendCall :=
  send .write 1 .random ++ send .read 1 ++ send .idle 1 ++
  send .readWrite 1 .random ++ send .idle 1

def slastn : List SendCall :=
  send .write 2 .random ++ send .idle 1 ++
  send .write 1 .random ++ send .read 1 ++ send .idle 1 ++
  send .readWrite 1 .random

def lastn : List SendCall :=
  send .write 3 .random ++ send .idle 1 ++
  send .write 1 .random ++ send .read 1 ++ send .idle 1 ++
  send .readWrite 1 .random

def clr : List SendCall :=
  send .write 1 .random ++ send .clear 1 ++ send .idle 1 ++ send .read 1 ++
  send .write 1 .random

def clrRead : List SendCall :=
  send .write 1 .random ++ send .clearRead 1 .random ++ send .read 1 ++ send .write 1 .random

def clrWrite : List SendCall :=
  send .write 1 .random ++ send .clearWrite 1 .random ++ send .read 1 ++ send .write 1 .random

def clrRw : List SendCall :=
  send .write 1 .random ++ send .clearReadWrite 1 .random ++ send .read 1 ++
  send .write 1 .random

end Test

/-! ## the testbench -/

namespace TbTop

/-- The test of a name. -/
def new : String → List SendCall
  | "single_rnw" => Test.singleRnw
  | "single_rw" => Test.singleRw
  | "multiple_rnw" => Test.multipleRnw
  | "multiple_rw" => Test.multipleRw
  | "read_empty" => Test.readEmpty
  | "write_full" => Test.writeFull
  | "rw_empty" => Test.rwEmpty
  | "rw_full" => Test.rwFull
  | "firstn" => Test.firstn
  | "slastn" => Test.slastn
  | "lastn" => Test.lastn
  | "clr" => Test.clr
  | "clr_read" => Test.clrRead
  | "clr_write" => Test.clrWrite
  | "clr_rw" => Test.clrRw
  | _ => Test.baseTest

/-- The test selected by `+TESTNAME`.  Without the argument a name is set but no
test is made, and `test.build()` has no object to run on. -/
def test : Option String → Option (List SendCall)
  | none => none
  | some testName => some (new testName)

/-- The signals before the first test: idle controls, no data driven. -/
def inputs : Cycle Word := ⟨FifoOp.idle.req, HasX.x⟩

/-- The design when the test is selected: reset over the first rising edge, then
ten more while `#100` passes. -/
def dut : Fifo Word :=
  (Fifo.powerUp.assertReset inputs.toReq [inputs]).run (List.replicate 10 inputs)

/-- Idle cycles leave it under reset values. -/
theorem dut_eq : dut = Fifo.powerUp := by
  have hidle : ∀ (s : Fifo Word) (k : Nat), s.run (List.replicate k inputs) = s := by
    intro s k
    induction k with
    | zero => rfl
    | succ k ih => rw [List.replicate_succ', Fifo.run_concat, ih, Fifo.step_idle _ _ rfl]
  rw [dut, hidle]
  rfl

end TbTop

/-- What `print_summary` prints. -/
structure Summary where
  totalChecks : BitVec 32
  totalMatches : BitVec 32
  totalErrors : BitVec 32
deriving DecidableEq, Repr

/-- `print_summary`. -/
def ScbFifo.printSummary (s : ScbFifo) : Summary := ⟨s.checkCount, s.passCount, s.errorCount⟩

/-- The testbench prints the summary `sum` when run with `+TESTNAME` and the
given draws. -/
def TbTop.Prints (testName : Option String) (draws : Nat → Bits) (sum : Summary) : Prop :=
  ∃ calls tr s, TbTop.test testName = some calls ∧
    Exec EnvFifo.Step (EnvFifo.build (.idle TbTop.dut) TbTop.dut (draw draws calls)) tr s ∧
    s.scb.completed = true ∧ sum = s.scb.printSummary

/-! ## what is printed -/

namespace TbTop

/-- The tests are short and ask for no data of their own. -/
theorem new_random (testName : String) :
    (new testName).length < 2 ^ 31 ∧ ∀ call ∈ new testName, call.randomizeData = .random := by
  unfold new
  split <;> decide

/-- The one summary that can be printed. -/
theorem prints_iff (testName : String) (draws : Nat → Bits) (sum : Summary) :
    Prints (some testName) draws sum ↔
      sum = (ScbFifo.new.checks (shown (draw draws (new testName)))).printSummary := by
  have hlen : (draw draws (new testName)).length < 2 ^ 31 := by
    rw [draw, List.length_mapIdx]
    exact (new_random testName).1
  constructor
  · rintro ⟨calls, tr, s, htest, h, hc, rfl⟩
    obtain rfl := Option.some.inj htest
    rw [dut_eq] at h
    rw [scb_of_powerUp hlen h hc]
    rfl
  · rintro rfl
    obtain ⟨tr, s, h, hc⟩ :=
      (inevitable_completed ⟨.idle dut, dut, draw draws (new testName)⟩).exists_exec .refl
    refine ⟨new testName, tr, s, rfl, h, hc, ?_⟩
    rw [dut_eq] at h
    rw [scb_of_powerUp hlen h hc]
    rfl

/-- **Summary**: with `+TESTNAME` given, every run of the testbench gets to
print a summary, the same in every run with the same draws; it counts one check
for each call of `send`. -/
theorem prints_unique (testName : String) (draws : Nat → Bits) :
    Inevitable EnvFifo.Step (fun s => s.scb.completed = true)
      (EnvFifo.build (.idle dut) dut (draw draws (new testName))) ∧
    ∃ sum, Prints (some testName) draws sum ∧
      (∀ sum', Prints (some testName) draws sum' → sum' = sum) ∧
      sum.totalChecks.toNat = (new testName).length ∧
      sum.totalMatches.toNat + sum.totalErrors.toNat = (new testName).length := by
  obtain ⟨p, e, hsum, hp, he, hcount⟩ :=
    ScbFifo.counters_checks (shown (draw draws (new testName)))
  have hlen : (shown (draw draws (new testName))).length = (new testName).length := by
    rw [length_shown, draw, List.length_mapIdx]
  have hlt := (new_random testName).1
  refine ⟨inevitable_completed ⟨.idle dut, dut, draw draws (new testName)⟩, _,
    (prints_iff testName draws _).mpr rfl, fun sum' => (prints_iff testName draws sum').mp, ?_, ?_⟩
  · rw [ScbFifo.printSummary, hcount, hlen, BitVec.toNat_ofNat]
    omega
  · rw [ScbFifo.printSummary, hp, he, BitVec.toNat_ofNat, BitVec.toNat_ofNat]
    omega

/-- What a draw leaves of a test is its operations. -/
theorem map_cycle_draw (draws : Nat → Bits) (calls : List SendCall) :
    ((draw draws calls).map SendCall.cycle).map (Cycle.map fun _ => ()) =
      calls.map fun call => (⟨call.op.req, ()⟩ : Cycle Unit) := by
  apply List.ext_getElem
  · simp [draw]
  · intro k hk hk'
    simp [draw, SendCall.cycle, Cycle.map]

/-- Calls that ask for random data carry the draws. -/
theorem map_dataIn_draw (draws : Nat → Bits) (calls : List SendCall)
    (h : ∀ call ∈ calls, call.randomizeData = .random) :
    ((draw draws calls).map SendCall.cycle).map (·.dataIn) =
      (List.range calls.length).map draws := by
  apply List.ext_getElem
  · simp [draw]
  · intro k hk hk'
    have hlt : k < calls.length := by simpa using hk'
    have hrandom := h calls[k] (List.getElem_mem hlt)
    simp [draw, SendCall.cycle, SendCall.tx, hrandom]

theorem nodup_map_ofNat {n : Nat} (hn : n < 2 ^ 32) :
    ((List.range n).map (BitVec.ofNat 32)).Nodup := by
  refine List.Nodup.map_on ?_ List.nodup_range
  intro i hi j hj heq
  have hnat := congrArg BitVec.toNat heq
  simp only [List.mem_range] at hi hj
  rwa [BitVec.toNat_ofNat, BitVec.toNat_ofNat, Nat.mod_eq_of_lt (by omega),
    Nat.mod_eq_of_lt (by omega)] at hnat

/-- A test with drawn data passes for all draws exactly if its operations do. -/
theorem totalErrors_iff_passing (testName : String) :
    (∀ draws sum, Prints (some testName) draws sum → sum.totalErrors = 0) ↔
      Passing ((new testName).map fun call => (⟨call.op.req, ()⟩ : Cycle Unit)) := by
  obtain ⟨hlt, hrandom⟩ := new_random testName
  have hlen : ∀ draws, (draw draws (new testName)).length < 2 ^ 32 := by
    intro draws
    rw [draw, List.length_mapIdx]
    omega
  have hzero : ∀ draws, (ScbFifo.new.checks (shown (draw draws (new testName)))).errorCount = 0 ↔
      failures (shown (draw draws (new testName))) = 0 := fun draws =>
    errorCount_eq_zero_iff (by rw [length_shown]; exact hlen draws)
  have hverdict : ∀ draws, _ := fun draws =>
    failures_iff_passing ((draw draws (new testName)).map SendCall.cycle)
      (by rw [List.length_map]; exact hlen draws)
  constructor
  · intro h
    rw [← map_cycle_draw (BitVec.ofNat 32), passing_map]
    apply ((hverdict _).2 _).mp
    · exact (hzero _).mp (h _ _ ((prints_iff testName _ _).mpr rfl))
    · rw [map_dataIn_draw _ _ hrandom]
      exact nodup_map_ofNat (by omega)
  · intro h draws sum hsum
    rw [(prints_iff testName draws sum).mp hsum]
    rw [← map_cycle_draw draws, passing_map] at h
    exact (hzero draws).mpr ((hverdict draws).1 h)

/-- The tests the design fails. -/
def failing : List String :=
  ["single_rnw", "multiple_rnw", "multiple_rw", "write_full", "rw_empty", "rw_full", "firstn",
    "slastn", "lastn", "clr", "clr_read", "clr_write", "clr_rw"]

/-- **Test suite**: the design passes a test for all data that can be drawn
exactly if it is not one of thirteen; of the fifteen tests with traffic it
passes `single_rw` and `read_empty`. -/
theorem totalErrors_iff (testName : String) :
    (∀ draws sum, Prints (some testName) draws sum → sum.totalErrors = 0) ↔
      testName ∉ failing := by
  rw [totalErrors_iff_passing]
  unfold new
  split
  case h_16 =>
    -- the base test sends nothing
    have hbase : Passing (Test.baseTest.map fun call => (⟨call.op.req, ()⟩ : Cycle Unit)) := by
      decide
    simp only [hbase, failing, List.mem_cons, List.not_mem_nil, or_false, not_or, true_iff]
    grind
  all_goals decide

end TbTop

end BasicFifo
