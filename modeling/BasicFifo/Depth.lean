import BasicFifo.Rtl
import BasicFifo.Model

/-!
# BasicFifo.Depth

How the counter and the flags of module `fifo` follow the number of stored
words, and exactly when they stop doing so, for any `FDEPTH`.

Module `fifo` is configured through the macro, which stands in the memory block
and in the thresholds of `F_SLastN` and `F_LastN`; the threshold of `F_FirstN` is
a constant.  The flags follow the fill level on the same terms at every depth
from three on; below that `FDEPTH-3` is negative.

* a *sync* relation between the registers and a fill level, kept by the steady
  operations (`InSyncAt.next`);
* what the other operations do to the registers (`InSyncAt.read_next`,
  `InSyncAt.readWrite_next`);
* `flags_eq_predictAt_iff`, in which the two meet the reference model of the same
  depth.
-/

namespace BasicFifo

open FourState BoundedQueue

/-! ## registers in sync with a fill level -/

/-- The registers show fill level `n` of a FIFO of `depth` words.  `F_FirstN` is
pinned down only while words are stored: after the last one is read it stays
asserted. -/
structure InSyncAt (depth n : Nat) (r : Regs) : Prop where
  le : n ≤ depth
  fcounter : r.fcounter = BitVec.ofNat fwidth n
  fEmptyN : r.fEmptyN = (n != 0)
  fFirstN : 0 < n → r.fFirstN = false
  fSLastN : r.fSLastN = (n != depth - 2)
  fLastN : r.fLastN = (n != depth - 1)
  fFullN : r.fFullN = (n != depth)

/-- The operations the counter and the flags agree on at fill level `n`: no
read with a second word stored, no simultaneous request on an empty or a full
FIFO. -/
def SteadyAt (depth n : Nat) (o : FifoOp) : Prop :=
  (o = .read → n ≤ 1) ∧ (o = .readWrite → 1 ≤ n ∧ n < depth)

instance : Decidable (SteadyAt depth n o) := by unfold SteadyAt; infer_instance

/-- The operations after which flags and model agree at fill level `n`: no read
with a word stored, no simultaneous request on an empty or a full FIFO. -/
def PredictedAt (depth n : Nat) (o : FifoOp) : Prop :=
  (o = .read → n = 0) ∧ (o = .readWrite → 1 ≤ n ∧ n < depth)

instance : Decidable (PredictedAt depth n o) := by unfold PredictedAt; infer_instance

theorem PredictedAt.steady {depth n : Nat} {o : FifoOp} (h : PredictedAt depth n o) :
    SteadyAt depth n o := ⟨fun ho => by have := h.1 ho; omega, h.2⟩

/-- Counts below the wrap-around are compared exactly. -/
theorem ofNat_beq_ofNat {n m : Nat} (hn : n < 2 ^ 32) (hm : m < 2 ^ 32) :
    (BitVec.ofNat fwidth n == BitVec.ofNat fwidth m) = (n == m) := by
  rw [Bool.eq_iff_iff, beq_iff_eq, beq_iff_eq, ← BitVec.toNat_inj, BitVec.toNat_ofNat,
    BitVec.toNat_ofNat, Nat.mod_eq_of_lt hn, Nat.mod_eq_of_lt hm]

theorem inSyncAt_reset {depth : Nat} (hlo : 3 ≤ depth) : InSyncAt depth 0 Regs.reset where
  le := Nat.zero_le _
  fcounter := rfl
  fEmptyN := rfl
  fFirstN := fun h => absurd h (Nat.lt_irrefl 0)
  fSLastN := by simp [Regs.reset]; omega
  fLastN := by simp [Regs.reset]; omega
  fFullN := by simp [Regs.reset]; omega

section
variable {depth n : Nat} {r : Regs} (h : InSyncAt depth n r)
include h

/-- `F_EmptyN` or `F_FirstN` is asserted. -/
theorem InSyncAt.firstShown : (r.fEmptyN && r.fFirstN) = false := by
  cases hn : n with
  | zero => rw [h.fEmptyN, hn]; rfl
  | succ m => rw [h.fFirstN (by omega), Bool.and_false]

section
variable (hlo : 3 ≤ depth) (hhi : depth < 2 ^ 32)
include hlo

include hhi in
/-- A write counts up to the depth; the thresholds are one below the flags. -/
theorem InSyncAt.write :
    InSyncAt depth (FifoOp.write.levelAt depth n) (r.nextAt depth true FifoOp.write.req) := by
  have hle := h.le
  have hlevel : FifoOp.write.levelAt depth n = if n < depth then n + 1 else n := rfl
  rw [Regs.nextAt_write, h.firstShown, h.fLastN, h.fFullN, h.fcounter,
    ofNat_beq_ofNat (by omega) (by omega), ofNat_beq_ofNat (by omega) (by omega), hlevel]
  by_cases hn : n < depth
  · have hu : (n != depth) = true := by simp; omega
    have hfc : BitVec.ofNat fwidth n + 1 = BitVec.ofNat fwidth (n + 1) := by
      rw [BitVec.ofNat_add]
      rfl
    rw [if_pos hn, if_pos hu]
    constructor <;> grind
  · have hu : ¬ (n != depth) = true := by simp; omega
    rw [if_neg hn, if_neg hu]
    constructor <;> grind

/-- A read of the last word leaves the FIFO empty, another one on the empty FIFO
does nothing. -/
theorem InSyncAt.read (hn : n ≤ 1) :
    InSyncAt depth (FifoOp.read.levelAt depth n) (r.nextAt depth true FifoOp.read.req) := by
  have hlevel : FifoOp.read.levelAt depth n = 0 := by
    show n - 1 = 0
    omega
  have hfc : (if (n != 0) = true then BitVec.ofNat fwidth n - 1 else BitVec.ofNat fwidth n) =
      BitVec.ofNat fwidth 0 := by
    obtain rfl | rfl : n = 0 ∨ n = 1 := by omega
    all_goals rfl
  rw [Regs.nextAt_read, Bool.and_comm, h.firstShown, h.fcounter, h.fEmptyN, h.fLastN, h.fFullN,
    hlevel, hfc]
  constructor <;> grind

omit hlo in
theorem InSyncAt.readWrite (hn : 1 ≤ n ∧ n < depth) :
    InSyncAt depth n (r.nextAt depth true FifoOp.readWrite.req) := by
  have hfc := h.fcounter
  rw [Regs.nextAt_readWrite, h.firstShown, h.fSLastN, h.fLastN, h.fFullN]
  constructor <;> grind

include hhi in
/-- **Sync step**: a steady operation moves the registers to the next level. -/
theorem InSyncAt.next (i : Req) (hi : SteadyAt depth n i.op) :
    InSyncAt depth (i.op.levelAt depth n) (r.nextAt depth true i) := by
  obtain ⟨o, rfl⟩ := i.exists_op
  rw [FifoOp.op_req] at hi ⊢
  cases o with
  | clear | clearRead | clearWrite | clearReadWrite =>
      rw [Regs.nextAt_clear _ _ _ rfl]
      exact inSyncAt_reset hlo
  | idle => rw [Regs.nextAt_idle]; exact h
  | write => exact h.write hlo hhi
  | read => exact h.read hlo (hi.1 rfl)
  | readWrite => exact h.readWrite (hi.2 rfl)

end

/-- A read with a second word stored claims the FIFO empty while the counter
goes down by one. -/
theorem InSyncAt.read_next (hn : 2 ≤ n) :
    (r.nextAt depth true FifoOp.read.req).fEmptyN = false ∧
      (r.nextAt depth true FifoOp.read.req).fcounter = BitVec.ofNat fwidth n - 1 := by
  have he : r.fEmptyN = true := by
    rw [h.fEmptyN, bne_iff_ne]
    omega
  rw [Regs.nextAt_read, h.fFirstN (by omega), he, h.fcounter]
  exact ⟨rfl, rfl⟩

/-- A simultaneous request leaves the counter alone but raises both
`F_EmptyN` and `F_FullN`, at every level. -/
theorem InSyncAt.readWrite_next :
    (r.nextAt depth true FifoOp.readWrite.req).fEmptyN = true ∧
      (r.nextAt depth true FifoOp.readWrite.req).fFullN = true ∧
      (r.nextAt depth true FifoOp.readWrite.req).fcounter = BitVec.ofNat fwidth n := by
  rw [Regs.nextAt_readWrite]
  exact ⟨rfl, rfl, h.fcounter⟩

/-! ## flags against the row of the fill level -/

/-- Registers in sync whose `F_FirstN` is in sync as well show a row. -/
theorem InSyncAt.flags_eq (hf : r.fFirstN = decide (n < 1)) : r.toFlags = Flags.rowAt depth n :=
  Flags.ext h.fEmptyN hf h.fSLastN h.fLastN h.fFullN

/-- While the operations are predicted, the flags step from row to row. -/
theorem InSyncAt.next_rowAt (hlo : 3 ≤ depth) (hhi : depth < 2 ^ 32)
    (hr : r.toFlags = Flags.rowAt depth n) (i : Req) (hi : PredictedAt depth n i.op) :
    (r.nextAt depth true i).toFlags = Flags.rowAt depth (i.op.levelAt depth n) := by
  apply (h.next hlo hhi i hi.steady).flags_eq
  have hf : r.fFirstN = decide (n < 1) := congrArg Flags.fFirstN hr
  obtain ⟨o, rfl⟩ := i.exists_op
  rw [FifoOp.op_req] at hi ⊢
  cases o with
  | clear | clearRead | clearWrite | clearReadWrite =>
      rw [Regs.nextAt_clear _ _ _ rfl]
      rfl
  | idle =>
      rw [Regs.nextAt_idle]
      exact hf
  | write =>
      have hlevel : FifoOp.write.levelAt depth n = if n < depth then n + 1 else n := rfl
      rw [Regs.nextAt_write, h.firstShown, hlevel]
      have hpos : 1 ≤ if n < depth then n + 1 else n := by split <;> omega
      exact (decide_eq_false (Nat.not_lt.mpr hpos)).symm
  | read =>
      have hlevel : FifoOp.read.levelAt depth 0 = 0 := rfl
      obtain rfl := hi.1 rfl
      rw [Regs.nextAt_read, h.fcounter, hf, hlevel]
      rfl
  | readWrite =>
      have hlevel : FifoOp.readWrite.levelAt depth n = n := rfl
      rw [Regs.nextAt_readWrite, h.firstShown, hlevel]
      exact (decide_eq_false (Nat.not_lt.mpr (hi.2 rfl).1)).symm

/-- The first operation that is not predicted shows in the flags at once. -/
theorem InSyncAt.next_ne_rowAt (i : Req) (hi : ¬ PredictedAt depth n i.op) :
    (r.nextAt depth true i).toFlags ≠ Flags.rowAt depth (i.op.levelAt depth n) := by
  intro hr
  have hle := h.le
  obtain ⟨o, rfl⟩ := i.exists_op
  rw [FifoOp.op_req] at hi hr
  have he := congrArg Flags.fEmptyN hr
  have hf := congrArg Flags.fFirstN hr
  have hu := congrArg Flags.fFullN hr
  obtain hread | hboth := not_and_or.mp hi
  · obtain ⟨rfl, hn⟩ := Classical.not_imp.mp hread
    have hlevel : FifoOp.read.levelAt depth n = n - 1 := rfl
    rw [hlevel] at he hf
    by_cases hge : 2 ≤ n
    · -- a second word is stored: `F_EmptyN` is asserted over it
      rw [(h.read_next hge).1] at he
      have hlast : n - 1 = 0 := by simpa [Flags.rowAt] using he.symm
      omega
    · -- the last word is read: `F_FirstN` stays asserted
      rw [Regs.nextAt_read, h.fFirstN (by omega), Bool.and_false] at hf
      have hmore : ¬ n - 1 < 1 := by simpa [Flags.rowAt] using hf.symm
      omega
  · obtain ⟨rfl, hn⟩ := Classical.not_imp.mp hboth
    have hlevel : FifoOp.readWrite.levelAt depth n = n := rfl
    rw [hlevel, h.readWrite_next.1] at he
    rw [hlevel, h.readWrite_next.2.1] at hu
    have hpos : n ≠ 0 := by simpa [Flags.rowAt] using he.symm
    have hroom : n ≠ depth := by simpa [Flags.rowAt] using hu.symm
    omega

end

/-! ## flags against the model -/

/-- The registers after the transactions `ts`, whose inputs they have taken. -/
def Regs.runAt (depth : Nat) (r : Regs) (ts : List TransFifo) : Regs :=
  Run.run (fun r t => r.nextAt depth t.rstN t.req) r ts

/-- For the registers a reset is a clear. -/
theorem Regs.nextAt_cleared (depth : Nat) (r : Regs) (t : TransFifo) :
    r.nextAt depth t.rstN t.req = r.nextAt depth true t.cleared.toReq := by
  by_cases hr : t.rstN = true
  · rw [TransFifo.cleared, hr, Bool.true_and]
    rfl
  · have hlow : t.rstN = false := by simpa using hr
    rw [hlow, Regs.nextAt_reset, Regs.nextAt_clear _ _ _ (by simp [TransFifo.cleared, hlow])]

/-- **Flags at any depth**: for every `FDEPTH` from three on, the flags equal
those of `predict` at that `FIFO_DEPTH` after every transaction exactly if no
word is read and no request is simultaneous on an empty or a full FIFO.  The
transactions may find `Rst_N` low, which counts as a clear. -/
theorem flags_eq_predictAt_iff (depth : Nat) (hlo : 3 ≤ depth) (hhi : depth < 2 ^ 32)
    (ts : List TransFifo) :
    (∀ k (hk : k < ts.length),
      (Regs.reset.runAt depth (ts.take (k + 1))).toFlags.logic =
        ((FifoModel.new.observeAt depth (ts.take k)).predictAt depth ts[k]).2.flags) ↔
    ∀ k (hk : k < ts.length),
      PredictedAt depth (storedAt depth ((ts.take k).map TransFifo.cleared)) ts[k].cleared.op := by
  have hreset := inSyncAt_reset hlo
  have hrow : Regs.reset.toFlags = Flags.rowAt depth 0 := hreset.flags_eq rfl
  rw [← Run.forall_run_iff (fun r t => r.nextAt depth t.rstN t.req) Regs.reset
    (fun _ _ _ => True)
    (fun pre r => InSyncAt depth (storedAt depth (pre.map TransFifo.cleared)) r ∧
      r.toFlags = Flags.rowAt depth (storedAt depth (pre.map TransFifo.cleared)))
    (fun pre r => r.toFlags = Flags.rowAt depth (storedAt depth (pre.map TransFifo.cleared)))
    (fun pre t => PredictedAt depth (storedAt depth (pre.map TransFifo.cleared)) t.cleared.op)
    ⟨hreset, hrow⟩ (fun _ _ h => h.2) _ _ ts (fun _ _ => trivial)]
  · change _ ↔ ∀ k, (Regs.reset.runAt depth (ts.take k)).toFlags = _
    rw [Run.forall_take_iff (Q := fun pre => (Regs.reset.runAt depth pre).toFlags =
      Flags.rowAt depth (storedAt depth (pre.map TransFifo.cleared))) hrow]
    apply forall_congr'
    intro k
    apply forall_congr'
    intro hk
    rw [FifoModel.flags_predictAt, ← FifoModel.observeAt_concat,
      ← List.take_succ_eq_append_getElem hk, FifoModel.length_modelQ_observeAt, Flags.logic_inj]
  · intro pre r t h _ ht
    rw [List.map_append, List.map_singleton, storedAt_concat, Regs.nextAt_cleared]
    exact ⟨h.1.next hlo hhi _ ht.steady, h.1.next_rowAt hlo hhi h.2 _ ht⟩
  · intro pre r t h _ ht
    rw [List.map_append, List.map_singleton, storedAt_concat, Regs.nextAt_cleared]
    exact h.1.next_ne_rowAt _ ht

/-- Eight writes fill a FIFO of eight words, and the model says so. -/
theorem flags_eq_predictAt_eight :
    let t : TransFifo := .capture true (FifoOp.write.cycle 5) ⟨Flags.row 0, HasX.x⟩
    (Regs.reset.runAt 8 (List.replicate 8 t)).toFlags = Flags.rowAt 8 8 ∧
      ((FifoModel.new.observeAt 8 (List.replicate 7 t)).predictAt 8 t).2.flags =
        (Regs.reset.runAt 8 (List.replicate 8 t)).toFlags.logic := by
  intro t
  refine ⟨by decide, ?_⟩
  exact ((flags_eq_predictAt_iff 8 (by decide) (by decide) (List.replicate 8 t)).mpr (by decide) 7
    (by decide)).symm

end BasicFifo
