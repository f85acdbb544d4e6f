import BasicFifo.Lib.WriteLog
import BasicFifo.Clear
import Mathlib.Data.List.DropRight

/-!
# BasicFifo.Contents

The exact contents of the datapath after any requests.

A write goes to the address the pointer has reached and to no cell when that is
beyond the array.  So a cell holds the latest of the words that were sent to
it: `contents_run` says so from any state, `contents_exact` from a reset or a
clear, where the address of a word is its position modulo `2 ^ 32`.
-/

namespace BasicFifo

open FourState

/-! ## cycles since a clear -/

/-- The cycles after the latest clear. -/
def sinceClear (cs : List (Cycle α)) : List (Cycle α) := cs.rtakeWhile (·.fClrN)

@[simp] theorem sinceClear_concat (cs : List (Cycle α)) (c : Cycle α) :
    sinceClear (cs ++ [c]) = if c.fClrN then sinceClear cs ++ [c] else [] :=
  List.rtakeWhile_concat _ cs c

/-- Write requests since the latest clear, cycle by cycle. -/
theorem writes_sinceClear_concat (cs : List (Cycle α)) (c : Cycle α) :
    writes (sinceClear (cs ++ [c])) =
      if c.fClrN then writes (sinceClear cs) + (if c.fInN then 0 else 1) else 0 := by
  rw [sinceClear_concat]
  cases c.fClrN <;> simp

/-- The trail of a run counts the same requests. -/
theorem trail_writes (cs : List (Cycle α)) : (trail cs).writes = writes (sinceClear cs) := by
  induction cs using List.reverseRecOn with
  | nil => rfl
  | append_singleton cs c ih =>
      rw [trail_concat, writes_sinceClear_concat, ← ih]
      unfold Trail.next
      cases c.fClrN <;> cases c.fInN <;> rfl

/-- Through clears too, the write pointer is the number of writes since the
latest one. -/
theorem wrPtr_run {t : Fifo α} (ht : t.toRegs = Regs.reset) (cs : List (Cycle α)) :
    (t.run cs).wrPtr = BitVec.ofNat fwidth (writes (sinceClear cs)) := by
  rw [(trailed_run ht cs).wrPtr, trail_writes]

/-! ## where words go -/

/-- Word `j` of those written from pointer `p` on goes to cell `i`. -/
def SentTo (p : BitVec fwidth) (i : Fin fdepth) (j : Nat) : Prop :=
  (p + BitVec.ofNat fwidth j).toNat = i

/-- Within `2 ^ 32` writes some word goes to each cell. -/
theorem exists_sentTo (p : BitVec fwidth) (i : Fin fdepth) : ∃ j < 2 ^ 32, SentTo p i j := by
  refine ⟨(BitVec.ofNat fwidth i - p).toNat, BitVec.isLt _, ?_⟩
  rw [SentTo, BitVec.ofNat_toNat, BitVec.setWidth_eq, BitVec.add_comm, BitVec.sub_add_cancel,
    toNat_cell]

/-- Counted from address `0`, a pointer is a count modulo `2 ^ 32`. -/
theorem toNat_zero_add (n : Nat) : (0 + BitVec.ofNat fwidth n).toNat = n % 2 ^ 32 :=
  congrArg BitVec.toNat (BitVec.zero_add _)

theorem sentTo_zero {i : Fin fdepth} {j : Nat} : SentTo 0 i j ↔ j % 2 ^ 32 = i := by
  rw [SentTo, toNat_zero_add]

/-! ## contents from any state -/

/-- What the cycles `cs` out of clear make of the datapath `s`: every cell takes
the words that are sent to it. -/
structure Contents (s : Fifo α) (cs : List (Cycle α)) (t : Fifo α) : Prop where
  wrPtr : t.wrPtr = s.wrPtr + BitVec.ofNat fwidth (writes cs)
  rdPtr : t.rdPtr = s.rdPtr + BitVec.ofNat fwidth (reads cs)
  cell : ∀ i, WriteLog.Holds (SentTo s.wrPtr i) (written cs) (s.memblk.fifo i) (t.memblk.fifo i)

theorem contents_nil (s : Fifo α) : Contents s [] s where
  wrPtr := by simp
  rdPtr := by simp
  cell := fun _ => WriteLog.holds_nil

/-- **Contents step**: both pointers advance on their requests, and a write
goes where the write pointer was. -/
theorem Contents.step {s t : Fifo α} {cs : List (Cycle α)} (h : Contents s cs t) (c : Cycle α)
    (hc : c.fClrN = true) : Contents s (cs ++ [c]) (t.step c) where
  wrPtr := by
    rw [Fifo.toRegs_step, Regs.wrPtr_next _ hc, writes_concat, h.wrPtr]
    cases c.fInN <;> simp [BitVec.ofNat_add, BitVec.add_assoc]
  rdPtr := by
    rw [Fifo.toRegs_step, Regs.rdPtr_next _ hc, reads_concat, h.rdPtr]
    cases c.fOutN <;> simp [BitVec.ofNat_add, BitVec.add_assoc]
  cell := by
    intro i
    have hlen : t.wrPtr.toNat = i ↔ SentTo s.wrPtr i (written cs).length := by
      rw [SentTo, length_written, h.wrPtr]
    rw [Fifo.fifo_step, written_concat]
    cases hin : c.fInN with
    | true => simpa using h.cell i
    | false =>
        by_cases hi : t.wrPtr.toNat = i
        · simpa [hi] using WriteLog.Holds.take (hlen.mp hi)
        · simpa [hi] using (h.cell i).pass (mt hlen.mpr hi)

/-- The contents after any run out of clear. -/
theorem contents_run (s : Fifo α) (cs : List (Cycle α)) (hclr : ∀ c ∈ cs, c.fClrN = true) :
    Contents s cs (s.run cs) := by
  induction cs using List.reverseRecOn with
  | nil => exact contents_nil s
  | append_singleton cs c ih =>
      rw [Fifo.run_concat]
      exact (ih fun d hd => hclr d (by simp [hd])).step c (hclr c (by simp))

/-- Where every word written is the same, so is every cell that was sent one. -/
theorem Contents.cell_eq {s t : Fifo α} {cs : List (Cycle α)} (h : Contents s cs t) {d : α}
    (hd : ∀ c ∈ cs, c.dataIn = d) {i : Fin fdepth} {j : Nat} (hj : j < writes cs)
    (hi : SentTo s.wrPtr i j) : t.memblk.fifo i = d := by
  rw [← length_written] at hj
  obtain ⟨c, hc, hx⟩ := List.mem_filterMap.mp ((h.cell i).mem hj hi)
  rw [← hd c hc]
  grind

/-! ## contents since a reset or a clear -/

/-- **Exact contents**: since a reset or a clear both pointers count their
requests modulo `2 ^ 32`, a cell holds the latest word whose position is
congruent to its index, or else what the reset or the clear left there, and
`F_Data` is the cell under the read pointer. -/
theorem contents_exact [HasX α] (t : Fifo α) (ht : t.Started) (cs : List (Cycle α))
    (hclr : ∀ c ∈ cs, c.fClrN = true) :
    (t.run cs).wrPtr.toNat = writes cs % 2 ^ 32 ∧
    (t.run cs).rdPtr.toNat = reads cs % 2 ^ 32 ∧
    (∀ i : Fin fdepth,
      (∃ j, j < writes cs ∧ j % 2 ^ 32 = i ∧
        (∀ k, j < k → k < writes cs → k % 2 ^ 32 ≠ i) ∧
        (written cs)[j]? = some ((t.run cs).memblk.fifo i)) ∨
      (∀ j, j < writes cs → j % 2 ^ 32 ≠ i) ∧
        (t.run cs).memblk.fifo i = t.memblk.fifo i) ∧
    (∀ i : Fin fdepth, reads cs % 2 ^ 32 = i → (t.run cs).fData = (t.run cs).memblk.fifo i) ∧
    (fdepth ≤ reads cs % 2 ^ 32 → (t.run cs).fData = HasX.x) ∧
    (∀ (s : Fifo α) (c : Cycle α), c.fClrN = false → t = s.step c → ∀ i : Fin fdepth,
      t.memblk.fifo i =
        if c.fInN = false ∧ s.wrPtr.toNat = i then c.dataIn else s.memblk.fifo i) := by
  have h := contents_run t cs hclr
  have hwr : (t.run cs).wrPtr.toNat = writes cs % 2 ^ 32 := by
    rw [h.wrPtr, ht.toRegs_eq]
    exact toNat_zero_add _
  have hrd : (t.run cs).rdPtr.toNat = reads cs % 2 ^ 32 := by
    rw [h.rdPtr, ht.toRegs_eq]
    exact toNat_zero_add _
  have hp : t.wrPtr = 0 := by rw [ht.toRegs_eq]; rfl
  refine ⟨hwr, hrd, ?_, ?_, ?_, ?_⟩
  · intro i
    have hcell := (h.cell i).congr fun j => hp ▸ sentTo_zero
    rw [WriteLog.Holds, length_written] at hcell
    cases hcell with
    | inl hcell =>
        obtain ⟨j, hj, hd⟩ := hcell
        exact Or.inl ⟨j, hj.lt, hj.holds, hj.last, hd⟩
    | inr hcell => exact Or.inr hcell
  · intro i hi
    have hptr : (t.run cs).rdPtr.toNat = i := hrd.trans hi
    have hcell : (⟨(t.run cs).rdPtr.toNat, hptr ▸ i.isLt⟩ : Fin fdepth) = i := Fin.ext hptr
    rw [Fifo.fData, FifoMemBlk.dataOut_of_lt _ (hptr ▸ i.isLt), hcell]
  · intro hge
    rw [← hrd] at hge
    rw [Fifo.fData, FifoMemBlk.dataOut_of_ge _ hge]
  · rintro s c - rfl i
    exact Fifo.fifo_step s c i

/-- A word stored by the clear cycle itself, at the old pointer, is still there
when one word was written and one read since. -/
theorem contents_exact_clearWrite :
    ((((Fifo.powerUp.run [FifoOp.write.cycle 1]).step (FifoOp.clearWrite.cycle 2)).run
      [FifoOp.write.cycle 3, FifoOp.read.cycle 0]).fData : Word) = .ofBits 2 :=
  have h := contents_exact
    ((Fifo.powerUp.run [FifoOp.write.cycle 1]).step (FifoOp.clearWrite.cycle 2))
    (.clear _ _ rfl) [FifoOp.write.cycle 3, FifoOp.read.cycle 0] (by decide)
  (h.2.2.2.1 1 (by decide)).trans rfl

end BasicFifo
