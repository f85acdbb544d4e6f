import BasicFifo.Datapath

/-!
# BasicFifo.Clear

What a clear hides of the data written before it.

A clear zeroes the pointers and the flags but no memory cell, and afterwards
both pointers move on every request while `F_EmptyN` follows the latest one.
A `Trail` of the requests since the clear says where the pointers are, how many
cells were written again and what `F_EmptyN` claims; the claim is `Stale` when
the read pointer is at a cell that was not.  `clear_hides_iff` shows that this
is exactly when a word from before the clear can be presented as output.
-/

namespace BasicFifo

open FourState

/-! ## the trail -/

/-- A summary of the requests since a clear, later clears included. -/
structure Trail where
  /-- Write requests since the latest clear. -/
  writes : Nat
  /-- Read requests since the latest clear. -/
  reads : Nat
  /-- Cells written in order since the first clear, over all later ones. -/
  high : Nat
  /-- The latest request since the latest clear asserted `FInN`. -/
  fresh : Bool
deriving DecidableEq, Repr

/-- One more cycle.  A clear cycle that asserts `FInN` still writes a cell. -/
def Trail.next (t : Trail) (i : Req) : Trail :=
  let high := if i.fInN then t.high else max t.high (t.writes + 1)
  if i.fClrN then
    { writes := if i.fInN then t.writes else t.writes + 1
      reads := if i.fOutN then t.reads else t.reads + 1
      high
      fresh := i.op.fresh t.fresh }
  else { writes := 0, reads := 0, high, fresh := false }

/-- The trail of the cycles `cs`. -/
def trail (cs : List (Cycle α)) : Trail :=
  Run.run (fun t c => t.next c.toReq) ⟨0, 0, 0, false⟩ cs

@[simp] theorem trail_concat (cs : List (Cycle α)) (c : Cycle α) :
    trail (cs ++ [c]) = (trail cs).next c.toReq := Run.run_concat cs c

/-- The design claims a word while its read pointer is at a cell that was not
written since the first clear. -/
def Trail.Stale (t : Trail) : Prop :=
  t.fresh = true ∧ t.reads % 2 ^ 32 < 4 ∧ t.high ≤ t.reads % 2 ^ 32

instance : Decidable (Trail.Stale t) := by unfold Trail.Stale; infer_instance

theorem Trail.writes_le_high_next {t : Trail} (h : t.writes ≤ t.high) (i : Req) :
    (t.next i).writes ≤ (t.next i).high := by
  simp only [next]
  cases i.fClrN <;> cases i.fInN <;> grind

/-- Cells counted as written stay written. -/
theorem Trail.high_le_next (t : Trail) (i : Req) : t.high ≤ (t.next i).high := by
  simp only [next]
  cases i.fClrN <;> cases i.fInN <;> grind

/-! ## the trail and the module -/

/-- A state a trail leads to, from a clear that left the memory `m`. -/
structure Trailed (m : FifoMemBlk α) (t : Trail) (s : Fifo α) : Prop where
  writes_le : t.writes ≤ t.high
  wrPtr : s.wrPtr = BitVec.ofNat fwidth t.writes
  rdPtr : s.rdPtr = BitVec.ofNat fwidth t.reads
  fEmptyN : s.fEmptyN = t.fresh
  firstShown : FirstShown s.toRegs
  untouched : ∀ i : Fin fdepth, t.high ≤ i → s.memblk.fifo i = m.fifo i

theorem trailed_of_toRegs_eq {s : Fifo α} (h : s.toRegs = Regs.reset) :
    Trailed s.memblk ⟨0, 0, 0, false⟩ s := by
  obtain ⟨r, m⟩ := s
  simp only at h
  subst h
  exact ⟨Nat.le_refl _, rfl, rfl, rfl, firstShown_reset, fun _ _ => rfl⟩

theorem Trailed.next {m : FifoMemBlk α} {t : Trail} {s : Fifo α} (h : Trailed m t s)
    (c : Cycle α) : Trailed m (t.next c.toReq) (s.step c) := by
  have hcell : ∀ i : Fin fdepth, (t.next c.toReq).high ≤ i →
      (s.step c).memblk.fifo i = m.fifo i := by
    intro i hi
    have hle := Nat.le_trans (t.high_le_next c.toReq) hi
    have hout : ¬ (c.fInN = false ∧ s.wrPtr.toNat = i) := by
      rintro ⟨hin, hptr⟩
      -- the cell written is below the mark that now includes it
      have hnext : t.writes + 1 ≤ (t.next c.toReq).high := by
        simp only [Trail.next]
        cases c.fClrN <;> grind
      have hwr : s.wrPtr.toNat ≤ t.writes := by
        rw [h.wrPtr, BitVec.toNat_ofNat]
        exact Nat.mod_le _ _
      omega
    rw [Fifo.fifo_step, if_neg hout]
    exact h.untouched i hle
  cases hclr : c.fClrN with
  | false =>
      have hregs : (s.step c).toRegs = Regs.reset := Fifo.toRegs_step_clear s c hclr
      refine ⟨Trail.writes_le_high_next h.writes_le _, ?_, ?_, ?_, ?_, hcell⟩
      · rw [hregs]; simp [Trail.next, hclr]; rfl
      · rw [hregs]; simp [Trail.next, hclr]; rfl
      · rw [hregs]; simp [Trail.next, hclr]; rfl
      · rw [hregs]; exact firstShown_reset
  | true =>
      refine ⟨Trail.writes_le_high_next h.writes_le _, ?_, ?_, ?_, ?_, hcell⟩
      · rw [Fifo.toRegs_step, Regs.wrPtr_next _ hclr, h.wrPtr]
        cases hin : c.fInN <;> simp [Trail.next, hclr, hin, BitVec.ofNat_add]
      · rw [Fifo.toRegs_step, Regs.rdPtr_next _ hclr, h.rdPtr]
        cases hout : c.fOutN <;> simp [Trail.next, hclr, hout, BitVec.ofNat_add]
      · rw [Fifo.toRegs_step, h.firstShown.fEmptyN_next, h.fEmptyN]
        simp [Trail.next, hclr]
      · exact h.firstShown.next c.toReq

/-- A run out of a clear follows its trail. -/
theorem trailed_run {s : Fifo α} (h : s.toRegs = Regs.reset) (cs : List (Cycle α)) :
    Trailed s.memblk (trail cs) (s.run cs) :=
  Run.run_induct Fifo.step s (fun pre t => Trailed s.memblk (trail pre) t) (trailed_of_toRegs_eq h)
    (fun pre t c ht => by rw [trail_concat]; exact ht.next c) cs

theorem Trailed.toNat_rdPtr {m : FifoMemBlk α} {t : Trail} {s : Fifo α} (h : Trailed m t s) :
    s.rdPtr.toNat = t.reads % 2 ^ 32 := by
  rw [h.rdPtr, BitVec.toNat_ofNat]

/-- What the mark counts as written was written. -/
theorem writtenSince_of_lt_high {s : Fifo α} (h : s.toRegs = Regs.reset) (cs : List (Cycle α))
    (n : Nat) (hn : n < (trail cs).high) : WrittenSince s cs (BitVec.ofNat fwidth n) := by
  induction cs using List.reverseRecOn with
  | nil => exact absurd hn (Nat.not_lt_zero n)
  | append_singleton cs c ih =>
      by_cases hlt : n < (trail cs).high
      · exact (ih hlt).concat c
      · -- the mark went up, so the last cycle wrote at the write pointer
        have ht := trailed_run h cs
        have hle := ht.writes_le
        rw [trail_concat] at hn
        have hlast : c.fInN = false ∧ n = (trail cs).writes := by
          simp only [Trail.next] at hn
          cases hin : c.fInN <;> cases hclr : c.fClrN <;> simp [hin, hclr] at hn ⊢ <;> omega
        refine ⟨cs.length, by simp, by simpa using hlast.1, ?_⟩
        rw [List.take_left, ht.wrPtr, hlast.2]

/-! ## what is presented after a clear -/

/-- A fresh word under the read pointer is a word written since the clear. -/
theorem fData_eq_of_not_stale {s₁ s₂ : Fifo Word} (h₁ : s₁.toRegs = Regs.reset)
    (h₂ : s₂.toRegs = Regs.reset) (cs : List (Cycle Word)) (hns : ¬ (trail cs).Stale)
    (he : (s₁.run cs).fEmptyN = true) : (s₁.run cs).fData = (s₂.run cs).fData := by
  have ht := trailed_run h₁ cs
  obtain ⟨hregs, hcells⟩ := run_eq_of_toRegs_eq (h₁.trans h₂.symm) cs
  rw [Fifo.fData, Fifo.fData, ← hregs]
  simp only [FifoMemBlk.dataOut]
  split
  · next hlt =>
      have hlow : (s₁.run cs).rdPtr.toNat < (trail cs).high := by
        rw [ht.toNat_rdPtr] at hlt ⊢
        apply Nat.lt_of_not_le
        intro hhigh
        exact hns ⟨ht.fEmptyN.symm.trans he, hlt, hhigh⟩
      exact hcells _ (writtenSince_of_lt_high h₁ cs _ hlow)
  · rfl

/-- A full FIFO of one word, four times over. -/
def filled (d : Bits) : Fifo Word := Fifo.powerUp.run (List.replicate 4 (FifoOp.write.cycle d))

theorem reachable_filled (d : Bits) : Fifo.Reachable (filled d) := Fifo.Reachable.powerUp.run _

/-- A clear leaves all four words of a full FIFO in memory, whether or not it
comes with a write: the write pointer is beyond the last cell. -/
theorem fifo_filled_step (d : Bits) (c : Cycle Word) (i : Fin fdepth) :
    ((filled d).step c).memblk.fifo i = .ofBits d := by
  have hcell : (filled d).memblk.fifo i = .ofBits d := by
    match i with
    | 0 | 1 | 2 | 3 => rfl
  have hptr : (filled d).wrPtr.toNat = 4 := rfl
  have hout : ¬ (c.fInN = false ∧ (filled d).wrPtr.toNat = i) := by
    rw [hptr]
    exact fun h => Nat.ne_of_gt i.isLt h.2
  rw [Fifo.fifo_step, if_neg hout, hcell]

/-- **Clear**: the words from before a clear stay hidden exactly while no cycle
after it is stale. -/
theorem clear_hides_iff (c : Cycle Word) (hc : c.fClrN = false) (cs : List (Cycle Word)) :
    (∀ s₁ s₂ : Fifo Word, s₁.Reachable → s₂.Reachable → ∀ k,
      ((s₁.step c).run (cs.take k)).fEmptyN = true →
        ((s₁.step c).run (cs.take k)).fData = ((s₂.step c).run (cs.take k)).fData) ↔
      ∀ k, ¬ (trail (cs.take k)).Stale := by
  constructor
  · rintro h k ⟨hfresh, hlt, hhigh⟩
    have hclear : ∀ d, ((filled d).step c).toRegs = Regs.reset := fun d =>
      Fifo.toRegs_step_clear _ _ hc
    have hdata : ∀ d, (((filled d).step c).run (cs.take k)).fData = .ofBits d := by
      intro d
      have ht := trailed_run (hclear d) (cs.take k)
      have hptr := ht.toNat_rdPtr
      rw [Fifo.fData, FifoMemBlk.dataOut_of_lt _ (lt_of_eq_of_lt hptr hlt),
        ht.untouched _ (le_of_le_of_eq hhigh hptr.symm), fifo_filled_step]
    have heq := h (filled 0) (filled 1) (reachable_filled 0) (reachable_filled 1) k
      ((trailed_run (hclear 0) (cs.take k)).fEmptyN.trans hfresh)
    rw [hdata, hdata, LogicVec.ofBits_inj] at heq
    exact absurd heq (by decide)
  · intro hns s₁ s₂ _ _ k he
    exact fData_eq_of_not_stale (Fifo.toRegs_step_clear _ _ hc) (Fifo.toRegs_step_clear _ _ hc)
      (cs.take k) (hns k) he

/-- A write after a clear hides everything from before it. -/
theorem clear_hides_write :
    (((filled 1).step (FifoOp.clear.cycle 0)).run [FifoOp.write.cycle 5]).fData =
      ((Fifo.powerUp.step (FifoOp.clear.cycle 0)).run [FifoOp.write.cycle 5]).fData := by
  have hns : ∀ k, ¬ (trail ([FifoOp.write.cycle 5].take k)).Stale := by
    intro k
    cases k with
    | zero => decide
    | succ k =>
        rw [List.take_of_length_le (by simp)]
        decide
  exact (clear_hides_iff (FifoOp.clear.cycle 0) rfl [FifoOp.write.cycle 5]).mpr hns
    (filled 1) Fifo.powerUp (reachable_filled 1) .powerUp 1 rfl

/-- A simultaneous request after a clear presents the second word from before
it as valid output. -/
theorem clear_reveals :
    ¬ ∀ (c : Cycle Word), c.fClrN = false → ∀ (cs : List (Cycle Word)) (s₁ s₂ : Fifo Word),
      s₁.Reachable → s₂.Reachable → ∀ k,
      ((s₁.step c).run (cs.take k)).fEmptyN = true →
        ((s₁.step c).run (cs.take k)).fData = ((s₂.step c).run (cs.take k)).fData := by
  intro h
  have h1 := h (FifoOp.clear.cycle 0) rfl [FifoOp.readWrite.cycle 9] (filled 0) (filled 1)
    (reachable_filled 0) (reachable_filled 1) 1 rfl
  revert h1
  decide

end BasicFifo
