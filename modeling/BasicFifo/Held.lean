import BasicFifo.Sequential

/-!
# BasicFifo.Held

The environment while `Rst_N` is held low: the design shows the reset outputs
whatever is asked of it, the model clears its queue on every transaction, and
the memory block, which has no reset, goes on writing.
-/

namespace BasicFifo

open FourState Transition

/-! ## the checker -/

/-- A transaction sampled under reset. -/
def UnderReset (t : TransFifo) : Prop := ∃ c d, t = .capture false c ⟨Flags.row 0, d⟩

/-- Under reset the model expects what the design shows, whatever it held. -/
theorem UnderReset.matched {t : TransFifo} (h : UnderReset t) (s : ScbFifo) :
    s.matched t = true := by
  obtain ⟨c, d, rfl⟩ := h
  rfl

theorem checks_underReset {ts : List TransFifo} (h : ∀ t ∈ ts, UnderReset t) :
    (ScbFifo.new.checks ts).errorCount = 0 ∧
      (ScbFifo.new.checks ts).passCount = BitVec.ofNat 32 ts.length := by
  induction ts using List.reverseRecOn with
  | nil => exact ⟨rfl, rfl⟩
  | append_singleton ts t ih =>
      obtain ⟨herror, hpass⟩ := ih fun u hu => h u (by simp [hu])
      have hmatched := (h t (by simp)).matched (ScbFifo.new.checks ts)
      rw [ScbFifo.checks_concat, ScbFifo.check_eq, if_pos hmatched, if_pos hmatched, herror, hpass,
        List.length_append, List.length_singleton, BitVec.ofNat_add]
      exact ⟨rfl, rfl⟩

/-! ## the design -/

/-- One edge under reset is enough. -/
theorem toRegs_clockedBy_false (dut : Fifo Word) {cs : List (Cycle Word)} (hcs : cs ≠ []) :
    (clockedBy false dut cs).toRegs = Regs.reset := by
  cases cs using List.reverseRecOn with
  | nil => exact absurd rfl hcs
  | append_singleton cs c =>
      rw [clockedBy, Run.run_concat]
      exact Regs.next_reset _ _

/-- Under reset every write goes to the first cell. -/
theorem fifo_clockedBy_false (dut : Fifo Word) (c : Cycle Word) (cs : List (Cycle Word))
    (i : Fin fdepth) :
    (clockedBy false dut (c :: cs)).memblk.fifo i =
      if i = 0 then (written cs).getLast?.getD ((dut.posedge false c).memblk.fifo i)
      else (dut.posedge false c).memblk.fifo i := by
  induction cs using List.reverseRecOn with
  | nil => simp [clockedBy]
  | append_singleton cs d ih =>
      have hregs := toRegs_clockedBy_false dut (List.cons_ne_nil c cs)
      rw [← List.cons_append, clockedBy, Run.run_concat, ← clockedBy]
      have hptr : (clockedBy false dut (c :: cs)).wrPtr = 0 := by rw [hregs]; rfl
      show ((clockedBy false dut (c :: cs)).memblk.posedge d.fInN _ d.dataIn).fifo i = _
      rw [hptr]
      cases hin : d.fInN with
      | true => simpa [hin] using ih
      | false =>
          rw [FifoMemBlk.fifo_posedge_write, ih]
          by_cases hi : i = 0
          · simp [hi, hin]
          · have hne : (i : Nat) ≠ (0 : BitVec fwidth).toNat := fun heq => hi (Fin.ext heq)
            rw [if_neg hne, if_neg hi, if_neg hi]

/-! ## the environment -/

section
variable {b : Bench} {tr : List Event} {s : EnvFifo}

theorem Bench.underReset_sample (b : Bench) (hr : b.vif.rstN = false) (k : Nat) :
    UnderReset (b.sample k) := by
  refine ⟨b.inputs (k + 1), (b.design (k + 2)).fData, ?_⟩
  have hregs : (b.design (k + 2)).toRegs = Regs.reset := by
    rw [Bench.design, hr]
    exact toRegs_clockedBy_false _ (by simp)
  rw [Bench.sample, hr, Fifo.outs, hregs]
  rfl

/-- **Held in reset**: whatever state the design starts in, whatever is asked of
it and in whatever order the processes go on, every check made while `Rst_N` is
low passes and the registers are those of reset from the first edge on; yet the
data of every write after that edge ends up in the first cell. -/
theorem env_held_in_reset (hr : b.vif.rstN = false)
    (h : Exec EnvFifo.Step (EnvFifo.build b.vif b.dut b.calls) tr s) :
    (edges tr ≠ [] → s.dut.toRegs = Regs.reset) ∧
    (s.scb.completed = true → s.scb.errorCount = 0 ∧ s.scb.passCount.toNat = b.rounds) ∧
    ∀ c cs, edges tr = c :: cs → ∀ i, s.dut.memblk.fifo i =
      if i = 0 then (written cs).getLast?.getD ((b.dut.posedge false c).memblk.fifo i)
      else (b.dut.posedge false c).memblk.fifo i := by
  have hdut := dut_exec h
  rw [hr] at hdut
  refine ⟨?_, ?_, ?_⟩
  · intro hne
    rw [hdut]
    exact toRegs_clockedBy_false _ hne
  · intro hc
    have hlt : b.rounds < 2 ^ 31 := by
      rw [b.rounds_eq]
      split <;> omega
    have hunder : ∀ t ∈ (List.range b.rounds).map b.sample, UnderReset t := by
      intro t ht
      obtain ⟨k, -, rfl⟩ := List.mem_map.mp ht
      exact b.underReset_sample hr k
    obtain ⟨herror, hpass⟩ := checks_underReset hunder
    rw [(scb_completed h hc).2]
    refine ⟨herror, ?_⟩
    show (ScbFifo.new.checks ((List.range b.rounds).map b.sample)).passCount.toNat = _
    rw [hpass, List.length_map, List.length_range, BitVec.toNat_ofNat, Nat.mod_eq_of_lt (by omega)]
  · intro c cs hcs i
    rw [hdut, hcs]
    exact fifo_clockedBy_false b.dut c cs i

/-- A word written under reset is in the first cell, and no check failed. -/
theorem env_held_in_reset_write :
    ∃ tr s, Exec EnvFifo.Step (EnvFifo.build { InfFifo.idle Fifo.powerUp with rstN := false }
        Fifo.powerUp [⟨.write, .manual, 5, 0⟩]) tr s ∧
      s.scb.errorCount = 0 ∧ s.dut.memblk.fifo 0 = .ofBits 5 := by
  have h := exec_after ⟨{ InfFifo.idle Fifo.powerUp with rstN := false }, Fifo.powerUp,
    [⟨.write, .manual, 5, 0⟩]⟩ 2
  obtain ⟨-, hscb, hcell⟩ := env_held_in_reset rfl h
  exact ⟨_, _, h, (hscb rfl).1, (hcell _ _ rfl 0).trans rfl⟩

end

end BasicFifo
