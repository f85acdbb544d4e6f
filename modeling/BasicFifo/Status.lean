import BasicFifo.Control

/-!
# BasicFifo.Status

What the status outputs of module `fifo` say over whole runs, with the exact
condition on the requests under which they say it.

* `flags_eq_predict_iff` — the five flags against the reference model;
* `flags_match_counter_iff` — the four level flags against `fcounter`;
* `flow_control_iff` — the flags a user steers by against the words written
  and read, for users that obey them.

Each condition fails at an operation that two of the always blocks treat
differently, and each result is followed by a shortest run that shows it.
-/

namespace BasicFifo

open FourState

/-! ## flags against the reference model -/

/-- The state after the cycles `pre` is in sync, `F_FirstN` included. -/
def RowSync (pre : List (Cycle α)) (s : Fifo α) : Prop :=
  InSync (stored pre) s.toRegs ∧ s.toFlags = Flags.row (stored pre)

/-- **Flag refinement**: the registered flags equal the flags of `predict` after
every cycle exactly when no cycle reads with a word stored and none asserts
both requests on an empty or a full FIFO. -/
theorem flags_eq_predict_iff (s : Fifo Word) (i : Req) (held cs : List (Cycle Word)) :
    (∀ k (hk : k < cs.length),
      let dut := s.assertReset i held
      let model := FifoModel.new.observe (dut.monitored (cs.take k))
      let after := dut.run (cs.take (k + 1))
      after.toFlags.logic = (model.predict (.capture true cs[k] after.outs)).2.flags) ↔
    ∀ k (hk : k < cs.length), Predicted (stored (cs.take k)) cs[k].op := by
  have hreset : RowSync [] (s.assertReset i held) := by
    rw [RowSync, Fifo.toRegs_assertReset]
    exact ⟨inSync_reset, rfl⟩
  rw [← Run.forall_run_iff Fifo.step (s.assertReset i held) (fun _ _ _ => True) RowSync
    (fun pre t => t.toFlags = Flags.row (stored pre))
    (fun pre c => Predicted (stored pre) c.op) hreset (fun _ _ h => h.2)
    _ _ cs (fun _ _ => trivial)]
  · rw [Run.forall_take_iff (Q := fun pre =>
      (Run.run Fifo.step (s.assertReset i held) pre).toFlags = Flags.row (stored pre)) hreset.2]
    apply forall_congr'
    intro k
    apply forall_congr'
    intro hk
    simp only [List.take_succ_eq_append_getElem hk, flags_predict_monitored, Flags.logic_inj]
    rfl
  · intro pre t c h _ hc
    rw [RowSync, stored_concat]
    exact ⟨h.1.next c.toReq hc.steady, h.1.next_row h.2 c.toReq hc⟩
  · intro pre t c h _ hc
    rw [stored_concat]
    exact h.1.next_ne_row c.toReq hc

/-- Writing two words and reading one leaves the model with a word and the
design claiming to be empty. -/
theorem flags_ne_predict :
    ¬ ∀ (s : Fifo Word) (i : Req) (held cs : List (Cycle Word)) (k : Nat) (hk : k < cs.length),
      let dut := s.assertReset i held
      let model := FifoModel.new.observe (dut.monitored (cs.take k))
      let after := dut.run (cs.take (k + 1))
      after.toFlags.logic = (model.predict (.capture true cs[k] after.outs)).2.flags := by
  intro h
  have h2 := h Fifo.powerUp FifoOp.idle.req []
    [FifoOp.write.cycle 1, FifoOp.write.cycle 2, FifoOp.read.cycle 0] 2 (by decide)
  revert h2
  decide

/-! ## flags against the counter -/

/-- The level flags are functions of the counter value. -/
def FlagsMatchCounter (r : Regs) : Prop :=
  (r.fEmptyN = false ↔ r.fcounter = 0) ∧ (r.fSLastN = false ↔ r.fcounter = 2) ∧
    (r.fLastN = false ↔ r.fcounter = 3) ∧ (r.fFullN = false ↔ r.fcounter = 4)

instance : Decidable (FlagsMatchCounter r) := by unfold FlagsMatchCounter; infer_instance

theorem InSync.flagsMatchCounter {n : Nat} {r : Regs} (h : InSync n r) : FlagsMatchCounter r := by
  rw [FlagsMatchCounter, h.fEmptyN, h.fSLastN, h.fLastN, h.fFullN, h.fcounter]
  match n, h.le with
  | 0, _ | 1, _ | 2, _ | 3, _ | 4, _ => decide

/-- The first operation that is not steady tears flags and counter apart. -/
theorem InSync.not_flagsMatchCounter {n : Nat} {r : Regs} (h : InSync n r) (i : Req)
    (hi : ¬ Steady n i.op) : ¬ FlagsMatchCounter (r.next true i) := by
  rintro ⟨he, -, -, hu⟩
  have hle : n ≤ 4 := h.le
  obtain ⟨o, rfl⟩ := i.exists_op
  rw [FifoOp.op_req] at hi
  obtain hread | hboth := not_and_or.mp hi
  · obtain ⟨rfl, hn⟩ := Classical.not_imp.mp hread
    obtain ⟨hempty, hcount⟩ := h.read_next (by omega)
    rw [hempty, hcount] at he
    -- the counter went down from `n ≥ 2`, so it is not zero
    have hzero := he.mp rfl
    obtain rfl | rfl | rfl : n = 2 ∨ n = 3 ∨ n = 4 := by omega
    all_goals exact absurd hzero (by decide)
  · obtain ⟨rfl, hn⟩ := Classical.not_imp.mp hboth
    rw [fdepth] at hn
    obtain ⟨hempty, hfull, hcount⟩ := h.readWrite_next
    rw [hempty, hcount] at he
    rw [hfull, hcount] at hu
    obtain rfl | rfl : n = 0 ∨ n = 4 := by omega
    · exact absurd (he.mpr rfl) (by decide)
    · exact absurd (hu.mpr rfl) (by decide)

/-- **Flags and counter**: the level flags follow `fcounter` in every state of a
run exactly when no cycle reads with a second word stored and none asserts
both requests on an empty or a full FIFO. -/
theorem flags_match_counter_iff (s : Fifo Word) (i : Req) (held cs : List (Cycle Word)) :
    (∀ k, FlagsMatchCounter ((s.assertReset i held).run (cs.take k)).toRegs) ↔
      ∀ k (hk : k < cs.length), Steady (stored (cs.take k)) cs[k].op := by
  refine Run.forall_run_iff Fifo.step (s.assertReset i held) (fun _ _ _ => True)
    (fun pre t => InSync (stored pre) t.toRegs) (fun _ t => FlagsMatchCounter t.toRegs)
    (fun pre c => Steady (stored pre) c.op) ?_ (fun _ _ h => h.flagsMatchCounter)
    ?_ ?_ cs (fun _ _ => trivial)
  · rw [Fifo.toRegs_assertReset]
    exact inSync_reset
  · intro pre t c h _ hc
    rw [stored_concat]
    exact h.next c.toReq hc
  · intro pre t c h _ hc
    exact h.not_flagsMatchCounter c.toReq hc

/-- A simultaneous request on the reset FIFO deasserts `F_EmptyN` and leaves
the counter at zero. -/
theorem flags_not_match_counter :
    ¬ ∀ (s : Fifo Word) (i : Req) (held cs : List (Cycle Word)) (k : Nat),
      FlagsMatchCounter ((s.assertReset i held).run (cs.take k)).toRegs := by
  intro h
  have h1 := h Fifo.powerUp FifoOp.idle.req [] [FifoOp.readWrite.cycle 1] 1
  revert h1
  decide

/-! ## flow control -/

/-- A user that obeys the flags: no clear, no write on a claimed full FIFO, no
read on a claimed empty one. -/
def Obeys (r : Regs) (i : Req) : Prop :=
  i.fClrN = true ∧ (i.fInN = false → r.fFullN = true) ∧ (i.fOutN = false → r.fEmptyN = true)

instance : Decidable (Obeys r i) := by unfold Obeys; infer_instance

/-- The registers show the words written and not read. -/
def FlowSync (pre : List (Cycle α)) (s : Fifo α) : Prop :=
  reads pre ≤ writes pre ∧ InSync (writes pre - reads pre) s.toRegs

/-- Flow control is safe: never more than the depth in flight, no word behind a
false empty, no false full and no missed full. -/
def FlowSafe (pre : List (Cycle α)) (s : Fifo α) : Prop :=
  reads pre ≤ writes pre ∧ writes pre ≤ reads pre + 4 ∧
    (s.fEmptyN = false ↔ writes pre = reads pre) ∧
    (s.fFullN = false ↔ writes pre = reads pre + 4)

instance {pre : List (Cycle α)} {s : Fifo α} : Decidable (FlowSafe pre s) := by
  unfold FlowSafe; infer_instance

theorem FlowSync.flowSafe {pre : List (Cycle α)} {s : Fifo α} (h : FlowSync pre s) :
    FlowSafe pre s := by
  obtain ⟨hle, hsync⟩ := h
  have hdepth : writes pre - reads pre ≤ 4 := hsync.le
  rw [FlowSafe, hsync.fEmptyN, hsync.fFullN, bne_eq_false_iff_eq, bne_eq_false_iff_eq, fdepth]
  omega

/-- Room is left when `F_FullN` is deasserted. -/
theorem InSync.lt_four {n : Nat} {r : Regs} (h : InSync n r) (hu : r.fFullN = true) : n < 4 := by
  have hle : n ≤ 4 := h.le
  have hne : n ≠ 4 := by
    rintro rfl
    rw [h.fFullN] at hu
    contradiction
  omega

/-- A word is stored when `F_EmptyN` is deasserted. -/
theorem InSync.one_le {n : Nat} {r : Regs} (h : InSync n r) (he : r.fEmptyN = true) : 1 ≤ n := by
  apply Nat.pos_of_ne_zero
  rintro rfl
  rw [h.fEmptyN] at he
  contradiction

/-- An obedient user that reads no second word keeps the registers in step. -/
theorem FlowSync.step {pre : List (Cycle α)} {s : Fifo α} (h : FlowSync pre s) (c : Cycle α)
    (hob : Obeys s.toRegs c.toReq) (hc : c.op = .read → writes pre ≤ reads pre + 1) :
    FlowSync (pre ++ [c]) (s.step c) := by
  obtain ⟨hle, hsync⟩ := h
  obtain ⟨hclr, hin, hout⟩ := hob
  obtain ⟨r, d⟩ := c
  obtain ⟨o, rfl⟩ := r.exists_op
  simp only [FifoOp.op_req] at hin hout hclr hc
  rw [FlowSync, writes_concat, reads_concat, Fifo.toRegs_step]
  cases o with
  | clear | clearRead | clearWrite | clearReadWrite => exact absurd hclr (by decide)
  | idle =>
      rw [Regs.next_idle]
      exact ⟨hle, hsync⟩
  | write =>
      have hn := hsync.lt_four (hin rfl)
      have hnext := hsync.write
      rw [FifoOp.level_write, if_pos (by omega)] at hnext
      refine ⟨by simp [FifoOp.req]; omega, ?_⟩
      convert hnext using 1
      simp [FifoOp.req]
      omega
  | read =>
      have hn := hsync.one_le (hout rfl)
      have hnext := hsync.read (by have := hc rfl; omega)
      refine ⟨by simp [FifoOp.req]; omega, ?_⟩
      convert hnext using 1
      simp [FifoOp.req]
      omega
  | readWrite =>
      have hnext := hsync.readWrite ⟨hsync.one_le (hout rfl), hsync.lt_four (hin rfl)⟩
      refine ⟨by simp [FifoOp.req]; omega, ?_⟩
      convert hnext using 1
      simp [FifoOp.req]

/-- A read of an obedient user with a second word stored strands the rest
behind a false empty. -/
theorem FlowSync.not_flowSafe {pre : List (Cycle α)} {s : Fifo α} (h : FlowSync pre s)
    (c : Cycle α) (ho : c.op = .read) (hn : reads pre + 2 ≤ writes pre) :
    ¬ FlowSafe (pre ++ [c]) (s.step c) := by
  obtain ⟨-, hsync⟩ := h
  rintro ⟨-, -, hempty, -⟩
  obtain ⟨r, d⟩ := c
  obtain ⟨o, rfl⟩ := r.exists_op
  rw [FifoOp.op_req] at ho
  subst ho
  rw [Fifo.toRegs_step, (hsync.read_next (by omega)).1, writes_concat, reads_concat] at hempty
  simp only [FifoOp.req, true_iff] at hempty
  simp at hempty
  omega

/-- **Flow control**: for a user that obeys the flags, flow control is safe in
every state of the run exactly when no cycle reads with a second word unread. -/
theorem flow_control_iff (s : Fifo Word) (i : Req) (held cs : List (Cycle Word))
    (hob : ∀ k (hk : k < cs.length),
      Obeys ((s.assertReset i held).run (cs.take k)).toRegs cs[k].toReq) :
    (∀ k, FlowSafe (cs.take k) ((s.assertReset i held).run (cs.take k))) ↔
      ∀ k (hk : k < cs.length), cs[k].op = .read →
        writes (cs.take k) ≤ reads (cs.take k) + 1 := by
  refine Run.forall_run_iff Fifo.step (s.assertReset i held)
    (fun _ t c => Obeys t.toRegs c.toReq) FlowSync FlowSafe
    (fun pre c => c.op = .read → writes pre ≤ reads pre + 1) ?_
    (fun _ _ h => h.flowSafe) (fun _ _ c h hob hc => h.step c hob hc) ?_ cs hob
  · refine ⟨Nat.le_refl _, ?_⟩
    rw [Fifo.toRegs_assertReset]
    exact inSync_reset
  · intro pre t c h _ hc
    obtain ⟨ho, hn⟩ := Classical.not_imp.mp hc
    exact h.not_flowSafe c ho (by omega)

/-- One word at a time, the flags can be trusted. -/
theorem flow_control_single :
    FlowSafe [FifoOp.write.cycle 1, FifoOp.read.cycle 0, FifoOp.write.cycle 2]
      ((Fifo.powerUp.assertReset FifoOp.idle.req []).run
        [FifoOp.write.cycle 1, FifoOp.read.cycle 0, FifoOp.write.cycle 2]) :=
  (flow_control_iff Fifo.powerUp FifoOp.idle.req []
    [FifoOp.write.cycle 1, FifoOp.read.cycle 0, FifoOp.write.cycle 2] (by decide)).mpr
    (by decide) 3

/-- An obedient user that writes two words and reads one is told that nothing
is left. -/
theorem flow_control_stranded :
    ¬ ∀ (s : Fifo Word) (i : Req) (held cs : List (Cycle Word)),
      (∀ k (hk : k < cs.length),
        Obeys ((s.assertReset i held).run (cs.take k)).toRegs cs[k].toReq) →
      ∀ k, FlowSafe (cs.take k) ((s.assertReset i held).run (cs.take k)) := by
  intro h
  have h3 := h Fifo.powerUp FifoOp.idle.req []
    [FifoOp.write.cycle 1, FifoOp.write.cycle 2, FifoOp.read.cycle 0] (by decide) 3
  revert h3
  decide

end BasicFifo
