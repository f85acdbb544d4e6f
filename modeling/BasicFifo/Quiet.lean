import BasicFifo.Sequential

/-!
# BasicFifo.Quiet

What is left of a test once its scoreboard has completed: nothing that was sent
is still on its way, and from then on only the clock moves.
-/

namespace BasicFifo

open FourState Transition Interleaving

/-! ## executions that go on -/

/-- The generator has returned before the first edge. -/
theorem genPc_of_edges {s₀ : EnvFifo} {tr : List Event} {s : EnvFifo}
    (h : Exec EnvFifo.Step s₀ tr s) (hne : edges tr ≠ []) : s.genPc = .done := by
  refine h.invariant (fun tr s => edges tr ≠ [] → s.genPc = .done) (fun hnil => absurd rfl hnil)
    ?_ hne
  intro tr s e s' ih hs hne'
  cases hs with
  | gen hs =>
      obtain ⟨_, _, -, -, rfl⟩ | ⟨-, -, rfl⟩ := EnvFifo.genRun_cases hs
      · exact ih (by simpa using hne')
      · rfl
  | drv hs =>
      rw [Option.toList_none, List.append_nil] at hne'
      obtain ⟨-, rfl⟩ | ⟨_, _, -, -, rfl⟩ | ⟨_, -, rfl⟩ := EnvFifo.drvRun_cases hs <;>
        exact ih hne'
  | mon hs =>
      rw [Option.toList_none, List.append_nil] at hne'
      obtain ⟨_, _, -, -, rfl⟩ | ⟨-, rfl⟩ | ⟨_, -, rfl⟩ | ⟨_, -, rfl⟩ :=
        EnvFifo.monRun_cases hs <;> exact ih hne'
  | scb hs =>
      obtain ⟨-, rfl, rfl⟩ | ⟨_, _, -, -, rfl, rfl⟩ | ⟨_, -, -, rfl, rfl⟩ := EnvFifo.scbRun_cases hs
      · exact ih (by simpa using hne')
      · exact ih (by simpa using hne')
      · exact ih (by simpa using hne')
  | posedge hs => exact hs.genPc

section
variable {b : Bench} {tr : List Event} {s : EnvFifo}

/-- After edge `rounds` the scoreboard has completed. -/
theorem completed_of_edges (h : Exec EnvFifo.Step (EnvFifo.build b.vif b.dut b.calls) tr s)
    (hlt : b.rounds + 1 < (edges tr).length) : s.scb.completed = true := by
  obtain ⟨k, hk⟩ : ∃ k, (edges tr).length = k + 1 := ⟨(edges tr).length - 1, by omega⟩
  have hover : b.rounds < k := by omega
  have hpc : (b.after k).posedge.scbPc = .done := if_pos hover
  rw [((EnvFifo.reaches_frame ((of_exec h).2 k hk)).2 hpc).1]
  simp [EnvFifo.posedge, Bench.after, hover]

/-- A completed test has come to a halt. -/
theorem settled_of_completed (hn : b.calls.length < 2 ^ 31)
    (h : Exec EnvFifo.Step (EnvFifo.build b.vif b.dut b.calls) tr s)
    (hc : s.scb.completed = true) : s.Settled := by
  have ha := aligned_exec hn h
  have hscb := scbPc_of_completed h hc
  have hedges : b.calls.length < (edges tr).length := by
    rw [← b.rounds_of_lt hn]
    exact (scb_completed h hc).1
  have hgen : s.genPc = .done := by
    apply genPc_of_edges h
    intro hnil
    rw [hnil] at hedges
    contradiction
  have hdrv : s.drvPc = .get ∧ s.gen2drvMbx = [] := by
    have hsup := ha.supplied
    have hnone : (b.calls.map SendCall.tx).drop (edges tr).length = [] :=
      List.drop_eq_nil_of_le (by rw [List.length_map]; omega)
    cases hpc : s.drvPc with
    | start =>
        rw [hpc] at hsup
        exact absurd hsup.1 (by omega)
    | get =>
        rw [hpc, Supplied, hnone] at hsup
        exact ⟨rfl, (List.append_eq_nil_iff.mp hsup).1⟩
    | wait tx =>
        rw [hpc, Supplied, hnone] at hsup
        contradiction
    | drive tx =>
        -- the edge that woke the driver was one too many
        rw [hpc] at hsup
        obtain ⟨d, hd, hsup⟩ := hsup
        rw [List.drop_eq_nil_of_le (by rw [List.length_map]; omega)] at hsup
        contradiction
  have hmon : s.monPc = .done := by
    obtain ⟨ts, hsent, -, -⟩ := ha.monitored
    rw [ha.gots_eq.1, hc] at hsent
    have hret := ((prefix_of_stream hsent).2 rfl).2
    cases hpc : s.monPc <;> rw [hpc] at hret <;> first | rfl | contradiction
  constructor
  · simp [EnvFifo.genRun, hgen]
  · simp [EnvFifo.drvRun, hdrv]
  · simp [EnvFifo.monRun, hmon]
  · simp [EnvFifo.scbRun, hscb]

/-- A step of a completed test is a rising edge and leaves the scoreboard. -/
theorem step_completed (hn : b.calls.length < 2 ^ 31)
    (h : Exec EnvFifo.Step (EnvFifo.build b.vif b.dut b.calls) tr s)
    (hc : s.scb.completed = true) {e : Option Event} {s' : EnvFifo} (hs : EnvFifo.Step s e s') :
    e = some (.edge s.vif.nextInputs) ∧ s' = s.posedge := by
  have hset := settled_of_completed hn h hc
  cases hs with
  | gen hs => rw [hset.gen] at hs; contradiction
  | drv hs => rw [hset.drv] at hs; contradiction
  | mon hs => rw [hset.mon] at hs; contradiction
  | scb hs => rw [hset.scb] at hs; contradiction
  | posedge _ => exact ⟨rfl, rfl⟩

/-- **Quiet end**: a test completes no later than one edge after its last
sample, in every execution; and once it has completed nothing is left in its
queue or its mailboxes, every process is blocked for good or has returned, and
whatever follows is rising edges that the scoreboard does not see. -/
theorem env_quiet (hn : b.calls.length < 2 ^ 31)
    (h : Exec EnvFifo.Step (EnvFifo.build b.vif b.dut b.calls) tr s) :
    (b.calls.length + 1 < (edges tr).length → s.scb.completed = true) ∧
    (s.scb.completed = true →
      (s.gen.q = [] ∧ s.gen2drvMbx = [] ∧ s.countMbx = [] ∧ s.mon2scbMbx = []) ∧
      (s.genPc = .done ∧ s.drvPc = .get ∧ s.monPc = .done ∧ s.scbPc = .done) ∧
      ∀ tr' s', Exec EnvFifo.Step s tr' s' →
        gots tr' = [] ∧ s'.scb = s.scb ∧ s'.Settled) := by
  rw [← b.rounds_of_lt hn]
  refine ⟨completed_of_edges h, ?_⟩
  intro hc
  have hover := (scb_completed h hc).1
  have hset := settled_of_completed hn h hc
  have hafter := (after_of_settled h hset).2
  have hdrop : b.txs.drop (edges tr).length = [] := by
    apply List.drop_eq_nil_of_le
    rw [Bench.txs, List.length_map, ← b.rounds_of_lt hn]
    omega
  have hsub : b.rounds - ((edges tr).length - 1) = 0 := by omega
  have hne : edges tr ≠ [] := by
    intro hnil
    rw [hnil] at hover
    contradiction
  refine ⟨?_, ?_, ?_⟩
  · rw [hafter]
    simp [Bench.after, hdrop, hne]
  · rw [hafter]
    simp [Bench.after, hdrop, hne, hsub, hover, DrvPc.halt, MonPc.halt]
  · intro tr' s' h'
    have hstays : gots tr' = [] ∧ s'.scb = s.scb := by
      induction h' with
      | refl => exact ⟨rfl, rfl⟩
      | step h'' hs ih =>
          obtain ⟨rfl, rfl⟩ := step_completed hn (h.trans h'') (ih.2 ▸ hc) hs
          exact ⟨by simpa using ih.1, ih.2⟩
    exact ⟨hstays.1, hstays.2, settled_of_completed hn (h.trans h') (hstays.2 ▸ hc)⟩

end

/-- After a write has been checked the driver waits for a transaction that never
comes. -/
theorem env_quiet_write :
    ∃ tr s, Exec EnvFifo.Step (EnvFifo.build (.idle Fifo.powerUp) Fifo.powerUp
        [⟨.write, .manual, 5, 0⟩]) tr s ∧
      s.gen2drvMbx = [] ∧ s.drvPc = .get ∧ s.posedge.Settled := by
  have h := exec_after ⟨.idle Fifo.powerUp, Fifo.powerUp, [⟨.write, .manual, 5, 0⟩]⟩ 3
  obtain ⟨hdone, hquiet⟩ := env_quiet (by decide) h
  obtain ⟨hmbx, hpc, hlater⟩ := hquiet (hdone (by rw [Bench.edges_traceAfter]; decide))
  have hset := (hlater _ _ .refl).2.2
  exact ⟨_, _, h, hmbx.2.1, hpc.2.1, (hlater _ _ (Exec.refl.step (.posedge hset))).2.2⟩

end BasicFifo
