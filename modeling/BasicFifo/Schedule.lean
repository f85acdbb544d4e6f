import BasicFifo.Lib.Interleaving
import BasicFifo.Pipeline

/-!
# BasicFifo.Schedule

The order in which the processes of the environment are scheduled is of no
consequence: any two of them commute, mailboxes being read at one end and
written at the other.
-/

namespace BasicFifo

open FourState Transition Interleaving

/-! ## the rising edges of a trace -/

/-- Whether an event is a rising edge. -/
def Event.isEdge : Event → Bool
  | .edge _ => true
  | .got _ => false

theorem length_edges (tr : List Event) : (edges tr).length = tr.countP Event.isEdge := by
  induction tr with
  | nil => rfl
  | cons e tr ih =>
      rw [List.countP_cons, ← ih]
      cases e <;> simp [edges, Event.isEdge]

/-- The processes `env_fifo.run` forks. -/
inductive Proc where
  | gen
  | drv
  | mon
  | scb
deriving DecidableEq, Repr

namespace EnvFifo

/-- A process up to its next blocking point. -/
def procRun : Proc → EnvFifo → Option (Option Event × EnvFifo)
  | .gen => silent genRun
  | .drv => silent drvRun
  | .mon => silent monRun
  | .scb => scbRun

/-- A rising edge, with the inputs it finds. -/
def tick (s : EnvFifo) : Event × EnvFifo := (.edge s.vif.nextInputs, s.posedge)

/-! ## the processes as a system -/

theorem settled_procRun (s : EnvFifo) : Interleaving.Settled procRun s ↔ s.Settled := by
  constructor
  · intro h
    exact ⟨silent_eq_none.mp (h .gen), silent_eq_none.mp (h .drv), silent_eq_none.mp (h .mon),
      h .scb⟩
  · intro h p
    cases p with
    | gen => exact silent_eq_none.mpr h.gen
    | drv => exact silent_eq_none.mpr h.drv
    | mon => exact silent_eq_none.mpr h.mon
    | scb => exact h.scb

theorem step_procRun : Interleaving.Step procRun tick = Step := by
  funext s e s'
  apply propext
  constructor
  · intro h
    cases h with
    | fire p hp =>
        cases p with
        | gen =>
            obtain ⟨rfl, hg⟩ := silent_eq_some.mp hp
            exact .gen hg
        | drv =>
            obtain ⟨rfl, hd⟩ := silent_eq_some.mp hp
            exact .drv hd
        | mon =>
            obtain ⟨rfl, hm⟩ := silent_eq_some.mp hp
            exact .mon hm
        | scb => exact .scb hp
    | tick hs => exact .posedge ((settled_procRun s).mp hs)
  · intro h
    cases h with
    | gen hg => exact .fire .gen (silent_eq_some.mpr ⟨rfl, hg⟩)
    | drv hd => exact .fire .drv (silent_eq_some.mpr ⟨rfl, hd⟩)
    | mon hm => exact .fire .mon (silent_eq_some.mpr ⟨rfl, hm⟩)
    | scb hs => exact .fire .scb hs
    | posedge hs => exact .tick ((settled_procRun s).mpr hs)

/-! ## any two processes commute -/

section
variable {s s₁ s₂ : EnvFifo}

/-- The driver takes transactions at the other end of their mailbox. -/
theorem gen_drv (hg : s.genRun = some s₁) (hd : s.drvRun = some s₂) :
    ∃ u, s₁.drvRun = some u ∧ s₂.genRun = some u := by
  obtain ⟨tr, q, hpc, hq, rfl⟩ | ⟨hpc, hq, rfl⟩ := genRun_cases hg <;>
  obtain ⟨hdpc, rfl⟩ | ⟨tx, mbx, hdpc, hm, rfl⟩ | ⟨tx, hdpc, rfl⟩ := drvRun_cases hd <;>
  simp [genRun, drvRun, *]

/-- So does the monitor take the count. -/
theorem gen_mon (hg : s.genRun = some s₁) (hm : s.monRun = some s₂) :
    ∃ u, s₁.monRun = some u ∧ s₂.genRun = some u := by
  obtain ⟨tr, q, hpc, hq, rfl⟩ | ⟨hpc, hq, rfl⟩ := genRun_cases hg <;>
  obtain ⟨count, mbx, hmpc, hc, rfl⟩ | ⟨hmpc, rfl⟩ | ⟨n, hmpc, rfl⟩ | ⟨n, hmpc, rfl⟩ :=
    monRun_cases hm <;>
  simp [genRun, monRun, *]

theorem gen_scb {e : Option Event} (hg : s.genRun = some s₁) (hs : s.scbRun = some (e, s₂)) :
    ∃ u, s₁.scbRun = some (e, u) ∧ s₂.genRun = some u := by
  obtain ⟨tr, q, hpc, hq, rfl⟩ | ⟨hpc, hq, rfl⟩ := genRun_cases hg <;>
  obtain ⟨hspc, rfl, rfl⟩ | ⟨actual, mbx, hspc, hb, rfl, rfl⟩ | ⟨mbx, hspc, hb, rfl, rfl⟩ :=
    scbRun_cases hs <;>
  simp [genRun, scbRun, *]

/-- The driver writes `driver_cb`, the monitor reads `monitor_cb`. -/
theorem drv_mon (hd : s.drvRun = some s₁) (hm : s.monRun = some s₂) :
    ∃ u, s₁.monRun = some u ∧ s₂.drvRun = some u := by
  obtain ⟨hdpc, rfl⟩ | ⟨tx, mbx, hdpc, hx, rfl⟩ | ⟨tx, hdpc, rfl⟩ := drvRun_cases hd <;>
  obtain ⟨count, mbx', hmpc, hc, rfl⟩ | ⟨hmpc, rfl⟩ | ⟨n, hmpc, rfl⟩ | ⟨n, hmpc, rfl⟩ :=
    monRun_cases hm <;>
  simp [drvRun, monRun, *]

theorem drv_scb {e : Option Event} (hd : s.drvRun = some s₁) (hs : s.scbRun = some (e, s₂)) :
    ∃ u, s₁.scbRun = some (e, u) ∧ s₂.drvRun = some u := by
  obtain ⟨hdpc, rfl⟩ | ⟨tx, mbx, hdpc, hx, rfl⟩ | ⟨tx, hdpc, rfl⟩ := drvRun_cases hd <;>
  obtain ⟨hspc, rfl, rfl⟩ | ⟨actual, mbx', hspc, hb, rfl, rfl⟩ | ⟨mbx', hspc, hb, rfl, rfl⟩ :=
    scbRun_cases hs <;>
  simp [drvRun, scbRun, *]

/-- The scoreboard takes samples at the other end of their mailbox. -/
theorem mon_scb {e : Option Event} (hm : s.monRun = some s₁) (hs : s.scbRun = some (e, s₂)) :
    ∃ u, s₁.scbRun = some (e, u) ∧ s₂.monRun = some u := by
  obtain ⟨count, mbx, hmpc, hc, rfl⟩ | ⟨hmpc, rfl⟩ | ⟨n, hmpc, rfl⟩ | ⟨n, hmpc, rfl⟩ :=
    monRun_cases hm <;>
  obtain ⟨hspc, rfl, rfl⟩ | ⟨actual, mbx', hspc, hb, rfl, rfl⟩ | ⟨mbx', hspc, hb, rfl, rfl⟩ :=
    scbRun_cases hs <;>
  simp [monRun, scbRun, *]

end

/-- Six pairs, each in either order. -/
theorem commute_procRun (p q : Proc) (hpq : p ≠ q) : CommuteAt (procRun p) (procRun q) := by
  have hgd : CommuteAt (procRun .gen) (procRun .drv) := commuteAt_silent_both fun _ _ _ => gen_drv
  have hgm : CommuteAt (procRun .gen) (procRun .mon) := commuteAt_silent_both fun _ _ _ => gen_mon
  have hgs : CommuteAt (procRun .gen) (procRun .scb) := commuteAt_silent fun _ _ _ _ => gen_scb
  have hdm : CommuteAt (procRun .drv) (procRun .mon) := commuteAt_silent_both fun _ _ _ => drv_mon
  have hds : CommuteAt (procRun .drv) (procRun .scb) := commuteAt_silent fun _ _ _ _ => drv_scb
  have hms : CommuteAt (procRun .mon) (procRun .scb) := commuteAt_silent fun _ _ _ _ => mon_scb
  cases p <;> cases q
  all_goals first
    | exact absurd rfl hpq
    | assumption
    | exact CommuteAt.symm (by assumption)

/-- No process makes the clock rise. -/
theorem isEdge_procRun (p : Proc) (s : EnvFifo) (e : Event) (s' : EnvFifo)
    (h : procRun p s = some (some e, s')) : e.isEdge = false := by
  cases p with
  | gen => simpa using (silent_eq_some.mp h).1
  | drv => simpa using (silent_eq_some.mp h).1
  | mon => simpa using (silent_eq_some.mp h).1
  | scb =>
      obtain ⟨-, he, -⟩ | ⟨actual, mbx, -, -, he, -⟩ | ⟨mbx, -, -, he, -⟩ := scbRun_cases h
      · contradiction
      · rw [Option.some.inj he]
        rfl
      · rw [Option.some.inj he]
        rfl

/-! ## schedule independence -/

/-- **Schedule independence**: from any state of the environment, executions
with the same number of rising edges in which every process has come to a halt
have the same trace and end in the same state, whatever the order in which the
processes were run. -/
theorem exec_settled_unique (s₀ : EnvFifo) {tr tr' : List Event} {s s' : EnvFifo}
    (h : Exec Step s₀ tr s) (h' : Exec Step s₀ tr' s') (hs : s.Settled) (hs' : s'.Settled)
    (hn : (edges tr).length = (edges tr').length) : tr = tr' ∧ s = s' := by
  rw [← step_procRun] at h h'
  rw [length_edges, length_edges] at hn
  exact exec_unique commute_procRun Event.isEdge (fun _ => rfl) isEdge_procRun h h'
    ((settled_procRun s).mpr hs) ((settled_procRun s').mpr hs') hn

/-- A call of `send` over one edge: it makes no difference whether the generator
or the scoreboard goes first before it, and the driver or the monitor after it. -/
theorem exec_settled_unique_write :
    let s := build (.idle Fifo.powerUp) Fifo.powerUp [⟨.write, .manual, 5, 0⟩]
    let genFirst := s.genRun >>= genRun >>= drvRun >>= drvRun >>= scbRun
    let scbFirst := s.scbRun >>= fun p => p.2.drvRun >>= genRun >>= drvRun >>= genRun
    (genFirst >>= fun p => p.2.posedge.drvRun >>= monRun >>= monRun) =
      scbFirst >>= fun s => s.posedge.monRun >>= monRun >>= drvRun := by
  intro s genFirst scbFirst
  have hstart : Exec Step s [] s := .refl
  have hgen := (((((hstart.step (Step.gen rfl)).step (Step.gen rfl)).step (Step.drv rfl)).step
    (Step.drv rfl)).step (Step.scb rfl)).step (Step.posedge ⟨rfl, rfl, rfl, rfl⟩)
  have hgen' := ((hgen.step (Step.drv rfl)).step (Step.mon rfl)).step (Step.mon rfl)
  have hscb := (((((hstart.step (Step.scb rfl)).step (Step.drv rfl)).step (Step.gen rfl)).step
    (Step.drv rfl)).step (Step.gen rfl)).step (Step.posedge ⟨rfl, rfl, rfl, rfl⟩)
  have hscb' := ((hscb.step (Step.mon rfl)).step (Step.mon rfl)).step (Step.drv rfl)
  exact congrArg some
    (exec_settled_unique s hgen' hscb' ⟨rfl, rfl, rfl, rfl⟩ ⟨rfl, rfl, rfl, rfl⟩ rfl).2

end EnvFifo

end BasicFifo
