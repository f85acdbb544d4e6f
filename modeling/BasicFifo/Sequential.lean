import BasicFifo.Schedule

/-!
# BasicFifo.Sequential

The environment as a sequential program: what each rising edge finds, what is
checked after it, and where the processes then halt.

`Bench.after k` is the state after `k` rising edges once every process has come
to a halt, and `Bench.traceAfter k` what can be observed on the way there.
Nothing here depends on the number of calls; where it exceeds what an `int` can
hold, the count the monitor receives is negative and `repeat` does nothing.
-/

namespace BasicFifo

open FourState Relation Transition Interleaving

/-! ## traces -/

theorem edges_append (tr tr' : List Event) : edges (tr ++ tr') = edges tr ++ edges tr' := by
  simp [edges]

theorem edges_map_got (ms : List (Option TransFifo)) : edges (ms.map .got) = [] := by
  simp [edges, List.filterMap_map]

/-! ## where the processes halt -/

/-- Where a driver halts that has transactions before it. -/
def DrvPc.halt : List TransFifo → DrvPc
  | [] => .get
  | tx :: _ => .wait tx

/-- A clocking event lets a driver go on that waits for it. -/
def DrvPc.wake : DrvPc → DrvPc
  | .wait tx => .drive tx
  | pc => pc

/-- Where a monitor halts with `n` rounds to go. -/
def MonPc.halt : Nat → MonPc
  | 0 => .done
  | n + 1 => .wait n

/-! ## the sequential program -/

/-- A clocking event lets a monitor go on that waits for it. -/
def MonPc.wake : MonPc → MonPc
  | .first => .count
  | .wait n => .sample n
  | pc => pc

/-- What `run` is called with: the interface, the design, and the calls of
`send` made before. -/
structure Bench where
  vif : InfFifo
  dut : Fifo Word
  calls : List SendCall

namespace Bench

/-- The transactions to drive. -/
def txs (b : Bench) : List TransFifo := b.calls.map SendCall.tx

/-- The count the monitor receives. -/
def count (b : Bench) : BitVec 32 := BitVec.ofNat 32 b.calls.length

/-- The number of samples it makes of it. -/
def rounds (b : Bench) : Nat := b.count.toInt.toNat

/-- The outputs of `driver_cb` that are due once the driver has halted after
rising edge `k`: transaction `k`, or none.  The initial values stay due until
the second edge. -/
def due (b : Bench) (k : Nat) : DriverCb :=
  match b.txs[k]? with
  | some tx => DriverCb.undriven.drive tx
  | none => if k = 0 then DriverCb.undriven.idle else .undriven

/-- The inputs rising edge `k` finds. -/
def inputs (b : Bench) : Nat → Cycle Word
  | 0 => b.vif.inputs
  | k + 1 => (b.due k).settle (b.inputs k)

/-- The design after `k` rising edges. -/
def design (b : Bench) (k : Nat) : Fifo Word :=
  clockedBy b.vif.rstN b.dut ((List.range k).map b.inputs)

/-- Sample `k`, made at edge `k + 1`. -/
def sample (b : Bench) (k : Nat) : TransFifo :=
  .capture b.vif.rstN (b.inputs (k + 1)) (b.design (k + 2)).outs

/-- The samples made after rising edge `k`. -/
def sampled (b : Bench) : Nat → List TransFifo
  | 0 => []
  | k + 1 => if k < b.rounds then [b.sample k] else []

/-- The samples made once `k` rising edges have passed. -/
def samples (b : Bench) (k : Nat) : List TransFifo :=
  (List.range (min (k - 1) b.rounds)).map b.sample

/-- What is observed of `k` rising edges: after each, the samples made there
are checked, and after edge `rounds` the scoreboard takes `null`. -/
def traceAfter (b : Bench) : Nat → List Event
  | 0 => []
  | k + 1 => b.traceAfter k ++ [.edge (b.inputs k)] ++
      (stream (b.sampled k) (k == b.rounds)).map .got

/-- The interface after `k` rising edges. -/
def vifAfter (b : Bench) : Nat → InfFifo
  | 0 => { b.vif with driverCb := DriverCb.undriven.idle, clocked := false }
  | k + 1 => ⟨b.vif.rstN, b.inputs k, b.due k, (b.inputs k, (b.design (k + 1)).outs), true⟩

/-- The environment after `k` rising edges. -/
def after (b : Bench) (k : Nat) : EnvFifo where
  gen := ⟨[], b.count⟩
  genPc := .done
  drvPc := .halt (b.txs.drop k)
  monPc := if k = 0 then .first else .halt (b.rounds - (k - 1))
  scb := { ScbFifo.new.checks (b.samples k) with completed := decide (b.rounds < k) }
  scbPc := if b.rounds < k then .done else .get
  gen2drvMbx := (b.txs.drop k).tail
  countMbx := if k = 0 then [b.count] else []
  mon2scbMbx := []
  vif := b.vifAfter k
  dut := b.design k

end Bench

/-! ## processes up to where they halt -/

namespace EnvFifo

/-- A rising edge wakes the processes that wait for one. -/
theorem posedge_eq (s : EnvFifo) :
    s.posedge =
      { s with
        vif := { s.vif with
          inputs := s.vif.nextInputs
          driverCb := if s.vif.clocked then .undriven else s.vif.driverCb
          monitorCb := (s.vif.nextInputs, (s.dut.posedge s.vif.rstN s.vif.nextInputs).outs)
          clocked := true }
        dut := s.dut.posedge s.vif.rstN s.vif.nextInputs
        drvPc := s.drvPc.wake
        monPc := s.monPc.wake } := rfl

/-- What the processes reach without the clock. -/
abbrev Reaches (a b : List Event × EnvFifo) : Prop := ReflTransGen (Fires procRun) a b

section
variable (tr : List Event) {s s' : EnvFifo}

theorem reaches_gen (h : s.genRun = some s') : Reaches (tr, s) (tr, s') :=
  .single ⟨.gen, none, s', silent_eq_some.mpr ⟨rfl, h⟩, by simp⟩

theorem reaches_drv (h : s.drvRun = some s') : Reaches (tr, s) (tr, s') :=
  .single ⟨.drv, none, s', silent_eq_some.mpr ⟨rfl, h⟩, by simp⟩

theorem reaches_mon (h : s.monRun = some s') : Reaches (tr, s) (tr, s') :=
  .single ⟨.mon, none, s', silent_eq_some.mpr ⟨rfl, h⟩, by simp⟩

theorem reaches_scb {e : Option Event} (h : s.scbRun = some (e, s')) :
    Reaches (tr, s) (tr ++ e.toList, s') :=
  .single ⟨.scb, e, s', h, rfl⟩

/-- No process moves the design, and none the scoreboard once it has returned. -/
theorem procRun_frame {p : Proc} {e : Option Event} (h : procRun p s = some (e, s')) :
    s'.dut = s.dut ∧ (s.scbPc = .done → s'.scb = s.scb ∧ s'.scbPc = .done) := by
  cases p with
  | gen =>
      obtain ⟨tr, q, -, -, rfl⟩ | ⟨-, -, rfl⟩ := genRun_cases (silent_eq_some.mp h).2
      · exact ⟨rfl, fun hpc => ⟨rfl, hpc⟩⟩
      · exact ⟨rfl, fun hpc => ⟨rfl, hpc⟩⟩
  | drv =>
      obtain ⟨-, rfl⟩ | ⟨tx, mbx, -, -, rfl⟩ | ⟨tx, -, rfl⟩ := drvRun_cases (silent_eq_some.mp h).2
      · exact ⟨rfl, fun hpc => ⟨rfl, hpc⟩⟩
      · exact ⟨rfl, fun hpc => ⟨rfl, hpc⟩⟩
      · exact ⟨rfl, fun hpc => ⟨rfl, hpc⟩⟩
  | mon =>
      obtain ⟨count, mbx, -, -, rfl⟩ | ⟨-, rfl⟩ | ⟨n, -, rfl⟩ | ⟨n, -, rfl⟩ :=
        monRun_cases (silent_eq_some.mp h).2
      · exact ⟨rfl, fun hpc => ⟨rfl, hpc⟩⟩
      · exact ⟨rfl, fun hpc => ⟨rfl, hpc⟩⟩
      · exact ⟨rfl, fun hpc => ⟨rfl, hpc⟩⟩
      · exact ⟨rfl, fun hpc => ⟨rfl, hpc⟩⟩
  | scb =>
      obtain ⟨hpc, -, rfl⟩ | ⟨actual, mbx, hpc, -, -, rfl⟩ | ⟨mbx, hpc, -, -, rfl⟩ :=
        scbRun_cases h
      · exact ⟨rfl, by simp [hpc]⟩
      · exact ⟨rfl, by simp [hpc]⟩
      · exact ⟨rfl, by simp [hpc]⟩

theorem reaches_frame {a b : List Event × EnvFifo} (h : Reaches a b) :
    b.2.dut = a.2.dut ∧ (a.2.scbPc = .done → b.2.scb = a.2.scb ∧ b.2.scbPc = .done) := by
  induction h with
  | refl => exact ⟨rfl, fun hpc => ⟨rfl, hpc⟩⟩
  | tail _ hstep ih =>
      obtain ⟨p, e, s, hp, rfl⟩ := hstep
      obtain ⟨hdut, hscb⟩ := procRun_frame hp
      refine ⟨hdut.trans ih.1, ?_⟩
      intro hpc
      obtain ⟨hscb', hpc'⟩ := hscb (ih.2 hpc).2
      exact ⟨hscb'.trans (ih.2 hpc).1, hpc'⟩

variable (s)

/-- The generator puts everything it has, and then the count. -/
theorem reaches_gen_done (h : s.genPc = .loop) :
    Reaches (tr, s) (tr,
      { s with
        gen := ⟨[], s.gen.numTrans⟩
        genPc := .done
        gen2drvMbx := s.gen2drvMbx ++ s.gen.q
        countMbx := s.countMbx ++ [s.gen.numTrans] }) := by
  obtain ⟨⟨q, n⟩, genPc, drvPc, monPc, scb, scbPc, gdm, cm, msm, vif, dut⟩ := s
  obtain rfl : genPc = .loop := h
  induction q generalizing gdm with
  | nil =>
      rw [List.append_nil]
      exact reaches_gen tr rfl
  | cons tx q ih =>
      apply (reaches_gen tr rfl).trans
      have hrest := ih (gdm ++ [tx])
      rw [List.append_assoc] at hrest
      exact hrest

/-- A driver about to take a transaction halts with the next one, if any. -/
theorem reaches_drv_get (h : s.drvPc = .get) :
    Reaches (tr, s) (tr,
      { s with drvPc := .halt s.gen2drvMbx, gen2drvMbx := s.gen2drvMbx.tail }) := by
  obtain ⟨gen, genPc, drvPc, monPc, scb, scbPc, gdm, cm, msm, vif, dut⟩ := s
  obtain rfl : drvPc = .get := h
  cases gdm with
  | nil => exact .refl
  | cons tx mbx => exact reaches_drv tr rfl

theorem reaches_drv_start (h : s.drvPc = .start) :
    Reaches (tr, s) (tr,
      { s with
        drvPc := .halt s.gen2drvMbx
        gen2drvMbx := s.gen2drvMbx.tail
        vif := { s.vif with driverCb := s.vif.driverCb.idle } }) := by
  have hrun : s.drvRun =
      some { s with vif := { s.vif with driverCb := s.vif.driverCb.idle }, drvPc := .get } := by
    simp [drvRun, h]
  exact (reaches_drv tr hrun).trans (reaches_drv_get tr _ rfl)

theorem reaches_drv_drive {tx : TransFifo} (h : s.drvPc = .drive tx) :
    Reaches (tr, s) (tr,
      { s with
        drvPc := .halt s.gen2drvMbx
        gen2drvMbx := s.gen2drvMbx.tail
        vif := { s.vif with driverCb := s.vif.driverCb.drive tx } }) := by
  have hrun : s.drvRun =
      some { s with vif := { s.vif with driverCb := s.vif.driverCb.drive tx }, drvPc := .get } := by
    simp [drvRun, h]
  exact (reaches_drv tr hrun).trans (reaches_drv_get tr _ rfl)

/-- A monitor in its loop halts at the next round, or ends the stream. -/
theorem reaches_mon_loop {n : Nat} (h : s.monPc = .loop n) :
    Reaches (tr, s) (tr,
      { s with
        monPc := .halt n
        mon2scbMbx := s.mon2scbMbx ++ if n = 0 then [none] else [] }) := by
  obtain ⟨gen, genPc, drvPc, monPc, scb, scbPc, gdm, cm, msm, vif, dut⟩ := s
  obtain rfl : monPc = .loop n := h
  cases n with
  | zero => exact reaches_mon tr rfl
  | succ n =>
      simp only [Nat.succ_ne_zero, if_false, List.append_nil]
      exact reaches_mon tr rfl

theorem reaches_mon_count {count : BitVec 32} (h : s.monPc = .count) (hc : s.countMbx = [count]) :
    Reaches (tr, s) (tr,
      { s with
        countMbx := []
        monPc := .halt count.toInt.toNat
        mon2scbMbx := s.mon2scbMbx ++ if count.toInt.toNat = 0 then [none] else [] }) := by
  have hrun : s.monRun =
      some { s with countMbx := [], monPc := .loop count.toInt.toNat } := by
    simp [monRun, h, hc]
  exact (reaches_mon tr hrun).trans (reaches_mon_loop tr _ rfl)

theorem reaches_mon_sample {n : Nat} (h : s.monPc = .sample n) :
    Reaches (tr, s) (tr,
      { s with
        monPc := .halt n
        mon2scbMbx := s.mon2scbMbx ++
          [some (.capture s.vif.rstN s.vif.monitorCb.1 s.vif.monitorCb.2)] ++
          if n = 0 then [none] else [] }) := by
  have hrun : s.monRun = some { s with
      mon2scbMbx := s.mon2scbMbx ++
        [some (.capture s.vif.rstN s.vif.monitorCb.1 s.vif.monitorCb.2)]
      monPc := .loop n } := by
    simp [monRun, h]
  exact (reaches_mon tr hrun).trans (reaches_mon_loop tr _ rfl)

/-- The scoreboard takes all that is in its mailbox. -/
theorem reaches_scb_stream {ts : List TransFifo} {ended : Bool} (h : s.scbPc = .get)
    (hm : s.mon2scbMbx = stream ts ended) :
    Reaches (tr, s) (tr ++ (stream ts ended).map .got,
      { s with
        scb := { s.scb.checks ts with completed := ended || s.scb.completed }
        scbPc := if ended then .done else .get
        mon2scbMbx := [] }) := by
  obtain ⟨gen, genPc, drvPc, monPc, scb, scbPc, gdm, cm, msm, vif, dut⟩ := s
  obtain rfl : scbPc = .get := h
  obtain rfl : msm = stream ts ended := hm
  induction ts generalizing scb tr with
  | nil =>
      cases ended with
      | false =>
          have hnil : stream [] false = [] := rfl
          rw [hnil, List.map_nil, List.append_nil]
          exact .refl
      | true => exact reaches_scb tr (e := some (.got none)) rfl
  | cons t ts ih =>
      have hstep : Reaches (tr, ⟨gen, genPc, drvPc, monPc, scb, .get, gdm, cm,
          stream (t :: ts) ended, vif, dut⟩)
          (tr ++ [.got (some t)], ⟨gen, genPc, drvPc, monPc, scb.check t, .get, gdm, cm,
            stream ts ended, vif, dut⟩) := reaches_scb tr (e := some (.got (some t))) rfl
      apply hstep.trans
      have hrest := ih (tr ++ [.got (some t)]) (scb.check t)
      simpa [stream, ScbFifo.checks] using hrest

end

end EnvFifo

namespace Bench

variable (b : Bench) (k : Nat) (tr : List Event)

/-! ## one rising edge -/

theorem design_succ : b.design (k + 1) = (b.design k).posedge b.vif.rstN (b.inputs k) := by
  rw [design, List.range_succ, List.map_append, List.map_singleton, clockedBy, Run.run_concat]
  rfl

theorem samples_succ : b.samples (k + 1) = b.samples k ++ b.sampled k := by
  cases k with
  | zero => simp [samples, sampled]
  | succ j =>
      by_cases hj : j < b.rounds
      · have hmin : min (j + 1 + 1 - 1) b.rounds = j + 1 := by omega
        have hmin' : min (j + 1 - 1) b.rounds = j := by omega
        rw [samples, samples, sampled, if_pos hj, hmin, hmin', List.range_succ, List.map_append,
          List.map_singleton]
      · have hmin : min (j + 1 + 1 - 1) b.rounds = b.rounds := by omega
        have hmin' : min (j + 1 - 1) b.rounds = b.rounds := by omega
        rw [samples, samples, sampled, if_neg hj, hmin, hmin', List.append_nil]

/-- The next edge finds what the driver has made due. -/
theorem nextInputs_after : (b.after k).vif.nextInputs = b.inputs k := by
  cases k with
  | zero => rfl
  | succ k => rfl

/-- The environment after edge `k` and the driver's steps in its time slot. -/
def driven : EnvFifo :=
  { b.after (k + 1) with
    monPc := (b.after k).monPc.wake
    countMbx := (b.after k).countMbx
    scb := (b.after k).scb
    scbPc := (b.after k).scbPc }

/-- The same after the monitor's steps. -/
def monitored : EnvFifo :=
  { b.after (k + 1) with
    mon2scbMbx := stream (b.sampled k) (k == b.rounds)
    scb := (b.after k).scb
    scbPc := (b.after k).scbPc }

theorem posedge_after :
    (b.after k).posedge =
      { b.driven k with
        drvPc := (DrvPc.halt (b.txs.drop k)).wake
        gen2drvMbx := (b.txs.drop k).tail
        vif := { b.vifAfter (k + 1) with
          driverCb := if k = 0 then DriverCb.undriven.idle else .undriven } } := by
  rw [EnvFifo.posedge_eq, nextInputs_after]
  cases k with
  | zero => simp [driven, after, vifAfter, design_succ]
  | succ k => simp [driven, after, vifAfter, design_succ]

/-- The driver drives the transaction it waited with and takes the next. -/
theorem reaches_driven : EnvFifo.Reaches (tr, (b.after k).posedge) (tr, b.driven k) := by
  have hpos := b.posedge_after k
  have hget : (b.txs.drop k).tail = b.txs.drop (k + 1) := List.tail_drop
  cases hd : b.txs.drop k with
  | nil =>
      have hk : b.txs[k]? = none := by rw [← List.head?_drop, hd]; rfl
      have hnil : b.txs.drop (k + 1) = [] := by rw [← hget, hd]; rfl
      have heq : (b.after k).posedge = b.driven k := by
        rw [hpos]
        simp [driven, after, vifAfter, due, hk, hd, hnil, DrvPc.halt, DrvPc.wake]
      rw [heq]
  | cons tx rest =>
      have hk : b.txs[k]? = some tx := by rw [← List.head?_drop, hd]; rfl
      have hrest : b.txs.drop (k + 1) = rest := by rw [← hget, hd]; rfl
      have hpc : (b.after k).posedge.drvPc = .drive tx := by rw [hpos, hd]; rfl
      have hcb : DriverCb.drive (if k = 0 then DriverCb.undriven.idle else .undriven) tx =
          DriverCb.undriven.drive tx := by
        split <;> rfl
      have h := EnvFifo.reaches_drv_drive tr (b.after k).posedge hpc
      convert h using 2
      rw [hpos]
      simp [driven, after, vifAfter, due, hk, hd, hrest, hcb]

/-- The monitor makes the sample it waited for, and ends the stream after the
last. -/
theorem reaches_monitored : EnvFifo.Reaches (tr, b.driven k) (tr, b.monitored k) := by
  cases k with
  | zero =>
      have hcount : (b.driven 0).countMbx = [b.count] := rfl
      have h := EnvFifo.reaches_mon_count tr (b.driven 0) rfl hcount
      convert h using 2
      simp only [driven, monitored, after, sampled, stream, beq_iff_eq, List.map_nil,
        List.nil_append, EnvFifo.mk.injEq]
      grind [rounds]
  | succ j =>
      by_cases hj : j < b.rounds
      · obtain ⟨r, hr⟩ : ∃ r, b.rounds - j = r + 1 := ⟨b.rounds - j - 1, by omega⟩
        have hpc : (b.driven (j + 1)).monPc = .sample r := by
          show (if j + 1 = 0 then .first else MonPc.halt (b.rounds - (j + 1 - 1))).wake = _
          rw [if_neg (Nat.succ_ne_zero j), Nat.add_sub_cancel, hr]
          rfl
        have h := EnvFifo.reaches_mon_sample tr (b.driven (j + 1)) hpc
        convert h using 2
        have hsub : b.rounds - (j + 1) = r := by omega
        have hlast : j + 1 = b.rounds ↔ r = 0 := by omega
        simp [driven, monitored, after, sampled, stream, vifAfter, hj, hsub, sample, hlast]
      · have heq : b.driven (j + 1) = b.monitored (j + 1) := by
          have hsub : b.rounds - j = 0 := by omega
          have hsub' : b.rounds - (j + 1) = 0 := by omega
          have hend : ¬ j + 1 = b.rounds := by omega
          have hwake : (MonPc.halt 0).wake = .halt 0 := rfl
          simp [driven, monitored, after, sampled, stream, hj, hsub, hsub', hend, hwake]
        rw [heq]

/-- The scoreboard checks it. -/
theorem reaches_checked :
    EnvFifo.Reaches (tr, b.monitored k)
      (tr ++ (stream (b.sampled k) (k == b.rounds)).map .got, b.after (k + 1)) := by
  by_cases hk : b.rounds < k
  · have hend : ¬ k = b.rounds := by omega
    have hnone : b.sampled k = [] := by
      cases k with
      | zero => rfl
      | succ j => exact if_neg (by omega)
    have heq : b.after (k + 1) = b.monitored k := by
      have hk' : b.rounds < k + 1 := by omega
      simp [monitored, after, samples_succ, hnone, hk, hk', hend, stream]
    have hnil : stream [] (k == b.rounds) = [] := by simp [stream, hend]
    rw [heq, hnone, hnil, List.map_nil, List.append_nil]
  · have hpc : (b.monitored k).scbPc = .get := if_neg hk
    have h := EnvFifo.reaches_scb_stream tr (b.monitored k) hpc rfl
    have hscb : (b.monitored k).scb = ScbFifo.new.checks (b.samples k) := by
      show { ScbFifo.new.checks (b.samples k) with completed := decide (b.rounds < k) } = _
      rw [decide_eq_false hk, ScbFifo.completed_false]
    have hchecks : ScbFifo.new.checks (b.samples (k + 1)) =
        (b.monitored k).scb.checks (b.sampled k) := by
      rw [hscb, samples_succ, ScbFifo.checks, ScbFifo.checks, ScbFifo.checks, Run.run, Run.run,
        Run.run, List.foldl_append]
    have hlast : b.rounds < k + 1 ↔ k = b.rounds := by omega
    convert h using 2
    rw [← hchecks]
    simp [monitored, after, hk, hlast, beq_eq_decide]

/-! ## what the edges find -/

theorem edges_traceAfter : edges (b.traceAfter k) = (List.range k).map b.inputs := by
  induction k with
  | zero => rfl
  | succ k ih =>
      rw [traceAfter, edges_append, edges_append, ih, edges_map_got, List.range_succ,
        List.map_append]
      simp [edges]

/-- Edge `k + 1` finds transaction `k`; the last one stays. -/
theorem inputs_succ {call : SendCall} (h : b.calls[min k (b.calls.length - 1)]? = some call) :
    b.inputs (k + 1) = call.tx.cycle := by
  induction k with
  | zero =>
      rw [Nat.zero_min] at h
      have hk : b.txs[0]? = some call.tx := by rw [txs, List.getElem?_map, h]; rfl
      rw [inputs, due, hk]
      exact DriverCb.settle_drive _ _ _
  | succ k ih =>
      by_cases hlt : k + 1 < b.calls.length
      · have hmin : min (k + 1) (b.calls.length - 1) = k + 1 := by omega
        rw [hmin] at h
        have hk : b.txs[k + 1]? = some call.tx := by rw [txs, List.getElem?_map, h]; rfl
        rw [inputs, due, hk]
        exact DriverCb.settle_drive _ _ _
      · have hmin : min (k + 1) (b.calls.length - 1) = min k (b.calls.length - 1) := by omega
        have hk : b.txs[k + 1]? = none := by
          rw [List.getElem?_eq_none_iff, txs, List.length_map]
          omega
        rw [hmin] at h
        rw [inputs, due, hk, ← ih h]
        rfl

/-- The inputs of the calls, one a cycle. -/
def cycles : List (Cycle Word) := b.calls.map fun call => call.tx.cycle

theorem length_cycles : b.cycles.length = b.calls.length := List.length_map _

theorem inputs_cycles (hk : k < b.cycles.length) : b.inputs (k + 1) = b.cycles[k] := by
  have hlt : k < b.calls.length := b.length_cycles ▸ hk
  have hmin : min k (b.calls.length - 1) = k := by omega
  have hcall : b.calls[min k (b.calls.length - 1)]? = some b.calls[k] := by
    rw [hmin]
    exact List.getElem?_eq_getElem hlt
  rw [b.inputs_succ k hcall]
  simp [cycles]

/-- The design runs on them after the first edge. -/
theorem design_cycles (hr : b.vif.rstN = true) (hk : k ≤ b.cycles.length) :
    b.design (k + 1) = (b.dut.step b.vif.inputs).run (b.cycles.take k) := by
  induction k with
  | zero =>
      rw [design_succ, hr]
      rfl
  | succ k ih =>
      rw [design_succ, ih (by omega), b.inputs_cycles k hk, hr,
        List.take_succ_eq_append_getElem hk, Fifo.run_concat]
      rfl

/-- The samples are the transactions of that run. -/
theorem map_sample (hr : b.vif.rstN = true) (hk : k ≤ b.cycles.length) :
    (List.range k).map b.sample = (b.dut.step b.vif.inputs).monitored (b.cycles.take k) := by
  induction k with
  | zero => rfl
  | succ k ih =>
      rw [List.range_succ, List.map_append, ih (by omega), List.take_succ_eq_append_getElem hk,
        Fifo.monitored_concat, ← List.take_succ_eq_append_getElem hk, ← b.design_cycles _ hr hk,
        ← b.inputs_cycles k hk, ← hr]
      rfl

/-- Without transactions the edges after the first find idle controls. -/
theorem inputs_succ_of_nil (h : b.calls = []) :
    b.inputs (k + 1) = ⟨FifoOp.idle.req, b.vif.inputs.dataIn⟩ := by
  have hnone : ∀ k : Nat, b.txs[k]? = none := by simp [txs, h]
  induction k with
  | zero =>
      rw [inputs, due, hnone]
      rfl
  | succ k ih =>
      rw [inputs, due, hnone, ih]
      rfl

/-! ## all rising edges -/

/-- No process can go on where they are said to halt. -/
theorem settled_after : (b.after k).Settled where
  gen := rfl
  drv := by
    simp only [EnvFifo.drvRun, after]
    cases b.txs.drop k <;> rfl
  mon := by
    cases k with
    | zero => rfl
    | succ k =>
        simp only [EnvFifo.monRun, after, Nat.succ_ne_zero, if_false]
        cases b.rounds - (k + 1 - 1) <;> rfl
  scb := by
    simp only [EnvFifo.scbRun, after]
    by_cases hk : b.rounds < k
    · rw [if_pos hk]
    · rw [if_neg hk]

theorem settlesAt :
    SettlesAt EnvFifo.procRun EnvFifo.tick (EnvFifo.build b.vif b.dut b.calls)
      fun k => (b.traceAfter k, b.after k) where
  first := by
    have hscb : { b.after 0 with scb := ScbFifo.new, scbPc := .start }.scbRun =
        some (none, b.after 0) := by
      simp [EnvFifo.scbRun, after, samples, ScbFifo.checks]
    apply (EnvFifo.reaches_gen_done [] _ rfl).trans
    apply (EnvFifo.reaches_drv_start [] _ rfl).trans
    convert EnvFifo.reaches_scb [] hscb using 2
    · have hdesign : b.design 0 = b.dut := rfl
      simp [EnvFifo.build, after, sends_new, txs, vifAfter, count, hdesign]
    · rfl
  next := by
    intro k
    have hedge : ticked EnvFifo.tick (b.traceAfter k, b.after k) =
        (b.traceAfter k ++ [.edge (b.inputs k)], (b.after k).posedge) := by
      rw [ticked, EnvFifo.tick, nextInputs_after]
    rw [hedge]
    exact ((b.reaches_driven k _).trans (b.reaches_monitored k _)).trans (b.reaches_checked k _)
  settled := fun k => (EnvFifo.settled_procRun _).mpr (b.settled_after k)

end Bench

/-! ## executions -/

section
variable {b : Bench} {tr : List Event} {s : EnvFifo}

/-- The rounds of an execution. -/
theorem of_exec (h : Exec EnvFifo.Step (EnvFifo.build b.vif b.dut b.calls) tr s) :
    EnvFifo.Reaches (tr, s) (b.traceAfter (edges tr).length, b.after (edges tr).length) ∧
      ∀ k, (edges tr).length = k + 1 →
        EnvFifo.Reaches (b.traceAfter k ++ [.edge (b.inputs k)], (b.after k).posedge) (tr, s) := by
  rw [← EnvFifo.step_procRun] at h
  rw [length_edges]
  have hr := b.settlesAt.of_exec EnvFifo.commute_procRun Event.isEdge (fun _ => rfl)
    EnvFifo.isEdge_procRun h
  refine ⟨hr.1, ?_⟩
  intro k hk
  have := hr.2 k hk
  rwa [ticked, EnvFifo.tick, b.nextInputs_after] at this

/-- The program's states are reached. -/
theorem exec_after (b : Bench) (k : Nat) :
    Exec EnvFifo.Step (EnvFifo.build b.vif b.dut b.calls) (b.traceAfter k) (b.after k) := by
  rw [← EnvFifo.step_procRun]
  exact (b.settlesAt.rounds k).exec

/-- Where the processes have come to a halt. -/
theorem after_of_settled (h : Exec EnvFifo.Step (EnvFifo.build b.vif b.dut b.calls) tr s)
    (hs : s.Settled) :
    tr = b.traceAfter (edges tr).length ∧ s = b.after (edges tr).length := by
  have hset := (EnvFifo.settled_procRun s).mpr hs
  have heq := Settled.eq_of_fires (a := (tr, s)) hset (of_exec h).1
  obtain ⟨htr, hst⟩ := Prod.mk.inj heq
  exact ⟨htr.symm, hst.symm⟩

/-- **Sequential refinement**: the processes have come to a halt exactly in the
states of the sequential program, with what it shows. -/
theorem env_settled_iff (b : Bench) (tr : List Event) (s : EnvFifo) :
    Exec EnvFifo.Step (EnvFifo.build b.vif b.dut b.calls) tr s ∧ s.Settled ↔
      ∃ k, tr = b.traceAfter k ∧ s = b.after k := by
  constructor
  · rintro ⟨h, hs⟩
    exact ⟨_, after_of_settled h hs⟩
  · rintro ⟨k, rfl, rfl⟩
    exact ⟨exec_after b k, b.settled_after k⟩

/-- **Timing**: what has been observed in any execution is what the program
shows up to some point after the latest edge.  Before an edge rises, all that
was sampled at the edges before it has been checked. -/
theorem env_trace (h : Exec EnvFifo.Step (EnvFifo.build b.vif b.dut b.calls) tr s) :
    tr <+: b.traceAfter (edges tr).length ∧
      ∀ k, (edges tr).length = k + 1 → b.traceAfter k ++ [.edge (b.inputs k)] <+: tr := by
  obtain ⟨hend, hstart⟩ := of_exec h
  exact ⟨prefix_of_fires hend, fun k hk => prefix_of_fires (hstart k hk)⟩

/-- The sample of a write is checked, and the stream ended, before the third
edge. -/
theorem env_trace_write :
    let b : Bench := ⟨.idle Fifo.powerUp, Fifo.powerUp, [⟨.write, .manual, 5, 0⟩]⟩
    [.edge (b.inputs 0), .edge (b.inputs 1), .got (some (b.sample 0)), .got none,
      .edge (b.inputs 2)] <+: b.traceAfter 3 := by
  intro b
  have hlen : (edges (b.traceAfter 3)).length = 3 := by rw [b.edges_traceAfter]; rfl
  exact (env_trace (exec_after b 3)).2 2 hlen

/-- The inputs of all edges. -/
theorem edges_exec (h : Exec EnvFifo.Step (EnvFifo.build b.vif b.dut b.calls) tr s) :
    edges tr = (List.range (edges tr).length).map b.inputs := by
  obtain ⟨rest, hrest⟩ := prefix_of_fires (of_exec h).1
  have hedges : edges tr ++ edges rest = (List.range (edges tr).length).map b.inputs := by
    rw [← edges_append, hrest, Bench.edges_traceAfter]
  have hnil : edges rest = [] := by
    have hlen := congrArg List.length hedges
    rw [List.length_append, List.length_map, List.length_range] at hlen
    exact List.eq_nil_of_length_eq_zero (by omega)
  rwa [hnil, List.append_nil] at hedges

/-- The design has run on them. -/
theorem dut_exec (h : Exec EnvFifo.Step (EnvFifo.build b.vif b.dut b.calls) tr s) :
    s.dut = clockedBy b.vif.rstN b.dut (edges tr) := by
  rw [edges_exec h]
  exact (EnvFifo.reaches_frame (of_exec h).1).1.symm

/-- **Held inputs**: whatever the order of steps and however long the execution
goes on, edge `k + 1` finds the transaction of call `k`, and every edge after the
last call finds that of the last one again: the driver does not take it back. -/
theorem env_inputs (h : Exec EnvFifo.Step (EnvFifo.build b.vif b.dut b.calls) tr s) :
    s.dut = clockedBy b.vif.rstN b.dut (edges tr) ∧
      (∀ c, (edges tr)[0]? = some c → c = b.vif.inputs) ∧
      (∀ k c call, (edges tr)[k + 1]? = some c →
        b.calls[min k (b.calls.length - 1)]? = some call → c = call.tx.cycle) ∧
      (b.calls = [] → ∀ k c, (edges tr)[k + 1]? = some c →
        c = ⟨FifoOp.idle.req, b.vif.inputs.dataIn⟩) := by
  have hedges := edges_exec h
  have hin : ∀ k c, (edges tr)[k]? = some c → c = b.inputs k := by
    intro k c hc
    rw [hedges, List.getElem?_map] at hc
    obtain ⟨j, hj, rfl⟩ := Option.map_eq_some_iff.mp hc
    obtain ⟨hlt, rfl⟩ := List.getElem?_eq_some_iff.mp hj
    rw [List.getElem_range]
  refine ⟨dut_exec h, fun c hc => hin 0 c hc, ?_, ?_⟩
  · intro k c call hc hcall
    rw [hin (k + 1) c hc]
    exact b.inputs_succ k hcall
  · intro hnil k c hc
    rw [hin (k + 1) c hc]
    exact b.inputs_succ_of_nil k hnil

/-- A single write is written again at the third edge after it. -/
theorem env_inputs_write :
    let b : Bench := ⟨.idle Fifo.powerUp, Fifo.powerUp, [⟨.write, .manual, 5, 0⟩]⟩
    b.inputs 4 = FifoOp.write.cycle 5 := by
  intro b
  have hedge : (edges (b.traceAfter 5))[4]? = some (b.inputs 4) := by rw [b.edges_traceAfter]; rfl
  exact (env_inputs (exec_after b 5)).2.2.1 3 _ _ hedge rfl

/-! ## completion -/

/-- A scoreboard that has completed has returned. -/
theorem scbPc_of_completed (h : Exec EnvFifo.Step (EnvFifo.build b.vif b.dut b.calls) tr s)
    (hc : s.scb.completed = true) : s.scbPc = .done := by
  refine h.invariant (fun _ s => s.scb.completed = true → s.scbPc = .done) ?_ ?_ hc
  · intro hnew
    contradiction
  · intro tr s e s' ih hs hc'
    cases hs with
    | gen hs =>
        obtain ⟨_, _, -, -, rfl⟩ | ⟨-, -, rfl⟩ := EnvFifo.genRun_cases hs <;> exact ih hc'
    | drv hs =>
        obtain ⟨-, rfl⟩ | ⟨_, _, -, -, rfl⟩ | ⟨_, -, rfl⟩ := EnvFifo.drvRun_cases hs <;>
          exact ih hc'
    | mon hs =>
        obtain ⟨_, _, -, -, rfl⟩ | ⟨-, rfl⟩ | ⟨_, -, rfl⟩ | ⟨_, -, rfl⟩ :=
          EnvFifo.monRun_cases hs <;> exact ih hc'
    | scb hs =>
        obtain ⟨hpc, -, rfl⟩ | ⟨actual, mbx, hpc, -, -, rfl⟩ | ⟨mbx, hpc, -, -, rfl⟩ :=
          EnvFifo.scbRun_cases hs
        · contradiction
        · rw [ScbFifo.completed_check] at hc'
          exact ih hc'
        · rfl
    | posedge hs => exact ih hc'

/-- The number of samples: the number of calls as an `int`, none if that is
negative. -/
theorem Bench.rounds_eq (b : Bench) :
    b.rounds = if b.calls.length % 2 ^ 32 < 2 ^ 31 then b.calls.length % 2 ^ 32 else 0 := by
  rw [rounds, count, BitVec.toInt_eq_toNat_cond, BitVec.toNat_ofNat]
  by_cases hlt : b.calls.length % 2 ^ 32 < 2 ^ 31
  · rw [if_pos (by omega), if_pos hlt, Int.toNat_natCast]
  · rw [if_neg (by omega), if_neg hlt]
    omega

/-- The rounds are the calls, as long as an `int` can hold their number. -/
theorem Bench.rounds_of_lt (b : Bench) (hn : b.calls.length < 2 ^ 31) :
    b.rounds = b.calls.length := toNat_toInt_ofNat hn

theorem scb_completed (h : Exec EnvFifo.Step (EnvFifo.build b.vif b.dut b.calls) tr s)
    (hc : s.scb.completed = true) :
    b.rounds < (edges tr).length ∧
      s.scb = { ScbFifo.new.checks ((List.range b.rounds).map b.sample) with
        completed := true } := by
  have hframe := (EnvFifo.reaches_frame (of_exec h).1).2 (scbPc_of_completed h hc)
  simp only [Bench.after] at hframe
  have hlt : b.rounds < (edges tr).length := by
    by_cases hk : b.rounds < (edges tr).length
    · exact hk
    · rw [if_neg hk] at hframe
      exact absurd hframe.2 (by decide)
  have hmin : min ((edges tr).length - 1) b.rounds = b.rounds := by omega
  refine ⟨hlt, ?_⟩
  rw [← hframe.1, Bench.samples, hmin]
  simp [hlt]

theorem inevitable_completed (b : Bench) :
    Inevitable EnvFifo.Step (fun s => s.scb.completed = true)
      (EnvFifo.build b.vif b.dut b.calls) := by
  have hreach := b.settlesAt.inevitable EnvFifo.commute_procRun (b.rounds + 1)
  rw [EnvFifo.step_procRun] at hreach
  apply hreach.trans
  rintro s rfl
  apply Inevitable.now
  simp [Bench.after]

/-- **Completion**: for any number of calls every execution completes, and the
scoreboard has then checked as many transactions as that number is as an
`int`. -/
theorem env_completes (b : Bench) :
    Inevitable EnvFifo.Step (fun s => s.scb.completed = true)
        (EnvFifo.build b.vif b.dut b.calls) ∧
      ∀ tr s, Exec EnvFifo.Step (EnvFifo.build b.vif b.dut b.calls) tr s →
        s.scb.completed = true → b.rounds < (edges tr).length ∧
          s.scb = { ScbFifo.new.checks ((List.range b.rounds).map b.sample) with
            completed := true } := by
  exact ⟨inevitable_completed b, fun tr s h hc => scb_completed h hc⟩

end

end BasicFifo
