import BasicFifo.Lib.Transition
import BasicFifo.Env
import Mathlib.Data.List.Basic

/-!
# BasicFifo.Pipeline

What the environment makes of a list of calls of `send`: the scoreboard checks
one transaction for each call, in the order of the calls, each with the inputs
of its call and the outputs of the very edge that took them.

The invariant `Aligned` has a part for each hand-over of the pipeline, all of
them counted in rising edges: transaction `k` is driven in the time slot of
edge `k`, and edge `k + 1` takes it and is sampled.
-/

namespace BasicFifo

open FourState Transition

/-! ## traces -/

@[simp] theorem edges_nil : edges [] = [] := rfl

@[simp] theorem gots_nil : gots [] = [] := rfl

@[simp] theorem edges_edge (tr : List Event) (c : Cycle Word) :
    edges (tr ++ [.edge c]) = edges tr ++ [c] := by simp [edges]

@[simp] theorem edges_got (tr : List Event) (m : Option TransFifo) :
    edges (tr ++ [.got m]) = edges tr := by simp [edges]

@[simp] theorem gots_edge (tr : List Event) (c : Cycle Word) :
    gots (tr ++ [.edge c]) = gots tr := by simp [gots]

@[simp] theorem gots_got (tr : List Event) (m : Option TransFifo) :
    gots (tr ++ [.got m]) = gots tr ++ [m] := by simp [gots]

/-- The transactions among the messages the scoreboard takes. -/
def checked (tr : List Event) : List TransFifo := (gots tr).filterMap id

/-- The messages of a stream of transactions, closed by `null` if it has ended. -/
def stream (ts : List TransFifo) (ended : Bool) : List (Option TransFifo) :=
  ts.map some ++ if ended then [none] else []

theorem stream_check (ts : List TransFifo) (t : TransFifo) :
    stream ts false ++ [some t] = stream (ts ++ [t]) false := by simp [stream]

theorem stream_end (ts : List TransFifo) : stream ts false ++ [none] = stream ts true := by
  simp [stream]

@[simp] theorem filterMap_stream (ts : List TransFifo) (ended : Bool) :
    (stream ts ended).filterMap id = ts := by
  cases ended <;> simp [stream, List.filterMap_map]

/-- What comes first out of a stream is the beginning of it, and with the end
all of it. -/
theorem prefix_of_stream {rs ts : List TransFifo} {e e' : Bool} {rest : List (Option TransFifo)}
    (h : stream rs e ++ rest = stream ts e') : rs <+: ts ∧ (e = true → rs = ts ∧ e' = true) := by
  induction rs generalizing ts with
  | nil =>
      refine ⟨List.nil_prefix, ?_⟩
      rintro rfl
      cases ts with
      | nil => cases e' <;> simp [stream] at h ⊢
      | cons t ts => simp [stream] at h
  | cons r rs ih =>
      cases ts with
      | nil => cases e' <;> simp [stream] at h
      | cons t ts =>
          obtain ⟨hrt, htail⟩ := List.cons.inj h
          obtain ⟨hpre, hend⟩ := ih htail
          rw [Option.some.inj hrt]
          refine ⟨List.cons_prefix_cons.mpr ⟨rfl, hpre⟩, ?_⟩
          intro he
          obtain ⟨rfl, he'⟩ := hend he
          exact ⟨rfl, he'⟩

/-! ## the calls -/

/-- Every call queues its transaction and counts it. -/
theorem sends_new (calls : List SendCall) :
    GenFifo.new.sends calls =
      ⟨calls.map SendCall.tx, BitVec.ofNat 32 calls.length⟩ := by
  induction calls using List.reverseRecOn with
  | nil => rfl
  | append_singleton calls call ih =>
      rw [GenFifo.sends, Run.run_concat, ← GenFifo.sends, ih, GenFifo.send]
      simp [BitVec.ofNat_add]

/-! ## the design along the edges -/

/-- The design after rising edges with inputs `cs`. -/
def clockedBy (rstN : Bool) (dut : Fifo Word) (cs : List (Cycle Word)) : Fifo Word :=
  Run.run (Fifo.posedge rstN) dut cs

/-- Transaction `t` carries the inputs of edge `k` and the outputs that edge
produced. -/
def Shows (rstN : Bool) (dut : Fifo Word) (cs : List (Cycle Word)) (k : Nat) (t : TransFifo) :
    Prop :=
  ∃ c, cs[k]? = some c ∧
    t = .capture rstN c ((clockedBy rstN dut (cs.take k)).posedge rstN c).outs

section
variable {rstN : Bool} {dut : Fifo Word} {cs : List (Cycle Word)} {k : Nat} {t : TransFifo}

/-- Later edges do not change what an edge showed. -/
theorem Shows.concat (h : Shows rstN dut cs k t) (c : Cycle Word) :
    Shows rstN dut (cs ++ [c]) k t := by
  obtain ⟨d, hd, ht⟩ := h
  have hk : k < cs.length := (List.getElem?_eq_some_iff.mp hd).1
  refine ⟨d, ?_, ?_⟩
  · rwa [List.getElem?_append_left hk]
  · rwa [List.take_append_of_le_length (Nat.le_of_lt hk)]

/-- What is sampled at the last edge. -/
theorem shows_last (c : Cycle Word) :
    Shows rstN dut (cs ++ [c]) cs.length
      (.capture rstN c (clockedBy rstN dut (cs ++ [c])).outs) := by
  refine ⟨c, by simp, ?_⟩
  rw [List.take_left, clockedBy, Run.run_concat]
  rfl

end

/-! ## the invariant -/

/-- From the calls to the driver: after `e` edges the driver is about to take
transaction `e`, has it in hand, or still has to drive the one before. -/
def Supplied (txs : List TransFifo) (e : Nat) (rest : List TransFifo) : DrvPc → Prop
  | .start => e = 0 ∧ rest = txs
  | .get => rest = txs.drop e
  | .wait tx => tx :: rest = txs.drop e
  | .drive tx => ∃ d, e = d + 1 ∧ tx :: rest = txs.drop d

/-- From the driver to the design: edge `0` takes the inputs `run` finds, and
edge `k + 1` takes transaction `k`. -/
structure Driven (found : Cycle Word) (txs : List TransFifo) (cs : List (Cycle Word)) (pc : DrvPc)
    (vif : InfFifo) : Prop where
  clocked : vif.clocked = true ↔ cs ≠ []
  first : (cs = [] → vif.inputs = found) ∧ ∀ c, cs[0]? = some c → c = found
  taken : ∀ k c tx, cs[k + 1]? = some c → txs[k]? = some tx → c = tx.cycle
  due : (∀ tx, pc ≠ .drive tx) → ∀ d tx, cs.length = d + 1 → txs[d]? = some tx →
    vif.driverCb.settle vif.inputs = tx.cycle

/-- From the design to `monitor_cb`. -/
structure Wired (rstN : Bool) (dut : Fifo Word) (cs : List (Cycle Word)) (vif : InfFifo)
    (now : Fifo Word) : Prop where
  reset : vif.rstN = rstN
  design : now = clockedBy rstN dut cs
  sampled : ∀ c, cs.getLast? = some c → vif.monitorCb = (c, now.outs)

/-- Where the monitor stands after `e` edges with `m` of `n` transactions sent. -/
def MonPc.At (n e m : Nat) : MonPc → Prop
  | .first => e = 0 ∧ m = 0
  | .count => e = 1 ∧ m = 0
  | .loop r => e = m + 1 ∧ m + r = n
  | .wait r => e = m + 1 ∧ m + (r + 1) = n
  | .sample r => e = m + 2 ∧ m + (r + 1) = n
  | .done => m = n

def MonPc.returned : MonPc → Bool
  | .done => true
  | _ => false

def ScbPc.returned : ScbPc → Bool
  | .done => true
  | _ => false

/-- From `monitor_cb` to the scoreboard's mailbox: transaction `k` shows edge
`k + 1`. -/
def Monitored (rstN : Bool) (dut : Fifo Word) (n : Nat) (cs : List (Cycle Word))
    (sent : List (Option TransFifo)) (pc : MonPc) : Prop :=
  ∃ ts, sent = stream ts pc.returned ∧ pc.At n cs.length ts.length ∧
    ∀ k t, ts[k]? = some t → Shows rstN dut cs (k + 1) t

/-- What the scoreboard made of the messages it took. -/
def Checked (taken : List (Option TransFifo)) (scb : ScbFifo) (pc : ScbPc) : Prop :=
  ∃ ts, taken = stream ts pc.returned ∧
    scb = { ScbFifo.new.checks ts with completed := pc.returned }

/-- From the generator to the monitor: the count comes after the last put. -/
structure Counted (n : Nat) (gen : GenFifo) (countMbx : List (BitVec 32)) (genPc : GenPc)
    (monPc : MonPc) : Prop where
  numTrans : gen.numTrans = BitVec.ofNat 32 n
  q : genPc = .done → gen.q = []
  mbx : monPc = .first ∨ monPc = .count →
    countMbx = if genPc = .done then [gen.numTrans] else []

/-- The invariant of an execution with trace `tr`. -/
structure Aligned (vif : InfFifo) (dut : Fifo Word) (txs : List TransFifo) (tr : List Event)
    (s : EnvFifo) : Prop where
  supplied : Supplied txs (edges tr).length (s.gen2drvMbx ++ s.gen.q) s.drvPc
  counted : Counted txs.length s.gen s.countMbx s.genPc s.monPc
  driven : Driven vif.inputs txs (edges tr) s.drvPc s.vif
  wired : Wired vif.rstN dut (edges tr) s.vif s.dut
  monitored : Monitored vif.rstN dut txs.length (edges tr) (gots tr ++ s.mon2scbMbx) s.monPc
  consumed : Checked (gots tr) s.scb s.scbPc

/-- It holds when `run` is called. -/
theorem aligned_build (vif : InfFifo) (dut : Fifo Word) (calls : List SendCall) :
    Aligned vif dut (calls.map SendCall.tx) [] (EnvFifo.build vif dut calls) where
  supplied := by simp [EnvFifo.build, sends_new, Supplied]
  counted := by
    constructor
    · simp [EnvFifo.build, sends_new]
    · intro h; contradiction
    · intro _; rfl
  driven := by
    constructor
    · simp [EnvFifo.build]
    · exact ⟨fun _ => rfl, by simp⟩
    · intro k c tx hc; simp at hc
    · intro _ d tx hd; simp at hd
  wired := by
    constructor
    · rfl
    · rfl
    · intro c hc; simp at hc
  monitored := ⟨[], rfl, ⟨rfl, rfl⟩, by simp⟩
  consumed := ⟨[], rfl, rfl⟩

/-! ## the hand-overs -/

section
variable {rstN : Bool} {dut now : Fifo Word} {txs : List TransFifo} {cs : List (Cycle Word)}
variable {found : Cycle Word} {vif : InfFifo} {n : Nat} {sent : List (Option TransFifo)}

/-! ### generator and driver -/

/-- A driver that is about to drive has what the list says. -/
theorem Supplied.getElem? {rest : List TransFifo} {e : Nat} {tx : TransFifo}
    (h : Supplied txs (e + 1) rest (.drive tx)) : txs[e]? = some tx := by
  obtain ⟨d, he, hrest⟩ := h
  obtain rfl : e = d := by omega
  rw [← List.head?_drop, ← hrest]
  rfl

/-- Once it has driven, the rest is what is left. -/
theorem Supplied.drive {rest : List TransFifo} {e : Nat} {tx : TransFifo}
    (h : Supplied txs e rest (.drive tx)) : Supplied txs e rest .get := by
  obtain ⟨d, he, hrest⟩ := h
  show rest = txs.drop e
  rw [he, ← List.drop_drop, ← hrest]
  rfl

/-- A driver that finds nothing has driven everything. -/
theorem Supplied.getElem?_of_empty {e : Nat} (h : Supplied txs e [] .get) : txs[e]? = none := by
  rw [← List.head?_drop, ← show [] = txs.drop e from h]
  rfl

theorem Supplied.empty_edge {e : Nat} (h : Supplied txs e [] .get) :
    Supplied txs (e + 1) [] .get := by
  show [] = txs.drop (e + 1)
  rw [← List.drop_drop, ← show [] = txs.drop e from h]
  rfl

/-- A transaction driven in the slot of edge `e` is due at the next. -/
theorem Driven.drive {rest : List TransFifo} {tx : TransFifo}
    (h : Driven found txs cs (.drive tx) vif) (hs : Supplied txs cs.length rest (.drive tx)) :
    Driven found txs cs .get { vif with driverCb := vif.driverCb.drive tx } := by
  refine ⟨h.clocked, h.first, h.taken, ?_⟩
  intro _ d tx' hd htx'
  rw [hd] at hs
  rw [hs.getElem?] at htx'
  rw [← Option.some.inj htx']
  exact DriverCb.settle_drive vif.driverCb tx vif.inputs

/-- The next edge takes what is due. -/
theorem Driven.nextInputs {pc : DrvPc} (h : Driven found txs cs pc vif) (hpc : ∀ tx, pc ≠ .drive tx)
    {d : Nat} {tx : TransFifo} (hlen : cs.length = d + 1) (htx : txs[d]? = some tx) :
    vif.nextInputs = tx.cycle := by
  have hclk : vif.clocked = true := by
    rw [h.clocked]
    intro hnil
    simp [hnil] at hlen
  rw [InfFifo.nextInputs, if_pos hclk]
  exact h.due hpc d tx hlen htx

/-- The first edge, with the next one. -/
theorem Driven.first_edge {pc : DrvPc} (h : Driven found txs cs pc vif) :
    (cs ++ [vif.nextInputs] = [] → vif.nextInputs = found) ∧
      ∀ c, (cs ++ [vif.nextInputs])[0]? = some c → c = found := by
  refine ⟨fun hnil => absurd hnil (by simp), ?_⟩
  intro c hc
  cases cs with
  | nil =>
      have hclk : vif.clocked = false := by simpa using h.clocked
      obtain rfl : vif.nextInputs = c := by simpa using hc
      rw [InfFifo.nextInputs, hclk]
      exact h.first.1 rfl
  | cons d cs => exact h.first.2 c hc

/-- The edges that take transactions, with the next one. -/
theorem Driven.taken_edge {pc : DrvPc} (h : Driven found txs cs pc vif) (hpc : ∀ tx, pc ≠ .drive tx)
    (k : Nat) (c : Cycle Word) (tx : TransFifo)
    (hc : (cs ++ [vif.nextInputs])[k + 1]? = some c) (htx : txs[k]? = some tx) :
    c = tx.cycle := by
  by_cases hk : k + 1 < cs.length
  · rw [List.getElem?_append_left hk] at hc
    exact h.taken k c tx hc htx
  · rw [List.getElem?_append_right (by omega)] at hc
    obtain ⟨h0, rfl⟩ := List.getElem?_eq_some_iff.mp hc
    have hlen : cs.length = k + 1 := by simp at h0; omega
    simpa using h.nextInputs hpc hlen htx

/-! ### design and monitor -/

theorem Wired.edge (h : Wired rstN dut cs vif now) (c : Cycle Word) (d : DriverCb) :
    Wired rstN dut (cs ++ [c])
      ⟨vif.rstN, c, d, (c, (now.posedge vif.rstN c).outs), true⟩ (now.posedge vif.rstN c) where
  reset := h.reset
  design := by
    rw [clockedBy, Run.run_concat, h.reset, h.design]
    rfl
  sampled := by
    intro c' hc'
    obtain rfl : c = c' := by simpa using hc'
    rfl

/-- What the monitor makes of the last edge. -/
theorem Wired.shows {k : Nat} (h : Wired rstN dut cs vif now) (hlen : cs.length = k + 1) :
    Shows rstN dut cs k (.capture vif.rstN vif.monitorCb.1 vif.monitorCb.2) := by
  obtain rfl | ⟨pre, c, rfl⟩ := List.eq_nil_or_concat' cs
  · contradiction
  · have hk : pre.length = k := by simpa using hlen
    rw [h.sampled c (by simp), h.reset, h.design, ← hk]
    exact shows_last c

/-- The count an `int` can hold is the count the monitor repeats for. -/
theorem toNat_toInt_ofNat (hn : n < 2 ^ 31) : (BitVec.ofNat 32 n).toInt.toNat = n := by
  have hlt : n < 2 ^ 32 := by omega
  rw [BitVec.toInt_eq_toNat_cond, BitVec.toNat_ofNat, Nat.mod_eq_of_lt hlt, if_pos (by omega)]
  exact Int.toNat_natCast n

/-- The count comes through. -/
theorem Counted.count {gen : GenFifo} {m : BitVec 32} {mbx : List (BitVec 32)} {genPc : GenPc}
    (h : Counted n gen (m :: mbx) genPc .count) (hn : n < 2 ^ 31) : m.toInt.toNat = n := by
  have hmbx := h.mbx (Or.inr rfl)
  by_cases hd : genPc = .done
  · rw [if_pos hd] at hmbx
    obtain ⟨rfl, -⟩ := List.cons.inj hmbx
    rw [h.numTrans, toNat_toInt_ofNat hn]
  · rw [if_neg hd] at hmbx
    contradiction

/-- Past its count the monitor has no more use for the mailbox. -/
theorem Counted.past {gen : GenFifo} {mbx mbx' : List (BitVec 32)} {genPc : GenPc}
    {pc pc' : MonPc} (h : Counted n gen mbx genPc pc) (hf : pc' ≠ .first) (hc : pc' ≠ .count) :
    Counted n gen mbx' genPc pc' :=
  ⟨h.numTrans, h.q, fun hpc => absurd hpc (not_or.mpr ⟨hf, hc⟩)⟩

theorem Monitored.count (h : Monitored rstN dut n cs sent .count) :
    Monitored rstN dut n cs sent (.loop n) := by
  obtain ⟨ts, hsent, ⟨he, hts⟩, hshows⟩ := h
  exact ⟨ts, hsent, ⟨by omega, by omega⟩, hshows⟩

/-- The transaction a round sends shows the edge the round waited for. -/
theorem Monitored.sample {r : Nat} (h : Monitored rstN dut n cs sent (.sample r))
    (hw : Wired rstN dut cs vif now) :
    Monitored rstN dut n cs
      (sent ++ [some (.capture vif.rstN vif.monitorCb.1 vif.monitorCb.2)]) (.loop r) := by
  obtain ⟨ts, hsent, ⟨he, hr⟩, hshows⟩ := h
  refine ⟨ts ++ [.capture vif.rstN vif.monitorCb.1 vif.monitorCb.2], ?_, ?_, ?_⟩
  · rw [hsent]
    exact stream_check ts _
  · rw [List.length_append, List.length_singleton]
    exact ⟨he, by omega⟩
  · intro k t ht
    by_cases hk : k < ts.length
    · rw [List.getElem?_append_left hk] at ht
      exact hshows k t ht
    · rw [List.getElem?_append_right (by omega)] at ht
      obtain ⟨h0, rfl⟩ := List.getElem?_eq_some_iff.mp ht
      have hkt : k = ts.length := by simp at h0; omega
      simpa [hkt] using hw.shows he

theorem Monitored.finish (h : Monitored rstN dut n cs sent (.loop 0)) :
    Monitored rstN dut n cs (sent ++ [none]) .done := by
  obtain ⟨ts, hsent, hat, hshows⟩ := h
  refine ⟨ts, ?_, hat.2, hshows⟩
  rw [hsent]
  exact stream_end ts

/-- An edge moves the monitor on and changes nothing it has sent. -/
theorem Monitored.edge {pc pc' : MonPc} (h : Monitored rstN dut n cs sent pc) (c : Cycle Word)
    (hret : pc'.returned = pc.returned)
    (hat : ∀ m, pc.At n cs.length m → pc'.At n (cs.length + 1) m) :
    Monitored rstN dut n (cs ++ [c]) sent pc' := by
  obtain ⟨ts, hsent, hts, hshows⟩ := h
  refine ⟨ts, hret ▸ hsent, ?_, fun k t ht => (hshows k t ht).concat c⟩
  rw [List.length_append]
  exact hat _ hts

/-! ### scoreboard -/

/-- Short of the end of the stream the scoreboard has not completed. -/
theorem ScbFifo.completed_false (ts : List TransFifo) :
    { ScbFifo.new.checks ts with completed := false } = ScbFifo.new.checks ts := by
  have h : (ScbFifo.new.checks ts).completed = false := ScbFifo.completed_checks _ _
  rw [← h]

theorem Checked.start {scb : ScbFifo} (h : Checked sent scb .start) :
    Checked sent { scb with completed := false } .get := by
  obtain ⟨ts, hsent, rfl⟩ := h
  exact ⟨ts, hsent, rfl⟩

theorem Checked.check {scb : ScbFifo} (h : Checked sent scb .get) (t : TransFifo) :
    Checked (sent ++ [some t]) (scb.check t) .get := by
  obtain ⟨ts, hsent, rfl⟩ := h
  refine ⟨ts ++ [t], ?_, ?_⟩
  · rw [hsent]
    exact stream_check ts t
  · show ({ ScbFifo.new.checks ts with completed := false } : ScbFifo).check t =
      { ScbFifo.new.checks (ts ++ [t]) with completed := false }
    rw [ScbFifo.completed_false, ScbFifo.completed_false, ScbFifo.checks_concat]

theorem Checked.finish {scb : ScbFifo} (h : Checked sent scb .get) :
    Checked (sent ++ [none]) { scb with completed := true } .done := by
  obtain ⟨ts, hsent, rfl⟩ := h
  refine ⟨ts, ?_, rfl⟩
  rw [hsent]
  exact stream_end ts

end

/-! ## one step of the environment -/

section
variable {vif : InfFifo} {dut : Fifo Word} {txs : List TransFifo} {tr : List Event}
variable {s s' : EnvFifo}

theorem Aligned.genRun (h : Aligned vif dut txs tr s) (hs : s.genRun = some s') :
    Aligned vif dut txs tr s' := by
  obtain ⟨tx, q, hpc, hq, rfl⟩ | ⟨hpc, hq, rfl⟩ := EnvFifo.genRun_cases hs
  · refine { h with supplied := ?_, counted := ⟨h.counted.numTrans, ?_, h.counted.mbx⟩ }
    · have := h.supplied
      rw [hq] at this
      simpa using this
    · intro hd
      rw [hpc] at hd
      contradiction
  · refine { h with counted := ⟨h.counted.numTrans, fun _ => hq, ?_⟩ }
    intro hm
    have := h.counted.mbx hm
    rw [hpc] at this
    simp [this]

theorem Aligned.drvRun (h : Aligned vif dut txs tr s) (hs : s.drvRun = some s') :
    Aligned vif dut txs tr s' := by
  have hsup := h.supplied
  have hdrv := h.driven
  have hwired := h.wired
  obtain ⟨hpc, rfl⟩ | ⟨tx, mbx, hpc, hm, rfl⟩ | ⟨tx, hpc, rfl⟩ := EnvFifo.drvRun_cases hs
  · rw [hpc] at hsup
    obtain ⟨he, hrest⟩ := hsup
    refine { h with
      supplied := ?_
      driven := ⟨hdrv.clocked, hdrv.first, hdrv.taken, ?_⟩
      wired := ⟨hwired.reset, hwired.design, hwired.sampled⟩ }
    · rw [Supplied, he]
      exact hrest
    · intro _ d _ hd
      omega
  · rw [hpc, hm] at hsup
    rw [hpc] at hdrv
    refine { h with
      supplied := hsup
      driven := ⟨hdrv.clocked, hdrv.first, hdrv.taken, fun _ => hdrv.due ?_⟩ }
    intro _ hd
    contradiction
  · rw [hpc] at hsup hdrv
    exact { h with
      supplied := hsup.drive
      driven := hdrv.drive hsup
      wired := ⟨hwired.reset, hwired.design, hwired.sampled⟩ }

theorem Aligned.monRun (hn : txs.length < 2 ^ 31) (h : Aligned vif dut txs tr s)
    (hs : s.monRun = some s') : Aligned vif dut txs tr s' := by
  have hcount := h.counted
  have hmon := h.monitored
  obtain ⟨m, mbx, hpc, hm, rfl⟩ | ⟨hpc, rfl⟩ | ⟨r, hpc, rfl⟩ | ⟨r, hpc, rfl⟩ :=
    EnvFifo.monRun_cases hs
  · rw [hpc, hm] at hcount
    rw [hpc] at hmon
    have hmn := hcount.count hn
    refine { h with counted := ?_, monitored := ?_ }
    · exact hcount.past (by simp) (by simp)
    · rw [hmn]
      exact hmon.count
  · rw [hpc] at hmon
    refine { h with counted := hcount.past (by simp) (by simp), monitored := ?_ }
    rw [← List.append_assoc]
    exact hmon.finish
  · rw [hpc] at hmon
    exact { h with counted := hcount.past (by simp) (by simp), monitored := hmon }
  · rw [hpc] at hmon
    refine { h with counted := hcount.past (by simp) (by simp), monitored := ?_ }
    rw [← List.append_assoc]
    exact hmon.sample h.wired

/-- A message changes only the scoreboard and its mailbox. -/
theorem Aligned.got (h : Aligned vif dut txs tr s) {m : Option TransFifo}
    {mbx : List (Option TransFifo)} (hm : s.mon2scbMbx = m :: mbx) {scb : ScbFifo} {pc : ScbPc}
    (hchk : Checked (gots tr ++ [m]) scb pc) :
    Aligned vif dut txs (tr ++ [.got m]) { s with scb, mon2scbMbx := mbx, scbPc := pc } := by
  have hmon := h.monitored
  rw [hm] at hmon
  constructor
  · rw [edges_got]; exact h.supplied
  · exact h.counted
  · rw [edges_got]; exact h.driven
  · rw [edges_got]; exact h.wired
  · rw [edges_got, gots_got, List.append_assoc]; exact hmon
  · rw [gots_got]; exact hchk

theorem Aligned.scbRun {e : Option Event} (h : Aligned vif dut txs tr s)
    (hs : s.scbRun = some (e, s')) : Aligned vif dut txs (tr ++ e.toList) s' := by
  have hchk := h.consumed
  obtain ⟨hpc, rfl, rfl⟩ | ⟨t, mbx, hpc, hm, rfl, rfl⟩ | ⟨mbx, hpc, hm, rfl, rfl⟩ :=
    EnvFifo.scbRun_cases hs
  · rw [hpc] at hchk
    rw [Option.toList_none, List.append_nil]
    exact { h with consumed := hchk.start }
  · rw [hpc] at hchk
    have hnext : Checked (gots tr ++ [some t]) (s.scb.check t) s.scbPc := by
      rw [hpc]
      exact hchk.check t
    exact h.got hm hnext
  · rw [hpc] at hchk
    exact h.got hm hchk.finish

/-- When all are blocked the monitor is at a clocking event or has returned: the
generator has put the count it would wait for. -/
theorem Aligned.settled_monPc (h : Aligned vif dut txs tr s) (hs : s.Settled) :
    s.monPc = .first ∨ (∃ r, s.monPc = .wait r) ∨ s.monPc = .done := by
  obtain hpc | ⟨hpc, hm⟩ | hpc | hpc := hs.monPc
  · exact Or.inl hpc
  · have hmbx := h.counted.mbx (Or.inr hpc)
    rw [hm, if_pos hs.genPc] at hmbx
    contradiction
  · exact Or.inr (Or.inl hpc)
  · exact Or.inr (Or.inr hpc)

theorem Aligned.posedge (h : Aligned vif dut txs tr s) (hs : s.Settled) :
    Aligned vif dut txs (tr ++ [.edge s.vif.nextInputs]) s.posedge := by
  have hsup := h.supplied
  have hdrv := h.driven
  have hq := h.counted.q hs.genPc
  have hlen : (edges (tr ++ [.edge s.vif.nextInputs])).length = (edges tr).length + 1 := by simp
  have hpc : ∀ tx, s.drvPc ≠ .drive tx := by
    intro tx hd
    obtain ⟨hpc, -⟩ | ⟨tx', hpc⟩ := hs.drvPc
    · simp [hpc] at hd
    · simp [hpc] at hd
  constructor
  · rw [hlen]
    obtain ⟨hpc, hm⟩ | ⟨tx, hpc⟩ := hs.drvPc
    · rw [hpc, hm, hq] at hsup
      simp only [EnvFifo.posedge, hpc, hm, hq]
      exact hsup.empty_edge
    · rw [hpc] at hsup
      simp only [EnvFifo.posedge, hpc]
      exact ⟨_, rfl, hsup⟩
  · refine ⟨h.counted.numTrans, h.counted.q, ?_⟩
    intro hfirst
    apply h.counted.mbx
    obtain hpc | ⟨r, hpc⟩ | hpc := h.settled_monPc hs
    · exact Or.inl hpc
    · simp [EnvFifo.posedge, hpc] at hfirst
    · simp [EnvFifo.posedge, hpc] at hfirst
  · rw [edges_edge]
    refine ⟨by simp [EnvFifo.posedge], hdrv.first_edge, hdrv.taken_edge hpc, ?_⟩
    -- a driver that is not about to drive now had nothing left to drive
    intro hnow d tx hd htx
    obtain ⟨hpc, hm⟩ | ⟨tx', hpc⟩ := hs.drvPc
    · rw [hpc, hm, hq] at hsup
      have hd' : (edges tr).length = d := by simpa using hd
      rw [← hd', hsup.getElem?_of_empty] at htx
      contradiction
    · exact absurd (by simp [EnvFifo.posedge, hpc]) (hnow tx')
  · rw [edges_edge]
    exact h.wired.edge _ _
  · rw [edges_edge, gots_edge]
    obtain hpc | ⟨r, hpc⟩ | hpc := h.settled_monPc hs
    · apply h.monitored.edge <;> simp only [EnvFifo.posedge, hpc]
      · rfl
      · rintro m ⟨he, hm⟩
        exact ⟨by omega, hm⟩
    · apply h.monitored.edge <;> simp only [EnvFifo.posedge, hpc]
      · rfl
      · rintro m ⟨he, hm⟩
        exact ⟨by omega, hm⟩
    · apply h.monitored.edge <;> simp only [EnvFifo.posedge, hpc]
      exact fun m hm => hm
  · rw [gots_edge]
    exact h.consumed

/-- The invariant is kept by every step. -/
theorem Aligned.step {e : Option Event} (hn : txs.length < 2 ^ 31)
    (h : Aligned vif dut txs tr s) (hs : EnvFifo.Step s e s') :
    Aligned vif dut txs (tr ++ e.toList) s' := by
  cases hs with
  | gen hs => simpa using h.genRun hs
  | drv hs => simpa using h.drvRun hs
  | mon hs => simpa using h.monRun hn hs
  | scb hs => exact h.scbRun hs
  | posedge hs => exact h.posedge hs

/-! ## completion -/

/-- The scoreboard has completed exactly when it has returned. -/
theorem Aligned.completed_eq (h : Aligned vif dut txs tr s) :
    s.scb.completed = s.scbPc.returned := by
  obtain ⟨ts, -, hscb⟩ := h.consumed
  rw [hscb]

/-- The scoreboard has taken the beginning of what the monitor sends. -/
theorem Aligned.gots_eq (h : Aligned vif dut txs tr s) :
    gots tr = stream (checked tr) s.scb.completed ∧
      s.scb = { ScbFifo.new.checks (checked tr) with completed := s.scb.completed } := by
  rw [h.completed_eq]
  obtain ⟨ts, hgots, hscb⟩ := h.consumed
  have hts : checked tr = ts := by rw [checked, hgots, filterMap_stream]
  rw [hts]
  exact ⟨hgots, hscb⟩

/-- Every transaction checked shows its edge; there are as many as calls once
the scoreboard has completed. -/
theorem Aligned.checked_shows (h : Aligned vif dut txs tr s) :
    (checked tr).length ≤ txs.length ∧
      (s.scb.completed = true → (checked tr).length = txs.length) ∧
      ∀ k t, (checked tr)[k]? = some t → Shows vif.rstN dut (edges tr) (k + 1) t := by
  obtain ⟨ts, hsent, hat, hshows⟩ := h.monitored
  rw [h.gots_eq.1] at hsent
  obtain ⟨hpre, hend⟩ := prefix_of_stream hsent
  have hle : ts.length ≤ txs.length := by
    cases hpc : s.monPc <;> rw [hpc] at hat <;> simp only [MonPc.At] at hat <;> omega
  refine ⟨Nat.le_trans hpre.length_le hle, ?_, ?_⟩
  · intro hc
    obtain ⟨hts, hret⟩ := hend hc
    rw [hts]
    cases hpc : s.monPc <;> rw [hpc] at hat hret <;> first | contradiction | exact hat
  · intro k t ht
    obtain ⟨later, rfl⟩ := hpre
    have hk : k < (checked tr).length := (List.getElem?_eq_some_iff.mp ht).1
    exact hshows k t (by rwa [List.getElem?_append_left hk])

end

/-! ## progress -/

/-- Steps the generator has left besides its puts. -/
def GenPc.rank : GenPc → Nat
  | .loop => 1
  | .done => 0

/-- Steps the driver has left for what it has taken. -/
def DrvPc.rank : DrvPc → Nat
  | .start => 1
  | .get => 0
  | .wait _ => 1
  | .drive _ => 1

/-- Steps the monitor of `n` transactions has left, those of the clock and of
the scoreboard it causes included. -/
def MonPc.rank (n : Nat) : MonPc → Nat
  | .first => 4 * n + 4
  | .count => 4 * n + 3
  | .loop r => 4 * r + 2
  | .wait r => 4 * r + 5
  | .sample r => 4 * r + 4
  | .done => 0

/-- Steps the scoreboard has left besides its gets. -/
def ScbPc.rank : ScbPc → Nat
  | .start => 1
  | .get => 0
  | .done => 0

/-- What is left to do before the scoreboard completes. -/
def EnvFifo.rank (s : EnvFifo) : Nat :=
  3 * s.gen.q.length + s.genPc.rank + 2 * s.gen2drvMbx.length + s.drvPc.rank +
    s.monPc.rank s.gen.numTrans.toInt.toNat + s.mon2scbMbx.length + s.scbPc.rank

section
variable {vif : InfFifo} {dut : Fifo Word} {txs : List TransFifo} {tr : List Event}
variable {s s' : EnvFifo}

namespace EnvFifo

theorem rank_genRun (hs : s.genRun = some s') : s'.rank < s.rank := by
  obtain ⟨tx, q, hpc, hq, rfl⟩ | ⟨hpc, hq, rfl⟩ := genRun_cases hs
  · simp only [rank, hq, List.length_append, List.length_cons, List.length_nil]
    omega
  · simp only [rank, hpc, GenPc.rank]
    omega

theorem rank_drvRun (hs : s.drvRun = some s') : s'.rank < s.rank := by
  obtain ⟨hpc, rfl⟩ | ⟨tx, mbx, hpc, hm, rfl⟩ | ⟨tx, hpc, rfl⟩ := drvRun_cases hs
  · simp only [rank, hpc, DrvPc.rank]
    omega
  · simp only [rank, hpc, hm, DrvPc.rank, List.length_cons]
    omega
  · simp only [rank, hpc, DrvPc.rank]
    omega

theorem rank_scbRun {e : Option Event} (hs : s.scbRun = some (e, s')) : s'.rank < s.rank := by
  obtain ⟨hpc, -, rfl⟩ | ⟨t, mbx, hpc, hm, -, rfl⟩ | ⟨mbx, hpc, hm, -, rfl⟩ := scbRun_cases hs
  · simp only [rank, hpc, ScbPc.rank]
    omega
  · simp only [rank, hm, List.length_cons]
    omega
  · simp only [rank, hpc, hm, ScbPc.rank, List.length_cons]
    omega

end EnvFifo

theorem Aligned.rank_monRun (hn : txs.length < 2 ^ 31) (h : Aligned vif dut txs tr s)
    (hs : s.monRun = some s') : s'.rank < s.rank := by
  have hcount := h.counted
  obtain ⟨m, mbx, hpc, hm, rfl⟩ | ⟨hpc, rfl⟩ | ⟨r, hpc, rfl⟩ | ⟨r, hpc, rfl⟩ :=
    EnvFifo.monRun_cases hs
  · rw [hpc, hm] at hcount
    simp only [EnvFifo.rank, hpc, MonPc.rank, hcount.count hn, hcount.numTrans,
      toNat_toInt_ofNat hn]
    omega
  · simp only [EnvFifo.rank, hpc, MonPc.rank, List.length_append, List.length_singleton]
    omega
  · simp only [EnvFifo.rank, hpc, MonPc.rank]
    omega
  · simp only [EnvFifo.rank, hpc, MonPc.rank, List.length_append, List.length_singleton]
    omega

/-- The clock moves the driver and the monitor on.  It rises only while the
monitor waits for it, or after completion. -/
theorem Aligned.rank_posedge (h : Aligned vif dut txs tr s) (hs : s.Settled)
    (hc : s.scb.completed = false) : s.posedge.rank < s.rank := by
  have hdrv : s.posedge.drvPc.rank = s.drvPc.rank := by
    obtain ⟨hpc, -⟩ | ⟨tx, hpc⟩ := hs.drvPc <;> simp [EnvFifo.posedge, hpc, DrvPc.rank]
  have hmon : s.posedge.monPc.rank s.gen.numTrans.toInt.toNat <
      s.monPc.rank s.gen.numTrans.toInt.toNat := by
    obtain hpc | ⟨r, hpc⟩ | hpc := h.settled_monPc hs
    · simp only [EnvFifo.posedge, hpc, MonPc.rank]
      omega
    · simp only [EnvFifo.posedge, hpc, MonPc.rank]
      omega
    · -- the end of the stream is in the mailbox, or the scoreboard has taken it
      obtain ⟨ts, hsent, -, -⟩ := h.monitored
      obtain ⟨-, hm⟩ | hdone := hs.scbPc
      · rw [h.gots_eq.1, hc, hm, hpc, List.append_nil] at hsent
        have hmem : none ∈ stream (checked tr) false := by
          rw [hsent]
          simp [stream, MonPc.returned]
        simp [stream] at hmem
      · rw [h.completed_eq, hdone] at hc
        contradiction
  show _ + s.posedge.drvPc.rank + s.posedge.monPc.rank s.gen.numTrans.toInt.toNat + _ + _ <
    _ + s.drvPc.rank + s.monPc.rank s.gen.numTrans.toInt.toNat + _ + _
  rw [hdrv]
  show 3 * s.gen.q.length + s.genPc.rank + 2 * s.gen2drvMbx.length + _ + _ +
    s.mon2scbMbx.length + s.scbPc.rank < _
  omega

/-- Short of completion every step lowers the rank. -/
theorem Aligned.rank_step {e : Option Event} (hn : txs.length < 2 ^ 31)
    (h : Aligned vif dut txs tr s) (hc : ¬ s.scb.completed = true) (hs : EnvFifo.Step s e s') :
    s'.rank < s.rank := by
  cases hs with
  | gen hs => exact EnvFifo.rank_genRun hs
  | drv hs => exact EnvFifo.rank_drvRun hs
  | mon hs => exact h.rank_monRun hn hs
  | scb hs => exact EnvFifo.rank_scbRun hs
  | posedge hs => exact h.rank_posedge hs (Bool.not_eq_true _ ▸ hc)

end

/-! ## the environment -/

/-- Every execution of the environment keeps the invariant. -/
theorem aligned_exec {vif : InfFifo} {dut : Fifo Word} {calls : List SendCall}
    (hn : calls.length < 2 ^ 31) {tr : List Event} {s : EnvFifo}
    (h : Exec EnvFifo.Step (EnvFifo.build vif dut calls) tr s) :
    Aligned vif dut (calls.map SendCall.tx) tr s :=
  h.invariant (Aligned vif dut (calls.map SendCall.tx)) (aligned_build vif dut calls)
    fun _ _ _ _ ha hs => ha.step (by simpa using hn) hs

/-- **Bench pipeline**: in every execution the scoreboard checks transactions
in the order of the calls, transaction `k` with the controls and the data of call
`k` and the outputs of the edge at which the design took them; it takes `null`
once, after the last of them, and only then completes, with one check for each
call; and whatever the interleaving, it completes. -/
theorem env_checks_calls (vif : InfFifo) (dut : Fifo Word) (calls : List SendCall)
    (hn : calls.length < 2 ^ 31) :
    (∀ tr s, Exec EnvFifo.Step (EnvFifo.build vif dut calls) tr s →
      (∀ k t, (checked tr)[k]? = some t → ∃ call, calls[k]? = some call ∧
        let after := (clockedBy vif.rstN dut ((edges tr).take (k + 1))).posedge vif.rstN
          call.tx.cycle
        t.fClrN = call.op.req.fClrN ∧ t.fInN = call.op.req.fInN ∧ t.fOutN = call.op.req.fOutN ∧
        t.dataIn = (if call.randomizeData = .random then call.randomized else call.data) ∧
        (edges tr)[k + 1]? = some call.tx.cycle ∧
        t.fData = after.fData ∧ t.fEmptyN = .ofBool after.fEmptyN ∧
        t.fFirstN = .ofBool after.fFirstN ∧ t.fSLastN = .ofBool after.fSLastN ∧
        t.fLastN = .ofBool after.fLastN ∧ t.fFullN = .ofBool after.fFullN ∧
        t = .capture vif.rstN call.tx.cycle after.outs) ∧
      s.dut = clockedBy vif.rstN dut (edges tr) ∧
      s.scb = { ScbFifo.new.checks (checked tr) with completed := s.scb.completed } ∧
      (s.scb.completed = false → gots tr = (checked tr).map some) ∧
      (s.scb.completed = true →
        gots tr = (checked tr).map some ++ [none] ∧ (checked tr).length = calls.length ∧
        s.scb.checkCount = s.gen.numTrans ∧ s.gen.numTrans.toNat = calls.length ∧
        s.scb.passCount.toNat + s.scb.errorCount.toNat = calls.length)) ∧
    Inevitable EnvFifo.Step (fun s => s.scb.completed = true)
      (EnvFifo.build vif dut calls) := by
  constructor
  · intro tr s h
    have ha := aligned_exec hn h
    obtain ⟨hle, hall, hshows⟩ := ha.checked_shows
    obtain ⟨hgots, hscb⟩ := ha.gots_eq
    rw [List.length_map] at hle hall
    refine ⟨?_, ha.wired.design, hscb, ?_, ?_⟩
    · intro k t ht
      have hk : k < calls.length :=
        Nat.lt_of_lt_of_le (List.getElem?_eq_some_iff.mp ht).1 hle
      obtain ⟨c, hc, rfl⟩ := hshows k t ht
      obtain rfl : c = calls[k].tx.cycle := ha.driven.taken k c calls[k].tx hc (by simp [hk])
      refine ⟨calls[k], List.getElem?_eq_getElem hk, rfl, rfl, rfl, ?_, hc, rfl, rfl, rfl, rfl,
        rfl, rfl, rfl⟩
      rw [← SendCall.dataIn_tx]
      exact LogicVec.toBits_ofBits _
    · intro hc
      rw [hgots, hc]
      simp [stream]
    · intro hc
      have hnum := ha.counted.numTrans
      rw [List.length_map] at hnum
      obtain ⟨p, e, hsum, hp, he, hcount⟩ := ScbFifo.counters_checks (checked tr)
      rw [hall hc] at hsum hcount
      refine ⟨?_, hall hc, ?_, ?_, ?_⟩
      · rw [hgots, hc]
        simp [stream]
      · rw [hscb, hnum]
        exact hcount
      · rw [hnum, BitVec.toNat_ofNat]
        omega
      · rw [hscb]
        show (ScbFifo.new.checks (checked tr)).passCount.toNat +
          (ScbFifo.new.checks (checked tr)).errorCount.toNat = _
        rw [hp, he, BitVec.toNat_ofNat, BitVec.toNat_ofNat]
        omega
  · have hlen : (calls.map SendCall.tx).length < 2 ^ 31 := by simpa using hn
    exact inevitable_of_rank (Aligned vif dut (calls.map SendCall.tx)) _ EnvFifo.rank
      (fun _ _ _ _ ha hs => ha.step hlen hs) (fun _ s _ _ => s.exists_step)
      (fun _ _ _ _ ha hc hs => ha.rank_step hlen hc hs) (aligned_build vif dut calls)

/-- A write and a read are both checked. -/
theorem env_checks_write_read :
    ∃ tr s, Exec EnvFifo.Step (EnvFifo.build (.idle Fifo.powerUp) Fifo.powerUp
        [⟨.write, .manual, 5, 0⟩, ⟨.read, .random, 0, 7⟩]) tr s ∧
      s.scb.completed = true ∧ (checked tr).length = 2 := by
  obtain ⟨hexec, hcomplete⟩ := env_checks_calls (.idle Fifo.powerUp) Fifo.powerUp
    [⟨.write, .manual, 5, 0⟩, ⟨.read, .random, 0, 7⟩] (by decide)
  obtain ⟨tr, s, h, hc⟩ := hcomplete.exists_exec .refl
  obtain ⟨-, -, -, -, hdone⟩ := hexec tr s h
  exact ⟨tr, s, h, hc, (hdone hc).2.1⟩

end BasicFifo
