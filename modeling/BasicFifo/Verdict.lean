import BasicFifo.Contents
import BasicFifo.Edges
import BasicFifo.Sequential

/-!
# BasicFifo.Verdict

Which tests pass.

What a test asks for is judged by its operations alone, cycle by cycle
(`Passes`): a test all of whose operations pass reports no error whatever data
it draws, and one with distinct data words reports an error at the first
operation that does not.  `env_errorCount_iff` carries this from the checker to
the environment, for every interleaving of its processes, and
`env_errorCount_so_far` to every moment of its executions.
-/

namespace BasicFifo

open FourState BoundedQueue Transition Interleaving

/-! ## counting failures -/

/-- The number of transactions of a stream at which `check` counts an error. -/
def failures (ts : List TransFifo) : Nat :=
  (List.range ts.length).countP fun k => decide (CheckFails ts k)

theorem checkFails_concat_of_lt {ts : List TransFifo} {t : TransFifo} {k : Nat}
    (hk : k < ts.length) : CheckFails (ts ++ [t]) k ↔ CheckFails ts k := by
  rw [CheckFails, CheckFails, List.take_append_of_le_length (by omega),
    List.take_append_of_le_length (by omega)]

theorem checkFails_concat_last {ts : List TransFifo} {t : TransFifo} :
    CheckFails (ts ++ [t]) ts.length ↔ ¬ (ScbFifo.new.checks ts).matched t = true := by
  rw [CheckFails, List.take_left, List.take_of_length_le (by simp), ScbFifo.checks_concat,
    ScbFifo.errorCount_check_iff]

theorem failures_concat (ts : List TransFifo) (t : TransFifo) :
    failures (ts ++ [t]) =
      failures ts + if (ScbFifo.new.checks ts).matched t then 0 else 1 := by
  have hpre : (List.range ts.length).countP (fun k => decide (CheckFails (ts ++ [t]) k)) =
      failures ts := by
    apply List.countP_congr
    intro k hk
    simp [checkFails_concat_of_lt (List.mem_range.mp hk)]
  rw [failures, List.length_append, List.length_singleton, List.range_succ, List.countP_append,
    hpre, List.countP_singleton]
  simp only [checkFails_concat_last]
  cases (ScbFifo.new.checks ts).matched t <;> rfl

/-- `errorCount` is the number of failures, as far as an `int` can hold it. -/
theorem errorCount_eq (ts : List TransFifo) :
    (ScbFifo.new.checks ts).errorCount = BitVec.ofNat 32 (failures ts) := by
  induction ts using List.reverseRecOn with
  | nil => rfl
  | append_singleton ts t ih =>
      rw [ScbFifo.checks_concat, ScbFifo.check_eq, failures_concat]
      cases (ScbFifo.new.checks ts).matched t
      · simp [ih, BitVec.ofNat_add]
      · simp [ih]

theorem failures_le (ts : List TransFifo) : failures ts ≤ ts.length := by
  have := List.countP_le_length (p := fun k => decide (CheckFails ts k)) (l := List.range ts.length)
  rwa [List.length_range] at this

theorem errorCount_eq_zero_iff {ts : List TransFifo} (hn : ts.length < 2 ^ 32) :
    (ScbFifo.new.checks ts).errorCount = 0 ↔ failures ts = 0 := by
  have hle := failures_le ts
  rw [errorCount_eq, ← BitVec.toNat_inj, BitVec.toNat_ofNat, Nat.mod_eq_of_lt (by omega)]
  rfl

theorem failures_eq_zero_iff {ts : List TransFifo} :
    failures ts = 0 ↔ ∀ k < ts.length, ¬ CheckFails ts k := by
  rw [failures, List.countP_eq_zero]
  simp

/-! ## operations that pass -/

/-- The operations that pass after the cycles `pre`: a word is written to an
empty FIFO only if none was read since the latest clear, a read finds the FIFO
empty, and a simultaneous request finds one to three words and is one of the
first three since the clear. -/
def Passes (pre : List (Cycle τ)) (o : FifoOp) : Prop :=
  (o = .write → stored pre = 0 → reads (sinceClear pre) = 0) ∧
  (o = .read → stored pre = 0) ∧
  (o = .readWrite → (1 ≤ stored pre ∧ stored pre ≤ 3) ∧ reads (sinceClear pre) ≤ 2)

instance (pre : List (Cycle τ)) (o : FifoOp) : Decidable (Passes pre o) := by
  unfold Passes
  infer_instance

/-- Cycles all of whose operations pass. -/
def Passing (cs : List (Cycle τ)) : Prop :=
  ∀ k (hk : k < cs.length), Passes (cs.take k) cs[k].op

instance (cs : List (Cycle τ)) : Decidable (Passing cs) := by
  unfold Passing
  infer_instance

theorem Passing.take {cs : List (Cycle τ)} (h : Passing cs) (n : Nat) : Passing (cs.take n) := by
  intro k hk
  rw [List.length_take] at hk
  rw [List.take_take, List.getElem_take, Nat.min_eq_left (by omega)]
  exact h k (by omega)

theorem Passes.predicted {pre : List (Cycle τ)} {o : FifoOp} (h : Passes pre o) :
    Predicted (stored pre) o :=
  ⟨h.2.1, fun ho => (h.2.2 ho).1.imp_right Nat.lt_succ_of_le⟩

/-- A clear always passes. -/
theorem passes_of_clear (pre : List (Cycle τ)) {c : Cycle τ} (h : c.fClrN = false) :
    Passes pre c.op := by
  obtain ⟨r, d⟩ := c
  obtain ⟨o, rfl⟩ := r.exists_op
  cases o with
  | clear | clearRead | clearWrite | clearReadWrite => exact ⟨by simp, by simp, by simp⟩
  | idle | write | read | readWrite => contradiction

@[simp] theorem reads_sinceClear_concat (cs : List (Cycle α)) (c : Cycle α) :
    reads (sinceClear (cs ++ [c])) =
      if c.fClrN then reads (sinceClear cs) + (if c.fOutN then 0 else 1) else 0 := by
  rw [sinceClear_concat]
  cases c.fClrN <;> simp

/-- The data written since the latest clear. -/
theorem written_sinceClear_concat (cs : List (Cycle α)) (c : Cycle α) :
    written (sinceClear (cs ++ [c])) =
      if c.fClrN then written (sinceClear cs) ++ (if c.fInN then [] else [c.dataIn]) else [] := by
  rw [sinceClear_concat]
  cases c.fClrN <;> simp

@[simp] theorem Cycle.fInN_map (f : α → β) (c : Cycle α) : (c.map f).fInN = c.fInN := rfl

@[simp] theorem Cycle.fOutN_map (f : α → β) (c : Cycle α) : (c.map f).fOutN = c.fOutN := rfl

@[simp] theorem Cycle.dataIn_map (f : α → β) (c : Cycle α) : (c.map f).dataIn = f c.dataIn := rfl

@[simp] theorem reads_sinceClear_map (f : α → β) (cs : List (Cycle α)) :
    reads (sinceClear (cs.map (Cycle.map f))) = reads (sinceClear cs) := by
  induction cs using List.reverseRecOn with
  | nil => rfl
  | append_singleton cs c ih =>
      rw [List.map_append, List.map_singleton, reads_sinceClear_concat, reads_sinceClear_concat, ih]
      rfl

/-- Data has no say in what passes. -/
theorem passing_map (f : α → β) (cs : List (Cycle α)) :
    Passing (cs.map (Cycle.map f)) ↔ Passing cs := by
  unfold Passing Passes
  simp only [List.length_map, List.getElem_map, ← List.map_take, stored_map, reads_sinceClear_map]
  rfl

theorem length_sinceClear_le (cs : List (Cycle α)) : (sinceClear cs).length ≤ cs.length :=
  (List.rtakeWhile_suffix _ _).length_le

theorem writes_sinceClear_le (cs : List (Cycle α)) : writes (sinceClear cs) ≤ cs.length :=
  Nat.le_trans List.countP_le_length (length_sinceClear_le cs)

theorem reads_sinceClear_le (cs : List (Cycle α)) : reads (sinceClear cs) ≤ cs.length :=
  Nat.le_trans List.countP_le_length (length_sinceClear_le cs)

/-! ## the design while all operations pass -/

section
variable {τ : Type}

/-- A bounded window on a stream moves like a queue. -/
theorem take_drop_concat (w : List τ) (d : τ) {k n : Nat} (hk : k ≤ w.length) :
    ((w ++ [d]).drop k).take n =
      if ((w.drop k).take n).length < n then (w.drop k).take n ++ [d] else (w.drop k).take n := by
  rw [List.drop_append_of_le_length hk]
  by_cases hlt : (w.drop k).length < n
  · rw [List.take_of_length_le (Nat.le_of_lt hlt), if_pos hlt, List.take_of_length_le]
    rw [List.length_append, List.length_singleton]
    exact hlt
  · rw [List.take_append_of_le_length (by omega), List.length_take, if_neg (by omega)]

/-- The same when its front leaves. -/
theorem take_drop_concat_succ (w : List τ) (d : τ) {k n : Nat} (hk : k < w.length)
    (hn : (w.drop k).length ≤ n) :
    ((w ++ [d]).drop (k + 1)).take n = ((w.drop k).take n).tail ++ [d] := by
  have hfit : ((w ++ [d]).drop (k + 1)).length ≤ n := by
    rw [List.length_drop] at hn ⊢
    rw [List.length_append, List.length_singleton]
    omega
  rw [List.take_of_length_le hfit, List.take_of_length_le hn, List.tail_drop,
    List.drop_append_of_le_length hk]

theorem tokenQueue_concat (cs : List (Cycle τ)) (c : Cycle τ) :
    tokenQueue (cs ++ [c]) = (tokenQueue cs).step (c.op.queueOp c.dataIn) := by
  rw [tokenQueue, List.map_append, List.map_singleton, Run.run_concat, tokenQueue]

theorem length_tokenQueue (cs : List (Cycle τ)) : (tokenQueue cs).items.length = stored cs := by
  induction cs using List.reverseRecOn with
  | nil => rfl
  | append_singleton cs c ih =>
      rw [tokenQueue_concat, Queue.length_step, ih, FifoOp.level_queueOp, stored_concat]

/-- The registers show the fill level, the queue is what was written since the
clear without what was read, and the first four words are in their cells. -/
structure Sound (pre : List (Cycle τ)) (s : Fifo (Option τ)) : Prop where
  sync : InSync (stored pre) s.toRegs
  row : s.toFlags = Flags.row (stored pre)
  wrPtr : s.wrPtr = BitVec.ofNat fwidth (writes (sinceClear pre))
  rdPtr : s.rdPtr = BitVec.ofNat fwidth (reads (sinceClear pre))
  empty : stored pre = 0 → written (sinceClear pre) = []
  early : 0 < stored pre → reads (sinceClear pre) ≤ 3
  items : (tokenQueue pre).items =
    ((written (sinceClear pre)).drop (reads (sinceClear pre))).take fdepth
  cell : ∀ (i : Fin fdepth) d, (written (sinceClear pre))[(i : Nat)]? = some d →
    s.memblk.fifo i = some d

/-- What the check of a cycle compares. -/
def Agrees (pre : List (Cycle τ)) (s : Fifo (Option τ)) : Prop :=
  s.toFlags = Flags.row (tokenQueue pre).items.length ∧
    ∀ d, (tokenQueue pre).items.head? = some d → s.fData = some d

theorem sound_powerUp : Sound ([] : List (Cycle τ)) Fifo.powerUp where
  sync := inSync_reset
  row := rfl
  wrPtr := rfl
  rdPtr := rfl
  empty := fun _ => rfl
  early := fun h => absurd h (Nat.lt_irrefl 0)
  items := rfl
  cell := fun i d hd => by simp [sinceClear] at hd

section
variable {pre : List (Cycle τ)} {s : Fifo (Option τ)} (h : Sound pre s)
include h

theorem Sound.agrees : Agrees pre s := by
  refine ⟨by rw [h.row, length_tokenQueue], ?_⟩
  intro d hd
  have hpos : 0 < stored pre := by
    rw [← length_tokenQueue]
    exact List.length_pos_of_mem (List.mem_of_mem_head? hd)
  have hr : reads (sinceClear pre) < 4 := by have := h.early hpos; omega
  have hptr : s.rdPtr.toNat = reads (sinceClear pre) := by rw [h.rdPtr, toNat_ptr (by omega)]
  rw [h.items, List.head?_take, if_neg (by decide), List.head?_drop] at hd
  rw [Fifo.fData, FifoMemBlk.dataOut_of_lt _ (by rw [hptr]; exact hr),
    ← h.cell ⟨reads (sinceClear pre), hr⟩ d hd]
  congr 1
  exact Fin.ext hptr

/-- The number of words stored is what was written without what was read, up to
the depth. -/
theorem Sound.stored_eq :
    stored pre = min fdepth (writes (sinceClear pre) - reads (sinceClear pre)) := by
  rw [← length_tokenQueue, h.items]
  simp

/-- The write pointer has not wrapped around. -/
theorem Sound.toNat_wrPtr (hlen : pre.length < 2 ^ 32) :
    s.wrPtr.toNat = (written (sinceClear pre)).length := by
  have hle := writes_sinceClear_le pre
  rw [h.wrPtr, length_written, toNat_ptr (by omega)]

theorem Sound.cell_step (hlen : pre.length < 2 ^ 32) (c : Cycle τ) (hclr : c.fClrN = true)
    (i : Fin fdepth) (d : τ) (hd : (written (sinceClear (pre ++ [c])))[(i : Nat)]? = some d) :
    (s.step (c.map some)).memblk.fifo i = some d := by
  have hptr := h.toNat_wrPtr hlen
  rw [written_sinceClear_concat, if_pos hclr] at hd
  rw [Fifo.fifo_step, hptr, Cycle.fInN_map, Cycle.dataIn_map]
  by_cases hin : c.fInN = false
  · rw [hin, if_neg (by simp)] at hd
    by_cases heq : (written (sinceClear pre)).length = i
    · rw [← heq, List.getElem?_concat_length] at hd
      rw [if_pos ⟨hin, heq⟩, hd]
    · rw [if_neg (fun hand => heq hand.2)]
      apply h.cell i d
      grind
  · rw [if_pos (by simpa using hin), List.append_nil] at hd
    rw [if_neg (fun hand => hin hand.1)]
    exact h.cell i d hd

/-- The pointers and the cells follow every request. -/
theorem Sound.advance (hlen : pre.length < 2 ^ 32) (c : Cycle τ) (hclr : c.fClrN = true)
    (hc : Passes pre c.op)
    (hempty : stored (pre ++ [c]) = 0 → written (sinceClear (pre ++ [c])) = [])
    (hearly : 0 < stored (pre ++ [c]) → reads (sinceClear (pre ++ [c])) ≤ 3)
    (hitems : (tokenQueue (pre ++ [c])).items =
      ((written (sinceClear (pre ++ [c]))).drop (reads (sinceClear (pre ++ [c])))).take fdepth) :
    Sound (pre ++ [c]) (s.step (c.map some)) where
  sync := by
    rw [stored_concat]
    exact h.sync.next c.toReq hc.predicted.steady
  row := by
    rw [stored_concat]
    exact h.sync.next_row h.row c.toReq hc.predicted
  wrPtr := by
    have hclr' : (c.map some).fClrN = true := hclr
    rw [Fifo.toRegs_step, Regs.wrPtr_next _ hclr', h.wrPtr, writes_sinceClear_concat, if_pos hclr]
    cases hin : c.fInN <;> simp [hin, BitVec.ofNat_add]
  rdPtr := by
    have hclr' : (c.map some).fClrN = true := hclr
    rw [Fifo.toRegs_step, Regs.rdPtr_next _ hclr', h.rdPtr, reads_sinceClear_concat, if_pos hclr]
    cases hout : c.fOutN <;> simp [hout, BitVec.ofNat_add]
  empty := hempty
  early := hearly
  items := hitems
  cell := h.cell_step hlen c hclr

end

/-- With the registers of reset the datapath is in order. -/
theorem sound_of_reset (pre : List (Cycle τ)) {s : Fifo (Option τ)} (hregs : s.toRegs = Regs.reset)
    (c : Cycle τ) (hclr : c.fClrN = false) : Sound (pre ++ [c]) s := by
  have hsince : sinceClear (pre ++ [c]) = [] := by rw [sinceClear_concat, hclr]; rfl
  have hitems : (tokenQueue (pre ++ [c])).items = [] := by
    rw [tokenQueue_concat]
    obtain ⟨r, d⟩ := c
    obtain ⟨o, rfl⟩ := r.exists_op
    cases o with
    | clear | clearRead | clearWrite | clearReadWrite => rfl
    | idle | write | read | readWrite => contradiction
  have hstored : stored (pre ++ [c]) = 0 := by rw [← length_tokenQueue, hitems]; rfl
  constructor
  case sync => rw [hregs, hstored]; exact inSync_reset
  case row => rw [hregs, hstored]; rfl
  case wrPtr => rw [hregs, hsince]; rfl
  case rdPtr => rw [hregs, hsince]; rfl
  case empty => intro _; rw [hsince]; rfl
  case early => intro hpos; omega
  case items => rw [hitems, hsince]; rfl
  case cell => intro i d hd; simp [hsince] at hd

/-- A clear brings the datapath in order. -/
theorem sound_clear (pre : List (Cycle τ)) (s : Fifo (Option τ)) (c : Cycle τ)
    (hclr : c.fClrN = false) : Sound (pre ++ [c]) (s.step (c.map some)) :=
  sound_of_reset pre (Fifo.toRegs_step_clear s (c.map some) hclr) c hclr

section
variable {pre : List (Cycle τ)} {s : Fifo (Option τ)} (h : Sound pre s)
  (hlen : pre.length < 2 ^ 32) (d : τ)
include h hlen

theorem Sound.idle :
    Sound (pre ++ [⟨FifoOp.idle.req, d⟩])
      (s.step ((⟨FifoOp.idle.req, d⟩ : Cycle τ).map some)) := by
  have hst : stored (pre ++ [⟨FifoOp.idle.req, d⟩]) = stored pre := stored_concat pre _
  have hr : reads (sinceClear (pre ++ [⟨FifoOp.idle.req, d⟩])) = reads (sinceClear pre) :=
    reads_sinceClear_concat pre _
  have hw : written (sinceClear (pre ++ [⟨FifoOp.idle.req, d⟩])) = written (sinceClear pre) :=
    (written_sinceClear_concat pre _).trans (List.append_nil _)
  have hq : tokenQueue (pre ++ [⟨FifoOp.idle.req, d⟩]) = tokenQueue pre := tokenQueue_concat pre _
  have hpass : Passes pre .idle := ⟨by simp, by simp, by simp⟩
  apply h.advance hlen ⟨FifoOp.idle.req, d⟩ rfl hpass
  · rw [hst, hw]
    exact h.empty
  · rw [hst, hr]
    exact h.early
  · rw [hq, hr, hw]
    exact h.items

/-- A word written goes behind those that are stored. -/
theorem Sound.write (hc : Passes pre .write) :
    Sound (pre ++ [⟨FifoOp.write.req, d⟩])
      (s.step ((⟨FifoOp.write.req, d⟩ : Cycle τ).map some)) := by
  have hst : stored (pre ++ [⟨FifoOp.write.req, d⟩]) = FifoOp.write.level (stored pre) :=
    stored_concat pre _
  have hr : reads (sinceClear (pre ++ [⟨FifoOp.write.req, d⟩])) = reads (sinceClear pre) :=
    reads_sinceClear_concat pre _
  have hw : written (sinceClear (pre ++ [⟨FifoOp.write.req, d⟩])) =
      written (sinceClear pre) ++ [d] := written_sinceClear_concat pre _
  have hq : tokenQueue (pre ++ [⟨FifoOp.write.req, d⟩]) = (tokenQueue pre).step (.push d) :=
    tokenQueue_concat pre _
  have hearly : reads (sinceClear pre) ≤ 3 := by
    by_cases h0 : stored pre = 0
    · rw [hc.1 rfl h0]
      exact Nat.zero_le _
    · exact h.early (Nat.pos_of_ne_zero h0)
  have hle : reads (sinceClear pre) ≤ (written (sinceClear pre)).length := by
    have hstored := h.stored_eq
    rw [length_written]
    by_cases h0 : stored pre = 0
    · rw [hc.1 rfl h0]
      exact Nat.zero_le _
    · omega
  apply h.advance hlen ⟨FifoOp.write.req, d⟩ rfl hc
  · rw [hst, FifoOp.level_write]
    intro h0
    split at h0 <;> omega
  · intro _
    rw [hr]
    exact hearly
  · rw [hq, hr, hw, take_drop_concat _ _ hle, ← h.items]
    exact Queue.items_push _ _

/-- A read that passes finds nothing and takes nothing. -/
theorem Sound.read (hc : Passes pre .read) :
    Sound (pre ++ [⟨FifoOp.read.req, d⟩])
      (s.step ((⟨FifoOp.read.req, d⟩ : Cycle τ).map some)) := by
  have h0 := hc.2.1 rfl
  have hnil := h.empty h0
  have hst : stored (pre ++ [⟨FifoOp.read.req, d⟩]) = 0 := by
    rw [stored_concat, h0]
    rfl
  have hw : written (sinceClear (pre ++ [⟨FifoOp.read.req, d⟩])) = [] := by
    rw [written_sinceClear_concat, hnil]
    rfl
  have hitems : (tokenQueue (pre ++ [⟨FifoOp.read.req, d⟩])).items = [] := by
    apply List.eq_nil_of_length_eq_zero
    rw [length_tokenQueue, hst]
  apply h.advance hlen ⟨FifoOp.read.req, d⟩ rfl hc
  · intro _
    exact hw
  · rw [hst]
    intro hpos
    exact absurd hpos (by decide)
  · rw [hitems, hw, List.drop_nil, List.take_nil]

/-- A replacement moves the window by one. -/
theorem Sound.readWrite (hc : Passes pre .readWrite) :
    Sound (pre ++ [⟨FifoOp.readWrite.req, d⟩])
      (s.step ((⟨FifoOp.readWrite.req, d⟩ : Cycle τ).map some)) := by
  obtain ⟨hn, hreads⟩ := hc.2.2 rfl
  have hstored := h.stored_eq
  have hst : stored (pre ++ [⟨FifoOp.readWrite.req, d⟩]) = stored pre := stored_concat pre _
  have hr : reads (sinceClear (pre ++ [⟨FifoOp.readWrite.req, d⟩])) =
      reads (sinceClear pre) + 1 := reads_sinceClear_concat pre _
  have hw : written (sinceClear (pre ++ [⟨FifoOp.readWrite.req, d⟩])) =
      written (sinceClear pre) ++ [d] := written_sinceClear_concat pre _
  have hq : tokenQueue (pre ++ [⟨FifoOp.readWrite.req, d⟩]) = (tokenQueue pre).step (.replace d) :=
    tokenQueue_concat pre _
  have hlt : reads (sinceClear pre) < (written (sinceClear pre)).length := by
    rw [length_written]
    omega
  have hfit : ((written (sinceClear pre)).drop (reads (sinceClear pre))).length ≤ fdepth := by
    rw [List.length_drop, length_written]
    simp only [fdepth] at hstored ⊢
    omega
  apply h.advance hlen ⟨FifoOp.readWrite.req, d⟩ rfl hc
  · rw [hst]
    omega
  · rw [hr]
    omega
  · rw [hq, hr, hw, take_drop_concat_succ _ _ hlt hfit, ← h.items, Queue.items_replace,
      length_tokenQueue, if_pos (by omega)]

/-- **Sound step**: an operation that passes keeps the datapath in order. -/
theorem Sound.step (c : Cycle τ) (hc : Passes pre c.op) :
    Sound (pre ++ [c]) (s.step (c.map some)) := by
  obtain ⟨r, d⟩ := c
  obtain ⟨o, rfl⟩ := r.exists_op
  rw [FifoOp.op_req] at hc
  cases o with
  | clear | clearRead | clearWrite | clearReadWrite => exact sound_clear pre s _ rfl
  | idle => exact h.idle hlen d
  | write => exact h.write hlen d hc
  | read => exact h.read hlen d hc
  | readWrite => exact h.readWrite hlen d hc

end

/-- The same at an edge that may find the reset line low. -/
theorem Sound.edge {pre : List (Cycle τ)} {s : Fifo (Option τ)} (h : Sound pre s) (e : Edge τ)
    (hc : Passes pre e.cleared.op) (hlen : pre.length < 2 ^ 32) :
    Sound (pre ++ [e.cleared]) (s.edge (e.map some)) := by
  by_cases hr : e.rstN = true
  · rw [Fifo.edge_of_high (e := e.map some) _ hr]
    rw [Edge.cleared_of_high hr] at hc ⊢
    exact h.step hlen e.toCycle hc
  · have hlow : e.rstN = false := by simpa using hr
    exact sound_of_reset pre (Fifo.toRegs_edge_of_low (e := e.map some) _ hlow) _
      (Edge.fClrN_cleared_of_low hlow)

/-! ## the first operation that does not pass -/

/-- Cells hold only what was put in, or nothing. -/
theorem mem_of_fifo_runEdges (es : List (Edge τ)) (i : Fin fdepth) (d : τ)
    (hd : (Fifo.powerUp.runEdges (es.map (Edge.map some))).memblk.fifo i = some d) :
    d ∈ es.map (·.dataIn) := by
  induction es using List.reverseRecOn with
  | nil => contradiction
  | append_singleton es e ih =>
      rw [List.map_append, List.map_singleton, Fifo.runEdges_concat] at hd
      rw [List.map_append, List.mem_append, List.map_singleton, List.mem_singleton]
      cases Fifo.fifo_edge (Fifo.powerUp.runEdges (es.map (Edge.map some))) (e.map some) i with
      | inl hnew =>
          right
          exact Option.some.inj (hd.symm.trans hnew)
      | inr hold => exact Or.inl (ih (hold.symm.trans hd))

theorem mem_of_fifo_run (cs : List (Cycle τ)) (i : Fin fdepth) (d : τ)
    (hd : (Fifo.powerUp.run (cs.map (Cycle.map some))).memblk.fifo i = some d) :
    d ∈ cs.map (·.dataIn) := by
  rw [← Fifo.runEdges_released, List.map_map] at hd
  have hmem := mem_of_fifo_runEdges (cs.map Cycle.released) i d (by rw [List.map_map]; exact hd)
  rwa [List.map_map] at hmem

section
variable {pre : List (Cycle τ)} {s : Fifo (Option τ)} (h : Sound pre s)
include h

theorem Sound.not_agrees_of_not_predicted {c : Cycle τ} (hc : ¬ Predicted (stored pre) c.op) :
    ¬ Agrees (pre ++ [c]) (s.step (c.map some)) := by
  rintro ⟨hflags, -⟩
  rw [length_tokenQueue, stored_concat] at hflags
  exact h.sync.next_ne_row c.toReq hc hflags

/-- A word written behind a read pointer that is past it is not shown: what is
shown there was put in before, if anything. -/
theorem Sound.not_agrees_write {d : τ} (hlen : pre.length < 2 ^ 32) (h0 : stored pre = 0)
    (hr : reads (sinceClear pre) ≠ 0) (hfresh : ∀ i, s.memblk.fifo i ≠ some d) :
    ¬ Agrees (pre ++ [⟨FifoOp.write.req, d⟩])
      (s.step ((⟨FifoOp.write.req, d⟩ : Cycle τ).map some)) := by
  rintro ⟨-, hdata⟩
  have hnil : (tokenQueue pre).items = [] := by
    apply List.eq_nil_of_length_eq_zero
    rw [length_tokenQueue, h0]
  have hhead : (tokenQueue (pre ++ [⟨FifoOp.write.req, d⟩])).items.head? = some d := by
    rw [tokenQueue_concat]
    show ((tokenQueue pre).step (.push d)).items.head? = _
    rw [Queue.items_push, hnil]
    rfl
  have hle := reads_sinceClear_le pre
  have hptr : s.rdPtr.toNat = reads (sinceClear pre) := by rw [h.rdPtr, toNat_ptr (by omega)]
  have hrd : (s.step ((⟨FifoOp.write.req, d⟩ : Cycle τ).map some)).rdPtr = s.rdPtr := by
    show (s.toRegs.next true FifoOp.write.req).rdPtr = _
    rw [Regs.next_write]
  have hwr : s.wrPtr.toNat = 0 := by rw [h.toNat_wrPtr hlen, h.empty h0]; rfl
  have hshown := hdata d hhead
  rw [Fifo.fData, hrd] at hshown
  by_cases hlt : s.rdPtr.toNat < fdepth
  · rw [FifoMemBlk.dataOut_of_lt _ hlt, Fifo.fifo_step, if_neg (by rw [hwr]; grind)] at hshown
    exact hfresh _ hshown
  · rw [FifoMemBlk.dataOut_of_ge _ (Nat.le_of_not_lt hlt)] at hshown
    contradiction

/-- The fourth replacement takes the read pointer out of the memory. -/
theorem Sound.not_agrees_readWrite {d : τ} (hpos : 0 < stored pre)
    (hr : ¬ reads (sinceClear pre) ≤ 2) :
    ¬ Agrees (pre ++ [⟨FifoOp.readWrite.req, d⟩])
      (s.step ((⟨FifoOp.readWrite.req, d⟩ : Cycle τ).map some)) := by
  rintro ⟨-, hdata⟩
  have hthree : reads (sinceClear pre) = 3 := by have := h.early hpos; omega
  obtain ⟨d', hhead⟩ : ∃ d', (tokenQueue (pre ++ [⟨FifoOp.readWrite.req, d⟩])).items.head? =
      some d' := by
    rw [← Option.isSome_iff_exists, List.isSome_head?, List.ne_nil_iff_length_pos,
      length_tokenQueue, stored_concat]
    exact hpos
  have hrd : (s.step ((⟨FifoOp.readWrite.req, d⟩ : Cycle τ).map some)).rdPtr.toNat = 4 := by
    show (s.toRegs.next true FifoOp.readWrite.req).rdPtr.toNat = _
    rw [Regs.next_readWrite, h.rdPtr, hthree]
    rfl
  have hshown := hdata d' hhead
  rw [Fifo.fData, FifoMemBlk.dataOut_of_ge _ (Nat.le_of_eq hrd.symm)] at hshown
  contradiction

/-- **Unsound step**: an operation that does not pass is noticed at once, if the
word it brings is new. -/
theorem Sound.not_agrees {c : Cycle τ} (hlen : pre.length < 2 ^ 32) (hc : ¬ Passes pre c.op)
    (hfresh : ∀ i, s.memblk.fifo i ≠ some c.dataIn) :
    ¬ Agrees (pre ++ [c]) (s.step (c.map some)) := by
  by_cases hp : Predicted (stored pre) c.op
  · obtain ⟨r, d⟩ := c
    obtain ⟨o, rfl⟩ := r.exists_op
    simp only [FifoOp.op_req] at hc hp
    cases o with
    | clear | clearRead | clearWrite | clearReadWrite | idle => simp [Passes] at hc
    | write =>
        obtain ⟨h0, hr⟩ : stored pre = 0 ∧ ¬ reads (sinceClear pre) = 0 := by
          simpa [Passes] using hc
        exact h.not_agrees_write hlen h0 hr hfresh
    | read => exact absurd ⟨by simp, fun _ => hp.1 rfl, by simp⟩ hc
    | readWrite =>
        obtain ⟨hpos, hlt⟩ := hp.2 rfl
        apply h.not_agrees_readWrite hpos
        intro hr
        exact hc ⟨by simp, by simp, fun _ => ⟨⟨hpos, Nat.le_of_lt_succ hlt⟩, hr⟩⟩
  · exact h.not_agrees_of_not_predicted hp

end

/-- An edge that does not pass finds the reset line high. -/
theorem Sound.not_agrees_edge {pre : List (Cycle τ)} {s : Fifo (Option τ)} (h : Sound pre s)
    {e : Edge τ} (hlen : pre.length < 2 ^ 32) (hc : ¬ Passes pre e.cleared.op)
    (hfresh : ∀ i, s.memblk.fifo i ≠ some e.dataIn) :
    ¬ Agrees (pre ++ [e.cleared]) (s.edge (e.map some)) := by
  by_cases hr : e.rstN = true
  · rw [Fifo.edge_of_high (e := e.map some) _ hr]
    rw [Edge.cleared_of_high hr] at hc ⊢
    exact h.not_agrees hlen hc hfresh
  · exact absurd (passes_of_clear pre (Edge.fClrN_cleared_of_low (by simpa using hr))) hc

/-! ## runs -/

/-- One edge of a design on tokens. -/
def tokenEdge (s : Fifo (Option τ)) (e : Edge τ) : Fifo (Option τ) := s.edge (e.map some)

theorem run_tokenEdge (s : Fifo (Option τ)) (es : List (Edge τ)) :
    Run.run tokenEdge s es = s.runEdges (es.map (Edge.map some)) :=
  (Run.run_map tokenEdge Fifo.edge id (Edge.map some) (fun _ _ => rfl) s es).symm

theorem passing_iff_edges (es : List (Edge τ)) :
    Passing (es.map Edge.cleared) ↔
      ∀ k (hk : k < es.length), Passes ((es.take k).map Edge.cleared) es[k].cleared.op := by
  unfold Passing
  simp only [List.length_map, List.getElem_map, List.map_take]

/-- A run all of whose operations pass agrees with the model throughout. -/
theorem agrees_of_passing (es : List (Edge τ)) (hlen : es.length < 2 ^ 32)
    (h : Passing (es.map Edge.cleared)) :
    Agrees (es.map Edge.cleared) (Fifo.powerUp.runEdges (es.map (Edge.map some))) := by
  rw [← run_tokenEdge]
  refine (Run.run_induct_lawful tokenEdge Fifo.powerUp
    (fun pre _ e => pre.length < 2 ^ 32 ∧ Passes (pre.map Edge.cleared) e.cleared.op)
    (fun pre s => Sound (pre.map Edge.cleared) s) sound_powerUp ?_ es ?_).agrees
  · intro pre s e hs hl
    rw [List.map_append, List.map_singleton]
    exact hs.edge e hl.2 (by rw [List.length_map]; exact hl.1)
  · intro k hk
    exact ⟨by rw [List.length_take]; omega, (passing_iff_edges es).mp h k hk⟩

/-- A run on distinct words agrees with the model exactly while its operations
pass. -/
theorem agrees_iff_passing (es : List (Edge τ)) (hlen : es.length < 2 ^ 32)
    (hnodup : (es.map (·.dataIn)).Nodup) :
    (∀ k, Agrees ((es.take k).map Edge.cleared)
      (Fifo.powerUp.runEdges ((es.take k).map (Edge.map some)))) ↔
        Passing (es.map Edge.cleared) := by
  simp only [← run_tokenEdge, passing_iff_edges]
  refine Run.forall_run_iff tokenEdge Fifo.powerUp
    (fun pre s e => pre.length < 2 ^ 32 ∧ ∀ i, s.memblk.fifo i ≠ some e.dataIn)
    (fun pre s => Sound (pre.map Edge.cleared) s) (fun pre s => Agrees (pre.map Edge.cleared) s)
    (fun pre e => Passes (pre.map Edge.cleared) e.cleared.op) sound_powerUp
    (fun pre s h => h.agrees) ?_ ?_ es ?_
  · intro pre s e hs hl hc
    rw [List.map_append, List.map_singleton]
    exact hs.edge e hc (by rw [List.length_map]; exact hl.1)
  · intro pre s e hs hl hc
    rw [List.map_append, List.map_singleton]
    exact hs.not_agrees_edge (by rw [List.length_map]; exact hl.1) hc hl.2
  · intro k hk
    refine ⟨by rw [List.length_take]; omega, ?_⟩
    intro i hi
    rw [run_tokenEdge] at hi
    -- the word of edge `k` would be one of an earlier edge
    have hmem := mem_of_fifo_runEdges _ i _ hi
    rw [List.map_take] at hmem
    obtain ⟨j, hj, heq⟩ := List.mem_take_iff_getElem.mp hmem
    have hk' : k < (es.map (·.dataIn)).length := by rwa [List.length_map]
    have hsame : (es.map (·.dataIn))[k] = es[k].dataIn := List.getElem_map _
    have hjk : j = k := (List.getElem_inj hnodup).mp (heq.trans hsame.symm)
    omega

end

/-! ## the verdict of the checker -/

/-- The checks of a run on words, in terms of what they compare. -/
theorem checkFails_watched (es : List (Edge Bits)) (k : Nat) (hk : k < es.length) :
    CheckFails (Fifo.powerUp.watched (es.map Edge.known)) k ↔
      ¬ Agrees ((es.take (k + 1)).map Edge.cleared)
        (Fifo.powerUp.runEdges ((es.take (k + 1)).map (Edge.map some))) := by
  have hsplit := List.take_succ_eq_append_getElem hk
  have hword : (es.take (k + 1)).map Edge.known = (es.take k).map Edge.known ++ [es[k].known] := by
    rw [hsplit, List.map_append, List.map_singleton]
  rw [CheckFails, Fifo.take_watched, Fifo.take_watched, ← List.map_take, ← List.map_take, hword,
    Fifo.watched_concat, ScbFifo.checks_concat, ScbFifo.errorCount_check_iff, ScbFifo.matched_iff,
    ← Fifo.watched_concat, ← hword, conforms_iff_head, queue_watched, TransFifo.flags_capture,
    runEdges_known, Agrees]
  apply not_congr
  apply and_congr
  · exact Flags.logic_inj
  · apply forall_congr'
    intro d
    apply imp_congr Iff.rfl
    show ((Fifo.powerUp.runEdges ((es.take (k + 1)).map (Edge.map some))).map
      (tokenWord id)).fData = _ ↔ _
    rw [Fifo.fData_map (tokenWord id) rfl]
    exact tokenWord_id_eq_iff

theorem map_cleared_released (cs : List (Cycle α)) :
    (cs.map Cycle.released).map Edge.cleared = cs := by
  simp [Function.comp_def]

theorem map_map_released (f : α → β) (cs : List (Cycle α)) :
    (cs.map Cycle.released).map (Edge.map f) = (cs.map (Cycle.map f)).map Cycle.released := by
  rw [List.map_map, List.map_map]
  rfl

theorem released_known (cs : List (Cycle Bits)) :
    (cs.map Cycle.released).map Edge.known = (cs.map Cycle.known).map Cycle.released :=
  map_map_released LogicVec.ofBits cs

/-- The checks of a run out of reset. -/
theorem checkFails_iff_agrees (cs : List (Cycle Bits)) (k : Nat) (hk : k < cs.length) :
    CheckFails (Fifo.powerUp.monitored (cs.map Cycle.known)) k ↔
      ¬ Agrees (cs.take (k + 1)) (Fifo.powerUp.run ((cs.take (k + 1)).map (Cycle.map some))) := by
  have h := checkFails_watched (cs.map Cycle.released) k (by simpa using hk)
  rw [released_known, Fifo.watched_released] at h
  rw [h, ← List.map_take, map_cleared_released, map_map_released, Fifo.runEdges_released]

/-- **Checker verdict**: operations that pass are reported without an error
whatever the data, and with distinct words no others are; a reset counts as a
clear. -/
theorem failures_watched (es : List (Edge Bits)) (hlen : es.length < 2 ^ 32) :
    (Passing (es.map Edge.cleared) →
      failures (Fifo.powerUp.watched (es.map Edge.known)) = 0) ∧
    ((es.map (·.dataIn)).Nodup →
      (failures (Fifo.powerUp.watched (es.map Edge.known)) = 0 ↔
        Passing (es.map Edge.cleared))) := by
  have hzero : failures (Fifo.powerUp.watched (es.map Edge.known)) = 0 ↔
      ∀ k, Agrees ((es.take k).map Edge.cleared)
        (Fifo.powerUp.runEdges ((es.take k).map (Edge.map some))) := by
    rw [failures_eq_zero_iff,
      Run.forall_take_iff (Q := fun pre => Agrees (pre.map Edge.cleared)
        (Fifo.powerUp.runEdges (pre.map (Edge.map some)))) sound_powerUp.agrees,
      Fifo.length_watched, List.length_map]
    apply forall_congr'
    intro k
    apply forall_congr'
    intro hk
    rw [checkFails_watched es k hk, not_not]
  rw [hzero]
  constructor
  · intro h k
    apply agrees_of_passing (es.take k)
    · rw [List.length_take]
      omega
    · rw [List.map_take]
      exact h.take k
  · exact agrees_iff_passing es hlen

/-- The verdict on a run out of reset. -/
theorem failures_iff_passing (cs : List (Cycle Bits)) (hlen : cs.length < 2 ^ 32) :
    (Passing cs → failures (Fifo.powerUp.monitored (cs.map Cycle.known)) = 0) ∧
    ((cs.map (·.dataIn)).Nodup →
      (failures (Fifo.powerUp.monitored (cs.map Cycle.known)) = 0 ↔ Passing cs)) := by
  have h := failures_watched (cs.map Cycle.released) (by rwa [List.length_map])
  have hdata : (cs.map Cycle.released).map (·.dataIn) = cs.map (·.dataIn) := by
    rw [List.map_map]
    rfl
  rwa [released_known, Fifo.watched_released, map_cleared_released, hdata] at h

/-! ## the verdict of a test -/

/-- The signals a call asks for. -/
def SendCall.cycle (call : SendCall) : Cycle Bits := ⟨call.op.req, call.tx.dataIn⟩

/-- The transactions of the design run on the calls from power-up. -/
def shown (calls : List SendCall) : List TransFifo :=
  Fifo.powerUp.monitored ((calls.map SendCall.cycle).map Cycle.known)

@[simp] theorem length_shown (calls : List SendCall) : (shown calls).length = calls.length := by
  simp [shown]

section
variable {calls : List SendCall} {tr : List Event} {s : EnvFifo}

/-- The samples of a test from power-up. -/
theorem map_sample_of_powerUp {k : Nat} (hk : k ≤ calls.length) :
    (List.range k).map (Bench.mk (.idle Fifo.powerUp) Fifo.powerUp calls).sample =
      (shown calls).take k := by
  have hidle : Fifo.powerUp.step (InfFifo.idle Fifo.powerUp).inputs = Fifo.powerUp :=
    Fifo.step_idle _ _ rfl
  have hcycles : (Bench.mk (.idle Fifo.powerUp) Fifo.powerUp calls).cycles =
      (calls.map SendCall.cycle).map Cycle.known := by
    rw [List.map_map]
    rfl
  rw [Bench.map_sample _ _ rfl (by rwa [Bench.length_cycles]), hcycles, hidle, shown,
    Fifo.take_monitored]

/-- What a test from power-up reports. -/
theorem scb_of_powerUp (hn : calls.length < 2 ^ 31)
    (h : Exec EnvFifo.Step (EnvFifo.build (.idle Fifo.powerUp) Fifo.powerUp calls) tr s)
    (hc : s.scb.completed = true) :
    s.scb = { ScbFifo.new.checks (shown calls) with completed := true } := by
  have hscb := (scb_completed (b := ⟨.idle Fifo.powerUp, Fifo.powerUp, calls⟩) h hc).2
  have hall : (shown calls).take calls.length = shown calls :=
    List.take_of_length_le (Nat.le_of_eq (length_shown calls))
  rwa [Bench.rounds_of_lt _ hn, map_sample_of_powerUp (Nat.le_refl _), hall] at hscb

theorem errorCount_of_powerUp (hn : calls.length < 2 ^ 31)
    (h : Exec EnvFifo.Step (EnvFifo.build (.idle Fifo.powerUp) Fifo.powerUp calls) tr s)
    (hc : s.scb.completed = true) : s.scb.errorCount.toNat = failures (shown calls) := by
  have hle := failures_le (shown calls)
  rw [length_shown] at hle
  rw [scb_of_powerUp hn h hc]
  show (ScbFifo.new.checks (shown calls)).errorCount.toNat = _
  rw [errorCount_eq, BitVec.toNat_ofNat, Nat.mod_eq_of_lt (by omega)]

/-- The verdict on a list of calls. -/
theorem failures_shown (hlen : calls.length < 2 ^ 32) :
    (Passing (calls.map SendCall.cycle) → failures (shown calls) = 0) ∧
    ((calls.map fun call => call.tx.dataIn).Nodup →
      (failures (shown calls) = 0 ↔ Passing (calls.map SendCall.cycle))) := by
  have hverdict := failures_iff_passing (calls.map SendCall.cycle) (by rwa [List.length_map])
  have hdata : (calls.map SendCall.cycle).map (·.dataIn) =
      calls.map fun call => call.tx.dataIn := by
    rw [List.map_map]
    rfl
  rwa [hdata] at hverdict

end

/-- **Test verdict**: however its processes are scheduled, a test completes; if it
asks only for operations that pass, then without an error, whatever data it
draws, and if its words are distinct, without an error only then. -/
theorem env_errorCount_iff (calls : List SendCall) (hn : calls.length < 2 ^ 31) :
    Inevitable EnvFifo.Step (fun s => s.scb.completed = true)
      (EnvFifo.build (.idle Fifo.powerUp) Fifo.powerUp calls) ∧
    ∀ tr s, Exec EnvFifo.Step (EnvFifo.build (.idle Fifo.powerUp) Fifo.powerUp calls) tr s →
      s.scb.completed = true →
      (Passing (calls.map SendCall.cycle) → s.scb.errorCount = 0) ∧
      ((calls.map fun call => call.tx.dataIn).Nodup →
        (s.scb.errorCount = 0 ↔ Passing (calls.map SendCall.cycle))) := by
  refine ⟨inevitable_completed ⟨.idle Fifo.powerUp, Fifo.powerUp, calls⟩, ?_⟩
  intro tr s h hc
  have hzero : s.scb.errorCount = 0 ↔ failures (shown calls) = 0 := by
    rw [← errorCount_of_powerUp hn h hc, ← BitVec.toNat_inj]
    rfl
  rw [hzero]
  exact failures_shown (by omega)

/-- A word written and read back is an error, two words written are not. -/
theorem env_errorCount_write_read :
    (∃ tr s, Exec EnvFifo.Step (EnvFifo.build (.idle Fifo.powerUp) Fifo.powerUp
        [⟨.write, .manual, 5, 0⟩, ⟨.read, .manual, 0, 0⟩]) tr s ∧
      s.scb.completed = true ∧ s.scb.errorCount ≠ 0) ∧
    ∃ tr s, Exec EnvFifo.Step (EnvFifo.build (.idle Fifo.powerUp) Fifo.powerUp
        [⟨.write, .manual, 5, 0⟩, ⟨.write, .manual, 6, 0⟩]) tr s ∧
      s.scb.completed = true ∧ s.scb.errorCount = 0 := by
  constructor
  · obtain ⟨hcomplete, hverdict⟩ := env_errorCount_iff
      [⟨.write, .manual, 5, 0⟩, ⟨.read, .manual, 0, 0⟩] (by decide)
    obtain ⟨tr, s, h, hc⟩ := hcomplete.exists_exec .refl
    refine ⟨tr, s, h, hc, ?_⟩
    rw [ne_eq, (hverdict tr s h hc).2 (by decide)]
    decide
  · obtain ⟨hcomplete, hverdict⟩ := env_errorCount_iff
      [⟨.write, .manual, 5, 0⟩, ⟨.write, .manual, 6, 0⟩] (by decide)
    obtain ⟨tr, s, h, hc⟩ := hcomplete.exists_exec .refl
    exact ⟨tr, s, h, hc, (hverdict tr s h hc).1 (by decide)⟩

/-! ## the verdict so far -/

theorem checked_append (tr tr' : List Event) : checked (tr ++ tr') = checked tr ++ checked tr' := by
  simp [checked, gots]

theorem checked_map_got (ms : List (Option TransFifo)) :
    checked (ms.map .got) = ms.filterMap id := by
  simp [checked, gots, List.filterMap_map]

/-- What is checked in the first rounds are their samples. -/
theorem Bench.checked_traceAfter (b : Bench) (k : Nat) :
    checked (b.traceAfter k) = b.samples k := by
  induction k with
  | zero => simp [traceAfter, samples, checked, gots]
  | succ k ih =>
      have hedge : checked [.edge (b.inputs k)] = [] := rfl
      rw [traceAfter, checked_append, checked_append, ih, hedge, checked_map_got, filterMap_stream,
        samples_succ, List.append_nil]

theorem shown_take (calls : List SendCall) (k : Nat) :
    (shown calls).take k = shown (calls.take k) := by
  rw [shown, Fifo.take_monitored, ← List.map_take, ← List.map_take]
  rfl

section
variable {calls : List SendCall} {tr : List Event} {s : EnvFifo}

/-- What has been checked at any moment is what the calls so far show. -/
theorem checked_of_powerUp (hn : calls.length < 2 ^ 31)
    (h : Exec EnvFifo.Step (EnvFifo.build (.idle Fifo.powerUp) Fifo.powerUp calls) tr s) :
    checked tr = shown (calls.take (checked tr).length) := by
  have hpre : checked tr <+: shown calls := by
    obtain ⟨rest, hrest⟩ := prefix_of_fires
      (of_exec (b := ⟨.idle Fifo.powerUp, Fifo.powerUp, calls⟩) h).1
    have hrest' : tr ++ rest = (Bench.mk (.idle Fifo.powerUp) Fifo.powerUp calls).traceAfter
        (edges tr).length := hrest
    have hle : min ((edges tr).length - 1) (Bench.mk (.idle Fifo.powerUp) Fifo.powerUp calls).rounds
        ≤ calls.length := Nat.le_trans (Nat.min_le_right _ _) (Nat.le_of_eq (toNat_toInt_ofNat hn))
    have hsamples := Bench.checked_traceAfter ⟨.idle Fifo.powerUp, Fifo.powerUp, calls⟩
      (edges tr).length
    rw [← hrest', checked_append, Bench.samples, map_sample_of_powerUp hle] at hsamples
    have hsofar : checked tr <+: (shown calls).take
        (min ((edges tr).length - 1) (Bench.mk (.idle Fifo.powerUp) Fifo.powerUp calls).rounds) :=
      ⟨checked rest, hsamples⟩
    exact hsofar.trans (List.take_prefix _ _)
  rw [← shown_take]
  exact List.prefix_iff_eq_take.mp hpre

end

/-- **Verdict so far**: at any moment of any execution the scoreboard has checked
what the first calls show, and has counted no error if their operations all pass,
whatever their data; if their words are distinct, only then: the first error comes
with the first operation that does not pass. -/
theorem env_errorCount_so_far (calls : List SendCall) (hn : calls.length < 2 ^ 31)
    (tr : List Event) (s : EnvFifo)
    (h : Exec EnvFifo.Step (EnvFifo.build (.idle Fifo.powerUp) Fifo.powerUp calls) tr s) :
    let done := calls.take (checked tr).length
    checked tr = shown done ∧
    (Passing (done.map SendCall.cycle) → s.scb.errorCount = 0) ∧
    ((done.map fun call => call.tx.dataIn).Nodup →
      (s.scb.errorCount = 0 ↔ Passing (done.map SendCall.cycle))) := by
  intro done
  have hlen : done.length < 2 ^ 32 := by
    have hle : done.length ≤ calls.length := List.length_take_le' _ _
    omega
  have hscb : s.scb.errorCount = (ScbFifo.new.checks (shown done)).errorCount := by
    rw [(aligned_exec hn h).gots_eq.2, checked_of_powerUp hn h]
  have hzero : s.scb.errorCount = 0 ↔ failures (shown done) = 0 := by
    rw [hscb]
    exact errorCount_eq_zero_iff (by rwa [length_shown])
  rw [hzero]
  exact ⟨checked_of_powerUp hn h, failures_shown hlen⟩

/-- The word written and read back shows no error until the read is checked. -/
theorem env_errorCount_so_far_read :
    ∃ tr tr' s s',
      Exec EnvFifo.Step (EnvFifo.build (.idle Fifo.powerUp) Fifo.powerUp
        [⟨.write, .manual, 5, 0⟩, ⟨.read, .manual, 0, 0⟩]) tr s ∧
      Exec EnvFifo.Step (EnvFifo.build (.idle Fifo.powerUp) Fifo.powerUp
        [⟨.write, .manual, 5, 0⟩, ⟨.read, .manual, 0, 0⟩]) tr' s' ∧
      (checked tr).length = 1 ∧ s.scb.errorCount = 0 ∧
      (checked tr').length = 2 ∧ s'.scb.errorCount ≠ 0 := by
  have h := exec_after ⟨.idle Fifo.powerUp, Fifo.powerUp,
    [⟨.write, .manual, 5, 0⟩, ⟨.read, .manual, 0, 0⟩]⟩
  have hone := (env_errorCount_so_far _ (by decide) _ _ (h 2)).2.1
  have htwo := (env_errorCount_so_far _ (by decide) _ _ (h 3)).2.2
  rw [Bench.checked_traceAfter] at hone htwo
  refine ⟨_, _, _, _, h 2, h 3, ?_, hone (by decide), ?_, ?_⟩
  · rw [Bench.checked_traceAfter]
    rfl
  · rw [Bench.checked_traceAfter]
    rfl
  · rw [ne_eq, htwo (by decide)]
    decide

end BasicFifo
