import BasicFifo.Status

/-!
# BasicFifo.Counter

The range of `fcounter` over whole runs.

The counter is guarded by `F_EmptyN` and `F_FullN`, not by its own value, and
those flags lose the fill level on requests the counter takes in its stride.
What decides the range is therefore more than a count: a `Tally` of the
requests since the last clear also remembers what the latest request was and
whether the design still knows that it is about to be full.  `Tally.next`
moves by the requests alone; `InStep` ties it to the registers.
-/

namespace BasicFifo

open FourState

/-! ## the tally -/

/-- A summary of the requests since the last clear. -/
structure Tally where
  /-- Words counted: up on a write, down on the first read after a write. -/
  count : Nat
  /-- The latest request, idle cycles aside, asserted `FInN`. -/
  fresh : Bool
  /-- The mark that announces a full FIFO is lost: by a second read in a row
  at three words or a simultaneous request at four. -/
  lost : Bool
deriving DecidableEq, Repr

/-- One more request. -/
def Tally.next (t : Tally) : FifoOp → Tally
  | .clear | .clearRead | .clearWrite | .clearReadWrite => ⟨0, false, false⟩
  | .idle => t
  | .write =>
      if t.count = 4 then { t with fresh := true }
      else ⟨t.count + 1, true, t.count == 3 && t.lost⟩
  | .read =>
      if t.fresh then ⟨t.count - 1, false, t.count == 4 && t.lost⟩
      else { t with lost := t.lost || t.count == 3 }
  | .readWrite => ⟨t.count, true, t.lost || t.count == 4⟩

/-- The tally of the cycles `cs`. -/
def tally (cs : List (Cycle α)) : Tally :=
  Run.run (fun t c => t.next c.op) ⟨0, false, false⟩ cs

@[simp] theorem tally_concat (cs : List (Cycle α)) (c : Cycle α) :
    tally (cs ++ [c]) = (tally cs).next c.op := Run.run_concat cs c

/-- The requests that drive the counter out of range: a read that undoes a
write which was never counted, and a write at four words that the design takes
for a write with room left. -/
def Tally.Breaks (t : Tally) (o : FifoOp) : Prop :=
  (o = .read ∧ t.fresh = true ∧ t.count = 0) ∨ (o = .write ∧ t.count = 4 ∧ t.lost = true)

instance : Decidable (Tally.Breaks t o) := by unfold Tally.Breaks; infer_instance

/-! ## the tally and the registers -/

/-- The registers the tally stands for. -/
structure InStep (t : Tally) (r : Regs) : Prop where
  le : t.count ≤ 4
  fcounter : r.fcounter = BitVec.ofNat fwidth t.count
  fEmptyN : r.fEmptyN = t.fresh
  firstShown : FirstShown r
  fresh : t.count = 4 → t.fresh = true
  lost : t.lost = true → 3 ≤ t.count
  fLastN_low : t.count ≤ 2 → r.fLastN = true
  fLastN_three : t.count = 3 → r.fLastN = t.lost
  fFullN_low : t.count ≤ 3 → r.fFullN = true
  fFullN_four : t.count = 4 → r.fFullN = t.lost

theorem inStep_reset : InStep ⟨0, false, false⟩ Regs.reset := by
  constructor <;> simp [Regs.reset, FirstShown]

section
variable {t : Tally} {r : Regs} (h : InStep t r)
include h

/-- The threshold the write branch of `F_LastN` tests for. -/
theorem InStep.fcounter_beq_two : (r.fcounter == 2) = (t.count == 2) := by
  rw [h.fcounter]
  have hle := h.le
  generalize t.count = n at hle
  match n, hle with
  | 0, _ | 1, _ | 2, _ | 3, _ | 4, _ => rfl

theorem InStep.write (hb : ¬ (t.count = 4 ∧ t.lost = true)) :
    InStep (t.next .write) (r.next true FifoOp.write.req) := by
  have hle := h.le
  have hlow := h.fLastN_low
  have hthree := h.fLastN_three
  rw [Regs.next_write, h.firstShown, h.fcounter_beq_two]
  by_cases h4 : t.count = 4
  · -- a full FIFO that knows it: nothing is counted
    have hlost : t.lost = false := by simpa [h4] using hb
    have hu : r.fFullN = false := (h.fFullN_four h4).trans hlost
    rw [Tally.next, if_pos h4]
    constructor <;> simp [h.fcounter, h4, hu, hlost, FirstShown]
  · have hu : r.fFullN = true := h.fFullN_low (by omega)
    rw [Tally.next, if_neg h4]
    constructor <;> simp [h.fcounter, hu, BitVec.ofNat_add, FirstShown]
    case le => omega
    case lost => omega
    case fLastN_low => omega
    case fLastN_three => intro h2; simp [h2]
    case fFullN_low => intro h2; exact hlow (by omega)
    case fFullN_four => intro h3; simp [h3, hthree h3]

theorem InStep.read (hb : ¬ (t.fresh = true ∧ t.count = 0)) :
    InStep (t.next .read) (r.next true FifoOp.read.req) := by
  have hle := h.le
  have hlow := h.fFullN_low
  have hfour := h.fFullN_four
  have hfirst : (r.fFirstN && r.fEmptyN) = false := by
    rw [Bool.and_comm]
    exact h.firstShown
  rw [Regs.next_read, hfirst, h.fEmptyN]
  cases hf : t.fresh with
  | true =>
      have hpos : 1 ≤ t.count := Nat.pos_of_ne_zero fun h0 => hb ⟨hf, h0⟩
      have hsub : BitVec.ofNat fwidth t.count - 1 = BitVec.ofNat fwidth (t.count - 1) := by
        generalize t.count = n at hpos hle
        match n, hpos, hle with
        | 1, _, _ | 2, _, _ | 3, _, _ | 4, _, _ => rfl
      rw [Tally.next, if_pos hf]
      constructor <;> simp [h.fcounter, FirstShown]
      case le => omega
      case fcounter => exact hsub
      case fresh => omega
      case lost => omega
      case fLastN_low => intro h3; exact hlow (by omega)
      case fLastN_three =>
        intro h3
        have h4 : t.count = 4 := by omega
        simp [h4, hfour h4]
      case fFullN_four => omega
  | false =>
      have h3 : t.count ≤ 3 := by
        by_cases h4 : t.count = 4
        · have := h.fresh h4
          rw [hf] at this
          contradiction
        · omega
      rw [Tally.next, if_neg (by simp [hf])]
      constructor <;> simp [h.fcounter, hf, hlow h3, FirstShown]
      case le => exact hle
      case fresh => omega
      case lost => exact fun hl => hl.elim h.lost (fun h3 => by omega)
      case fLastN_three => exact Or.inr
      case fFullN_four => omega

theorem InStep.readWrite : InStep (t.next .readWrite) (r.next true FifoOp.readWrite.req) := by
  have hlow := h.fLastN_low
  have hthree := h.fLastN_three
  have hfull := h.fFullN_low
  rw [Regs.next_readWrite, h.firstShown, Tally.next]
  constructor <;> simp [h.fcounter, FirstShown]
  case le => exact h.le
  case lost => exact fun hl => hl.elim h.lost (fun h4 => by omega)
  case fLastN_low => exact fun h2 => ⟨hfull (by omega), hlow h2⟩
  case fLastN_three => intro h3; simp [h3, hfull (by omega), hthree h3]
  case fFullN_four => exact Or.inr

/-- **Tally step**: a request that does not break the range keeps the tally in
step with the registers. -/
theorem InStep.next (i : Req) (hb : ¬ t.Breaks i.op) :
    InStep (t.next i.op) (r.next true i) := by
  obtain ⟨o, rfl⟩ := i.exists_op
  rw [FifoOp.op_req] at hb ⊢
  cases o with
  | clear | clearRead | clearWrite | clearReadWrite =>
      rw [Regs.next_clear _ _ rfl]
      exact inStep_reset
  | idle => rw [Regs.next_idle]; exact h
  | write => exact h.write fun hw => hb (Or.inr ⟨rfl, hw⟩)
  | read => exact h.read fun hr => hb (Or.inl ⟨rfl, hr⟩)
  | readWrite => exact h.readWrite

/-- The others take the counter below zero or above the depth. -/
theorem InStep.next_breaks (i : Req) (hb : t.Breaks i.op) :
    fdepth < (r.next true i).fcounter.toNat := by
  obtain ⟨o, rfl⟩ := i.exists_op
  rw [FifoOp.op_req] at hb
  obtain ⟨rfl, hf, h0⟩ | ⟨rfl, h4, hl⟩ := hb
  · rw [Regs.next_read, h.fEmptyN, h.fcounter, hf, h0]
    change fdepth < (0 - 1 : BitVec fwidth).toNat
    decide
  · rw [Regs.next_write, h.fFullN_four h4, h.fcounter, hl, h4]
    change fdepth < (4 + 1 : BitVec fwidth).toNat
    decide

end

/-! ## the range over runs -/

/-- **Counter range**: `fcounter` stays within the depth in every state of a run
exactly when no request of the run breaks the tally. -/
theorem fcounter_le_iff (s : Fifo Word) (i : Req) (held cs : List (Cycle Word)) :
    (∀ k, ((s.assertReset i held).run (cs.take k)).fcounter.toNat ≤ fdepth) ↔
      ∀ k (hk : k < cs.length), ¬ (tally (cs.take k)).Breaks cs[k].op := by
  refine Run.forall_run_iff Fifo.step (s.assertReset i held) (fun _ _ _ => True)
    (fun pre t => InStep (tally pre) t.toRegs) (fun _ t => t.fcounter.toNat ≤ fdepth)
    (fun pre c => ¬ (tally pre).Breaks c.op) ?_ ?_ ?_ ?_ cs (fun _ _ => trivial)
  · rw [Fifo.toRegs_assertReset]
    exact inStep_reset
  · intro pre t h
    rw [h.fcounter, BitVec.toNat_ofNat]
    exact Nat.le_trans (Nat.mod_le _ _) h.le
  · intro pre t c h _ hc
    rw [tally_concat]
    exact h.next c.toReq hc
  · intro pre t c h _ hc
    exact Nat.not_le.mpr (h.next_breaks c.toReq (Classical.not_not.mp hc))

/-- After a simultaneous request on the reset FIFO, a read wraps the counter. -/
theorem fcounter_wraps :
    ¬ ∀ (s : Fifo Word) (i : Req) (held cs : List (Cycle Word)) (k : Nat),
      ((s.assertReset i held).run (cs.take k)).fcounter.toNat ≤ fdepth := by
  intro h
  have h2 := h Fifo.powerUp FifoOp.idle.req []
    [FifoOp.readWrite.cycle 1, FifoOp.read.cycle 0] 2
  revert h2
  decide

end BasicFifo
