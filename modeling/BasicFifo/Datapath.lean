import BasicFifo.Control

/-!
# BasicFifo.Datapath

The pointers, the memory block and `F_Data` over whole runs.

The pointers are 32-bit registers that advance on every request and are used
unmasked as addresses of a four-cell memory; nothing gates them but the clear.
The results say what becomes of the data:

* `fData_oldest_iff` — a user that stays within bounds sees its words in order
  until a fifth word is to be read, and no longer;
* `clear_equiv_reset` — a clear is as good as a reset, up to cells not written
  since.
-/

namespace BasicFifo

open FourState

/-! ## pointers -/

/-- Out of clear the write pointer counts write requests. -/
theorem Regs.wrPtr_next (s : Regs) {i : Req} (h : i.fClrN = true) :
    (s.next true i).wrPtr = if i.fInN then s.wrPtr else s.wrPtr + 1 := by
  simp only [next, nextAt, controlBlock, h]
  cases i.fInN <;> rfl

/-- Out of clear the read pointer counts read requests. -/
theorem Regs.rdPtr_next (s : Regs) {i : Req} (h : i.fClrN = true) :
    (s.next true i).rdPtr = if i.fOutN then s.rdPtr else s.rdPtr + 1 := by
  simp only [next, nextAt, controlBlock, h]
  cases i.fOutN <;> rfl

/-- A pointer below the wrap-around holds the count it was given. -/
theorem toNat_ptr {n : Nat} (h : n < 2 ^ 32) : (BitVec.ofNat fwidth n).toNat = n :=
  Nat.mod_eq_of_lt h

/-- The address of a cell. -/
theorem toNat_cell (i : Fin fdepth) : (BitVec.ofNat fwidth i).toNat = i :=
  toNat_ptr (Nat.lt_trans i.isLt (by decide))

/-- Known data is never confused with a cell that was not written. -/
theorem x_ne_ofBits (d : Bits) : (HasX.x : Word) ≠ .ofBits d :=
  LogicVec.allX_ne_ofBits (by decide) d

/-! ## data order -/

/-- The states a run may start from: right after a reset or a clear. -/
inductive Fifo.Started : Fifo α → Prop where
  | reset (s : Fifo α) (i : Req) (held : List (Cycle α)) : Started (s.assertReset i held)
  | clear (s : Fifo α) (c : Cycle α) (h : c.fClrN = false) : Started (s.step c)

theorem Fifo.Started.toRegs_eq {t : Fifo α} (h : t.Started) : t.toRegs = Regs.reset := by
  cases h with
  | reset s i held => exact Fifo.toRegs_assertReset s i held
  | clear s c h => exact Fifo.toRegs_step_clear s c h

/-- A cycle with two-state data, as the wires carry it. -/
def Cycle.known (c : Cycle Bits) : Cycle Word := c.map .ofBits

/-- Requests that never overflow or underflow the datapath, by the words
written and not read so far. -/
def WithinBounds (pre : List (Cycle Bits)) (c : Cycle Bits) : Prop :=
  c.fClrN = true ∧ (c.op = .write → writes pre < reads pre + 4) ∧
    (c.op = .read ∨ c.op = .readWrite → reads pre < writes pre)

instance : Decidable (WithinBounds pre c) := by unfold WithinBounds; infer_instance

/-- With a word unread, `F_Data` is the oldest of them. -/
def OldestShown (pre : List (Cycle Bits)) (s : Fifo Word) : Prop :=
  reads pre < writes pre → ∃ d, (written pre)[reads pre]? = some d ∧ s.fData = .ofBits d

/-- The ring before it is used a second time: pointers count requests, and the
first four words are in their cells. -/
structure Streaming (pre : List (Cycle Bits)) (s : Fifo Word) : Prop where
  reads_le : reads pre ≤ writes pre
  writes_le : writes pre ≤ reads pre + 4
  early : reads pre ≤ 3 ∨ writes pre ≤ 4
  wrPtr : s.wrPtr = BitVec.ofNat fwidth (writes pre)
  rdPtr : s.rdPtr = BitVec.ofNat fwidth (reads pre)
  cell : ∀ (i : Fin fdepth) d, (written pre)[(i : Nat)]? = some d → s.memblk.fifo i = .ofBits d

theorem Fifo.Started.streaming {t : Fifo Word} (h : t.Started) : Streaming [] t where
  reads_le := Nat.le_refl _
  writes_le := Nat.zero_le _
  early := Or.inl (Nat.zero_le _)
  wrPtr := by rw [h.toRegs_eq]; rfl
  rdPtr := by rw [h.toRegs_eq]; rfl
  cell := fun i d hd => by simp at hd

section
variable {pre : List (Cycle Bits)} {s : Fifo Word} (h : Streaming pre s)
include h

/-- The oldest unread word is under the read pointer. -/
theorem Streaming.oldestShown : OldestShown pre s := by
  intro hlt
  have hr : reads pre < 4 := by have := h.early; omega
  have hptr : s.rdPtr.toNat = reads pre := by
    rw [h.rdPtr, toNat_ptr (by omega)]
  have hw : reads pre < (written pre).length := by rwa [length_written]
  refine ⟨(written pre)[reads pre], List.getElem?_eq_getElem hw, ?_⟩
  have hcell := h.cell ⟨reads pre, hr⟩ _ (List.getElem?_eq_getElem hw)
  rw [Fifo.fData, FifoMemBlk.dataOut_of_lt _ (by rw [hptr]; exact hr), ← hcell]
  congr 1
  exact Fin.ext hptr

/-- Within bounds the two counts stay within the depth of each other. -/
theorem Streaming.counts {c : Cycle Bits} (hb : WithinBounds pre c) :
    reads (pre ++ [c]) ≤ writes (pre ++ [c]) ∧ writes (pre ++ [c]) ≤ reads (pre ++ [c]) + 4 := by
  obtain ⟨hclr, hw, hr⟩ := hb
  have hle := h.reads_le
  have hle' := h.writes_le
  obtain ⟨r, d⟩ := c
  obtain ⟨o, rfl⟩ := r.exists_op
  simp only [FifoOp.op_req] at hclr hw hr
  rw [writes_concat, reads_concat]
  cases o with
  | clear | clearRead | clearWrite | clearReadWrite => exact absurd hclr (by decide)
  | idle => exact ⟨hle, hle'⟩
  | write => have := hw rfl; simp [FifoOp.req]; omega
  | read => have := hr (Or.inl rfl); simp [FifoOp.req]; omega
  | readWrite => simp [FifoOp.req]; omega

theorem Streaming.rdPtr_step {c : Cycle Bits} (hb : WithinBounds pre c) :
    (s.step c.known).rdPtr = BitVec.ofNat fwidth (reads (pre ++ [c])) := by
  have hclr : c.known.fClrN = true := hb.1
  rw [Fifo.toRegs_step, Regs.rdPtr_next _ hclr, reads_concat, h.rdPtr]
  change (if c.fOutN then _ else _) = _
  cases c.fOutN <;> simp [BitVec.ofNat_add]

theorem Streaming.wrPtr_step {c : Cycle Bits} (hb : WithinBounds pre c) :
    (s.step c.known).wrPtr = BitVec.ofNat fwidth (writes (pre ++ [c])) := by
  have hclr : c.known.fClrN = true := hb.1
  rw [Fifo.toRegs_step, Regs.wrPtr_next _ hclr, writes_concat, h.wrPtr]
  change (if c.fInN then _ else _) = _
  cases c.fInN <;> simp [BitVec.ofNat_add]

/-- A step that does not ask for a fifth word keeps the ring. -/
theorem Streaming.step {c : Cycle Bits} (hb : WithinBounds pre c)
    (hg : ¬ (4 ≤ reads (pre ++ [c]) ∧ 5 ≤ writes (pre ++ [c]))) :
    Streaming (pre ++ [c]) (s.step c.known) where
  reads_le := (h.counts hb).1
  writes_le := (h.counts hb).2
  early := by omega
  wrPtr := h.wrPtr_step hb
  rdPtr := h.rdPtr_step hb
  cell := by
    intro i d hd
    have hwrites : writes pre ≤ 8 := by have := h.writes_le; have := h.early; omega
    have hptr : s.wrPtr.toNat = writes pre := by
      rw [h.wrPtr, toNat_ptr (by omega)]
    rw [Fifo.memblk_step, written_concat] at *
    change (s.memblk.posedge c.fInN s.wrPtr (.ofBits c.dataIn)).fifo i = _
    cases hin : c.fInN with
    | true =>
        rw [FifoMemBlk.posedge_idle]
        exact h.cell i d (by simpa [hin] using hd)
    | false =>
        rw [FifoMemBlk.fifo_posedge_write, hptr]
        rcases Nat.lt_trichotomy i (writes pre) with hlt | heq | hgt
        · rw [if_neg (by omega)]
          exact h.cell i d (by simpa [hin, List.getElem?_append, hlt] using hd)
        · rw [if_pos heq]
          have : some c.dataIn = some d := by
            simpa [hin, List.getElem?_append, heq] using hd
          rw [Option.some.inj this]
        · have hnone : (written pre ++ [c.dataIn])[(i : Nat)]? = none := by
            rw [List.getElem?_eq_none_iff]
            simp
            omega
          simp [hin, hnone] at hd

/-- With the fifth word due, the read pointer has left the memory. -/
theorem Streaming.not_oldestShown {c : Cycle Bits} (hb : WithinBounds pre c)
    (hg : 4 ≤ reads (pre ++ [c]) ∧ 5 ≤ writes (pre ++ [c])) :
    ¬ OldestShown (pre ++ [c]) (s.step c.known) := by
  have hr4 : reads (pre ++ [c]) = 4 := by
    obtain ⟨hclr, -, hr⟩ := hb
    have hle := h.reads_le
    have hle' := h.writes_le
    have hearly := h.early
    obtain ⟨r, d⟩ := c
    obtain ⟨o, rfl⟩ := r.exists_op
    simp only [FifoOp.op_req] at hclr hr
    rw [writes_concat, reads_concat] at *
    cases o with
    | clear | clearRead | clearWrite | clearReadWrite => exact absurd hclr (by decide)
    | idle => simp [FifoOp.req] at hg ⊢; omega
    | write => simp [FifoOp.req] at hg ⊢; omega
    | read => simp [FifoOp.req] at hg ⊢; omega
    | readWrite => have := hr (Or.inr rfl); simp [FifoOp.req] at hg ⊢; omega
  intro hshown
  obtain ⟨d, -, hd⟩ := hshown (by omega)
  have hptr : (s.step c.known).rdPtr.toNat = 4 := by
    rw [h.rdPtr_step hb, hr4]
    rfl
  rw [Fifo.fData, FifoMemBlk.dataOut_of_ge _ (Nat.le_of_eq hptr.symm)] at hd
  exact x_ne_ofBits d hd

end

/-- **Data order**: a user within bounds sees the oldest unread word after every
cycle exactly when it reads at most three words or writes at most four. -/
theorem fData_oldest_iff (t : Fifo Word) (ht : t.Started) (cs : List (Cycle Bits))
    (hb : ∀ k (hk : k < cs.length), WithinBounds (cs.take k) cs[k]) :
    (∀ k, OldestShown (cs.take k) (t.run ((cs.take k).map Cycle.known))) ↔
      reads cs ≤ 3 ∨ writes cs ≤ 4 := by
  have hrun : ∀ pre, t.run (pre.map Cycle.known) = Run.run (fun s c => s.step c.known) t pre := by
    intro pre
    exact Run.run_map (fun s (c : Cycle Bits) => s.step c.known) Fifo.step id Cycle.known
      (fun _ _ => rfl) t pre
  simp only [hrun]
  rw [Run.forall_run_iff (fun s (c : Cycle Bits) => s.step c.known) t
    (fun pre _ c => WithinBounds pre c) Streaming OldestShown
    (fun pre c => ¬ (4 ≤ reads (pre ++ [c]) ∧ 5 ≤ writes (pre ++ [c])))
    ht.streaming (fun _ _ h => h.oldestShown) (fun _ _ _ h hb hg => h.step hb hg)
    (fun _ _ _ h hb hg => h.not_oldestShown hb (Classical.not_not.mp hg)) cs hb]
  -- both counts only grow, so the last prefix decides
  have hlast : (∀ k, ¬ (4 ≤ reads (cs.take k) ∧ 5 ≤ writes (cs.take k))) ↔
      reads cs ≤ 3 ∨ writes cs ≤ 4 := by
    constructor
    · intro h
      have := h cs.length
      rw [List.take_length] at this
      omega
    · intro h k
      have hr : reads (cs.take k) ≤ reads cs := (List.take_sublist k cs).countP_le
      have hw : writes (cs.take k) ≤ writes cs := (List.take_sublist k cs).countP_le
      omega
  rw [← hlast, Run.forall_take_iff (Q := fun pre => ¬ (4 ≤ reads pre ∧ 5 ≤ writes pre)) (by simp)]
  apply forall_congr'
  intro k
  apply forall_congr'
  intro hk
  rw [List.take_succ_eq_append_getElem hk]

/-- Two words through a FIFO just cleared come out in order. -/
theorem fData_oldest_two :
    OldestShown [⟨FifoOp.write.req, 7⟩, ⟨FifoOp.write.req, 8⟩, ⟨FifoOp.read.req, 0⟩]
      ((Fifo.powerUp.step (FifoOp.clear.cycle 0)).run
        ([⟨FifoOp.write.req, 7⟩, ⟨FifoOp.write.req, 8⟩, ⟨FifoOp.read.req, 0⟩].map
          Cycle.known)) :=
  (fData_oldest_iff _ (.clear Fifo.powerUp (FifoOp.clear.cycle 0) rfl)
    [⟨FifoOp.write.req, 7⟩, ⟨FifoOp.write.req, 8⟩, ⟨FifoOp.read.req, 0⟩] (by decide)).mpr
    (by decide) 3

/-- One word and four replacements of it: the fifth word is never seen. -/
theorem fData_lost_fifth :
    ¬ ∀ (t : Fifo Word), t.Started → ∀ cs : List (Cycle Bits),
      (∀ k (hk : k < cs.length), WithinBounds (cs.take k) cs[k]) →
      ∀ k, OldestShown (cs.take k) (t.run ((cs.take k).map Cycle.known)) := by
  intro h
  have h5 := h _ (.reset Fifo.powerUp FifoOp.idle.req [])
    [⟨FifoOp.write.req, 1⟩, ⟨FifoOp.readWrite.req, 2⟩, ⟨FifoOp.readWrite.req, 3⟩,
      ⟨FifoOp.readWrite.req, 4⟩, ⟨FifoOp.readWrite.req, 5⟩] (by decide) 5 (by decide)
  obtain ⟨d, -, hd⟩ := h5
  exact x_ne_ofBits d hd

/-! ## clear and reset -/

/-- Some cycle of `cs` wrote with the write pointer at `a`. -/
def WrittenSince (t : Fifo α) (cs : List (Cycle α)) (a : BitVec fwidth) : Prop :=
  ∃ j, ∃ hj : j < cs.length, cs[j].fInN = false ∧ (t.run (cs.take j)).wrPtr = a

theorem WrittenSince.concat {t : Fifo α} {cs : List (Cycle α)} {a : BitVec fwidth}
    (h : WrittenSince t cs a) (c : Cycle α) : WrittenSince t (cs ++ [c]) a := by
  obtain ⟨j, hj, hin, hptr⟩ := h
  refine ⟨j, by simp; omega, ?_, ?_⟩
  · rwa [List.getElem_append_left hj]
  · rwa [List.take_append_of_le_length (Nat.le_of_lt hj)]

/-- What a longer run has written: what the shorter one had, or the cell under
the write pointer of its last cycle. -/
theorem writtenSince_concat {t : Fifo α} {cs : List (Cycle α)} {c : Cycle α}
    {a : BitVec fwidth} (h : WrittenSince t (cs ++ [c]) a) :
    WrittenSince t cs a ∨ (c.fInN = false ∧ (t.run cs).wrPtr = a) := by
  obtain ⟨j, hj, hin, hptr⟩ := h
  by_cases hlt : j < cs.length
  · left
    rw [List.getElem_append_left hlt] at hin
    rw [List.take_append_of_le_length (Nat.le_of_lt hlt)] at hptr
    exact ⟨j, hlt, hin, hptr⟩
  · right
    have hlen : j = cs.length := by simp at hj; omega
    subst hlen
    exact ⟨by simpa using hin, by simpa using hptr⟩

/-- Two runs on the same cycles from equal registers agree on the registers and
on every cell either has written. -/
theorem run_eq_of_toRegs_eq {t₁ t₂ : Fifo α} (h : t₁.toRegs = t₂.toRegs) (cs : List (Cycle α)) :
    (t₁.run cs).toRegs = (t₂.run cs).toRegs ∧
      ∀ i : Fin fdepth, WrittenSince t₁ cs (BitVec.ofNat fwidth i) →
        (t₁.run cs).memblk.fifo i = (t₂.run cs).memblk.fifo i := by
  induction cs using List.reverseRecOn with
  | nil =>
      refine ⟨h, ?_⟩
      rintro i ⟨j, hj, -⟩
      exact absurd hj (Nat.not_lt_zero j)
  | append_singleton cs c ih =>
      obtain ⟨hregs, hcells⟩ := ih
      rw [Fifo.run_concat, Fifo.run_concat]
      refine ⟨by rw [Fifo.toRegs_step, Fifo.toRegs_step, hregs], ?_⟩
      intro i hi
      rw [Fifo.fifo_step, Fifo.fifo_step, hregs]
      by_cases hlast : c.fInN = false ∧ (t₂.run cs).wrPtr.toNat = i
      · rw [if_pos hlast, if_pos hlast]
      · rw [if_neg hlast, if_neg hlast]
        refine hcells i ((writtenSince_concat hi).resolve_right ?_)
        rintro ⟨hin, hw⟩
        rw [hregs] at hw
        exact hlast ⟨hin, by rw [hw, toNat_cell]⟩

/-- **Clear and reset**: whatever the states before, a clear cycle and a reset
lead to the same flags, counter and pointers after all requests that follow,
and to the same output while the read pointer is at a cell written since. -/
theorem clear_equiv_reset (s₁ s₂ : Fifo Word) (c : Cycle Word) (hc : c.fClrN = false) (i : Req)
    (held cs₁ cs₂ : List (Cycle Word)) (hreq : cs₁.map Cycle.toReq = cs₂.map Cycle.toReq) :
    (∀ k, ((s₁.step c).run (cs₁.take k)).toRegs =
      ((s₂.assertReset i held).run (cs₂.take k)).toRegs) ∧
    (cs₁ = cs₂ → ∀ k,
      WrittenSince (s₁.step c) (cs₁.take k) ((s₁.step c).run (cs₁.take k)).rdPtr →
      ((s₁.step c).run (cs₁.take k)).fData =
        ((s₂.assertReset i held).run (cs₂.take k)).fData) := by
  have hstart : (s₁.step c).toRegs = (s₂.assertReset i held).toRegs := by
    rw [Fifo.toRegs_step_clear _ _ hc, Fifo.toRegs_assertReset]
  constructor
  · intro k
    rw [Fifo.toRegs_run, Fifo.toRegs_run, hstart, List.map_take, List.map_take, hreq]
  · rintro rfl k hw
    obtain ⟨hregs, hcells⟩ := run_eq_of_toRegs_eq hstart (cs₁.take k)
    rw [Fifo.fData, Fifo.fData, ← hregs]
    simp only [FifoMemBlk.dataOut]
    split
    · next hlt =>
        apply hcells
        rwa [BitVec.ofNat_toNat, BitVec.setWidth_eq]
    · rfl

/-- A word written after a clear with write and after a reset held over a write
is the same word. -/
theorem clear_equiv_reset_write :
    (((Fifo.powerUp.run [FifoOp.write.cycle 9]).step (FifoOp.clearWrite.cycle 3)).run
      [FifoOp.write.cycle 5]).fData =
    ((Fifo.powerUp.assertReset FifoOp.idle.req [FifoOp.write.cycle 4]).run
      [FifoOp.write.cycle 5]).fData :=
  (clear_equiv_reset (Fifo.powerUp.run [FifoOp.write.cycle 9]) Fifo.powerUp
    (FifoOp.clearWrite.cycle 3) rfl FifoOp.idle.req [FifoOp.write.cycle 4]
    [FifoOp.write.cycle 5] [FifoOp.write.cycle 5] rfl).2 rfl 1 ⟨0, by decide, rfl, rfl⟩

end BasicFifo
