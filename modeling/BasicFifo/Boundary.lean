import BasicFifo.Announce

/-!
# BasicFifo.Boundary

Requests the design should absorb: a replacement at any level, any read of an
empty FIFO, a write to a full one.

No pointer is gated by a flag, so none of them is absorbed throughout:

* `readWrite_neutral_iff` — a replacement is neutral unless the FIFO is claimed
  full: there it deasserts `F_FullN`;
* `empty_request_not_ignored` — a request on an empty FIFO is never ignored for
  good;
* `write_full_iff` — a write to a full FIFO disturbs nothing as long as the
  write pointer and the counter have not come around.
-/

namespace BasicFifo

open FourState

/-! ## simultaneous requests -/

/-- Cycles that all assert both `FInN` and `FOutN`. -/
def Replaces (cs : List (Cycle α)) : Prop := ∀ c ∈ cs, c.toReq = FifoOp.readWrite.req

instance (cs : List (Cycle α)) : Decidable (Replaces cs) := by
  unfold Replaces; infer_instance

theorem Replaces.of_concat {cs : List (Cycle α)} {c : Cycle α} (h : Replaces (cs ++ [c])) :
    Replaces cs ∧ c.toReq = FifoOp.readWrite.req :=
  ⟨fun d hd => h d (by simp [hd]), h c (by simp)⟩

section
variable {cs : List (Cycle α)} (h : Replaces cs)
include h

theorem Replaces.fClrN : ∀ c ∈ cs, c.fClrN = true := fun c hc => by rw [h c hc]; rfl

theorem Replaces.writes_eq : writes cs = cs.length :=
  List.countP_eq_length.mpr fun c hc => by rw [h c hc]; rfl

theorem Replaces.reads_eq : reads cs = cs.length :=
  List.countP_eq_length.mpr fun c hc => by rw [h c hc]; rfl

/-- After a replacement a word is claimed, and the FIFO is not claimed full. -/
theorem Replaces.flags_run (s : Fifo α) (hne : cs ≠ []) :
    (s.run cs).fEmptyN = true ∧ (s.run cs).fFullN = true := by
  obtain rfl | ⟨pre, c, rfl⟩ := List.eq_nil_or_concat' cs
  · exact absurd rfl hne
  · rw [Fifo.run_concat, Fifo.toRegs_step, h.of_concat.2, Regs.next_readWrite]
    exact ⟨rfl, rfl⟩

/-- With a word claimed and space left, replacements leave the counter and the
flags alone. -/
theorem Replaces.neutral_run (s : Fifo α) (he : s.fEmptyN = true) (hu : s.fFullN = true) :
    (s.run cs).fcounter = s.fcounter ∧ (s.run cs).toFlags = s.toFlags := by
  induction cs using List.reverseRecOn with
  | nil => exact ⟨rfl, rfl⟩
  | append_singleton cs c ih =>
      obtain ⟨hcs, hc⟩ := h.of_concat
      obtain ⟨hfc, hflags⟩ := ih hcs
      have he' : (s.run cs).fEmptyN = true := (congrArg Flags.fEmptyN hflags).trans he
      have hu' : (s.run cs).fFullN = true := (congrArg Flags.fFullN hflags).trans hu
      rw [Fifo.run_concat, Fifo.toRegs_step, hc, Regs.next_readWrite, he', hu', Bool.true_and,
        Bool.true_and, ← hflags]
      exact ⟨hfc, Flags.ext he'.symm rfl rfl rfl hu'.symm⟩

end

/-- **Replacement**: with a word claimed, simultaneous requests leave the
counter and all five flags as they were and advance both pointers exactly when
the FIFO is not claimed full. -/
theorem readWrite_neutral_iff (s : Fifo α) (he : s.fEmptyN = true) (cs : List (Cycle α))
    (hcs : Replaces cs) :
    ((s.run cs).fcounter = s.fcounter ∧ (s.run cs).toFlags = s.toFlags ∧
      (s.run cs).rdPtr = s.rdPtr + BitVec.ofNat fwidth cs.length ∧
      (s.run cs).wrPtr = s.wrPtr + BitVec.ofNat fwidth cs.length) ↔
    cs = [] ∨ s.fFullN = true := by
  have hptr := contents_run s cs hcs.fClrN
  have hwr := hptr.wrPtr
  have hrd := hptr.rdPtr
  rw [hcs.writes_eq] at hwr
  rw [hcs.reads_eq] at hrd
  constructor
  · rintro ⟨-, hflags, -, -⟩
    by_cases hne : cs = []
    · exact Or.inl hne
    · -- a replacement deasserts `F_FullN`, so it was not asserted before
      right
      rw [← (hcs.flags_run s hne).2, hflags]
  · intro h
    cases h with
    | inl hnil =>
        subst hnil
        exact ⟨rfl, rfl, hrd, hwr⟩
    | inr hu =>
        obtain ⟨hfc, hflags⟩ := hcs.neutral_run s he hu
        exact ⟨hfc, hflags, hrd, hwr⟩

/-- Two words stored, five replacements: nothing but the pointers moves. -/
theorem readWrite_neutral_two :
    ((Fifo.powerUp.run [FifoOp.write.cycle 1, FifoOp.write.cycle 2]).run
      (List.replicate 5 (FifoOp.readWrite.cycle 3))).fcounter = 2 :=
  ((readWrite_neutral_iff (Fifo.powerUp.run [FifoOp.write.cycle 1, FifoOp.write.cycle 2]) rfl
    (List.replicate 5 (FifoOp.readWrite.cycle 3)) (by decide)).mpr (Or.inr rfl)).1

/-- One replacement on a full FIFO, and it is no longer claimed full. -/
theorem readWrite_not_neutral :
    ¬ ∀ (s : Fifo Word), s.Reachable → s.fEmptyN = true → ∀ cs, Replaces cs →
      (s.run cs).fcounter = s.fcounter ∧ (s.run cs).toFlags = s.toFlags ∧
      (s.run cs).rdPtr = s.rdPtr + BitVec.ofNat fwidth cs.length ∧
      (s.run cs).wrPtr = s.wrPtr + BitVec.ofNat fwidth cs.length := by
  intro h
  have hfull := h (Fifo.powerUp.run (List.replicate 4 (FifoOp.write.cycle 1)))
    (Fifo.Reachable.powerUp.run _) rfl [FifoOp.readWrite.cycle 2] (by decide)
  revert hfull
  decide

/-! ## requests on an empty FIFO -/

/-- Two states look the same: equal flags, and equal `F_Data` while a word is
claimed. -/
def Agree (s₁ s₂ : Fifo Word) : Prop :=
  s₁.toFlags = s₂.toFlags ∧ (s₁.fEmptyN = true → s₁.fData = s₂.fData)

instance : Decidable (Agree s₁ s₂) := by unfold Agree; infer_instance

/-- Two states look the same after every cycle that follows, whatever is
requested. -/
def AgreeAfter (s₁ s₂ : Fifo Word) : Prop :=
  ∀ (cs : List (Cycle Word)) k, k < cs.length →
    Agree (s₁.run (cs.take (k + 1))) (s₂.run (cs.take (k + 1)))

/-- In particular they do after the last of those cycles. -/
theorem AgreeAfter.run {s₁ s₂ : Fifo Word} (h : AgreeAfter s₁ s₂) (cs : List (Cycle Word))
    (hne : cs ≠ []) : Agree (s₁.run cs) (s₂.run cs) := by
  have hpos : 0 < cs.length := List.length_pos_of_ne_nil hne
  have hlast := h cs (cs.length - 1) (by omega)
  rwa [Nat.sub_add_cancel hpos, List.take_length] at hlast

theorem replaces_replicate (n : Nat) (d : Bits) :
    Replaces (List.replicate n (FifoOp.readWrite.cycle d)) := by
  intro c hc
  rw [List.eq_of_mem_replicate hc]
  rfl

/-- Enough replacements by one word leave that word in every cell, and the read
pointer that much further. -/
theorem run_replicate_readWrite (s : Fifo Word) (d : Bits) {n : Nat} (hn : 2 ^ 32 ≤ n) :
    (s.run (List.replicate n (FifoOp.readWrite.cycle d))).rdPtr =
      s.rdPtr + BitVec.ofNat fwidth n ∧
    ∀ i, (s.run (List.replicate n (FifoOp.readWrite.cycle d))).memblk.fifo i = .ofBits d := by
  have hrep := replaces_replicate n d
  have h := contents_run s _ hrep.fClrN
  have hrd := h.rdPtr
  rw [hrep.reads_eq, List.length_replicate] at hrd
  refine ⟨hrd, ?_⟩
  intro i
  obtain ⟨j, hj, hi⟩ := exists_sentTo s.wrPtr i
  have hjw : j < writes (List.replicate n (FifoOp.readWrite.cycle d)) := by
    rw [hrep.writes_eq, List.length_replicate]
    omega
  refine h.cell_eq ?_ hjw hi
  intro c hc
  rw [List.eq_of_mem_replicate hc]
  rfl

/-- Some number of replacements, a full turn of the write pointer included,
brings a read pointer to the last cell. -/
theorem exists_turn (p : BitVec fwidth) :
    ∃ n, 2 ^ 32 ≤ n ∧ p + BitVec.ofNat fwidth n = BitVec.ofNat fwidth 3 := by
  refine ⟨2 ^ 32 + (3 - p).toNat, Nat.le_add_right _ _, ?_⟩
  rw [BitVec.ofNat_add, BitVec.ofNat_toNat, BitVec.setWidth_eq]
  show p + (0 + (3 - p)) = 3
  grind

/-- A word claimed under a read pointer beyond the memory does not look like a
word claimed in the last cell. -/
theorem not_agree {s₁ s₂ : Fifo Word} {d : Bits} (he : s₁.fEmptyN = true)
    (h₁ : s₁.rdPtr = BitVec.ofNat fwidth 4) (h₂ : s₂.rdPtr = BitVec.ofNat fwidth 3)
    (hcell : ∀ i, s₂.memblk.fifo i = .ofBits d) : ¬ Agree s₁ s₂ := by
  rintro ⟨-, hdata⟩
  have hx : s₁.fData = HasX.x := by
    rw [Fifo.fData, h₁]
    rfl
  have hd : s₂.fData = .ofBits d := by
    rw [Fifo.fData, h₂]
    exact hcell 3
  exact x_ne_ofBits d (hx.symm.trans ((hdata he).trans hd))

/-- **Empty FIFO**: no request on it is ignored for good.  A replacement
deasserts `F_EmptyN` at once; a read moves the read pointer, and a user that
keeps on replacing sees the two runs read different cells. -/
theorem empty_request_not_ignored (s : Fifo Word) (he : s.fEmptyN = false) (c c₀ : Cycle Word)
    (hc : c.toReq = FifoOp.read.req ∨ c.toReq = FifoOp.readWrite.req)
    (h₀ : c₀.toReq = FifoOp.idle.req) : ¬ AgreeAfter (s.step c) (s.step c₀) := by
  intro h
  rw [Fifo.step_idle s c₀ h₀] at h
  cases hc with
  | inl hc =>
      -- the run with the read ends one address beyond the memory, the other at its last cell
      obtain ⟨n, hn, hturn⟩ := exists_turn s.rdPtr
      have hne : List.replicate n (FifoOp.readWrite.cycle 5) ≠ [] := by
        rw [ne_eq, List.replicate_eq_nil_iff]
        omega
      obtain ⟨hptr₁, -⟩ := run_replicate_readWrite (s.step c) 5 hn
      obtain ⟨hptr₂, hcell⟩ := run_replicate_readWrite s 5 hn
      have hstep : (s.step c).rdPtr = s.rdPtr + 1 := by
        rw [Fifo.toRegs_step, hc, Regs.next_read]
      have hfour : s.rdPtr + 1 + BitVec.ofNat fwidth n = BitVec.ofNat fwidth 4 := by
        rw [BitVec.add_assoc, BitVec.add_comm 1, ← BitVec.add_assoc, hturn]
        rfl
      rw [hstep, hfour] at hptr₁
      rw [hturn] at hptr₂
      exact not_agree ((replaces_replicate n 5).flags_run _ hne).1 hptr₁ hptr₂ hcell (h.run _ hne)
  | inr hc =>
      -- one idle cycle is enough to see the claim
      have hidle := congrArg Flags.fEmptyN (h.run [FifoOp.idle.cycle 0] (by simp)).1
      change ((s.step c).step (FifoOp.idle.cycle 0)).fEmptyN =
        (s.step (FifoOp.idle.cycle 0)).fEmptyN at hidle
      rw [Fifo.step_idle _ (FifoOp.idle.cycle 0) rfl, Fifo.step_idle _ (FifoOp.idle.cycle 0) rfl,
        he, Fifo.toRegs_step, hc, Regs.next_readWrite] at hidle
      contradiction

/-- Reading the FIFO empty after power-up. -/
theorem empty_request_not_ignored_read :
    ¬ AgreeAfter (Fifo.powerUp.step (FifoOp.read.cycle 0))
      (Fifo.powerUp.step (FifoOp.idle.cycle 0)) :=
  empty_request_not_ignored Fifo.powerUp rfl (FifoOp.read.cycle 0) (FifoOp.idle.cycle 0)
    (Or.inl rfl) rfl

/-- After a read of the empty FIFO the first word written is not shown: the read
pointer is one cell ahead of it. -/
theorem empty_read_shifts :
    ¬ ∀ (s : Fifo Word), s.Reachable → s.fEmptyN = false → ∀ c c₀ : Cycle Word,
      c.toReq = FifoOp.read.req ∨ c.toReq = FifoOp.readWrite.req → c₀.toReq = FifoOp.idle.req →
        AgreeAfter (s.step c) (s.step c₀) := by
  intro h
  have hread := (h Fifo.powerUp .powerUp rfl (FifoOp.read.cycle 0) (FifoOp.idle.cycle 0)
    (Or.inl rfl) rfl).run [FifoOp.write.cycle 5] (by simp)
  revert hread
  decide

/-! ## writes to a full FIFO -/

/-- Everything that is stored, and everything that shows it, is the same. -/
structure Undisturbed (s t : Fifo Word) : Prop where
  fcounter : t.fcounter = s.fcounter
  rdPtr : t.rdPtr = s.rdPtr
  flags : t.toFlags = s.toFlags
  cell : ∀ i, t.memblk.fifo i = s.memblk.fifo i
  fData : t.fData = s.fData

/-- `F_Data` depends on the cells and the read pointer only. -/
theorem fData_eq {s t : Fifo Word} (hrd : t.rdPtr = s.rdPtr)
    (hcell : ∀ i, t.memblk.fifo i = s.memblk.fifo i) : t.fData = s.fData := by
  unfold Fifo.fData FifoMemBlk.dataOut
  rw [hrd]
  split
  · exact hcell _
  · rfl

/-- A write to a full FIFO leaves the flags alone exactly when they show which
threshold of `fcounter` it meets. -/
theorem write_full_flags_iff {r : Regs} (hu : r.fFullN = false) (he : r.fEmptyN = true) :
    (r.next true FifoOp.write.req).toFlags = r.toFlags ↔
      (r.fSLastN = false ↔ r.fcounter = 1) ∧ (r.fLastN = false ↔ r.fcounter = 2) := by
  rw [Regs.next_write, Flags.ext_iff]
  grind

/-- A write leaves the cells alone exactly when it goes to none or brings the
word that is there. -/
theorem write_cells_iff (s : Fifo Word) (c : Cycle Word) (hin : c.fInN = false) :
    (∀ i, (s.step c).memblk.fifo i = s.memblk.fifo i) ↔
      ∀ i : Fin fdepth, s.wrPtr.toNat = i → s.memblk.fifo i = c.dataIn := by
  simp only [Fifo.fifo_step, hin, true_and]
  grind

/-- **Full FIFO**: a write disturbs nothing exactly when the write pointer is not
at a cell with another word and the flags already show which threshold `fcounter`
is at.  With less than `2 ^ 32` write requests since the latest reset or clear
that is always so. -/
theorem write_full_iff (s : Fifo Word) (i : Req) (held cs : List (Cycle Word)) (c : Cycle Word)
    (hc : c.toReq = FifoOp.write.req) (hu : ((s.assertReset i held).run cs).fFullN = false) :
    let t := (s.assertReset i held).run cs
    (Undisturbed t (t.step c) ↔
      (∀ j : Fin fdepth, writes (sinceClear cs) % 2 ^ 32 = j → t.memblk.fifo j = c.dataIn) ∧
      (t.fSLastN = false ↔ t.fcounter = 1) ∧ (t.fLastN = false ↔ t.fcounter = 2)) ∧
    (writes (sinceClear cs) < 2 ^ 32 → Undisturbed t (t.step c)) := by
  intro t
  have hreset := Fifo.toRegs_assertReset s i held
  have he : t.fEmptyN = true := by
    have hshown : FullShown t.toRegs := fullShown_run hreset cs
    grind [FullShown]
  have hin : c.fInN = false := by rw [hc]; rfl
  have hwr : t.wrPtr.toNat = writes (sinceClear cs) % 2 ^ 32 := by
    rw [wrPtr_run hreset, BitVec.toNat_ofNat]
  have hregs : (t.step c).toRegs = t.toRegs.next true FifoOp.write.req := by
    rw [Fifo.toRegs_step, hc]
  have hfc : (t.step c).fcounter = t.fcounter := by
    rw [hregs, Regs.next_write, hu]
    rfl
  have hrd : (t.step c).rdPtr = t.rdPtr := by rw [hregs, Regs.next_write]
  have hflags := write_full_flags_iff (r := t.toRegs) hu he
  have hcells := write_cells_iff t c hin
  rw [← hregs] at hflags
  rw [hwr] at hcells
  have hiff : Undisturbed t (t.step c) ↔
      (∀ j : Fin fdepth, writes (sinceClear cs) % 2 ^ 32 = j → t.memblk.fifo j = c.dataIn) ∧
      (t.fSLastN = false ↔ t.fcounter = 1) ∧ (t.fLastN = false ↔ t.fcounter = 2) := by
    rw [← hcells, ← hflags]
    constructor
    · intro h
      exact ⟨h.cell, h.flags⟩
    · rintro ⟨hcell, hfl⟩
      exact ⟨hfc, hrd, hfl, hcell, fData_eq hrd hcell⟩
  refine ⟨hiff, ?_⟩
  intro hw
  have hfour : 4 ≤ writes (sinceClear cs) := (announced_run hreset cs).full hu
  have hdrift := drift_run hreset cs (Or.inl hw)
  have hno : ¬ Recounts t.toRegs FifoOp.write.req := hdrift.not_recounts (Or.inl hw) _
  have hex : LevelsExclusive t.toRegs := hdrift.exclusive
  rw [hiff]
  constructor
  · intro j hj
    have hlt : (j : Nat) < 4 := j.isLt
    omega
  · grind [Recounts, LevelsExclusive, Flags.Exclusive, FifoOp.op_req]

/-- The fifth write since a reset is absorbed. -/
theorem write_full_fifth :
    (((Fifo.powerUp.assertReset FifoOp.idle.req []).run
      (List.replicate 4 (FifoOp.write.cycle 1))).step (FifoOp.write.cycle 2)).fData = .ofBits 1 :=
  ((write_full_iff Fifo.powerUp FifoOp.idle.req [] (List.replicate 4 (FifoOp.write.cycle 1))
    (FifoOp.write.cycle 2) rfl rfl).2 (by decide)).fData

/-- A producer that keeps its write request asserted finds the FIFO full from
the fourth cycle on, and its pointer moving on. -/
theorem run_replicate_write (d : Bits) (n : Nat) :
    (Fifo.powerUp.run (List.replicate (4 + n) (FifoOp.write.cycle d))).fFullN = false ∧
    (Fifo.powerUp.run (List.replicate (4 + n) (FifoOp.write.cycle d))).wrPtr =
      BitVec.ofNat fwidth (4 + n) ∧
    (Fifo.powerUp.run (List.replicate (4 + n) (FifoOp.write.cycle d))).memblk.fifo 0 =
      .ofBits d := by
  induction n with
  | zero => exact ⟨rfl, rfl, rfl⟩
  | succ n ih =>
      obtain ⟨hu, hwr, hcell⟩ := ih
      rw [← Nat.add_assoc, List.replicate_succ', Fifo.run_concat, Fifo.fifo_step, hcell,
        Fifo.toRegs_step]
      change (Regs.next true _ FifoOp.write.req).fFullN = false ∧
        (Regs.next true _ FifoOp.write.req).wrPtr = _ ∧
          ite _ (LogicVec.ofBits d) _ = _
      rw [Regs.next_write, hu, hwr, ite_self]
      exact ⟨Bool.and_false _, (BitVec.ofNat_add (4 + n) 1).symm, rfl⟩

/-- When that pointer has come around, the first word stored is overwritten. -/
theorem write_full_disturbs :
    ¬ ∀ (s : Fifo Word), s.Reachable → s.fFullN = false → ∀ c : Cycle Word,
      c.toReq = FifoOp.write.req → Undisturbed s (s.step c) := by
  intro h
  -- all that matters about the length of the run is that it is one full turn
  obtain ⟨n, hn⟩ : ∃ n, 4 + n = 2 ^ 32 := ⟨2 ^ 32 - 4, by omega⟩
  obtain ⟨hu, hwr, hcell⟩ := run_replicate_write 1 n
  have hover := (h _ (Fifo.Reachable.powerUp.run _) hu (FifoOp.write.cycle 2) rfl).cell 0
  have hzero : (BitVec.ofNat fwidth (4 + n)).toNat = 0 := by
    rw [hn]
    rfl
  rw [Fifo.fifo_step, hwr, if_pos ⟨rfl, hzero⟩, hcell] at hover
  exact absurd (LogicVec.ofBits_inj.mp hover) (by decide)

end BasicFifo
