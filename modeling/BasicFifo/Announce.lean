import BasicFifo.Control
import BasicFifo.Contents

/-!
# BasicFifo.Announce

What the fill-level flags can claim, alone and together, in runs of any length.

`fcounter` need not be the number of stored words, and it wraps; so every result
rests on an invariant that bounds it by the requests since the latest clear:

* `empty_full_exclusive` — empty and full are never claimed together;
* `flags_not_early` — no flag claims more words than were written;
* `levels_exclusive_iff` — the three space-remaining flags exclude each other
  until `fcounter` has drifted all the way around.
-/

namespace BasicFifo

open FourState

/-! ## empty and full -/

/-- `F_FullN` is asserted only while `F_EmptyN` is not. -/
def FullShown (r : Regs) : Prop := (r.fEmptyN || r.fFullN) = true

theorem fullShown_reset : FullShown Regs.reset := rfl

/-- A write deasserts `F_EmptyN` and a read deasserts `F_FullN`, whatever the
other flags say. -/
theorem FullShown.next {r : Regs} (h : FullShown r) (i : Req) : FullShown (r.next true i) := by
  obtain ⟨o, rfl⟩ := i.exists_op
  cases o with
  | clear | clearRead | clearWrite | clearReadWrite =>
      rw [Regs.next_clear _ _ rfl]
      exact fullShown_reset
  | idle => rw [Regs.next_idle]; exact h
  | write => rw [Regs.next_write, FullShown, Bool.true_or]
  | read => rw [Regs.next_read, FullShown, Bool.or_true]
  | readWrite => rw [Regs.next_readWrite, FullShown, Bool.or_true]

theorem fullShown_run {t : Fifo α} (ht : t.toRegs = Regs.reset) (cs : List (Cycle α)) :
    FullShown (t.run cs).toRegs :=
  Fifo.toRegs_run_induct fullShown_reset (fun _ i h => h.next i) ht cs

theorem firstShown_run {t : Fifo α} (ht : t.toRegs = Regs.reset) (cs : List (Cycle α)) :
    FirstShown (t.run cs).toRegs :=
  Fifo.toRegs_run_induct firstShown_reset (fun _ i h => h.next i) ht cs

/-- **Empty and full**: in every reachable state at most one of them is claimed,
and `F_FirstN` is asserted whenever a word is claimed, so on a full FIFO too. -/
theorem empty_full_exclusive [HasX α] (s : Fifo α) (hs : s.Reachable) :
    ¬ (s.fEmptyN = false ∧ s.fFullN = false) ∧
    (s.fEmptyN = true → s.fFirstN = false) ∧
    (s.fFullN = false → s.fFirstN = false) := by
  obtain ⟨t, i, cs, rfl⟩ := hs.exists_run
  have hreset := Fifo.toRegs_assertReset t i []
  have hfull := fullShown_run hreset cs
  have hfirst := firstShown_run hreset cs
  unfold FullShown at hfull
  unfold FirstShown at hfirst
  grind

/-- Four words after power-up: full, and `F_FirstN` asserted. -/
theorem empty_full_exclusive_four :
    (Fifo.powerUp.run (List.replicate 4 (FifoOp.write.cycle 7))).fFirstN = false :=
  (empty_full_exclusive _ (Fifo.Reachable.powerUp.run
    (List.replicate 4 (FifoOp.write.cycle 7)))).2.2 rfl

/-! ## fill levels and write requests -/

/-- What the registers claim after `w` write requests since the latest clear.
`fcounter` went up at most `w` times, and between two of its decrements
`F_EmptyN` was deasserted by another write. -/
structure Announced (w : Nat) (r : Regs) : Prop where
  counted : ∃ p q, r.fcounter = BitVec.ofNat fwidth p - BitVec.ofNat fwidth q ∧
    p ≤ w ∧ q + (if r.fEmptyN then 1 else 0) ≤ w
  firstShown : FirstShown r
  first : r.fFirstN = false → 1 ≤ w
  slast : r.fSLastN = false → 2 ≤ w
  last : r.fLastN = false → 3 ≤ w
  full : r.fFullN = false → 4 ≤ w

theorem announced_reset : Announced 0 Regs.reset where
  counted := ⟨0, 0, rfl, Nat.le_refl _, Nat.le_refl _⟩
  firstShown := firstShown_reset
  first := by decide
  slast := by decide
  last := by decide
  full := by decide

/-- Two counts up to `w` cannot differ by a small `n` above `w`, not even modulo
`2 ^ 32`. -/
theorem le_of_sub_eq_ofNat {p q w n : Nat} (hp : p ≤ w) (hq : q ≤ w) (hn : n ≤ 2)
    (h : BitVec.ofNat fwidth p - BitVec.ofNat fwidth q = BitVec.ofNat fwidth n) : n ≤ w := by
  have hnat := congrArg BitVec.toNat h
  simp only [BitVec.toNat_sub, BitVec.toNat_ofNat, fwidth] at hnat
  omega

section
variable {w : Nat} {r : Regs} (h : Announced w r)
include h

/-- `fcounter` reaches a threshold only with that many writes behind it. -/
theorem Announced.threshold_le {n : Nat} (hn : n ≤ 2) (hr : r.fcounter = BitVec.ofNat fwidth n) :
    n ≤ w := by
  obtain ⟨p, q, hpq, hp, hq⟩ := h.counted
  exact le_of_sub_eq_ofNat hp (by omega) hn (hpq.symm.trans hr)

/-- A write is counted, and a flag it asserts is one above what was claimed or
reached. -/
theorem Announced.write : Announced (w + 1) (r.next true FifoOp.write.req) := by
  obtain ⟨p, q, hpq, hp, hq⟩ := h.counted
  have hone := h.threshold_le (n := 1) (by omega)
  have htwo := h.threshold_le (n := 2) (by omega)
  have hlast := h.last
  have hfull := h.full
  rw [Regs.next_write]
  constructor
  case counted =>
    by_cases hu : r.fFullN
    · refine ⟨p + 1, q, ?_, by omega, by grind⟩
      simp only [hu, if_true, hpq, BitVec.ofNat_add]
      grind
    · exact ⟨p, q, by grind, by omega, by grind⟩
  case firstShown => exact h.firstShown
  case first => omega
  case slast => grind
  case last => grind
  case full => grind

/-- A read hands claims down; it is counted only against a write. -/
theorem Announced.read : Announced w (r.next true FifoOp.read.req) := by
  obtain ⟨p, q, hpq, hp, hq⟩ := h.counted
  have hfirst := h.first
  have htwo := h.threshold_le (n := 2) (by omega)
  have hlast := h.last
  have hfull := h.full
  have hshown : (r.fFirstN && r.fEmptyN) = false := by
    rw [Bool.and_comm]
    exact h.firstShown
  rw [Regs.next_read, hshown]
  constructor
  case counted =>
    by_cases he : r.fEmptyN
    · -- the write that deasserted `F_EmptyN` pays for the decrement
      refine ⟨p, q + 1, ?_, hp, by grind⟩
      simp only [he, if_true, hpq, BitVec.ofNat_add]
      grind
    · exact ⟨p, q, by grind, hp, by grind⟩
  case firstShown => rfl
  case first => grind
  case slast => grind
  case last => grind
  case full => simp

/-- A simultaneous request raises no claim but that of a first word. -/
theorem Announced.readWrite : Announced (w + 1) (r.next true FifoOp.readWrite.req) := by
  obtain ⟨p, q, hpq, hp, hq⟩ := h.counted
  have hslast := h.slast
  have hlast := h.last
  have hfull := h.full
  rw [Regs.next_readWrite]
  constructor
  case counted => exact ⟨p, q, hpq, by omega, by grind⟩
  case firstShown => exact h.firstShown
  case first => omega
  case slast => grind
  case last => grind
  case full => simp

/-- **Announcement step**: whatever a clock edge asserts is covered by the
writes up to it. -/
theorem Announced.next (i : Req) :
    Announced (if i.fClrN then w + (if i.fInN then 0 else 1) else 0) (r.next true i) := by
  obtain ⟨o, rfl⟩ := i.exists_op
  cases o with
  | clear | clearRead | clearWrite | clearReadWrite =>
      rw [Regs.next_clear _ _ rfl]
      exact announced_reset
  | idle => rw [Regs.next_idle]; exact h
  | write => exact h.write
  | read => exact h.read
  | readWrite => exact h.readWrite

end

/-- The claims after any run out of a reset. -/
theorem announced_run {t : Fifo α} (ht : t.toRegs = Regs.reset) (cs : List (Cycle α)) :
    Announced (writes (sinceClear cs)) (t.run cs).toRegs :=
  Run.run_induct Fifo.step t (fun pre u => Announced (writes (sinceClear pre)) u.toRegs)
    (ht ▸ announced_reset)
    (fun pre u c h => by rw [writes_sinceClear_concat]; exact h.next c.toReq) cs

/-- **No early flag**: every fill level a flag announces is covered by write
requests since the latest reset or clear. -/
theorem flags_not_early (s : Fifo α) (i : Req) (held cs : List (Cycle α)) :
    let t := (s.assertReset i held).run cs
    let w := writes (sinceClear cs)
    (t.fEmptyN = true ∨ t.fFirstN = false → 1 ≤ w) ∧
    (t.fSLastN = false → 2 ≤ w) ∧
    (t.fLastN = false → 3 ≤ w) ∧
    (t.fFullN = false → 4 ≤ w) := by
  intro t w
  have h : Announced w t.toRegs := announced_run (Fifo.toRegs_assertReset s i held) cs
  refine ⟨?_, h.slast, h.last, h.full⟩
  intro hany
  cases hany with
  | inl he =>
      obtain ⟨p, q, -, -, hq⟩ := h.counted
      rw [if_pos he] at hq
      omega
  | inr hf => exact h.first hf

/-! ## the space-remaining flags -/

/-- At most one of `F_SLastN`, `F_LastN` and `F_FullN` is asserted. -/
def Flags.Exclusive (f : Flags) : Prop :=
  (f.fSLastN || f.fLastN) = true ∧ (f.fSLastN || f.fFullN) = true ∧ (f.fLastN || f.fFullN) = true

instance : Decidable (Flags.Exclusive f) := by unfold Flags.Exclusive; infer_instance

/-- The registers assert at most one of them. -/
def LevelsExclusive (r : Regs) : Prop := r.toFlags.Exclusive

instance : Decidable (LevelsExclusive r) := inferInstanceAs (Decidable r.toFlags.Exclusive)

/-- A write that meets a threshold of `fcounter` although the FIFO is claimed
to have less than two words of space. -/
def Recounts (r : Regs) (i : Req) : Prop :=
  i.op = .write ∧ (r.fcounter = 1 ∨ r.fcounter = 2) ∧ (r.fLastN = false ∨ r.fFullN = false)

instance : Decidable (Recounts r i) := by unfold Recounts; infer_instance

theorem levelsExclusive_reset : LevelsExclusive Regs.reset := by decide

/-- Flags move from one neighbour to the next, and a threshold of `fcounter`
is met only where no flag moves. -/
theorem LevelsExclusive.next {r : Regs} (h : LevelsExclusive r) (i : Req) (hi : ¬ Recounts r i) :
    LevelsExclusive (r.next true i) := by
  obtain ⟨o, rfl⟩ := i.exists_op
  unfold Recounts at hi
  rw [FifoOp.op_req] at hi
  cases o with
  | clear | clearRead | clearWrite | clearReadWrite =>
      rw [Regs.next_clear _ _ rfl]
      exact levelsExclusive_reset
  | idle => rw [Regs.next_idle]; exact h
  | write => rw [Regs.next_write]; grind [LevelsExclusive, Flags.Exclusive]
  | read => rw [Regs.next_read]; grind [LevelsExclusive, Flags.Exclusive]
  | readWrite => rw [Regs.next_readWrite]; grind [LevelsExclusive, Flags.Exclusive]

/-- A write that recounts asserts two flags at once. -/
theorem Recounts.not_levelsExclusive {r : Regs} {i : Req} (hi : Recounts r i) :
    ¬ LevelsExclusive (r.next true i) := by
  obtain ⟨hop, hfc, hany⟩ := hi
  have hreq : i = FifoOp.write.req := by rw [← hop, Req.req_op]
  rw [hreq, Regs.next_write]
  grind [LevelsExclusive, Flags.Exclusive]

/-! ### drift -/

/-- Cycles that asserted both `FInN` and `FOutN`. -/
def readWrites (cs : List (Cycle α)) : Nat := cs.countP fun c => !c.fInN && !c.fOutN

/-- The registers after `w` write requests and `b` simultaneous ones since the
latest clear.  While `F_LastN` or `F_FullN` is asserted, `fcounter` is ahead of
the claimed level by some of the simultaneous requests: at full, such a request
lowers the claim and leaves the counter. -/
structure Drift (w b : Nat) (r : Regs) : Prop where
  exclusive : LevelsExclusive r
  last : r.fLastN = false → ∃ d ≤ b, 3 + d ≤ w ∧ r.fcounter = BitVec.ofNat fwidth (3 + d)
  full : r.fFullN = false → ∃ d ≤ b, 4 + d ≤ w ∧ r.fcounter = BitVec.ofNat fwidth (4 + d)

theorem drift_reset : Drift 0 0 Regs.reset := ⟨by decide, by decide, by decide⟩

/-- Only a write recounts. -/
theorem not_recounts_of_ne {r : Regs} {i : Req} (h : i.op ≠ .write) : ¬ Recounts r i :=
  fun hi => h hi.1

/-- A count above the thresholds is different from them until it has wrapped. -/
theorem ofNat_ne_threshold {n k : Nat} (hn : 3 ≤ n) (hle : n ≤ 2 ^ 32) (hk : 1 ≤ k ∧ k ≤ 2) :
    BitVec.ofNat fwidth n ≠ BitVec.ofNat fwidth k := by
  intro heq
  have hnat := congrArg BitVec.toNat heq
  simp only [BitVec.toNat_ofNat, fwidth] at hnat
  omega

section
variable {w b : Nat} {r : Regs} (h : Drift w b r)
include h

/-- Until the drift is all the way around, no threshold is met from above. -/
theorem Drift.not_recounts (hb : w < 2 ^ 32 ∨ b < 2 ^ 32 - 3) (i : Req) : ¬ Recounts r i := by
  intro hi
  obtain ⟨-, hfc, hany⟩ := hi
  obtain ⟨n, hlo, hhi, hn⟩ : ∃ n, 3 ≤ n ∧ n ≤ 2 ^ 32 ∧ r.fcounter = BitVec.ofNat fwidth n := by
    cases hany with
    | inl hl =>
        obtain ⟨d, hd, hw, hr⟩ := h.last hl
        exact ⟨3 + d, by omega, by omega, hr⟩
    | inr hu =>
        obtain ⟨d, hd, hw, hr⟩ := h.full hu
        exact ⟨4 + d, by omega, by omega, hr⟩
  rw [hn] at hfc
  cases hfc with
  | inl h1 => exact ofNat_ne_threshold hlo hhi (k := 1) (by omega) h1
  | inr h2 => exact ofNat_ne_threshold hlo hhi (k := 2) (by omega) h2

/-- A write asserts `F_LastN` over an exact count, `F_FullN` over the drift it
finds. -/
theorem Drift.write (ha : Announced w r) (hb : w < 2 ^ 32 ∨ b < 2 ^ 32 - 3) :
    Drift (w + 1) b (r.next true FifoOp.write.req) := by
  have hno := h.not_recounts hb FifoOp.write.req
  have hex := h.exclusive
  have htwo := ha.threshold_le (n := 2) (by omega)
  constructor
  case exclusive => exact hex.next _ hno
  case last =>
    rw [Regs.next_write]
    intro hl
    have hfc : r.fcounter = 2 := by simpa using hl
    -- the threshold is met by counting up from an exact count
    have hu : r.fFullN = true := by grind [Recounts, FifoOp.op_req]
    have h2 := htwo hfc
    exact ⟨0, by omega, by omega, by rw [if_pos hu, hfc]; rfl⟩
  case full =>
    rw [Regs.next_write]
    intro hu
    by_cases hfull : r.fFullN
    · have hl : r.fLastN = false := by simpa [hfull] using hu
      obtain ⟨d, hd, hw, hr⟩ := h.last hl
      refine ⟨d, hd, by omega, ?_⟩
      rw [if_pos hfull, hr, show 4 + d = 3 + d + 1 by omega, BitVec.ofNat_add (3 + d)]
      rfl
    · obtain ⟨d, hd, hw, hr⟩ := h.full (by simpa using hfull)
      exact ⟨d, hd, by omega, by rw [if_neg hfull, hr]⟩

/-- A read at full is counted: the drift stays. -/
theorem Drift.read (hfs : FullShown r) : Drift w b (r.next true FifoOp.read.req) := by
  have hex := h.exclusive
  constructor
  case exclusive => exact hex.next _ (not_recounts_of_ne (by decide))
  case last =>
    rw [Regs.next_read]
    intro hu
    have hu' : r.fFullN = false := hu
    have he : r.fEmptyN = true := by grind [FullShown]
    obtain ⟨d, hd, hw, hr⟩ := h.full hu'
    refine ⟨d, hd, by omega, ?_⟩
    rw [if_pos he, hr, show 4 + d = 3 + d + 1 by omega, BitVec.ofNat_add (3 + d)]
    exact BitVec.add_sub_cancel _ _
  case full =>
    rw [Regs.next_read]
    simp

/-- A simultaneous request at full is not counted: the drift grows. -/
theorem Drift.readWrite : Drift (w + 1) (b + 1) (r.next true FifoOp.readWrite.req) := by
  have hex := h.exclusive
  constructor
  case exclusive => exact hex.next _ (not_recounts_of_ne (by decide))
  case last =>
    rw [Regs.next_readWrite]
    intro hl
    by_cases hlast : r.fLastN
    · have hu : r.fFullN = false := by simpa [hlast] using hl
      obtain ⟨d, hd, hw, hr⟩ := h.full hu
      exact ⟨d + 1, by omega, by omega, by rw [hr, show 3 + (d + 1) = 4 + d by omega]⟩
    · obtain ⟨d, hd, hw, hr⟩ := h.last (by simpa using hlast)
      exact ⟨d, by omega, by omega, hr⟩
  case full =>
    rw [Regs.next_readWrite]
    simp

/-- **Drift step**: a clear resets the drift, and only a simultaneous request
adds to it. -/
theorem Drift.next (hfs : FullShown r) (ha : Announced w r) (i : Req)
    (hb : i.fClrN = true → w < 2 ^ 32 ∨ b < 2 ^ 32 - 3) :
    Drift (if i.fClrN then w + (if i.fInN then 0 else 1) else 0)
      (if i.fClrN then b + (if i.fInN || i.fOutN then 0 else 1) else 0) (r.next true i) := by
  obtain ⟨o, rfl⟩ := i.exists_op
  cases o with
  | clear | clearRead | clearWrite | clearReadWrite =>
      rw [Regs.next_clear _ _ rfl]
      exact drift_reset
  | idle => rw [Regs.next_idle]; exact h
  | write => exact h.write ha (hb rfl)
  | read => exact h.read hfs
  | readWrite => exact h.readWrite

end

/-- Simultaneous requests since the latest clear, cycle by cycle. -/
theorem readWrites_sinceClear_concat (cs : List (Cycle α)) (c : Cycle α) :
    readWrites (sinceClear (cs ++ [c])) =
      if c.fClrN then readWrites (sinceClear cs) + (if c.fInN || c.fOutN then 0 else 1) else 0 := by
  rw [sinceClear_concat]
  cases c.fClrN <;> cases hin : c.fInN <;> cases hout : c.fOutN <;> simp [readWrites, hin, hout]

/-- The drift after any run out of a reset, until it is all the way around. -/
theorem drift_run {t : Fifo α} (ht : t.toRegs = Regs.reset) (cs : List (Cycle α))
    (hb : writes (sinceClear cs) < 2 ^ 32 ∨ readWrites (sinceClear cs) < 2 ^ 32 - 3) :
    Drift (writes (sinceClear cs)) (readWrites (sinceClear cs)) (t.run cs).toRegs := by
  induction cs using List.reverseRecOn with
  | nil =>
      rw [Fifo.run, Run.run_nil, ht]
      exact drift_reset
  | append_singleton cs c ih =>
      rw [writes_sinceClear_concat, readWrites_sinceClear_concat] at hb ⊢
      rw [Fifo.run_concat, Fifo.toRegs_step]
      by_cases hclr : c.fClrN
      · -- counts since a clear only grow, so the bound held before the cycle
        have hpre : writes (sinceClear cs) < 2 ^ 32 ∨ readWrites (sinceClear cs) < 2 ^ 32 - 3 := by
          rw [if_pos hclr, if_pos hclr] at hb
          omega
        exact (ih hpre).next (fullShown_run ht cs) (announced_run ht cs) c.toReq fun _ => hpre
      · rw [Regs.next_clear _ _ (by simpa using hclr), if_neg hclr, if_neg hclr]
        exact drift_reset

/-- **Space-remaining flags**: they exclude each other throughout a run exactly
when no write recounts, and with fewer than `2 ^ 32 - 3` simultaneous requests
since the latest reset or clear they always do. -/
theorem levels_exclusive_iff (s : Fifo α) (i : Req) (held cs : List (Cycle α)) :
    ((∀ k, LevelsExclusive ((s.assertReset i held).run (cs.take k)).toRegs) ↔
      ∀ k (hk : k < cs.length),
        ¬ Recounts ((s.assertReset i held).run (cs.take k)).toRegs cs[k].toReq) ∧
    (readWrites (sinceClear cs) < 2 ^ 32 - 3 →
      LevelsExclusive ((s.assertReset i held).run cs).toRegs) := by
  have hreset := Fifo.toRegs_assertReset s i held
  constructor
  · refine Run.forall_run_iff Fifo.step (s.assertReset i held)
      (fun pre t _ => t = (s.assertReset i held).run pre) (fun _ t => LevelsExclusive t.toRegs)
      (fun _ t => LevelsExclusive t.toRegs)
      (fun pre c => ¬ Recounts ((s.assertReset i held).run pre).toRegs c.toReq)
      (hreset ▸ levelsExclusive_reset) (fun _ _ h => h) ?_ ?_ cs (fun _ _ => rfl)
    · rintro pre t c h rfl hc
      exact h.next c.toReq hc
    · rintro pre t c h rfl hc
      exact (Classical.not_not.mp hc).not_levelsExclusive
  · intro hb
    exact (drift_run hreset cs (Or.inr hb)).exclusive

/-- Fill the FIFO, then `m` times replace a word and write one. -/
def drifted : Nat → List (Cycle Word)
  | 0 => List.replicate 4 (FifoOp.write.cycle 0)
  | m + 1 => drifted m ++ [FifoOp.readWrite.cycle 0] ++ [FifoOp.write.cycle 0]

/-- Each replacement leaves the FIFO full and the counter one further ahead. -/
theorem run_drifted (m : Nat) (hm : m ≤ 2 ^ 32 - 3) :
    ((Fifo.powerUp.assertReset FifoOp.idle.req []).run (drifted m)).fcounter =
      BitVec.ofNat fwidth (4 + m) ∧
    ((Fifo.powerUp.assertReset FifoOp.idle.req []).run (drifted m)).toFlags = Flags.row 4 := by
  induction m with
  | zero => exact ⟨rfl, rfl⟩
  | succ m ih =>
      obtain ⟨hfc, hflags⟩ := ih (by omega)
      rw [drifted, Fifo.run_concat, Fifo.run_concat]
      generalize (Fifo.powerUp.assertReset FifoOp.idle.req []).run (drifted m) = s at hfc hflags
      have h1 := ofNat_ne_threshold (n := 4 + m) (k := 1) (by omega) (by omega) (by omega)
      have h2 := ofNat_ne_threshold (n := 4 + m) (k := 2) (by omega) (by omega) (by omega)
      rw [Fifo.toRegs_step, Fifo.toRegs_step]
      change ((s.toRegs.next true FifoOp.readWrite.req).next true FifoOp.write.req).fcounter = _ ∧
        ((s.toRegs.next true FifoOp.readWrite.req).next true FifoOp.write.req).toFlags = _
      obtain ⟨⟨⟨fc, rd, wr⟩, flags⟩, mem⟩ := s
      simp only at hfc hflags
      subst hfc hflags
      rw [Regs.next_readWrite, Regs.next_write]
      constructor
      · exact (BitVec.ofNat_add (4 + m) 1).symm
      · simpa [Flags.row] using ⟨h1, h2⟩

/-- Replacing words at full often enough brings the counter around to `1`, and
one more write asserts `F_SLastN` next to `F_FullN`. -/
theorem levels_not_exclusive :
    ¬ ∀ (s : Fifo Word) (i : Req) (held cs : List (Cycle Word)),
      LevelsExclusive ((s.assertReset i held).run cs).toRegs := by
  intro h
  have hlast := h Fifo.powerUp FifoOp.idle.req [] (drifted (2 ^ 32 - 3) ++ [FifoOp.write.cycle 0])
  obtain ⟨hfc, hflags⟩ := run_drifted (2 ^ 32 - 3) (Nat.le_refl _)
  rw [Fifo.run_concat, Fifo.toRegs_step] at hlast
  refine Recounts.not_levelsExclusive ⟨rfl, ?_, ?_⟩ hlast
  · left
    rw [hfc]
    rfl
  · right
    exact congrArg Flags.fFullN hflags

end BasicFifo
