import BasicFifo.Announce

/-!
# BasicFifo.Reach

The status outputs that occur at all.

`F_EmptyN` and `F_FirstN` tell something about the requests alone, at any fill
level (`emptyN_firstN_iff`).  The five outputs together take twelve of their
thirty-two settings (`occurs_iff`): eight within a few cycles, and four more
once `fcounter` has drifted all the way around.
-/

namespace BasicFifo

open FourState

/-! ## `F_EmptyN` and `F_FirstN` -/

/-- Until `F_FirstN` is asserted, nothing but the pointers has moved. -/
def Unwritten (r : Regs) : Prop := r.fFirstN = true → r.fcounter = 0 ∧ r.toFlags = Flags.row 0

theorem unwritten_reset : Unwritten Regs.reset := fun _ => ⟨rfl, rfl⟩

theorem FirstShown.write_asserts {r : Regs} (h : FirstShown r) :
    (r.next true FifoOp.write.req).fFirstN = false ∧
      (r.next true FifoOp.readWrite.req).fFirstN = false := by
  rw [Regs.next_write, Regs.next_readWrite]
  exact ⟨h, h⟩

/-- A read asserts nothing on a FIFO that was not written. -/
theorem Unwritten.read {r : Regs} (h : Unwritten r) :
    (r.next true FifoOp.read.req).fFirstN = r.fFirstN ∧
      Unwritten (r.next true FifoOp.read.req) := by
  obtain ⟨⟨fc, rd, wr⟩, e, f, sl, l, u⟩ := r
  rw [Regs.next_read]
  cases f with
  | true =>
      obtain ⟨hfc, hflags⟩ := h rfl
      simp only [Flags.row, Flags.mk.injEq] at hfc hflags
      obtain ⟨rfl, -, rfl, rfl, rfl⟩ := hflags
      subst hfc
      exact ⟨rfl, fun _ => ⟨rfl, rfl⟩⟩
  | false => simp [Unwritten]

theorem Unwritten.next {r : Regs} (h : Unwritten r) (hfirst : FirstShown r) (i : Req) :
    Unwritten (r.next true i) := by
  obtain ⟨o, rfl⟩ := i.exists_op
  have hasserts := hfirst.write_asserts
  cases o with
  | clear | clearRead | clearWrite | clearReadWrite =>
      rw [Regs.next_clear _ _ rfl]
      exact unwritten_reset
  | idle => rw [Regs.next_idle]; exact h
  | write => simp [Unwritten, hasserts.1]
  | read => exact h.read.2
  | readWrite => simp [Unwritten, hasserts.2]

theorem unwritten_run {t : Fifo α} (ht : t.toRegs = Regs.reset) (cs : List (Cycle α)) :
    Unwritten (t.run cs).toRegs :=
  (Fifo.toRegs_run_induct (P := fun r => Unwritten r ∧ FirstShown r)
    ⟨unwritten_reset, firstShown_reset⟩ (fun _ i h => ⟨h.1.next h.2 i, h.2.next i⟩) ht cs).1

/-- `F_FirstN` is asserted from the first write on until a clear. -/
theorem fFirstN_run {t : Fifo α} (ht : t.toRegs = Regs.reset) (cs : List (Cycle α)) :
    (t.run cs).fFirstN = false ↔ 1 ≤ writes (sinceClear cs) := by
  induction cs using List.reverseRecOn with
  | nil =>
      rw [Fifo.run, Run.run_nil, ht]
      simp [Regs.reset, sinceClear]
  | append_singleton cs c ih =>
      have hasserts := (firstShown_run ht cs).write_asserts
      have hread := (unwritten_run ht cs).read
      rw [Fifo.run_concat, Fifo.toRegs_step, writes_sinceClear_concat]
      obtain ⟨r, d⟩ := c
      obtain ⟨o, rfl⟩ := r.exists_op
      cases o with
      | clear | clearRead | clearWrite | clearReadWrite =>
          rw [Regs.next_clear _ _ rfl]
          simp [FifoOp.req, Regs.reset]
      | idle => rw [Regs.next_idle, ih]; simp [FifoOp.req]
      | write => rw [hasserts.1]; simp [FifoOp.req]
      | read => rw [hread.1, ih]; simp [FifoOp.req]
      | readWrite => rw [hasserts.2]; simp [FifoOp.req]

/-- The latest request since a clear, idle cycles aside, asserted `FInN`. -/
def LatestWrites (cs : List (Cycle α)) : Prop :=
  ∃ pre c post, cs = pre ++ [c] ++ post ∧ c.fClrN = true ∧ c.fInN = false ∧
    ∀ d ∈ post, d.op = .idle

theorem latestWrites_concat (cs : List (Cycle α)) (c : Cycle α) :
    LatestWrites (cs ++ [c]) ↔
      c.op ≠ .idle ∧ c.fClrN = true ∧ c.fInN = false ∨ c.op = .idle ∧ LatestWrites cs := by
  constructor
  · rintro ⟨pre, d, post, heq, hclr, hin, hidle⟩
    cases post using List.reverseRecOn with
    | nil =>
        rw [List.append_nil] at heq
        obtain ⟨-, hd⟩ := List.append_inj' heq rfl
        obtain rfl : c = d := by simpa using hd
        refine Or.inl ⟨?_, hclr, hin⟩
        intro hop
        have hreq : c.toReq = FifoOp.idle.req := by rw [← hop]; exact (Req.req_op _).symm
        rw [hreq] at hin
        contradiction
    | append_singleton post e =>
        rw [← List.append_assoc] at heq
        obtain ⟨hpre, he⟩ := List.append_inj' heq rfl
        obtain rfl : c = e := by simpa using he
        exact Or.inr ⟨hidle c (by simp), pre, d, post, hpre, hclr, hin,
          fun x hx => hidle x (by simp [hx])⟩
  · intro h
    cases h with
    | inl h => exact ⟨cs, c, [], by simp, h.2.1, h.2.2, by simp⟩
    | inr h =>
        obtain ⟨hop, pre, d, post, rfl, hclr, hin, hidle⟩ := h
        refine ⟨pre, d, post ++ [c], by simp, hclr, hin, ?_⟩
        intro x hx
        cases List.mem_append.mp hx with
        | inl hx => exact hidle x hx
        | inr hx => rw [List.mem_singleton.mp hx]; exact hop

theorem fEmptyN_run {t : Fifo α} (ht : t.toRegs = Regs.reset) (cs : List (Cycle α)) :
    (t.run cs).fEmptyN = true ↔ LatestWrites cs := by
  induction cs using List.reverseRecOn with
  | nil =>
      rw [Fifo.run, Run.run_nil, ht]
      simp [Regs.reset, LatestWrites]
  | append_singleton cs c ih =>
      rw [Fifo.run_concat, Fifo.toRegs_step, (firstShown_run ht cs).fEmptyN_next,
        latestWrites_concat, ← ih]
      obtain ⟨r, d⟩ := c
      obtain ⟨o, rfl⟩ := r.exists_op
      cases o <;> simp [FifoOp.fresh, FifoOp.req, Req.op]

/-- **Requests shown**: whatever the fill level, `F_EmptyN` is deasserted exactly
while the latest request was a write, and `F_FirstN` is asserted exactly once
any word was written since the latest reset or clear: no read takes it back. -/
theorem emptyN_firstN_iff (s : Fifo α) (i : Req) (held cs : List (Cycle α)) :
    let t := (s.assertReset i held).run cs
    (t.fEmptyN = true ↔ LatestWrites cs) ∧
    (t.fFirstN = false ↔ 1 ≤ writes (sinceClear cs)) :=
  have hreset := Fifo.toRegs_assertReset s i held
  ⟨fEmptyN_run hreset cs, fFirstN_run hreset cs⟩

/-! ## settings of the five outputs -/

/-- The settings that occur: those of reset until `F_FirstN` is asserted, and
then any that neither claims empty and full nor asserts all three of the
space-remaining flags. -/
def Flags.Occurs (f : Flags) : Prop :=
  if f.fFirstN then f = Flags.row 0
  else (f.fEmptyN || f.fFullN) = true ∧ (f.fSLastN || f.fLastN || f.fFullN) = true

instance : Decidable (Flags.Occurs f) := by unfold Flags.Occurs; infer_instance

/-- Not all three space-remaining flags are asserted. -/
def SpaceShown (r : Regs) : Prop := (r.fSLastN || r.fLastN || r.fFullN) = true

/-- A write meets at most one threshold of `fcounter`, and any read deasserts
`F_FullN`. -/
theorem SpaceShown.next {r : Regs} (h : SpaceShown r) (i : Req) : SpaceShown (r.next true i) := by
  obtain ⟨o, rfl⟩ := i.exists_op
  cases o with
  | clear | clearRead | clearWrite | clearReadWrite => rw [Regs.next_clear _ _ rfl]; rfl
  | idle => rw [Regs.next_idle]; exact h
  | write =>
      rw [Regs.next_write, SpaceShown]
      by_cases hone : r.fcounter = 1
      · rw [hone]
        rfl
      · have hne : (r.fcounter == 1) = false := by simpa using hone
        rw [hne]
        rfl
  | read => rw [Regs.next_read, SpaceShown, Bool.or_true]
  | readWrite => rw [Regs.next_readWrite, SpaceShown, Bool.or_true]

theorem occurs_run {t : Fifo α} (ht : t.toRegs = Regs.reset) (cs : List (Cycle α)) :
    (t.run cs).toFlags.Occurs := by
  have hspace : SpaceShown (t.run cs).toRegs :=
    Fifo.toRegs_run_induct (P := SpaceShown) rfl (fun _ i h => h.next i) ht cs
  unfold Flags.Occurs
  by_cases hf : (t.run cs).fFirstN
  · rw [if_pos hf]
    exact (unwritten_run ht cs hf).2
  · rw [if_neg hf]
    exact ⟨fullShown_run ht cs, hspace⟩

/-- The flags after the operations `os`. -/
def flagsAfter (r : Regs) (os : List FifoOp) : Flags :=
  (Run.run (Regs.next true) r (os.map FifoOp.req)).toFlags

theorem toFlags_run_ops (t : Fifo Word) (os : List FifoOp) :
    (t.run (os.map fun o => o.cycle 0)).toFlags = flagsAfter t.toRegs os := by
  rw [flagsAfter, Fifo.toRegs_run, List.map_map]
  rfl

/-- Operations out of reset. -/
def routes : List (List FifoOp) :=
  [[], [.write], [.write, .read], [.write, .write], [.write, .write, .write],
    [.write, .write, .write, .read], [.write, .write, .write, .write],
    [.write, .write, .write, .write, .read]]

/-- Operations on a full FIFO whose counter has come around to `1`. -/
def lateRoutes : List (List FifoOp) :=
  [[.write], [.write, .readWrite], [.readWrite, .write, .write],
    [.readWrite, .write, .write, .read]]

theorem routes_cover : ∀ e f sl l u : Bool, Flags.Occurs ⟨e, f, sl, l, u⟩ →
    Flags.Exclusive ⟨e, f, sl, l, u⟩ →
    ∃ os ∈ routes, flagsAfter Regs.reset os = ⟨e, f, sl, l, u⟩ := by
  decide

theorem readWrites_routes : ∀ os ∈ routes, readWrites (sinceClear (os.map (·.cycle 0))) = 0 := by
  decide

theorem lateRoutes_cover : ∀ e f sl l u : Bool, Flags.Occurs ⟨e, f, sl, l, u⟩ →
    ¬ Flags.Exclusive ⟨e, f, sl, l, u⟩ →
      ∃ os ∈ lateRoutes, flagsAfter ⟨⟨1, 0, 0⟩, Flags.row 4⟩ os = ⟨e, f, sl, l, u⟩ := by
  decide

/-- The pointers have no say in the flags. -/
theorem flagsAfter_congr {r r' : Regs} (hfc : r.fcounter = r'.fcounter)
    (hflags : r.toFlags = r'.toFlags) (os : List FifoOp) : flagsAfter r os = flagsAfter r' os := by
  induction os generalizing r r' with
  | nil => exact hflags
  | cons o os ih =>
      obtain ⟨⟨fc, rd, wr⟩, flags⟩ := r
      obtain ⟨⟨fc', rd', wr'⟩, flags'⟩ := r'
      simp only at hfc hflags
      subst hfc hflags
      apply ih
      · cases o <;> rfl
      · cases o <;> rfl

/-- **Status outputs**: the settings that occur in some reachable state are those
of `Flags.Occurs`; with fewer than `2 ^ 32 - 3` simultaneous requests since the
latest reset or clear they are those that also assert at most one of the
space-remaining flags. -/
theorem occurs_iff (f : Flags) :
    ((∃ s : Fifo Word, s.Reachable ∧ s.toFlags = f) ↔ f.Occurs) ∧
    ((∃ (s : Fifo Word) (i : Req) (held cs : List (Cycle Word)),
        readWrites (sinceClear cs) < 2 ^ 32 - 3 ∧ ((s.assertReset i held).run cs).toFlags = f) ↔
      f.Occurs ∧ f.Exclusive) := by
  have hreset := Fifo.toRegs_assertReset (Fifo.powerUp : Fifo Word) FifoOp.idle.req []
  constructor
  · constructor
    · rintro ⟨s, hs, rfl⟩
      obtain ⟨t, i, cs, rfl⟩ := hs.exists_run
      exact occurs_run (Fifo.toRegs_assertReset t i []) cs
    · intro hf
      by_cases hex : f.Exclusive
      · obtain ⟨os, -, hos⟩ := routes_cover _ _ _ _ _ hf hex
        refine ⟨_, Fifo.Reachable.powerUp.run (os.map fun o => o.cycle 0), ?_⟩
        rw [toFlags_run_ops]
        exact hos
      · obtain ⟨os, -, hos⟩ := lateRoutes_cover _ _ _ _ _ hf hex
        -- the counter comes around to `1` on a full FIFO
        have hreach : (Fifo.powerUp.assertReset FifoOp.idle.req [] : Fifo Word).Reachable :=
          Fifo.Reachable.powerUp.negedgeRstN FifoOp.idle.req
        obtain ⟨hfc, hflags⟩ := run_drifted (2 ^ 32 - 3) (Nat.le_refl _)
        have hone : BitVec.ofNat fwidth (4 + (2 ^ 32 - 3)) = 1 := rfl
        refine ⟨_, (hreach.run (drifted (2 ^ 32 - 3))).run (os.map fun o => o.cycle 0), ?_⟩
        rw [toFlags_run_ops]
        exact (flagsAfter_congr (hfc.trans hone) hflags os).trans hos
  · constructor
    · rintro ⟨s, i, held, cs, hb, rfl⟩
      have hreset := Fifo.toRegs_assertReset s i held
      exact ⟨occurs_run hreset cs, (drift_run hreset cs (Or.inr hb)).exclusive⟩
    · rintro ⟨hf, hex⟩
      obtain ⟨os, hmem, hos⟩ := routes_cover _ _ _ _ _ hf hex
      refine ⟨Fifo.powerUp, FifoOp.idle.req, [], os.map fun o => o.cycle 0, ?_, ?_⟩
      · rw [readWrites_routes os hmem]
        decide
      · rw [toFlags_run_ops, hreset]
        exact hos

end BasicFifo
