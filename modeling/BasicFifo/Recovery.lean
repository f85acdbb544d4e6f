import BasicFifo.Verdict

/-!
# BasicFifo.Recovery

What a test finds that goes beyond those of the testbench: `Rst_N` low in the
middle of it, and more reads than the memory has cells.

* `errorCount_resets_iff` — a reset sampled with a transaction counts as a clear,
  for the design and for the verdict;
* `env_errorCount_ge` — from the fourth read request since a clear on, no data
  can hide that the stored words are lost.
-/

namespace BasicFifo

open FourState BoundedQueue Transition

/-! ## resets -/

/-- **Reset recovery**: with `Rst_N` low at any of its edges, a run leaves the
registers as if each of them were a clear; if all its operations then pass it is
reported without an error, whatever the data, and if its words are distinct only
then. -/
theorem errorCount_resets_iff (es : List (Edge Bits)) (hlen : es.length < 2 ^ 32) :
    let ts := Fifo.powerUp.watched (es.map Edge.known)
    (∀ s : Fifo Word, (s.runEdges (es.map Edge.known)).toRegs =
      (s.run ((es.map Edge.cleared).map Cycle.known)).toRegs) ∧
    (Passing (es.map Edge.cleared) → (ScbFifo.new.checks ts).errorCount = 0) ∧
    ((es.map (·.dataIn)).Nodup →
      ((ScbFifo.new.checks ts).errorCount = 0 ↔ Passing (es.map Edge.cleared))) := by
  intro ts
  have hzero : (ScbFifo.new.checks ts).errorCount = 0 ↔ failures ts = 0 := by
    apply errorCount_eq_zero_iff
    rwa [Fifo.length_watched, List.length_map]
  rw [hzero]
  refine ⟨?_, failures_watched es hlen⟩
  intro s
  rw [Fifo.toRegs_runEdges, List.map_map, List.map_map]
  rfl

/-- A reset over a second write: the write after it is the first one stored. -/
theorem errorCount_resets_write :
    (ScbFifo.new.checks (Fifo.powerUp.watched
      ([⟨⟨FifoOp.write.req, 5⟩, true⟩, ⟨⟨FifoOp.write.req, 6⟩, false⟩,
        ⟨⟨FifoOp.write.req, 7⟩, true⟩].map Edge.known))).errorCount = 0 :=
  (errorCount_resets_iff [⟨⟨FifoOp.write.req, 5⟩, true⟩, ⟨⟨FifoOp.write.req, 6⟩, false⟩,
    ⟨⟨FifoOp.write.req, 7⟩, true⟩] (by decide)).2.1 (by decide)

/-! ## reads beyond the memory -/

/-- Through clears too, the read pointer is the number of reads since the latest
one. -/
theorem rdPtr_run {t : Fifo α} (ht : t.toRegs = Regs.reset) (cs : List (Cycle α)) :
    (t.run cs).rdPtr = BitVec.ofNat fwidth (reads (sinceClear cs)) := by
  refine Run.run_induct Fifo.step t
    (fun pre u => u.rdPtr = BitVec.ofNat fwidth (reads (sinceClear pre))) (by rw [ht]; rfl) ?_ cs
  intro pre u c h
  rw [reads_sinceClear_concat, Fifo.toRegs_step]
  by_cases hclr : c.fClrN = true
  · rw [Regs.rdPtr_next _ hclr, if_pos hclr, h]
    cases c.fOutN <;> simp [BitVec.ofNat_add]
  · rw [Regs.next_clear _ _ (by simpa using hclr), if_neg hclr]
    rfl

/-- Words are stored, but at least four reads were asked for since the clear. -/
def Spent (cs : List (Cycle τ)) : Prop := 0 < stored cs ∧ fdepth ≤ reads (sinceClear cs)

instance (cs : List (Cycle τ)) : Decidable (Spent cs) := by
  unfold Spent
  infer_instance

/-- What is shown then is no data at all. -/
theorem Spent.not_agrees {τ : Type} {cs : List (Cycle τ)} (h : Spent cs)
    (hlen : cs.length < 2 ^ 32) :
    ¬ Agrees cs (Fifo.powerUp.run (cs.map (Cycle.map some))) := by
  rintro ⟨-, hdata⟩
  obtain ⟨hpos, hreads⟩ := h
  have hle := reads_sinceClear_le cs
  have hptr := rdPtr_run (t := (Fifo.powerUp : Fifo (Option τ))) rfl (cs.map (Cycle.map some))
  rw [reads_sinceClear_map] at hptr
  have hbeyond : fdepth ≤ (Fifo.powerUp.run (cs.map (Cycle.map some))).rdPtr.toNat := by
    rw [hptr, toNat_ptr (by omega)]
    exact hreads
  obtain ⟨d, hd⟩ : ∃ d, (tokenQueue cs).items.head? = some d := by
    rw [← Option.isSome_iff_exists, List.isSome_head?, List.ne_nil_iff_length_pos,
      length_tokenQueue]
    exact hpos
  have hshown := hdata d hd
  rw [Fifo.fData, FifoMemBlk.dataOut_of_ge _ hbeyond] at hshown
  contradiction

/-- **Lost for good**: whatever its data and the order of steps, a test completes
and reports an error for every call after which a word should be stored although
four reads or more, ignored ones included, were asked for since the latest
clear. -/
theorem env_errorCount_ge (calls : List SendCall) (hn : calls.length < 2 ^ 31) :
    Inevitable EnvFifo.Step (fun s => s.scb.completed = true)
      (EnvFifo.build (.idle Fifo.powerUp) Fifo.powerUp calls) ∧
    ∀ tr s, Exec EnvFifo.Step (EnvFifo.build (.idle Fifo.powerUp) Fifo.powerUp calls) tr s →
      s.scb.completed = true →
      (List.range calls.length).countP
        (fun k => Spent ((calls.map SendCall.cycle).take (k + 1))) ≤ s.scb.errorCount.toNat := by
  refine ⟨inevitable_completed ⟨.idle Fifo.powerUp, Fifo.powerUp, calls⟩, ?_⟩
  intro tr s h hc
  rw [errorCount_of_powerUp hn h hc, failures, length_shown]
  apply List.countP_mono_left
  intro k hk hspent
  have hk' : k < (calls.map SendCall.cycle).length := by simpa using hk
  have hfails := (checkFails_iff_agrees (calls.map SendCall.cycle) k hk').mpr
    (Spent.not_agrees (of_decide_eq_true hspent) (by rw [List.length_take]; simp at hk'; omega))
  exact decide_eq_true hfails

/-- Four reads of an empty FIFO, and the next word written is lost. -/
theorem env_errorCount_ge_reads :
    ∃ tr s, Exec EnvFifo.Step (EnvFifo.build (.idle Fifo.powerUp) Fifo.powerUp
        (List.replicate 4 ⟨.read, .manual, 0, 0⟩ ++ [⟨.write, .manual, 5, 0⟩])) tr s ∧
      1 ≤ s.scb.errorCount.toNat := by
  obtain ⟨hcomplete, hcount⟩ := env_errorCount_ge
    (List.replicate 4 ⟨.read, .manual, 0, 0⟩ ++ [⟨.write, .manual, 5, 0⟩]) (by decide)
  obtain ⟨tr, s, h, hc⟩ := hcomplete.exists_exec .refl
  exact ⟨tr, s, h, Nat.le_trans (by decide) (hcount tr s h hc)⟩

end BasicFifo
