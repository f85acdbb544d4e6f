import BasicFifo.Verdict

/-!
# BasicFifo.Compose

How the verdicts of tests are related.

* `errorCount_le_of_finer` — telling more data words apart can only add errors,
  and renaming them changes nothing;
* `errorCount_join` — tests joined by a clear report no more errors than they do
  apart, and as many if their words are distinct.
-/

namespace BasicFifo

open FourState BoundedQueue Transition

/-! ## telling words apart -/

/-- A check that fails still fails when more words are told apart. -/
theorem checkFails_of_finer {τ : Type} {D D' : τ → Bits} (h : ∀ i j, D' i = D' j → D i = D j)
    (cs : List (Cycle τ)) {k : Nat} (hk : k < cs.length)
    (hfails : CheckFails (Fifo.powerUp.monitored (assign D cs)) k) :
    CheckFails (Fifo.powerUp.monitored (assign D' cs)) k := by
  rw [checkFails_tokens _ _ _ hk] at hfails ⊢
  apply hfails.imp_right
  rintro ⟨j, hj, hne⟩
  refine ⟨j, hj, ?_⟩
  cases hw : (Fifo.powerUp.run ((cs.take (k + 1)).map (Cycle.map some))).fData with
  | none => exact x_ne_ofBits (D' j)
  | some i =>
      intro heq
      rw [hw] at hne
      exact hne (congrArg LogicVec.ofBits (h i j (LogicVec.ofBits_inj.mp heq)))

theorem failures_le_of_finer {τ : Type} {D D' : τ → Bits} (h : ∀ i j, D' i = D' j → D i = D j)
    (cs : List (Cycle τ)) :
    failures (Fifo.powerUp.monitored (assign D cs)) ≤
      failures (Fifo.powerUp.monitored (assign D' cs)) := by
  have hlen : ∀ D : τ → Bits, (Fifo.powerUp.monitored (assign D cs)).length = cs.length := by
    simp [assign]
  rw [failures, failures, hlen, hlen]
  apply List.countP_mono_left
  intro k hk hfails
  exact decide_eq_true (checkFails_of_finer h cs (List.mem_range.mp hk) (of_decide_eq_true hfails))

/-- **Data words**: two tests with the same operations both complete, and one that
tells more of its data words apart reports at least as many errors, whatever the
order of steps in either. -/
theorem errorCount_le_of_finer {n : Nat} (hn : n < 2 ^ 31) (calls calls' : Fin n → SendCall)
    (hops : ∀ j, (calls j).op = (calls' j).op)
    (hdata : ∀ i j, (calls' i).tx.dataIn = (calls' j).tx.dataIn →
      (calls i).tx.dataIn = (calls j).tx.dataIn) :
    Inevitable EnvFifo.Step (fun s => s.scb.completed = true)
      (EnvFifo.build (.idle Fifo.powerUp) Fifo.powerUp (List.ofFn calls)) ∧
    Inevitable EnvFifo.Step (fun s => s.scb.completed = true)
      (EnvFifo.build (.idle Fifo.powerUp) Fifo.powerUp (List.ofFn calls')) ∧
    ∀ tr tr' s s',
      Exec EnvFifo.Step (EnvFifo.build (.idle Fifo.powerUp) Fifo.powerUp (List.ofFn calls)) tr s →
      Exec EnvFifo.Step
        (EnvFifo.build (.idle Fifo.powerUp) Fifo.powerUp (List.ofFn calls')) tr' s' →
      s.scb.completed = true → s'.scb.completed = true →
      s.scb.errorCount.toNat ≤ s'.scb.errorCount.toNat := by
  refine ⟨inevitable_completed ⟨.idle Fifo.powerUp, Fifo.powerUp, List.ofFn calls⟩,
    inevitable_completed ⟨.idle Fifo.powerUp, Fifo.powerUp, List.ofFn calls'⟩, ?_⟩
  intro tr tr' s s' h h' hc hc'
  have hshown : shown (List.ofFn calls) = Fifo.powerUp.monitored
      (assign (fun j => (calls j).tx.dataIn) (List.ofFn fun j => ⟨(calls j).op.req, j⟩)) := by
    rw [shown, assign, List.map_map, List.map_ofFn, List.map_ofFn]
    rfl
  have hshown' : shown (List.ofFn calls') = Fifo.powerUp.monitored
      (assign (fun j => (calls' j).tx.dataIn) (List.ofFn fun j => ⟨(calls j).op.req, j⟩)) := by
    simp only [hops]
    rw [shown, assign, List.map_map, List.map_ofFn, List.map_ofFn]
    rfl
  rw [errorCount_of_powerUp (by simpa using hn) h hc,
    errorCount_of_powerUp (by simpa using hn) h' hc', hshown, hshown']
  exact failures_le_of_finer hdata _

/-- Two writes of one word and of two words. -/
theorem errorCount_le_of_finer_write :
    ∃ tr tr' s s',
      Exec EnvFifo.Step (EnvFifo.build (.idle Fifo.powerUp) Fifo.powerUp
        (List.ofFn ![⟨.write, .manual, 5, 0⟩, ⟨.write, .manual, 5, 0⟩])) tr s ∧
      Exec EnvFifo.Step (EnvFifo.build (.idle Fifo.powerUp) Fifo.powerUp
        (List.ofFn ![⟨.write, .manual, 5, 0⟩, ⟨.write, .manual, 6, 0⟩])) tr' s' ∧
      s.scb.errorCount.toNat ≤ s'.scb.errorCount.toNat := by
  obtain ⟨hcomplete, hcomplete', hle⟩ := errorCount_le_of_finer (n := 2) (by decide)
    ![⟨.write, .manual, 5, 0⟩, ⟨.write, .manual, 5, 0⟩]
    ![⟨.write, .manual, 5, 0⟩, ⟨.write, .manual, 6, 0⟩] (by decide) (by decide)
  obtain ⟨tr, s, h, hc⟩ := hcomplete.exists_exec .refl
  obtain ⟨tr', s', h', hc'⟩ := hcomplete'.exists_exec .refl
  exact ⟨tr, tr', s, s', h, h', hle tr tr' s s' h h' hc hc'⟩

/-! ## joining tests by a clear -/

section
variable {τ : Type}

/-- A cell not written since the start is as it was. -/
theorem fifo_run_of_not_written (t : Fifo α) (cs : List (Cycle α)) (i : Fin fdepth)
    (h : ¬ WrittenSince t cs (BitVec.ofNat fwidth i)) :
    (t.run cs).memblk.fifo i = t.memblk.fifo i := by
  induction cs using List.reverseRecOn with
  | nil => rfl
  | append_singleton cs c ih =>
      rw [Fifo.run_concat, Fifo.fifo_step, if_neg]
      · exact ih fun hw => h (hw.concat c)
      · rintro ⟨hin, hptr⟩
        refine h ⟨cs.length, by simp, by simpa using hin, ?_⟩
        rw [List.take_left, ← hptr, BitVec.ofNat_toNat, BitVec.setWidth_eq]

/-- Which cells are written depends on the registers alone. -/
theorem writtenSince_of_toRegs_eq {t t' : Fifo α} (h : t.toRegs = t'.toRegs) {cs : List (Cycle α)}
    {a : BitVec fwidth} (hw : WrittenSince t cs a) : WrittenSince t' cs a := by
  obtain ⟨j, hj, hin, hptr⟩ := hw
  refine ⟨j, hj, hin, ?_⟩
  rw [← (run_eq_of_toRegs_eq h (cs.take j)).1]
  exact hptr

/-- The model forgets what was before a clear. -/
theorem tokenQueue_join (cs cs' : List (Cycle τ)) (c : Cycle τ) (hc : c.fClrN = false) :
    tokenQueue (cs ++ [c] ++ cs') = tokenQueue cs' := by
  induction cs' using List.reverseRecOn with
  | nil =>
      rw [List.append_nil, tokenQueue_concat]
      obtain ⟨r, d⟩ := c
      obtain ⟨o, rfl⟩ := r.exists_op
      cases o with
      | clear | clearRead | clearWrite | clearReadWrite => rfl
      | idle | write | read | readWrite => contradiction
  | append_singleton cs' d ih =>
      rw [← List.append_assoc, tokenQueue_concat, tokenQueue_concat, ih]

/-- The model holds only what was put in. -/
theorem mem_of_mem_tokenQueue (cs : List (Cycle τ)) (d : τ) (hd : d ∈ (tokenQueue cs).items) :
    d ∈ cs.map (·.dataIn) := by
  induction cs using List.reverseRecOn with
  | nil => contradiction
  | append_singleton cs c ih =>
      rw [tokenQueue_concat] at hd
      rw [List.map_append, List.mem_append, List.map_singleton, List.mem_singleton]
      apply (Queue.mem_step hd).imp ih
      cases c.op <;> simp [FifoOp.queueOp, eq_comm]

/-- The design after a clear. -/
theorem run_join (cs cs' : List (Cycle τ)) (c : Cycle τ) :
    Fifo.powerUp.run ((cs ++ [c] ++ cs').map (Cycle.map some)) =
      (Fifo.powerUp.run ((cs ++ [c]).map (Cycle.map some))).run (cs'.map (Cycle.map some)) := by
  rw [List.map_append, Fifo.run, Run.run, List.foldl_append]
  rfl

section
variable (cs cs' : List (Cycle τ)) {c : Cycle τ} (hc : c.fClrN = false)
include hc

/-- A cycle after a clear has the registers it would have without what was
before, and the cells written since. -/
theorem run_join_eq :
    let s := Fifo.powerUp.run ((cs ++ [c] ++ cs').map (Cycle.map some))
    let s' := Fifo.powerUp.run (cs'.map (Cycle.map some))
    s.toRegs = s'.toRegs ∧ ∀ i, s.memblk.fifo i = s'.memblk.fifo i ∨
      s'.memblk.fifo i = none ∧ ∀ d, s.memblk.fifo i = some d → d ∈ (cs ++ [c]).map (·.dataIn) := by
  intro s s'
  have hclear : (Fifo.powerUp.run ((cs ++ [c]).map (Cycle.map some))).toRegs =
      (Fifo.powerUp : Fifo (Option τ)).toRegs := by
    rw [List.map_append, List.map_singleton, Fifo.run_concat]
    exact Fifo.toRegs_step_clear _ _ hc
  have hs : s = (Fifo.powerUp.run ((cs ++ [c]).map (Cycle.map some))).run
      (cs'.map (Cycle.map some)) := run_join cs cs' c
  obtain ⟨hregs, hcells⟩ := run_eq_of_toRegs_eq hclear (cs'.map (Cycle.map some))
  rw [← hs] at hregs hcells
  refine ⟨hregs, ?_⟩
  intro i
  by_cases hw : WrittenSince (Fifo.powerUp.run ((cs ++ [c]).map (Cycle.map some)))
      (cs'.map (Cycle.map some)) (BitVec.ofNat fwidth i)
  · exact Or.inl (hcells i hw)
  · right
    constructor
    · have hw' := mt (writtenSince_of_toRegs_eq hclear.symm) hw
      exact fifo_run_of_not_written _ _ _ hw'
    · intro d hd
      rw [hs, fifo_run_of_not_written _ _ _ hw] at hd
      exact mem_of_fifo_run _ i d hd

/-- What agrees without the cycles before the clear agrees with them. -/
theorem agrees_join (h : Agrees cs' (Fifo.powerUp.run (cs'.map (Cycle.map some)))) :
    Agrees (cs ++ [c] ++ cs') (Fifo.powerUp.run ((cs ++ [c] ++ cs').map (Cycle.map some))) := by
  obtain ⟨hflags, hdata⟩ := h
  obtain ⟨hregs, hcells⟩ := run_join_eq cs cs' hc
  generalize Fifo.powerUp.run ((cs ++ [c] ++ cs').map (Cycle.map some)) = s at hregs hcells ⊢
  generalize Fifo.powerUp.run (cs'.map (Cycle.map some)) = s' at hflags hdata hregs hcells
  rw [Agrees, tokenQueue_join _ _ _ hc, hregs]
  refine ⟨hflags, ?_⟩
  intro d hd
  have hshown := hdata d hd
  rw [Fifo.fData] at hshown ⊢
  rw [hregs]
  by_cases hlt : s'.rdPtr.toNat < fdepth
  · rw [FifoMemBlk.dataOut_of_lt _ hlt] at hshown ⊢
    cases hcells ⟨s'.rdPtr.toNat, hlt⟩ with
    | inl heq => rw [heq, hshown]
    | inr hnone =>
        rw [hnone.1] at hshown
        contradiction
  · rw [FifoMemBlk.dataOut_of_ge _ (Nat.le_of_not_lt hlt)] at hshown
    contradiction

/-- The other way round too, if the words before the clear are other words. -/
theorem agrees_of_join (hnew : ∀ d ∈ cs'.map (·.dataIn), d ∉ (cs ++ [c]).map (·.dataIn))
    (h : Agrees (cs ++ [c] ++ cs')
      (Fifo.powerUp.run ((cs ++ [c] ++ cs').map (Cycle.map some)))) :
    Agrees cs' (Fifo.powerUp.run (cs'.map (Cycle.map some))) := by
  obtain ⟨hregs, hcells⟩ := run_join_eq cs cs' hc
  generalize Fifo.powerUp.run ((cs ++ [c] ++ cs').map (Cycle.map some)) = s at hregs hcells h
  generalize Fifo.powerUp.run (cs'.map (Cycle.map some)) = s' at hregs hcells ⊢
  rw [Agrees, tokenQueue_join _ _ _ hc, hregs] at h
  obtain ⟨hflags, hdata⟩ := h
  refine ⟨hflags, ?_⟩
  intro d hd
  have hshown := hdata d hd
  rw [Fifo.fData, hregs] at hshown
  rw [Fifo.fData]
  by_cases hlt : s'.rdPtr.toNat < fdepth
  · rw [FifoMemBlk.dataOut_of_lt _ hlt] at hshown ⊢
    cases hcells ⟨s'.rdPtr.toNat, hlt⟩ with
    | inl heq => rw [← heq, hshown]
    | inr hnone =>
        have hmem := mem_of_mem_tokenQueue cs' d (List.mem_of_mem_head? hd)
        exact absurd (hnone.2 d hshown) (hnew d hmem)
  · rw [FifoMemBlk.dataOut_of_ge _ (Nat.le_of_not_lt hlt)] at hshown
    contradiction

end

end

/-! ### counting -/

open Classical in
/-- One more cycle, one more check. -/
theorem failures_monitored_concat (cs : List (Cycle Bits)) (c : Cycle Bits) :
    failures (Fifo.powerUp.monitored ((cs ++ [c]).map Cycle.known)) =
      failures (Fifo.powerUp.monitored (cs.map Cycle.known)) +
        if Agrees (cs ++ [c]) (Fifo.powerUp.run ((cs ++ [c]).map (Cycle.map some))) then 0
        else 1 := by
  have hlast := checkFails_iff_agrees (cs ++ [c]) cs.length (by simp)
  have hlen : cs.length = (Fifo.powerUp.monitored (cs.map Cycle.known)).length := by simp
  rw [List.take_of_length_le (by simp), List.map_append, List.map_singleton,
    Fifo.monitored_concat, hlen, checkFails_concat_last, not_iff_not] at hlast
  rw [List.map_append, List.map_singleton, Fifo.monitored_concat, failures_concat]
  simp only [hlast]

/-- Joined by a clear, two runs fail no more often than apart, and as often if
the words of the second are other words. -/
theorem failures_join (cs cs' : List (Cycle Bits)) (c : Cycle Bits) (hc : c.fClrN = false) :
    failures (Fifo.powerUp.monitored ((cs ++ [c] ++ cs').map Cycle.known)) ≤
      failures (Fifo.powerUp.monitored (cs.map Cycle.known)) +
        failures (Fifo.powerUp.monitored (cs'.map Cycle.known)) ∧
    ((∀ d ∈ cs'.map (·.dataIn), d ∉ (cs ++ [c]).map (·.dataIn)) →
      failures (Fifo.powerUp.monitored ((cs ++ [c] ++ cs').map Cycle.known)) =
        failures (Fifo.powerUp.monitored (cs.map Cycle.known)) +
          failures (Fifo.powerUp.monitored (cs'.map Cycle.known))) := by
  induction cs' using List.reverseRecOn with
  | nil =>
      have hagrees : Agrees (cs ++ [c]) (Fifo.powerUp.run ((cs ++ [c]).map (Cycle.map some))) := by
        rw [List.map_append, List.map_singleton, Fifo.run_concat]
        exact (sound_clear cs _ c hc).agrees
      rw [List.append_nil, failures_monitored_concat, if_pos hagrees]
      exact ⟨Nat.le_refl _, fun _ => rfl⟩
  | append_singleton cs' d ih =>
      obtain ⟨hle, heq⟩ := ih
      have hjoin := agrees_join cs (cs' ++ [d]) hc
      have hapart := agrees_of_join cs (cs' ++ [d]) hc
      rw [← List.append_assoc] at hjoin hapart ⊢
      rw [failures_monitored_concat, failures_monitored_concat]
      constructor
      · by_cases ha : Agrees (cs' ++ [d]) (Fifo.powerUp.run ((cs' ++ [d]).map (Cycle.map some)))
        · rw [if_pos ha, if_pos (hjoin ha)]
          omega
        · rw [if_neg ha]
          split <;> omega
      · intro hnew
        rw [heq fun d' hd => hnew d' (by simp at hd ⊢; exact Or.inl hd)]
        by_cases ha : Agrees (cs' ++ [d]) (Fifo.powerUp.run ((cs' ++ [d]).map (Cycle.map some)))
        · rw [if_pos ha, if_pos (hjoin ha)]
          omega
        · rw [if_neg ha, if_neg (mt (hapart hnew) ha)]
          omega

/-- **Joined tests**: two tests complete, and so do their calls with a clear between
them, which report at most as many errors as the two tests do from power-up, and
exactly as many if all data words are distinct, whatever the order of steps in
any of the three. -/
theorem errorCount_join (calls calls' : List SendCall) (call : SendCall)
    (hclear : call.op.req.fClrN = false)
    (hn : (calls ++ [call] ++ calls').length < 2 ^ 31) :
    (∀ cs ∈ [calls ++ [call] ++ calls', calls, calls'],
      Inevitable EnvFifo.Step (fun s => s.scb.completed = true)
        (EnvFifo.build (.idle Fifo.powerUp) Fifo.powerUp cs)) ∧
    ∀ tr tr₁ tr₂ s s₁ s₂,
      Exec EnvFifo.Step (EnvFifo.build (.idle Fifo.powerUp) Fifo.powerUp
        (calls ++ [call] ++ calls')) tr s →
      Exec EnvFifo.Step (EnvFifo.build (.idle Fifo.powerUp) Fifo.powerUp calls) tr₁ s₁ →
      Exec EnvFifo.Step (EnvFifo.build (.idle Fifo.powerUp) Fifo.powerUp calls') tr₂ s₂ →
      s.scb.completed = true → s₁.scb.completed = true → s₂.scb.completed = true →
      s.scb.errorCount.toNat ≤ s₁.scb.errorCount.toNat + s₂.scb.errorCount.toNat ∧
      (((calls ++ [call] ++ calls').map fun call => call.tx.dataIn).Nodup →
        s.scb.errorCount.toNat = s₁.scb.errorCount.toNat + s₂.scb.errorCount.toNat) := by
  refine ⟨fun cs _ => inevitable_completed ⟨.idle Fifo.powerUp, Fifo.powerUp, cs⟩, ?_⟩
  intro tr tr₁ tr₂ s s₁ s₂ h h₁ h₂ hc hc₁ hc₂
  have hshown : shown (calls ++ [call] ++ calls') = Fifo.powerUp.monitored
      ((calls.map SendCall.cycle ++ [call.cycle] ++ calls'.map SendCall.cycle).map
        Cycle.known) := by
    simp [shown]
  have hlen : calls.length < 2 ^ 31 ∧ calls'.length < 2 ^ 31 := by
    simp only [List.length_append] at hn
    omega
  obtain ⟨hle, heq⟩ := failures_join (calls.map SendCall.cycle) (calls'.map SendCall.cycle)
    call.cycle hclear
  rw [errorCount_of_powerUp hn h hc, errorCount_of_powerUp hlen.1 h₁ hc₁,
    errorCount_of_powerUp hlen.2 h₂ hc₂, hshown]
  refine ⟨hle, ?_⟩
  intro hnodup
  apply heq
  intro d hd hd'
  rw [List.map_append] at hnodup
  apply (List.nodup_append.mp hnodup).2.2 d _ d _ rfl
  · simpa [SendCall.cycle] using hd'
  · simpa [SendCall.cycle] using hd

/-- A write and a read on either side of a clear. -/
theorem errorCount_join_write_read :
    ∃ tr tr₁ tr₂ s s₁ s₂,
      Exec EnvFifo.Step (EnvFifo.build (.idle Fifo.powerUp) Fifo.powerUp
        ([⟨.write, .manual, 5, 0⟩, ⟨.read, .manual, 1, 0⟩] ++ [⟨.clear, .manual, 2, 0⟩] ++
          [⟨.write, .manual, 6, 0⟩, ⟨.read, .manual, 3, 0⟩])) tr s ∧
      Exec EnvFifo.Step (EnvFifo.build (.idle Fifo.powerUp) Fifo.powerUp
        [⟨.write, .manual, 5, 0⟩, ⟨.read, .manual, 1, 0⟩]) tr₁ s₁ ∧
      Exec EnvFifo.Step (EnvFifo.build (.idle Fifo.powerUp) Fifo.powerUp
        [⟨.write, .manual, 6, 0⟩, ⟨.read, .manual, 3, 0⟩]) tr₂ s₂ ∧
      s.scb.errorCount.toNat = s₁.scb.errorCount.toNat + s₂.scb.errorCount.toNat := by
  obtain ⟨hcomplete, hcount⟩ := errorCount_join
    [⟨.write, .manual, 5, 0⟩, ⟨.read, .manual, 1, 0⟩]
    [⟨.write, .manual, 6, 0⟩, ⟨.read, .manual, 3, 0⟩] ⟨.clear, .manual, 2, 0⟩ rfl (by decide)
  obtain ⟨tr, s, h, hc⟩ := (hcomplete _ (.head _)).exists_exec .refl
  obtain ⟨tr₁, s₁, h₁, hc₁⟩ := (hcomplete _ (.tail _ (.head _))).exists_exec .refl
  obtain ⟨tr₂, s₂, h₂, hc₂⟩ := (hcomplete _ (.tail _ (.tail _ (.head _)))).exists_exec .refl
  exact ⟨tr, tr₁, tr₂, s, s₁, s₂, h, h₁, h₂,
    (hcount tr tr₁ tr₂ s s₁ s₂ h h₁ h₂ hc hc₁ hc₂).2 (by decide)⟩

end BasicFifo
