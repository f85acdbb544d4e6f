import BasicFifo.Model

/-!
# BasicFifo.Scoreboard

The checker `scb_fifo`: `check` runs the reference model on the observed
transaction, compares, and counts.

The checker is characterised against the history of the stream alone.  A
transaction passes exactly when it `Conforms` to what was accepted and popped
so far (`matched_iff`), so `errorCount` moves exactly at the transactions that
do not.
-/

namespace BasicFifo

open FourState BoundedQueue

/-! ## the checker -/

/-- The state of `scb_fifo`; the counters are `int unsigned`. -/
structure ScbFifo where
  model : FifoModel
  passCount : BitVec 32
  errorCount : BitVec 32
  checkCount : BitVec 32
  completed : Bool
deriving DecidableEq, Repr

namespace ScbFifo

/-- `new()`. -/
def new : ScbFifo := ⟨FifoModel.new, 0, 0, 0, false⟩

/-- `compare`, with `!==` on flags and data; the data counts only when the
model holds some. -/
def compare (actual expected : TransFifo) (dataValid : Bool) : Bool :=
  let result := if actual.flags != expected.flags then false else true
  if dataValid && actual.fData != expected.fData then false else result

/-- `check`. -/
def check (s : ScbFifo) (actual : TransFifo) : ScbFifo :=
  let (model, expected) := s.model.predict actual
  let matched := compare actual expected model.dataValid
  if matched then
    { s with model, checkCount := s.checkCount + 1, passCount := s.passCount + 1 }
  else
    { s with model, checkCount := s.checkCount + 1, errorCount := s.errorCount + 1 }

/-- The checker after a stream of transactions. -/
def checks (s : ScbFifo) (ts : List TransFifo) : ScbFifo := Run.run check s ts

/-- The verdict of `check` on a transaction. -/
def matched (s : ScbFifo) (actual : TransFifo) : Bool :=
  compare actual (s.model.predict actual).2 (s.model.predict actual).1.dataValid

/-! ### equations -/

theorem check_eq (s : ScbFifo) (t : TransFifo) :
    s.check t =
      { s with
        model := (s.model.predict t).1
        checkCount := s.checkCount + 1
        passCount := if s.matched t then s.passCount + 1 else s.passCount
        errorCount := if s.matched t then s.errorCount else s.errorCount + 1 } := by
  simp only [check, matched]
  split <;> simp [*]

@[simp] theorem model_check (s : ScbFifo) (t : TransFifo) :
    (s.check t).model = (s.model.predict t).1 := by rw [check_eq]

@[simp] theorem completed_check (s : ScbFifo) (t : TransFifo) :
    (s.check t).completed = s.completed := by rw [check_eq]

/-- The checker's model sees every transaction, whatever the verdicts. -/
theorem model_checks (s : ScbFifo) (ts : List TransFifo) :
    (s.checks ts).model = s.model.observe ts := by
  have h := Run.run_map check (fun m t => (FifoModel.predict m t).1)
    ScbFifo.model id (fun s t => (model_check s t).symm) s ts
  rw [List.map_id] at h
  exact h.symm

@[simp] theorem completed_checks (s : ScbFifo) (ts : List TransFifo) :
    (s.checks ts).completed = s.completed :=
  Run.run_induct check s (fun _ t => t.completed = s.completed) rfl
    (fun _ t a h => by rw [completed_check, h]) ts

theorem compare_iff (actual expected : TransFifo) (dataValid : Bool) :
    compare actual expected dataValid = true ↔
      actual.flags = expected.flags ∧ (dataValid = true → actual.fData = expected.fData) := by
  simp only [compare, bne_iff_ne, ne_eq, Bool.and_eq_true, Bool.if_false_left]
  cases dataValid <;> simp
  tauto

end ScbFifo

/-! ## what the checker accepts -/

/-- A transaction that shows what the history asks for: the table row of the
number of words outstanding, and the oldest of them if there is one. -/
def Conforms (l : Log Bits fdepth) (t : TransFifo) : Prop :=
  t.flags = (Flags.row l.outstanding).logic ∧
    ∀ h : l.popped < l.accepted.length, t.fData = .ofBits l.accepted[l.popped]

namespace ScbFifo

/-- The checker's verdict on the next transaction is conformance to the
history that includes it. -/
theorem matched_iff (ts : List TransFifo) (t : TransFifo) :
    (new.checks ts).matched t = true ↔ Conforms (history (ts ++ [t])) t := by
  have hm : (new.checks ts).model = FifoModel.new.observe ts := model_checks new ts
  have hq : ((FifoModel.new.observe ts).predict t).1.modelQ =
      (history (ts ++ [t])).queue.items := by
    rw [← FifoModel.modelQ_observe, FifoModel.observe_concat]
  rw [matched, hm, compare_iff, FifoModel.flags_predict, hq, Log.length_queue]
  apply and_congr_right
  intro _
  simp only [FifoModel.predict, FifoModel.predictAt] at hq ⊢
  rw [hq]
  generalize history (ts ++ [t]) = l
  have hhead := l.head?_queue
  constructor
  · intro h hlt
    rw [List.getElem?_eq_getElem hlt] at hhead
    have hpos : 0 < l.queue.items.length := by
      rw [Log.length_queue, Log.outstanding]; omega
    simpa [hpos, List.headD_eq_head?_getD, hhead] using h
  · intro h hpos
    have hlt : l.popped < l.accepted.length := by
      simp only [decide_eq_true_eq, Log.length_queue, Log.outstanding] at hpos; omega
    rw [List.getElem?_eq_getElem hlt] at hhead
    simpa [hpos, List.headD_eq_head?_getD, hhead] using h hlt

/-! ## counters -/

@[simp] theorem checks_concat (s : ScbFifo) (ts : List TransFifo) (t : TransFifo) :
    s.checks (ts ++ [t]) = (s.checks ts).check t := Run.run_concat ts t

/-- One check moves exactly one of the two verdict counters. -/
theorem errorCount_check_iff (s : ScbFifo) (t : TransFifo) :
    (s.check t).errorCount = s.errorCount + 1 ↔ ¬ s.matched t = true := by
  rw [check_eq]
  cases s.matched t <;> simp

/-- The counters count: verdicts of either kind add up to the checks made. -/
theorem counters_checks (ts : List TransFifo) :
    ∃ p e, p + e = ts.length ∧ (new.checks ts).passCount = BitVec.ofNat 32 p ∧
      (new.checks ts).errorCount = BitVec.ofNat 32 e ∧
      (new.checks ts).checkCount = BitVec.ofNat 32 ts.length := by
  induction ts using List.reverseRecOn with
  | nil => exact ⟨0, 0, rfl, rfl, rfl, rfl⟩
  | append_singleton ts t ih =>
      obtain ⟨p, e, hsum, hp, he, hc⟩ := ih
      rw [checks_concat, check_eq, hp, he, hc, List.length_append, List.length_singleton]
      cases (new.checks ts).matched t
      · exact ⟨p, e + 1, by omega, rfl, by simp [BitVec.ofNat_add], by simp [BitVec.ofNat_add]⟩
      · exact ⟨p + 1, e, by omega, by simp [BitVec.ofNat_add], rfl, by simp [BitVec.ofNat_add]⟩

/-- **Checker specification**: along any stream, `check` counts an error at
transaction `k` exactly when its flags are not the table row for the number of
words outstanding or a word is outstanding and its data is not the oldest one;
the model's queue is the accepted words without the popped ones, and the
counters add up. -/
theorem errorCount_iff_history (ts : List TransFifo) :
    (∀ k (hk : k < ts.length),
      let before := new.checks (ts.take k)
      let after := new.checks (ts.take (k + 1))
      let l := history (ts.take (k + 1))
      (after.errorCount = before.errorCount + 1 ↔
        ts[k].flags ≠ (Flags.row (l.accepted.length - l.popped)).logic ∨
          ∃ h : l.popped < l.accepted.length, ts[k].fData ≠ .ofBits l.accepted[l.popped]) ∧
      (after.errorCount = before.errorCount + 1 ∨ after.errorCount = before.errorCount)) ∧
    ∀ k ≤ ts.length,
      let s := new.checks (ts.take k)
      let l := history (ts.take k)
      s.model.modelQ = l.accepted.drop l.popped ∧ s.model.modelQ.length ≤ 4 ∧
      s.passCount + s.errorCount = s.checkCount ∧ s.checkCount = BitVec.ofNat 32 k ∧
      (k < 2 ^ 32 →
        s.passCount.toNat + s.errorCount.toNat = k ∧ s.checkCount.toNat = k) := by
  constructor
  · intro k hk before after l
    have hafter : after = before.check ts[k] := by
      simp only [after, before]
      rw [List.take_succ_eq_append_getElem hk, checks_concat]
    have hl : l = history (ts.take k ++ [ts[k]]) := by
      simp only [l]
      rw [List.take_succ_eq_append_getElem hk]
    rw [hafter]
    constructor
    · rw [errorCount_check_iff, matched_iff, ← hl, Conforms, not_and_or, not_forall]
      rfl
    · rw [check_eq]
      cases before.matched ts[k] <;> simp
  · intro k hk s l
    have hq : s.model.modelQ = l.queue.items := by
      simp only [s, model_checks]
      exact FifoModel.modelQ_observe _
    have hlen : (ts.take k).length = k := by simp [hk]
    obtain ⟨p, e, hsum, hp, he, hc⟩ := counters_checks (ts.take k)
    rw [hlen] at hsum hc
    refine ⟨hq, ?_, ?_, hc, ?_⟩
    · rw [hq]
      exact l.queue.length_le
    · simp only [s, hp, he, hc, ← BitVec.ofNat_add, hsum]
    · intro hlt
      simp only [s, hp, he, hc, BitVec.toNat_ofNat]
      omega

/-- Unknown data shown for a stored word is an error. -/
theorem errorCount_unknown_data :
    (new.checks [.capture true (FifoOp.write.cycle 5) ⟨Flags.row 1, HasX.x⟩]).errorCount =
      (new.checks []).errorCount + 1 :=
  ((errorCount_iff_history
    [.capture true (FifoOp.write.cycle 5) ⟨Flags.row 1, HasX.x⟩]).1 0 (by decide)).1.mpr
      (Or.inr ⟨by decide, by decide⟩)

end ScbFifo

end BasicFifo
