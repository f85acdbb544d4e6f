import BasicFifo.Scoreboard
import BasicFifo.Datapath
import Mathlib.Data.Fin.VecNotation

/-!
# BasicFifo.Stimulus

Which data words a stimulus needs.

Neither the design nor the model looks at the words it moves, so both can be
run on *tokens* that say where a word came from.  A run on words is the run on
tokens with the words put in (`run_tokens`, `queue_tokens`), and a check is
decided by the tokens up to coincidence: equal words under different tokens can
only hide a failure, never cause one.
-/

namespace BasicFifo

open FourState BoundedQueue

/-! ## conformance in terms of the queue -/

/-- `check` counts an error at transaction `k` of a stream. -/
def CheckFails (ts : List TransFifo) (k : Nat) : Prop :=
  (ScbFifo.new.checks (ts.take (k + 1))).errorCount =
    (ScbFifo.new.checks (ts.take k)).errorCount + 1

instance : Decidable (CheckFails ts k) := by unfold CheckFails; infer_instance

theorem conforms_iff_head (l : Log Bits fdepth) (t : TransFifo) :
    Conforms l t ↔ t.flags = (Flags.row l.queue.items.length).logic ∧
      ∀ d, l.queue.items.head? = some d → t.fData = .ofBits d := by
  rw [Conforms, Log.length_queue, Log.head?_queue]
  apply and_congr_right
  intro _
  constructor
  · intro h d hd
    obtain ⟨hlt, hget⟩ := List.getElem?_eq_some_iff.mp hd
    rw [← hget]
    exact h hlt
  · intro h hlt
    exact h _ (List.getElem?_eq_getElem hlt)

/-! ## tokens -/

section
variable {τ : Type} (D : τ → Bits)

/-- The word a cell shows that holds the token of a write, or was never written. -/
def tokenWord : Option τ → Word
  | none => HasX.x
  | some j => .ofBits (D j)

/-- The cycles with their words put in. -/
def assign (cs : List (Cycle τ)) : List (Cycle Word) :=
  cs.map (Cycle.map fun j => .ofBits (D j))

/-- The design on words is the design on tokens. -/
theorem run_tokens (cs : List (Cycle τ)) :
    Fifo.powerUp.run (assign D cs) =
      (Fifo.powerUp.run (cs.map (Cycle.map some))).map (tokenWord D) := by
  rw [← Fifo.map_run, List.map_map]
  rfl

/-- The operations of the monitored transactions are those of the cycles. -/
theorem map_queueOp_monitored (s : Fifo Word) (cs : List (Cycle Word)) :
    (s.monitored cs).map TransFifo.queueOp =
      cs.map fun c => c.op.queueOp c.dataIn.toBits := by
  induction cs generalizing s with
  | nil => rfl
  | cons c cs ih => rw [Fifo.monitored, List.map_cons, List.map_cons, ih]; rfl

theorem FifoOp.map_queueOp (f : β → γ) (o : FifoOp) (d : β) :
    (o.queueOp d).map f = o.queueOp (f d) := by
  cases o <;> rfl

/-- The queue of tokens over the cycles `cs`. -/
def tokenQueue (cs : List (Cycle τ)) : Queue τ fdepth :=
  Run.run Queue.step Queue.empty (cs.map fun c => c.op.queueOp c.dataIn)

/-- The model on words is the model on tokens. -/
theorem queue_tokens (s : Fifo Word) (cs : List (Cycle τ)) :
    (history (s.monitored (assign D cs))).queue = (tokenQueue cs).map D := by
  rw [history, Log.queue_history, map_queueOp_monitored, assign, tokenQueue,
    ← Run.run_map Queue.step Queue.step (Queue.map D) (Op.map D) (Queue.map_step D)]
  congr 1
  simp only [List.map_map]
  congr 1
  funext c
  simp [FifoOp.map_queueOp, Cycle.map]

/-! ## checks in terms of tokens -/

/-- The check of the last cycle fails on its flags, which no word can change, or
on a token whose word is not the one expected. -/
theorem not_conforms_tokens (cs : List (Cycle τ)) (t : TransFifo)
    (hflags : t.flags = (Fifo.powerUp.run (cs.map (Cycle.map some))).toFlags.logic)
    (hdata : t.fData = tokenWord D (Fifo.powerUp.run (cs.map (Cycle.map some))).fData) :
    ¬ Conforms (history (Fifo.powerUp.monitored (assign D cs))) t ↔
      (Fifo.powerUp.run (cs.map (Cycle.map some))).toFlags ≠
          Flags.row (tokenQueue cs).items.length ∨
        ∃ j, (tokenQueue cs).items.head? = some j ∧
          tokenWord D (Fifo.powerUp.run (cs.map (Cycle.map some))).fData ≠ .ofBits (D j) := by
  rw [conforms_iff_head, queue_tokens, not_and_or, hflags, hdata]
  have hlen : ((tokenQueue cs).map D).items.length = (tokenQueue cs).items.length :=
    List.length_map D
  have hhead : ((tokenQueue cs).map D).items.head? = (tokenQueue cs).items.head?.map D := by
    simp [Queue.map]
  rw [hlen, hhead, Flags.logic_inj]
  apply or_congr Iff.rfl
  constructor
  · intro h
    simp only [not_forall] at h
    obtain ⟨d, hd, hne⟩ := h
    obtain ⟨j, hj, rfl⟩ := Option.map_eq_some_iff.mp hd
    exact ⟨j, hj, hne⟩
  · rintro ⟨j, hj, hne⟩ h
    exact hne (h (D j) (by rw [hj]; rfl))

/-- The verdict of cycle `k` in terms of tokens. -/
theorem checkFails_tokens (cs : List (Cycle τ)) (k : Nat) (hk : k < cs.length) :
    CheckFails (Fifo.powerUp.monitored (assign D cs)) k ↔
      (Fifo.powerUp.run ((cs.take (k + 1)).map (Cycle.map some))).toFlags ≠
          Flags.row (tokenQueue (cs.take (k + 1))).items.length ∨
        ∃ j, (tokenQueue (cs.take (k + 1))).items.head? = some j ∧
          tokenWord D (Fifo.powerUp.run ((cs.take (k + 1)).map (Cycle.map some))).fData ≠
            .ofBits (D j) := by
  have hsplit : assign D (cs.take (k + 1)) =
      assign D (cs.take k) ++ [cs[k].map fun j => .ofBits (D j)] := by
    rw [List.take_succ_eq_append_getElem hk, assign, List.map_append]
    rfl
  have htake : ∀ n, (Fifo.powerUp.monitored (assign D cs)).take n =
      Fifo.powerUp.monitored (assign D (cs.take n)) := by
    intro n
    rw [Fifo.take_monitored, assign, ← List.map_take]
    rfl
  rw [CheckFails, htake, htake, hsplit, Fifo.monitored_concat, ScbFifo.checks_concat,
    ScbFifo.errorCount_check_iff, ScbFifo.matched_iff, ← Fifo.monitored_concat, ← hsplit]
  apply not_conforms_tokens
  · rw [TransFifo.flags_capture, run_tokens]
    rfl
  · change (Fifo.powerUp.run (assign D (cs.take (k + 1)))).fData = _
    rw [run_tokens, Fifo.fData_map (tokenWord D) rfl]

end

/-- Tokens that differ show different words, if the words are distinct. -/
theorem tokenWord_ne {τ : Type} {D : τ → Bits} (hD : Function.Injective D) {w : Option τ} {j : τ}
    (h : w ≠ some j) : tokenWord D w ≠ .ofBits (D j) := by
  cases w with
  | none => exact x_ne_ofBits (D j)
  | some i =>
      intro heq
      exact h (congrArg some (hD (LogicVec.ofBits_inj.mp heq)))

/-! ## distinct words are enough -/

/-- The monitored transactions of a control sequence with a choice of data,
from power-up. -/
def stimulus (reqs : Fin n → Req) (D : Fin n → Bits) : List TransFifo :=
  Fifo.powerUp.monitored (List.ofFn fun j => ⟨reqs j, .ofBits (D j)⟩)

/-- **Stimulus completeness**: a check that fails for some choice of data words
fails for every choice of pairwise distinct ones. -/
theorem checkFails_of_distinct {n : Nat} (reqs : Fin n → Req) (k : Fin n)
    (h : ∃ D : Fin n → Bits, CheckFails (stimulus reqs D) k) (D : Fin n → Bits)
    (hD : Function.Injective D) : CheckFails (stimulus reqs D) k := by
  have hstim : ∀ D : Fin n → Bits, stimulus reqs D =
      Fifo.powerUp.monitored (assign D (List.ofFn fun j => ⟨reqs j, j⟩)) := by
    intro D
    rw [stimulus, assign, List.map_ofFn]
    rfl
  have hk : (k : Nat) < (List.ofFn fun j => (⟨reqs j, j⟩ : Cycle (Fin n))).length := by simp
  obtain ⟨D₀, h₀⟩ := h
  rw [hstim, checkFails_tokens _ _ _ hk] at h₀ ⊢
  apply h₀.imp_right
  rintro ⟨j, hj, hne⟩
  refine ⟨j, hj, tokenWord_ne hD ?_⟩
  intro hw
  rw [hw] at hne
  exact hne rfl

/-- Two writes, a clear and a read of the empty FIFO: the next write shows the
second word instead of its own, under flags that are right.  It goes unnoticed
with equal words; some words tell, so any distinct ones do. -/
theorem checkFails_distinct_stale :
    let reqs : Fin 5 → Req := ![FifoOp.write.req, FifoOp.write.req, FifoOp.clear.req,
      FifoOp.read.req, FifoOp.write.req]
    ¬ CheckFails (stimulus reqs fun _ => 0) (4 : Fin 5) ∧
      CheckFails (stimulus reqs ![1, 2, 3, 4, 5]) (4 : Fin 5) := by
  intro reqs
  refine ⟨by decide, ?_⟩
  exact checkFails_of_distinct reqs 4 ⟨![0, 1, 0, 0, 0], by decide⟩ ![1, 2, 3, 4, 5]
    (by unfold Function.Injective; decide)

end BasicFifo
