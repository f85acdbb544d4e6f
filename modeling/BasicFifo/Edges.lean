import BasicFifo.Stimulus

/-!
# BasicFifo.Edges

Clock edges with the reset line they find.

The testbench releases `Rst_N` before its traffic and then leaves it alone, but
the monitor samples it with every transaction and the model clears its queue on
a low one.  A run on `Edge`s may find it low anywhere; for the model such an
edge is a clear (`Edge.cleared`), and for the registers of the design too.
-/

namespace BasicFifo

open FourState BoundedQueue

/-! ## edges -/

/-- A clock edge: its inputs and the reset line. -/
structure Edge (α : Type) extends Cycle α where
  rstN : Bool
deriving DecidableEq, Repr

namespace Edge

/-- The same edge with its data renamed. -/
def map (f : α → β) (e : Edge α) : Edge β := ⟨e.toCycle.map f, e.rstN⟩

/-- The cycle the model sees: a reset is a clear. -/
def cleared (e : Edge α) : Cycle α := { e.toCycle with fClrN := e.rstN && e.fClrN }

end Edge

/-- An edge out of reset. -/
def Cycle.released (c : Cycle α) : Edge α := ⟨c, true⟩

@[simp] theorem Cycle.cleared_released (c : Cycle α) : c.released.cleared = c := rfl

namespace Edge

theorem cleared_of_high {e : Edge α} (h : e.rstN = true) : e.cleared = e.toCycle := by
  simp [cleared, h]

theorem fClrN_cleared_of_low {e : Edge α} (h : e.rstN = false) : e.cleared.fClrN = false := by
  simp [cleared, h]

end Edge

/-! ## the design -/

namespace Fifo

/-- A clock edge, after the falling edge of `RstN` where it is low.  If it was
low before, one more falling edge makes no difference. -/
def edge (s : Fifo α) (e : Edge α) : Fifo α :=
  if e.rstN then s.step e.toCycle else s.assertReset e.toReq [e.toCycle]

/-- The edges `es`. -/
def runEdges (s : Fifo α) (es : List (Edge α)) : Fifo α := Run.run edge s es

@[simp] theorem runEdges_concat (s : Fifo α) (es : List (Edge α)) (e : Edge α) :
    s.runEdges (es ++ [e]) = (s.runEdges es).edge e := Run.run_concat es e

theorem edge_of_high (s : Fifo α) {e : Edge α} (h : e.rstN = true) :
    s.edge e = s.step e.toCycle := if_pos h

theorem toRegs_edge_of_low (s : Fifo α) {e : Edge α} (h : e.rstN = false) :
    (s.edge e).toRegs = Regs.reset := by
  rw [edge, if_neg (by simp [h])]
  exact toRegs_assertReset _ _ _

/-- For the registers a reset is a clear. -/
theorem toRegs_edge (s : Fifo α) (e : Edge α) :
    (s.edge e).toRegs = s.toRegs.next true e.cleared.toReq := by
  by_cases h : e.rstN = true
  · rw [edge_of_high s h, Edge.cleared_of_high h]
    rfl
  · have hlow : e.rstN = false := by simpa using h
    rw [toRegs_edge_of_low s hlow, Regs.next_clear _ _ (Edge.fClrN_cleared_of_low hlow)]

theorem toRegs_runEdges (s : Fifo α) (es : List (Edge α)) :
    (s.runEdges es).toRegs = (s.run (es.map Edge.cleared)).toRegs := by
  rw [toRegs_run, List.map_map]
  exact (Run.run_map edge (Regs.next true) toRegs (Cycle.toReq ∘ Edge.cleared)
    (fun s e => (toRegs_edge s e).symm) s es).symm

/-- What an edge puts into the memory, if anything, is its data. -/
theorem fifo_edge (s : Fifo α) (e : Edge α) (i : Fin fdepth) :
    (s.edge e).memblk.fifo i = e.dataIn ∨ (s.edge e).memblk.fifo i = s.memblk.fifo i := by
  by_cases h : e.rstN = true
  · rw [edge_of_high s h, fifo_step]
    split
    · exact Or.inl rfl
    · exact Or.inr rfl
  · rw [edge, if_neg h]
    show ((s.memblk.posedge e.fInN _ e.dataIn).fifo i) = _ ∨
      ((s.memblk.posedge e.fInN _ e.dataIn).fifo i) = _
    cases e.fInN with
    | true => exact Or.inr rfl
    | false =>
        rw [FifoMemBlk.fifo_posedge_write]
        split
        · exact Or.inl rfl
        · exact Or.inr rfl

/-- Renaming the data commutes with an edge. -/
theorem map_edge (f : α → β) (s : Fifo α) (e : Edge α) :
    (s.map f).edge (e.map f) = (s.edge e).map f := by
  by_cases h : e.rstN = true
  · rw [edge_of_high s h, edge_of_high (e := e.map f) _ h]
    exact map_posedge f true s e.toCycle
  · rw [edge, edge, if_neg h, if_neg (show ¬ (e.map f).rstN = true from h)]
    exact map_posedge f false (s.negedgeRstN e.toReq) e.toCycle

theorem map_runEdges (f : α → β) (s : Fifo α) (es : List (Edge α)) :
    (s.map f).runEdges (es.map (Edge.map f)) = (s.runEdges es).map f :=
  Run.run_map edge edge (map f) (Edge.map f) (map_edge f) s es

/-- The transactions a monitor captures over the edges `es`. -/
def watched (s : Fifo Word) (es : List (Edge Word)) : List TransFifo :=
  Run.outputs edge (fun s e => TransFifo.capture e.rstN e.toCycle (s.edge e).outs) s es

@[simp] theorem length_watched (s : Fifo Word) (es : List (Edge Word)) :
    (s.watched es).length = es.length := Run.length_outputs es

theorem watched_concat (s : Fifo Word) (es : List (Edge Word)) (e : Edge Word) :
    s.watched (es ++ [e]) =
      s.watched es ++ [TransFifo.capture e.rstN e.toCycle (s.runEdges (es ++ [e])).outs] := by
  rw [runEdges_concat]
  exact Run.outputs_concat es e

theorem take_watched (s : Fifo Word) (es : List (Edge Word)) (k : Nat) :
    (s.watched es).take k = s.watched (es.take k) := Run.take_outputs es k

/-! ### out of reset -/

theorem runEdges_released (s : Fifo α) (cs : List (Cycle α)) :
    s.runEdges (cs.map Cycle.released) = s.run cs :=
  Run.run_map step edge id Cycle.released (fun _ _ => rfl) s cs

theorem watched_released (s : Fifo Word) (cs : List (Cycle Word)) :
    s.watched (cs.map Cycle.released) = s.monitored cs := by
  induction cs using List.reverseRecOn with
  | nil => rfl
  | append_singleton cs c ih =>
      have hrun := runEdges_released s (cs ++ [c])
      rw [List.map_append, List.map_singleton] at hrun ⊢
      rw [watched_concat, ih, monitored_concat, hrun]
      rfl

end Fifo

/-! ## the checker -/

/-- The edge with two-state data, as the wires carry it. -/
def Edge.known (e : Edge Bits) : Edge Word := e.map .ofBits

theorem tokenWord_id_eq_iff {w : Option Bits} {d : Bits} :
    tokenWord id w = .ofBits d ↔ w = some d := by
  cases w with
  | none => simp [tokenWord, x_ne_ofBits]
  | some e => simp [tokenWord, LogicVec.ofBits_inj]

/-- The design on words is the design on tokens, resets included. -/
theorem runEdges_known (es : List (Edge Bits)) :
    Fifo.powerUp.runEdges (es.map Edge.known) =
      (Fifo.powerUp.runEdges (es.map (Edge.map some))).map (tokenWord id) := by
  rw [← Fifo.map_runEdges, List.map_map]
  rfl

/-- The model sees a clear where `Rst_N` is low. -/
theorem queueOp_capture_known (e : Edge Bits) (o : Outs) :
    (TransFifo.capture e.known.rstN e.known.toCycle o).queueOp =
      e.cleared.op.queueOp e.cleared.dataIn := by
  obtain ⟨c, rstN⟩ := e
  cases rstN with
  | true =>
      show c.op.queueOp (LogicVec.ofBits c.dataIn).toBits = _
      rw [LogicVec.toBits_ofBits]
      rfl
  | false =>
      obtain ⟨⟨clr, inn, out⟩, d⟩ := c
      cases inn <;> cases out <;> rfl

theorem queue_watched (es : List (Edge Bits)) :
    (history (Fifo.powerUp.watched (es.map Edge.known))).queue =
      tokenQueue (es.map Edge.cleared) := by
  rw [history, Log.queue_history, tokenQueue]
  congr 1
  induction es using List.reverseRecOn with
  | nil => rfl
  | append_singleton es e ih =>
      rw [List.map_append, List.map_singleton, Fifo.watched_concat, List.map_append,
        List.map_singleton, queueOp_capture_known, ih]
      simp

end BasicFifo
