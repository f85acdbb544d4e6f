import BasicFifo.Lib.Run

/-!
# BoundedQueue

A first-in first-out queue of bounded capacity over an arbitrary item type,
in two forms:

* `Queue` — the items themselves, oldest first;
* `Log` — everything accepted since the last clear together with the number of
  items popped, the form in which order and loss are stated.

`Log.queue_step` says that the second determines the first: dropping what was
popped from what was accepted gives the queue, after every operation.  The
capacity bound is a field of both, so no state over capacity can be built.

Nothing here depends on the design under verification.
-/

namespace BoundedQueue

/-- What one cycle asks of a queue. -/
inductive Op (β : Type) where
  | clear
  | idle
  | push (d : β)
  | pop
  | replace (d : β)
deriving DecidableEq, Repr

/-- The same request with its item renamed. -/
def Op.map (f : β → γ) : Op β → Op γ
  | .clear => .clear
  | .idle => .idle
  | .push d => .push (f d)
  | .pop => .pop
  | .replace d => .replace (f d)

/-- The fill level after a request, from the level before it. -/
def Op.level (cap n : Nat) : Op β → Nat
  | .clear => 0
  | .idle => n
  | .push _ => if n < cap then n + 1 else n
  | .pop => n - 1
  | .replace _ => n

/-! ## the queue -/

/-- A queue of at most `cap` items, oldest first. -/
@[ext] structure Queue (β : Type) (cap : Nat) where
  items : List β
  length_le : items.length ≤ cap
deriving DecidableEq, Repr

namespace Queue

/-- The queue without items. -/
def empty : Queue β cap := ⟨[], Nat.zero_le cap⟩

theorem length_push_le {xs : List β} (h : xs.length < cap) (d : β) :
    (xs ++ [d]).length ≤ cap := by
  rw [List.length_append, List.length_singleton]
  exact h

theorem length_tail_le {xs : List β} (h : xs.length ≤ cap) : xs.tail.length ≤ cap := by
  rw [List.length_tail]
  omega

theorem length_replace_le {xs : List β} (h : xs.length ≤ cap) (h0 : 0 < xs.length) (d : β) :
    (xs.tail ++ [d]).length ≤ cap := by
  rw [List.length_append, List.length_tail, List.length_singleton]
  omega

/-- One request: a push on a full queue and a pop or a replacement on an empty
one are ignored. -/
def step (q : Queue β cap) : Op β → Queue β cap
  | .clear => empty
  | .idle => q
  | .push d => if h : q.items.length < cap then ⟨q.items ++ [d], length_push_le h d⟩ else q
  | .pop => ⟨q.items.tail, length_tail_le q.length_le⟩
  | .replace d =>
      if h : 0 < q.items.length then
        ⟨q.items.tail ++ [d], length_replace_le q.length_le h d⟩
      else q

@[simp] theorem items_clear (q : Queue β cap) : (q.step .clear).items = [] := rfl

@[simp] theorem items_idle (q : Queue β cap) : (q.step .idle).items = q.items := rfl

@[simp] theorem items_pop (q : Queue β cap) : (q.step .pop).items = q.items.tail := rfl

@[simp] theorem items_push (q : Queue β cap) (d : β) :
    (q.step (.push d)).items = if q.items.length < cap then q.items ++ [d] else q.items := by
  simp only [step]
  split <;> rfl

@[simp] theorem items_replace (q : Queue β cap) (d : β) :
    (q.step (.replace d)).items =
      if 0 < q.items.length then q.items.tail ++ [d] else q.items := by
  simp only [step]
  split <;> rfl

/-- The fill level moves by the request alone. -/
theorem length_step (q : Queue β cap) (op : Op β) :
    (q.step op).items.length = op.level cap q.items.length := by
  cases op with
  | clear => rfl
  | idle => rfl
  | push d => rw [items_push, Op.level]; split <;> simp
  | pop => simp [Op.level]
  | replace d =>
      rw [items_replace, Op.level]
      split
      · simp; omega
      · rfl

/-- An item is in the queue from before, or the request brings it. -/
theorem mem_step {q : Queue β cap} {op : Op β} {x : β} (h : x ∈ (q.step op).items) :
    x ∈ q.items ∨ op = .push x ∨ op = .replace x := by
  cases op with
  | clear => simp at h
  | idle => exact Or.inl h
  | push d =>
      rw [items_push] at h
      split at h <;> grind
  | pop => exact Or.inl (List.mem_of_mem_tail h)
  | replace d =>
      rw [items_replace] at h
      split at h
      · have hx : x ∈ q.items.tail ∨ x = d := by simpa using h
        exact hx.imp List.mem_of_mem_tail (fun hd => Or.inr (by rw [hd]))
      · exact Or.inl h

/-- A queue with its items renamed. -/
def map (f : β → γ) (q : Queue β cap) : Queue γ cap :=
  ⟨q.items.map f, by rw [List.length_map]; exact q.length_le⟩

/-- Queue operations never look at the items they move. -/
theorem map_step (f : β → γ) (q : Queue β cap) (op : Op β) :
    (q.map f).step (op.map f) = (q.step op).map f := by
  ext1
  cases op with
  | clear => rfl
  | idle => rfl
  | push d =>
      simp only [Op.map, map, items_push, List.length_map]
      split <;> simp
  | pop => simp [Op.map, map]
  | replace d =>
      simp only [Op.map, map, items_replace, List.length_map]
      split <;> simp

end Queue

/-! ## the log -/

/-- Everything accepted since the last clear, and how much of it is popped. -/
structure Log (β : Type) (cap : Nat) where
  accepted : List β
  popped : Nat
  popped_le : popped ≤ accepted.length
  length_le : accepted.length ≤ popped + cap

namespace Log

/-- Nothing accepted yet. -/
def empty : Log β cap := ⟨[], 0, Nat.le_refl 0, Nat.zero_le _⟩

/-- Items accepted and not yet popped. -/
def outstanding (l : Log β cap) : Nat := l.accepted.length - l.popped

/-- One request: a push is accepted with room left, a pop and a replacement
with an item outstanding. -/
def step (l : Log β cap) : Op β → Log β cap
  | .clear => empty
  | .idle => l
  | .push d =>
      if h : l.outstanding < cap then
        ⟨l.accepted ++ [d], l.popped,
          by have := l.popped_le; simp; omega,
          by have := l.popped_le; simp [outstanding] at *; omega⟩
      else l
  | .pop =>
      if h : 0 < l.outstanding then
        ⟨l.accepted, l.popped + 1,
          by simp [outstanding] at h; omega,
          by have := l.length_le; omega⟩
      else l
  | .replace d =>
      if h : 0 < l.outstanding then
        ⟨l.accepted ++ [d], l.popped + 1,
          by have := l.popped_le; simp; omega,
          by have := l.length_le; simp; omega⟩
      else l

/-- The log after a list of requests. -/
def history (ops : List (Op β)) : Log β cap := Run.run step empty ops

/-- The queue a log stands for: what was accepted, without what was popped. -/
def queue (l : Log β cap) : Queue β cap :=
  ⟨l.accepted.drop l.popped, by have := l.length_le; simp; omega⟩

theorem length_queue (l : Log β cap) : l.queue.items.length = l.outstanding := by
  simp [queue, outstanding]

/-- The oldest item of the queue is the first accepted one not yet popped. -/
theorem head?_queue (l : Log β cap) : l.queue.items.head? = l.accepted[l.popped]? := by
  simp [queue]

/-- **Log refinement**: every operation acts on the log as on the queue it
stands for. -/
theorem queue_step (l : Log β cap) (op : Op β) : (l.step op).queue = l.queue.step op := by
  have hlen := l.length_queue
  ext1
  cases op with
  | clear => rfl
  | idle => rfl
  | push d =>
      simp only [step, Queue.items_push, hlen]
      split
      · have := l.popped_le
        simp [queue, List.drop_append_of_le_length this]
      · rfl
  | pop =>
      simp only [step, Queue.items_pop]
      split
      · simp [queue]
      · next hout =>
          have hnil : l.queue.items = [] := List.eq_nil_of_length_eq_zero (by omega)
          simp [hnil]
  | replace d =>
      simp only [step, Queue.items_replace, hlen]
      split
      · next hout =>
          have hle : l.popped + 1 ≤ l.accepted.length := by
            simp only [outstanding] at hout; omega
          simp [queue, List.drop_append_of_le_length hle]
      · rfl

/-- The queue of a history is the history of the queue. -/
theorem queue_history (ops : List (Op β)) :
    (history ops : Log β cap).queue = Run.run Queue.step Queue.empty ops := by
  have h := Run.run_map step Queue.step (queue : Log β cap → Queue β cap) id
    (fun l op => (queue_step l op).symm) empty ops
  rw [List.map_id] at h
  exact h.symm

end Log

end BoundedQueue
