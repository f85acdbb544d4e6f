/-!
# WriteLog

What a register holds that takes some words of a stream and lets others pass:
the latest word it took, or what it held at the start.

Nothing here depends on the design under verification.
-/

namespace WriteLog

/-- `j` is the latest of the first `n` positions at which `P` holds. -/
structure Latest (P : Nat → Prop) (n j : Nat) : Prop where
  lt : j < n
  holds : P j
  last : ∀ k, j < k → k < n → ¬ P k

/-- After the words `ds`, of which it takes those at the positions with `P`, a
register with contents `old` contains `new`. -/
def Holds {α : Type} (P : Nat → Prop) (ds : List α) (old new : α) : Prop :=
  (∃ j, Latest P ds.length j ∧ ds[j]? = some new) ∨ (∀ j < ds.length, ¬ P j) ∧ new = old

section
variable {α : Type} {P Q : Nat → Prop} {ds : List α} {old new d : α}

theorem holds_nil : Holds P [] old old := Or.inr ⟨by simp, rfl⟩

/-- A position without `P` does not change which is the latest. -/
theorem Latest.succ {n j : Nat} (h : Latest P n j) (hn : ¬ P n) : Latest P (n + 1) j where
  lt := Nat.lt_succ_of_lt h.lt
  holds := h.holds
  last := by
    intro k hjk hk
    by_cases hlt : k < n
    · exact h.last k hjk hlt
    · grind

/-- A word taken is the latest. -/
theorem Holds.take (hP : P ds.length) : Holds P (ds ++ [d]) old d := by
  left
  refine ⟨ds.length, ⟨by simp, hP, ?_⟩, by simp⟩
  intro k hjk hk
  simp at hk
  omega

/-- A word let pass changes nothing. -/
theorem Holds.pass (h : Holds P ds old new) (hP : ¬ P ds.length) :
    Holds P (ds ++ [d]) old new := by
  cases h with
  | inl h =>
      obtain ⟨j, hj, hnew⟩ := h
      left
      refine ⟨j, ?_, ?_⟩
      · rw [List.length_append, List.length_singleton]
        exact hj.succ hP
      · rwa [List.getElem?_append_left hj.lt]
  | inr h =>
      obtain ⟨hnone, hnew⟩ := h
      right
      refine ⟨?_, hnew⟩
      intro j hj
      by_cases hlt : j < ds.length
      · exact hnone j hlt
      · have heq : j = ds.length := by simp at hj; omega
        rwa [heq]

/-- Only the positions matter. -/
theorem Holds.congr (h : Holds P ds old new) (hPQ : ∀ j, P j ↔ Q j) : Holds Q ds old new := by
  have heq : P = Q := funext fun j => propext (hPQ j)
  rwa [← heq]

/-- A register that took a word contains one of the stream. -/
theorem Holds.mem (h : Holds P ds old new) {j : Nat} (hj : j < ds.length) (hP : P j) :
    new ∈ ds := by
  cases h with
  | inl h =>
      obtain ⟨k, -, hk⟩ := h
      exact List.mem_of_getElem? hk
  | inr h => exact absurd hP (h.1 j hj)

end

end WriteLog
