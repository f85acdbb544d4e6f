import Mathlib.Data.List.Induction

/-!
# Run

Runs of a deterministic machine `step : σ → ι → σ` over an input list.

Three proof rules are packaged once:

* `run_induct` — an invariant that may speak about the input history holds
  after every prefix;
* `forall_run_iff` — when inside the invariant a step keeps a property exactly
  if it meets a condition, a whole run keeps the property after every prefix
  exactly if all its steps meet the condition;
* `run_map` — a map between two machines that commutes with one step commutes
  with every run.

Nothing here depends on the design under verification.
-/

namespace Run

/-- The state a machine reaches from `s` on the inputs `is`. -/
def run (step : σ → ι → σ) (s : σ) (is : List ι) : σ := is.foldl step s

section
variable {σ ι : Type} {step : σ → ι → σ} {s : σ}

@[simp] theorem run_nil : run step s [] = s := rfl

@[simp] theorem run_cons (i : ι) (is : List ι) :
    run step s (i :: is) = run step (step s i) is := rfl

@[simp] theorem run_concat (is : List ι) (i : ι) :
    run step s (is ++ [i]) = step (run step s is) i := by
  simp [run]

end

/-! ## invariants over the input history -/

section
variable {σ ι : Type} (step : σ → ι → σ) (s : σ)

/-- Every step of the run from `s` on `is` is allowed, given the inputs before
it and the state it starts in. -/
def Lawful (Legal : List ι → σ → ι → Prop) (is : List ι) : Prop :=
  ∀ k (hk : k < is.length), Legal (is.take k) (run step s (is.take k)) is[k]

variable {step s} {Legal : List ι → σ → ι → Prop}

/-- An initial segment of a lawful run is lawful. -/
theorem Lawful.of_concat {is : List ι} {i : ι} (h : Lawful step s Legal (is ++ [i])) :
    Lawful step s Legal is ∧ Legal is (run step s is) i := by
  constructor
  · intro k hk
    have hlt : k < (is ++ [i]).length := by simp; omega
    have := h k hlt
    rwa [List.take_append_of_le_length (Nat.le_of_lt hk), List.getElem_append_left hk] at this
  · have hlt : is.length < (is ++ [i]).length := by simp
    simpa using h is.length hlt

variable (step s)

/-- Invariant rule for lawful runs. -/
theorem run_induct_lawful (Legal : List ι → σ → ι → Prop) (Inv : List ι → σ → Prop) (h0 : Inv [] s)
    (hstep : ∀ pre t i, Inv pre t → Legal pre t i → Inv (pre ++ [i]) (step t i)) :
    ∀ is, Lawful step s Legal is → Inv is (run step s is) := by
  intro is
  induction is using List.reverseRecOn with
  | nil => intro _; exact h0
  | append_singleton is i ih =>
      intro hl
      obtain ⟨hpre, hlast⟩ := hl.of_concat
      rw [run_concat]
      exact hstep is _ i (ih hpre) hlast

/-- Invariant rule for arbitrary runs. -/
theorem run_induct (Inv : List ι → σ → Prop) (h0 : Inv [] s)
    (hstep : ∀ pre t i, Inv pre t → Inv (pre ++ [i]) (step t i)) (is : List ι) :
    Inv is (run step s is) :=
  run_induct_lawful step s (fun _ _ _ => True) Inv h0 (fun pre t i h _ => hstep pre t i h) is
    fun _ _ => trivial

end

/-! ## exact conditions for a property of every state of a run -/

section
variable {σ ι : Type} {step : σ → ι → σ} {s : σ} {P : List ι → σ → Prop} {Good : List ι → ι → Prop}

/-- One more input adds one step to check. -/
theorem forall_step_concat {is : List ι} {i : ι} :
    (∀ k (hk : k < (is ++ [i]).length), Good ((is ++ [i]).take k) (is ++ [i])[k]) ↔
      (∀ k (hk : k < is.length), Good (is.take k) is[k]) ∧ Good is i := by
  constructor
  · intro h
    constructor
    · intro k hk
      have hlt : k < (is ++ [i]).length := by simp; omega
      have := h k hlt
      rwa [List.take_append_of_le_length (Nat.le_of_lt hk), List.getElem_append_left hk] at this
    · have hlt : is.length < (is ++ [i]).length := by simp
      simpa using h is.length hlt
  · rintro ⟨hpre, hlast⟩ k hk
    by_cases hlt : k < is.length
    · rw [List.take_append_of_le_length (Nat.le_of_lt hlt), List.getElem_append_left hlt]
      exact hpre k hlt
    · have hk' : k = is.length := by simp at hk; omega
      subst hk'
      simpa using hlast

/-- One more input adds one state to check. -/
theorem forall_run_concat {is : List ι} {i : ι} :
    (∀ k, P ((is ++ [i]).take k) (run step s ((is ++ [i]).take k))) ↔
      (∀ k, P (is.take k) (run step s (is.take k))) ∧
        P (is ++ [i]) (step (run step s is) i) := by
  constructor
  · intro h
    constructor
    · intro k
      have := h (min k is.length)
      rw [List.take_append_of_le_length (Nat.min_le_right _ _), ← List.take_eq_take_min] at this
      exact this
    · have := h (is ++ [i]).length
      rwa [List.take_length, run_concat] at this
  · rintro ⟨hpre, hlast⟩ k
    by_cases hle : k ≤ is.length
    · rw [List.take_append_of_le_length hle]
      exact hpre k
    · rw [List.take_of_length_le (by simp; omega), run_concat]
      exact hlast

/-- While all steps are good the invariant carries on; the first step that is
not good breaks the property.  Hence a lawful run has the property after every
prefix exactly when all its steps are good. -/
theorem forall_run_iff (step : σ → ι → σ) (s : σ) (Legal : List ι → σ → ι → Prop)
    (Inv P : List ι → σ → Prop) (Good : List ι → ι → Prop) (h0 : Inv [] s)
    (hP : ∀ pre t, Inv pre t → P pre t)
    (hgood : ∀ pre t i, Inv pre t → Legal pre t i → Good pre i → Inv (pre ++ [i]) (step t i))
    (hbad : ∀ pre t i, Inv pre t → Legal pre t i → ¬ Good pre i → ¬ P (pre ++ [i]) (step t i))
    (is : List ι) (hl : Lawful step s Legal is) :
    (∀ k, P (is.take k) (run step s (is.take k))) ↔
      ∀ k (hk : k < is.length), Good (is.take k) is[k] := by
  -- the invariant is part of the induction: it is what the good steps so far have kept
  suffices h : ((∀ k, P (is.take k) (run step s (is.take k))) ↔
      ∀ k (hk : k < is.length), Good (is.take k) is[k]) ∧
      ((∀ k (hk : k < is.length), Good (is.take k) is[k]) → Inv is (run step s is)) from h.1
  induction is using List.reverseRecOn with
  | nil =>
      refine ⟨⟨fun _ k hk => absurd hk (Nat.not_lt_zero k), fun _ k => ?_⟩, fun _ => h0⟩
      simpa using hP [] s h0
  | append_singleton is i ih =>
      obtain ⟨hpre, hlast⟩ := hl.of_concat
      obtain ⟨hiff, hinv⟩ := ih hpre
      rw [forall_run_concat, forall_step_concat, hiff, run_concat]
      refine ⟨⟨?_, ?_⟩, ?_⟩
      · rintro ⟨hsteps, hp⟩
        refine ⟨hsteps, Classical.byContradiction fun hng => ?_⟩
        exact hbad is _ i (hinv hsteps) hlast hng hp
      · rintro ⟨hsteps, hg⟩
        exact ⟨hsteps, hP _ _ (hgood is _ i (hinv hsteps) hlast hg)⟩
      · rintro ⟨hsteps, hg⟩
        exact hgood is _ i (hinv hsteps) hlast hg

end

/-- "After every prefix" is "at the start and after every step". -/
theorem forall_take_iff {Q : List ι → Prop} (h0 : Q []) (is : List ι) :
    (∀ k, Q (is.take k)) ↔ ∀ k, k < is.length → Q (is.take (k + 1)) := by
  constructor
  · intro h k _
    exact h (k + 1)
  · intro h k
    cases k with
    | zero => exact h0
    | succ k =>
        by_cases hlt : k < is.length
        · exact h k hlt
        · cases hlen : is.length with
          | zero => rw [List.eq_nil_of_length_eq_zero hlen]; exact h0
          | succ n =>
              have := h n (by omega)
              rwa [List.take_of_length_le (by omega)] at this ⊢

/-! ## maps between machines -/

/-- A map that commutes with one step commutes with every run. -/
theorem run_map {σ τ ι κ : Type} (step : σ → ι → σ) (step' : τ → κ → τ) (f : σ → τ) (g : ι → κ)
    (h : ∀ s i, step' (f s) (g i) = f (step s i)) (s : σ) (is : List ι) :
    run step' (f s) (is.map g) = f (run step s is) := by
  induction is generalizing s with
  | nil => rfl
  | cons i is ih => rw [List.map_cons, run_cons, run_cons, h, ih]

/-! ## outputs of a run -/

section
variable {σ ι ο : Type} (step : σ → ι → σ) (out : σ → ι → ο)

/-- What a machine puts out along a run: at each input, from the state before it. -/
def outputs (s : σ) : List ι → List ο
  | [] => []
  | i :: is => out s i :: outputs (step s i) is

variable {step out} {s : σ}

@[simp] theorem length_outputs (is : List ι) : (outputs step out s is).length = is.length := by
  induction is generalizing s with
  | nil => rfl
  | cons i is ih => simp [outputs, ih]

theorem outputs_concat (is : List ι) (i : ι) :
    outputs step out s (is ++ [i]) = outputs step out s is ++ [out (run step s is) i] := by
  induction is generalizing s with
  | nil => rfl
  | cons j is ih => rw [List.cons_append, outputs, ih, outputs, run_cons, List.cons_append]

theorem take_outputs (is : List ι) (k : Nat) :
    (outputs step out s is).take k = outputs step out s (is.take k) := by
  induction is generalizing s k with
  | nil => simp [outputs]
  | cons i is ih =>
      cases k with
      | zero => rfl
      | succ k => simp [outputs, ih]

end

end Run
