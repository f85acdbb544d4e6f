/-!
# Transition

Nondeterministic systems `step : σ → Option ε → σ → Prop` whose steps may show
an event, and what can be said of all their executions:

* `Exec.invariant` — safety: an invariant that may speak about the events so
  far holds after every execution;
* `inevitable_of_rank` — progress: when, short of the goal, some step is always
  possible and every step lowers a rank, no execution avoids the goal.

Nothing here depends on the design under verification.
-/

namespace Transition

/-- The executions from `s₀`, with the events they show and where they lead. -/
inductive Exec {σ ε : Type} (step : σ → Option ε → σ → Prop) (s₀ : σ) : List ε → σ → Prop where
  | refl : Exec step s₀ [] s₀
  | step {tr s e s'} : Exec step s₀ tr s → step s e s' → Exec step s₀ (tr ++ e.toList) s'

/-- Whatever the system does from a state, it gets to a goal: it does not stop
before, and every step it can take leads to where the goal is inevitable. -/
inductive Inevitable {σ ε : Type} (step : σ → Option ε → σ → Prop) (Goal : σ → Prop) :
    σ → Prop where
  | now {s} : Goal s → Inevitable step Goal s
  | later {s} : (∃ e s', step s e s') → (∀ e s', step s e s' → Inevitable step Goal s') →
      Inevitable step Goal s

section
variable {σ ε : Type} {step : σ → Option ε → σ → Prop} {s₀ : σ}

/-- Invariant rule. -/
theorem Exec.invariant (Inv : List ε → σ → Prop) (h0 : Inv [] s₀)
    (hstep : ∀ tr s e s', Inv tr s → step s e s' → Inv (tr ++ e.toList) s')
    {tr : List ε} {s : σ} (h : Exec step s₀ tr s) : Inv tr s := by
  induction h with
  | refl => exact h0
  | step _ hs ih => exact hstep _ _ _ _ ih hs

/-- Executions can be carried on. -/
theorem Exec.trans {tr tr' : List ε} {s s' : σ} (h : Exec step s₀ tr s) (h' : Exec step s tr' s') :
    Exec step s₀ (tr ++ tr') s' := by
  induction h' with
  | refl => rwa [List.append_nil]
  | step _ hs ih =>
      rw [← List.append_assoc]
      exact ih.step hs

/-- Rank rule.  The rank need only fall where the invariant holds. -/
theorem inevitable_of_rank (Inv : List ε → σ → Prop) (Goal : σ → Prop) (rank : σ → Nat)
    (hstep : ∀ tr s e s', Inv tr s → step s e s' → Inv (tr ++ e.toList) s')
    (hlive : ∀ tr s, Inv tr s → ¬ Goal s → ∃ e s', step s e s')
    (hrank : ∀ tr s e s', Inv tr s → ¬ Goal s → step s e s' → rank s' < rank s)
    {tr : List ε} {s : σ} (h : Inv tr s) : Inevitable step Goal s := by
  -- strong induction on the rank: every successor has a smaller one
  generalize hn : rank s = n
  induction n using Nat.strongRecOn generalizing tr s with
  | _ n ih =>
      by_cases hg : Goal s
      · exact .now hg
      · apply Inevitable.later (hlive tr s h hg)
        intro e s' hs
        have hlt := hrank tr s e s' h hg hs
        exact ih (rank s') (hn ▸ hlt) (hstep tr s e s' h hs) rfl

/-- What a goal makes inevitable is as inevitable as the goal. -/
theorem Inevitable.trans {Goal Goal' : σ → Prop} {s : σ} (h : Inevitable step Goal s)
    (hg : ∀ s, Goal s → Inevitable step Goal' s) : Inevitable step Goal' s := by
  induction h with
  | now h => exact hg _ h
  | later hex _ ih => exact .later hex ih

/-- An execution towards an inevitable goal can be carried on to it. -/
theorem Inevitable.exists_exec {Goal : σ → Prop} {tr : List ε} {s : σ}
    (h : Inevitable step Goal s) (he : Exec step s₀ tr s) :
    ∃ tr' s', Exec step s₀ tr' s' ∧ Goal s' := by
  induction h generalizing tr with
  | now hg => exact ⟨tr, _, he, hg⟩
  | later hex _ ih =>
      obtain ⟨e, s', hs⟩ := hex
      exact ih e s' hs (he.step hs)

end

end Transition
