import BasicFifo.Lib.Transition
import Mathlib.Logic.Relation

/-!
# Interleaving

Processes that share a state and a clock: `run i s` is the step process `i` can
take in `s`, with the event it shows, and the clock ticks when no process can
go on.

When any two processes commute, the order in which they are scheduled is of no
consequence (`exec_unique`): executions with the same number of ticks that have
settled have the same trace and the same state.  Where the rounds between the
ticks settle (`SettlesAt`) is then all there is to the system: every execution
is on its way there (`SettlesAt.of_exec`) and gets there
(`SettlesAt.inevitable`).

Nothing here depends on the design under verification.
-/

namespace Interleaving

open Relation Transition

section
variable {ι σ ε : Type} (run : ι → σ → Option (Option ε × σ)) (tick : σ → ε × σ)

/-- Some process takes a step; the trace is kept beside the state. -/
def Fires (a b : List ε × σ) : Prop :=
  ∃ i e s, run i a.2 = some (e, s) ∧ b = (a.1 ++ e.toList, s)

/-- No process can go on. -/
def Settled (s : σ) : Prop := ∀ i, run i s = none

/-- A step of the system: of any process, or of the clock. -/
inductive Step : σ → Option ε → σ → Prop where
  | fire {s e s'} (i : ι) : run i s = some (e, s') → Step s e s'
  | tick {s} : Settled run s → Step s (some (tick s).1) (tick s).2

/-- The clock ticks in a settled state. -/
def ticked (a : List ε × σ) : List ε × σ := (a.1 ++ [(tick a.2).1], (tick a.2).2)

/-- What is reached with `n` ticks. -/
inductive Rounds (a₀ : List ε × σ) : Nat → List ε × σ → Prop where
  | zero {a} : ReflTransGen (Fires run) a₀ a → Rounds a₀ 0 a
  | succ {n a b} : Rounds a₀ n a → Settled run a.2 →
      ReflTransGen (Fires run) (ticked tick a) b → Rounds a₀ (n + 1) b

/-- `n` steps of processes, whatever they show. -/
inductive Takes : Nat → σ → σ → Prop where
  | zero {s} : Takes 0 s s
  | succ {n s e s' u} (i : ι) : run i s = some (e, s') → Takes n s' u → Takes (n + 1) s u

/-- `A k` is where round `k` of the system settles. -/
structure SettlesAt (s₀ : σ) (A : Nat → List ε × σ) : Prop where
  first : ReflTransGen (Fires run) ([], s₀) (A 0)
  next : ∀ k, ReflTransGen (Fires run) (ticked tick (A k)) (A (k + 1))
  settled : ∀ k, Settled run (A k).2

/-- Two steps that can be taken in one state can be taken in either order. -/
def CommuteAt (f g : σ → Option (Option ε × σ)) : Prop :=
  ∀ s e s₁ e' s₂, f s = some (e, s₁) → g s = some (e', s₂) →
    (e = none ∨ e' = none) ∧ ∃ u, g s₁ = some (e', u) ∧ f s₂ = some (e, u)

end

section
variable {ι σ ε : Type} {run : ι → σ → Option (Option ε × σ)} {tick : σ → ε × σ}

/-- A step that shows nothing. -/
def silent (f : σ → Option σ) (s : σ) : Option (Option ε × σ) := (f s).map fun s' => (none, s')

@[simp] theorem silent_eq_some {f : σ → Option σ} {s s' : σ} {e : Option ε} :
    silent f s = some (e, s') ↔ e = none ∧ f s = some s' := by
  simp only [silent, Option.map_eq_some_iff, Prod.mk.injEq]
  constructor
  · rintro ⟨u, hu, rfl, rfl⟩
    exact ⟨rfl, hu⟩
  · rintro ⟨rfl, h⟩
    exact ⟨s', h, rfl, rfl⟩

@[simp] theorem silent_eq_none {f : σ → Option σ} {s : σ} :
    (silent f s : Option (Option ε × σ)) = none ↔ f s = none := by
  simp [silent]

theorem CommuteAt.symm {f g : σ → Option (Option ε × σ)} (h : CommuteAt f g) : CommuteAt g f := by
  intro s e s₁ e' s₂ hg hf
  obtain ⟨he, u, hu, hu'⟩ := h s e' s₂ e s₁ hf hg
  exact ⟨he.symm, u, hu', hu⟩

/-- A step that shows nothing can go before or after any other. -/
theorem commuteAt_silent {f : σ → Option σ} {g : σ → Option (Option ε × σ)}
    (h : ∀ s s₁ e s₂, f s = some s₁ → g s = some (e, s₂) →
      ∃ u, g s₁ = some (e, u) ∧ f s₂ = some u) : CommuteAt (silent f) g := by
  intro s e s₁ e' s₂ hf hg
  obtain ⟨rfl, hf'⟩ := silent_eq_some.mp hf
  obtain ⟨u, hu, hu'⟩ := h s s₁ e' s₂ hf' hg
  exact ⟨Or.inl rfl, u, hu, silent_eq_some.mpr ⟨rfl, hu'⟩⟩

theorem commuteAt_silent_both {f g : σ → Option σ}
    (h : ∀ s s₁ s₂, f s = some s₁ → g s = some s₂ → ∃ u, g s₁ = some u ∧ f s₂ = some u) :
    CommuteAt (silent f : σ → Option (Option ε × σ)) (silent g) := by
  apply commuteAt_silent
  intro s s₁ e s₂ hf hg
  obtain ⟨rfl, hg'⟩ := silent_eq_some.mp hg
  obtain ⟨u, hu, hu'⟩ := h s s₁ s₂ hf hg'
  exact ⟨u, silent_eq_some.mpr ⟨rfl, hu⟩, hu'⟩

/-- From a settled state nothing else is reached. -/
theorem Settled.eq_of_fires {a b : List ε × σ} (hs : Settled run a.2)
    (h : ReflTransGen (Fires run) a b) : b = a := by
  induction h with
  | refl => rfl
  | tail _ hstep ih =>
      obtain ⟨i, e, s, hi, -⟩ := hstep
      rw [ih, hs i] at hi
      contradiction

theorem takes_of_fires {a b : List ε × σ} (h : ReflTransGen (Fires run) a b) :
    ∃ n, Takes run n a.2 b.2 := by
  induction h using ReflTransGen.head_induction_on with
  | refl => exact ⟨0, .zero⟩
  | head hstep _ ih =>
      obtain ⟨i, e, s, hi, rfl⟩ := hstep
      obtain ⟨n, hn⟩ := ih
      exact ⟨n + 1, .succ i hi hn⟩

theorem Rounds.fires {n : Nat} {a₀ a b : List ε × σ} (h : Rounds run tick a₀ n a)
    (hab : Fires run a b) : Rounds run tick a₀ n b := by
  cases h with
  | zero h => exact .zero (h.tail hab)
  | succ hn hset h => exact .succ hn hset (h.tail hab)

/-- The ticks of an execution cut it into rounds. -/
theorem rounds_of_exec (isTick : ε → Bool) (htick : ∀ s, isTick (tick s).1 = true)
    (hfire : ∀ i s e s', run i s = some (some e, s') → isTick e = false) {s₀ s : σ} {tr : List ε}
    (h : Exec (Step run tick) s₀ tr s) : Rounds run tick ([], s₀) (tr.countP isTick) (tr, s) := by
  induction h with
  | refl => exact .zero .refl
  | @step tr s e s' _ hs ih =>
      cases hs with
      | fire i hi =>
          have hcount : (tr ++ e.toList).countP isTick = tr.countP isTick := by
            cases e with
            | none => simp
            | some e => simp [hfire i s e s' hi]
          rw [hcount]
          exact ih.fires ⟨i, e, s', hi, rfl⟩
      | tick hset =>
          have hcount : (tr ++ (some (tick s).1).toList).countP isTick = tr.countP isTick + 1 := by
            simp [htick]
          rw [hcount]
          exact .succ ih hset .refl

/-- What processes do without the clock is part of an execution. -/
theorem exec_of_fires {s₀ : σ} {a b : List ε × σ} (ha : Exec (Step run tick) s₀ a.1 a.2)
    (h : ReflTransGen (Fires run) a b) : Exec (Step run tick) s₀ b.1 b.2 := by
  induction h with
  | refl => exact ha
  | tail _ hstep ih =>
      obtain ⟨i, e, s, hi, rfl⟩ := hstep
      exact ih.step (.fire i hi)

/-- Rounds make an execution. -/
theorem Rounds.exec {n : Nat} {s₀ : σ} {a : List ε × σ} (h : Rounds run tick ([], s₀) n a) :
    Exec (Step run tick) s₀ a.1 a.2 := by
  induction h with
  | zero h => exact exec_of_fires .refl h
  | @succ n a b _ hset h ih => exact exec_of_fires (ih.step (.tick hset)) h

/-! ## one round -/

section
variable (hcomm : ∀ i j, i ≠ j → CommuteAt (run i) (run j))
include hcomm

/-- What either of two processes does first, the other does next. -/
theorem diamond (a b c : List ε × σ) (hb : Fires run a b) (hc : Fires run a c) :
    ∃ d, ReflGen (Fires run) b d ∧ ReflTransGen (Fires run) c d := by
  obtain ⟨i, e, s, hi, rfl⟩ := hb
  obtain ⟨j, e', s', hj, rfl⟩ := hc
  by_cases hij : i = j
  · subst hij
    rw [hi] at hj
    obtain ⟨rfl, rfl⟩ := Prod.mk.inj (Option.some.inj hj)
    exact ⟨_, .refl, .refl⟩
  · obtain ⟨hnone, u, hju, hiu⟩ := hcomm i j hij a.2 e s e' s' hi hj
    refine ⟨(a.1 ++ e.toList ++ e'.toList, u), .single ⟨j, e', u, hju, rfl⟩,
      .single ⟨i, e, u, hiu, ?_⟩⟩
    -- at most one of the two shows an event
    cases hnone with
    | inl h => simp [h]
    | inr h => simp [h]

/-- Whatever is reached in a round leads to where the round settles. -/
theorem to_settled {a b c : List ε × σ} (hb : ReflTransGen (Fires run) a b)
    (hc : ReflTransGen (Fires run) a c) (hs : Settled run c.2) : ReflTransGen (Fires run) b c := by
  obtain ⟨d, hbd, hcd⟩ := church_rosser (diamond hcomm) hb hc
  rwa [hs.eq_of_fires hcd] at hbd

/-- Every way to where a round settles is equally long: a step towards it is
never wasted. -/
theorem Takes.step {n : Nat} {s s' c : σ} {i : ι} {e : Option ε} (h : Takes run n s c)
    (hs : Settled run c) (hi : run i s = some (e, s')) :
    ∃ m, n = m + 1 ∧ Takes run m s' c := by
  induction h generalizing i e s' with
  | zero =>
      rw [hs i] at hi
      contradiction
  | @succ n s e' u c j hj hrest ih =>
      by_cases hij : i = j
      · subst hij
        rw [hi] at hj
        obtain ⟨rfl, rfl⟩ := Prod.mk.inj (Option.some.inj hj)
        exact ⟨n, rfl, hrest⟩
      · obtain ⟨-, v, hjv, hiv⟩ := hcomm i j hij s e s' e' u hi hj
        -- the other process is still to go, and then `i` has gone already
        obtain ⟨m, rfl, hm⟩ := ih hs hiv
        exact ⟨m + 1, rfl, .succ j hjv hm⟩

/-- A round that can settle does. -/
theorem Takes.inevitable {n : Nat} {s c : σ} (h : Takes run n s c) (hs : Settled run c) :
    Inevitable (Step run tick) (fun u => u = c) s := by
  induction n generalizing s with
  | zero =>
      cases h with
      | zero => exact .now rfl
  | succ n ih =>
      cases h with
      | @succ _ _ e u _ i hi hrest =>
          refine .later ⟨e, u, .fire i hi⟩ ?_
          intro e' s' hstep
          cases hstep with
          | fire j hj =>
              obtain ⟨m, hm, hm'⟩ := Takes.step hcomm (.succ i hi hrest) hs hj
              obtain rfl : n = m := by omega
              exact ih hm'
          | tick hset =>
              rw [hset i] at hi
              contradiction

/-! ## all rounds -/

/-- Whatever is reached with `n` ticks leads to where their rounds settle. -/
theorem Rounds.to_settled {n : Nat} {a₀ b c : List ε × σ} (hb : Rounds run tick a₀ n b)
    (hc : Rounds run tick a₀ n c) (hs : Settled run c.2) : ReflTransGen (Fires run) b c := by
  induction n generalizing b c with
  | zero =>
      cases hb with
      | zero hb =>
          cases hc with
          | zero hc => exact Interleaving.to_settled hcomm hb hc hs
  | succ n ih =>
      cases hb with
      | @succ _ b' _ hb' hbset hb =>
          cases hc with
          | @succ _ c' _ hc' hcset hc =>
              -- the rounds before settled in the same state
              obtain rfl : c' = b' := hbset.eq_of_fires (ih hb' hc' hcset)
              exact Interleaving.to_settled hcomm hb hc hs

end

end

/-! ## executions -/

section
variable {ι σ ε : Type} {run : ι → σ → Option (Option ε × σ)} {tick : σ → ε × σ}

theorem SettlesAt.rounds {s₀ : σ} {A : Nat → List ε × σ} (hA : SettlesAt run tick s₀ A)
    (k : Nat) : Rounds run tick ([], s₀) k (A k) := by
  induction k with
  | zero => exact .zero hA.first
  | succ k ih => exact .succ ih (hA.settled k) (hA.next k)

/-- **Progress**: every execution gets to where each round settles. -/
theorem SettlesAt.inevitable (hcomm : ∀ i j, i ≠ j → CommuteAt (run i) (run j)) {s₀ : σ}
    {A : Nat → List ε × σ} (hA : SettlesAt run tick s₀ A) (k : Nat) :
    Inevitable (Step run tick) (fun s => s = (A k).2) s₀ := by
  induction k with
  | zero =>
      obtain ⟨n, hn⟩ := takes_of_fires hA.first
      exact hn.inevitable hcomm (hA.settled 0)
  | succ k ih =>
      apply ih.trans
      rintro s rfl
      -- where a round has settled, the clock is all that can go on
      apply Inevitable.later ⟨_, _, .tick (hA.settled k)⟩
      intro e s' hstep
      cases hstep with
      | fire i hi =>
          rw [hA.settled k i] at hi
          contradiction
      | tick _ =>
          obtain ⟨n, hn⟩ := takes_of_fires (hA.next k)
          exact hn.inevitable hcomm (hA.settled (k + 1))

variable (hcomm : ∀ i j, i ≠ j → CommuteAt (run i) (run j))
variable (isTick : ε → Bool) (htick : ∀ s, isTick (tick s).1 = true)
variable (hfire : ∀ i s e s', run i s = some (some e, s') → isTick e = false)
include hcomm htick hfire

/-- **Schedule independence**: settled executions with the same number of ticks
have the same trace and the same state. -/
theorem exec_unique {s₀ s s' : σ} {tr tr' : List ε} (h : Exec (Step run tick) s₀ tr s)
    (h' : Exec (Step run tick) s₀ tr' s') (hs : Settled run s) (hs' : Settled run s')
    (hn : tr.countP isTick = tr'.countP isTick) : tr = tr' ∧ s = s' := by
  have hr := rounds_of_exec isTick htick hfire h
  have hr' := rounds_of_exec isTick htick hfire h'
  rw [hn] at hr
  have heq : (tr', s') = (tr, s) := hs.eq_of_fires (hr.to_settled hcomm hr' hs')
  obtain ⟨rfl, rfl⟩ := Prod.mk.inj heq
  exact ⟨rfl, rfl⟩

/-- Every execution is on its way from where its round began to where it
settles. -/
theorem SettlesAt.of_exec {s₀ s : σ} {tr : List ε} {A : Nat → List ε × σ}
    (hA : SettlesAt run tick s₀ A) (h : Exec (Step run tick) s₀ tr s) :
    ReflTransGen (Fires run) (tr, s) (A (tr.countP isTick)) ∧
      ∀ k, tr.countP isTick = k + 1 →
        ReflTransGen (Fires run) (ticked tick (A k)) (tr, s) := by
  have hr := rounds_of_exec isTick htick hfire h
  refine ⟨hr.to_settled hcomm (hA.rounds _) (hA.settled _), ?_⟩
  intro k hk
  rw [hk] at hr
  cases hr with
  | @succ _ a _ ha hset hb =>
      rw [hset.eq_of_fires (ha.to_settled hcomm (hA.rounds k) (hA.settled k))]
      exact hb

end

/-- The trace only grows. -/
theorem prefix_of_fires {ι σ ε : Type} {run : ι → σ → Option (Option ε × σ)} {a b : List ε × σ}
    (h : ReflTransGen (Fires run) a b) : a.1 <+: b.1 := by
  induction h with
  | refl => exact List.prefix_rfl
  | tail _ hstep ih =>
      obtain ⟨i, e, s, -, rfl⟩ := hstep
      exact ih.trans (List.prefix_append _ _)

end Interleaving
