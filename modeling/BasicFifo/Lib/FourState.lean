/-!
# FourState

Four-state logic values and vectors, as a hardware simulator keeps them.

A vector is stored in the two-plane encoding of the simulator interface:
bit `i` is read off the value plane `aval` and the unknown plane `bval`, with
`(0,0)`, `(1,0)`, `(0,1)`, `(1,1)` standing for `0`, `1`, `z`, `x`.  The
encoding is canonical, so *case equality* (`===`) of two vectors is equality
of their planes (`LogicVec.ext_bit`) and stays decidable by evaluation.

Nothing here depends on the design under verification.
-/

namespace FourState

/-- One four-state bit. -/
inductive Logic where
  | zero
  | one
  | x
  | z
deriving DecidableEq, Repr

/-- A two-state bit seen as a four-state one. -/
def Logic.ofBool : Bool → Logic
  | false => .zero
  | true => .one

theorem Logic.ofBool_inj {a b : Bool} : Logic.ofBool a = Logic.ofBool b ↔ a = b := by
  cases a <;> cases b <;> decide

/-- An `n`-bit four-state vector: value plane and unknown plane. -/
@[ext] structure LogicVec (n : Nat) where
  aval : BitVec n
  bval : BitVec n
deriving DecidableEq, Repr

namespace LogicVec

/-- Bit `i` of a vector. -/
def bit (v : LogicVec n) (i : Nat) : Logic :=
  match v.aval.getLsbD i, v.bval.getLsbD i with
  | false, false => .zero
  | true, false => .one
  | false, true => .z
  | true, true => .x

/-- A two-state word assigned to a four-state variable. -/
def ofBits (b : BitVec n) : LogicVec n := ⟨b, 0⟩

/-- The all-unknown vector `'x`. -/
def allX : LogicVec n := ⟨BitVec.allOnes n, BitVec.allOnes n⟩

/-- A four-state word assigned to a two-state variable: `x` and `z` bits
become `0`. -/
def toBits (v : LogicVec n) : BitVec n := v.aval &&& ~~~v.bval

/-- Case equality is bitwise: two vectors are equal exactly when all their
bits are. -/
theorem ext_bit {v w : LogicVec n} : v = w ↔ ∀ i < n, v.bit i = w.bit i := by
  constructor
  · intro h i _
    rw [h]
  · intro h
    have hplanes : ∀ i, i < n →
        v.aval.getLsbD i = w.aval.getLsbD i ∧ v.bval.getLsbD i = w.bval.getLsbD i := by
      intro i hi
      have hbit := h i hi
      simp only [bit] at hbit
      revert hbit
      cases v.aval.getLsbD i <;> cases w.aval.getLsbD i <;>
        cases v.bval.getLsbD i <;> cases w.bval.getLsbD i <;> simp
    apply LogicVec.ext
    · exact BitVec.eq_of_getLsbD_eq fun i hi => (hplanes i hi).1
    · exact BitVec.eq_of_getLsbD_eq fun i hi => (hplanes i hi).2

theorem ofBits_inj {a b : BitVec n} : ofBits a = ofBits b ↔ a = b := by
  simp [ofBits]

/-- A two-state variable holds what was assigned to it. -/
@[simp] theorem toBits_ofBits (b : BitVec n) : toBits (ofBits b) = b := by
  simp [toBits, ofBits]

/-- An unknown vector of positive width is no two-state word. -/
theorem allX_ne_ofBits (hn : 0 < n) (b : BitVec n) : allX ≠ ofBits b := by
  intro h
  have hb : BitVec.allOnes n = 0 := congrArg LogicVec.bval h
  have hbit : (BitVec.allOnes n).getLsbD 0 = (0 : BitVec n).getLsbD 0 := by rw [hb]
  simp [hn] at hbit

end LogicVec

/-- Types with an unknown value, the contents of a variable never assigned. -/
class HasX (α : Type) where
  x : α

instance : HasX (LogicVec n) := ⟨LogicVec.allX⟩

instance : HasX (Option β) := ⟨none⟩

end FourState
