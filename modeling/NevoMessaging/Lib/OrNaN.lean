import Mathlib.Data.Int.Order.Basic
import Mathlib.Order.Lattice

/-!
# Numbers with NaN

Every comparison with `nan` is false, and so is `===`.
-/

inductive OrNaN (T : Type)
  | num (x : T)
  | nan
deriving DecidableEq

namespace OrNaN

variable {T : Type}

instance : Coe T (OrNaN T) := ⟨num⟩

instance {n : Nat} [OfNat T n] : OfNat (OrNaN T) n := ⟨num (OfNat.ofNat n)⟩

/-- Both are numbers, and in the relation. -/
def Lifts (r : T → T → Prop) : OrNaN T → OrNaN T → Prop
  | num x, num y => r x y
  | _, _ => False

instance (r : T → T → Prop) [DecidableRel r] : DecidableRel (Lifts r)
  | num x, num y => inferInstanceAs (Decidable (r x y))
  | num _, nan | nan, num _ | nan, nan => inferInstanceAs (Decidable False)

instance [LE T] : LE (OrNaN T) := ⟨Lifts (· ≤ ·)⟩

instance [LT T] : LT (OrNaN T) := ⟨Lifts (· < ·)⟩

instance [LE T] [DecidableLE T] : DecidableLE (OrNaN T) :=
  inferInstanceAs (DecidableRel (Lifts (· ≤ ·)))

instance [LT T] [DecidableLT T] : DecidableLT (OrNaN T) :=
  inferInstanceAs (DecidableRel (Lifts (· < ·)))

/-- `a === b` -/
def same [DecidableEq T] (a b : OrNaN T) : Bool := Lifts Eq a b

theorem same_iff [DecidableEq T] {a b : OrNaN T} : a.same b ↔ a = b ∧ a ≠ nan := by
  unfold same
  rw [decide_eq_true_eq]
  cases a <;> cases b <;> simp [Lifts]

def getD : OrNaN T → T → T
  | num x, _ => x
  | nan, x => x

theorem le_getD [LE T] {x : T} {a : OrNaN T} (h : num x ≤ a) (y : T) : x ≤ a.getD y := by
  cases a with
  | nan => exact absurd h id
  | num _ => exact h

variable [LinearOrder T] {a b : OrNaN T}

theorem not_num_lt {x : T} (ha : a ≠ nan) : ¬ num x < a ↔ a ≤ num x := by
  cases a with
  | nan => exact absurd rfl ha
  | num y => exact not_lt (a := x) (b := y)

theorem le_of_not_lt (ha : a ≠ nan) (hb : b ≠ nan) (h : ¬ b < a) : a ≤ b := by
  cases b with
  | nan => exact absurd rfl hb
  | num y => exact (not_num_lt ha).mp h

theorem le_of_lt (h : a < b) : a ≤ b := by
  cases a with
  | nan => exact absurd h id
  | num x =>
    cases b with
    | nan => exact absurd h id
    | num y => exact Std.le_of_lt (a := x) (b := y) h

theorem le_trans {c : OrNaN T} (h : a ≤ b) (h' : b ≤ c) : a ≤ c := by
  cases a with
  | nan => exact absurd h id
  | num x =>
    cases b with
    | nan => exact absurd h id
    | num y =>
      cases c with
      | nan => exact absurd h' id
      | num z => exact Preorder.le_trans x y z h h'

end OrNaN
