import Mathlib.Algebra.Ring.Int.Defs
import Mathlib.Algebra.Ring.Nat
import Mathlib.Data.Int.Basic
/-!
# Machine numbers

Integers that wrap at 64 bits, and the integral values of a double.
-/
namespace GudeAgents.Framework
def wrap64 (x : Int) : Int := x.bmod (2 ^ 64)
def Fits64 (x : Int) : Prop := -2 ^ 63 ≤ x ∧ x < 2 ^ 63

instance (x : Int) : Decidable (Fits64 x) := inferInstanceAs (Decidable (_ ∧ _))

theorem Fits64.wrap64_eq {x : Int} (h : Fits64 x) : wrap64 x = x := by
  apply Int.bmod_eq_of_le
  · exact h.1
  · exact h.2
theorem wrap64_of_ge {x : Int} (h : 2 ^ 63 ≤ x) (hlt : x < 2 ^ 64) : wrap64 x = x - 2 ^ 64 := by
  simp only [wrap64,Int.bmod]
  split <;> omega
theorem wrap64_fits (x : Int) : Fits64 (wrap64 x) :=
  ⟨Int.le_bmod (by decide),Int.bmod_lt (by decide)⟩
@[simp] theorem wrap64_add_wrap64_left (x y : Int) : wrap64 (wrap64 x + y) = wrap64 (x + y) :=
  Int.bmod_add_bmod
/-- The double nearest to a natural number, ties to an even significand. -/
def roundFloat (n : Nat) : Nat :=
  if n < 2 ^ 53 then n
  else
    let e := n.log2 - 52
    let q := n / 2 ^ e
    let r := n % 2 ^ e
    let q := if 2 ^ e < 2 * r ∨ (2 ^ e = 2 * r ∧ q % 2 = 1) then q + 1 else q
    q * 2 ^ e
def toFloat64 (n : Int) : Int := n.sign * roundFloat n.natAbs

theorem toFloat64_eq {n : Int} (h : n.natAbs < 2 ^ 53) : toFloat64 n = n := by
  rw [toFloat64,roundFloat,if_pos h,Int.sign_mul_natAbs]
end GudeAgents.Framework
