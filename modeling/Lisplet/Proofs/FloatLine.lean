import Lisplet.Number.Quanta
import Mathlib.Algebra.Order.Ring.Int
import Mathlib.Data.Prod.Lex

/-!
# Floats on a line

Every float that is a number has a place on a line, and two of them compare as
their places do. What is not a number compares with nothing.
-/

namespace Lisplet.Number

open Float.Model Float.Model.UnpackedFloat

/-- Below, at or above zero, and how far from it. Both zeros stand in one place. -/
def place : UnpackedFloat → ℤ ×ₗ ℤ ×ₗ ℤ
  | .infinity .negative => toLex (-2, toLex (0, 0))
  | .finite .negative m e _ => toLex (-1, toLex (-e, -(m : ℤ)))
  | .zero _ | .notANumber => toLex (0, toLex (0, 0))
  | .finite .positive m e _ => toLex (1, toLex (e, (m : ℤ)))
  | .infinity .positive => toLex (2, toLex (0, 0))

section
variable {x y : UnpackedFloat} (hx : x ≠ .notANumber) (hy : y ≠ .notANumber)
include hx hy

theorem compare_eq_lt_iff : x.compare y = some .lt ↔ place x < place y := by
  rcases x with (_ | _) | _ | (_ | _) | ⟨_ | _, m, e, hm⟩ <;>
    rcases y with (_ | _) | _ | (_ | _) | ⟨_ | _, m', e', hm'⟩ <;>
    first
    | exact absurd rfl hx
    | exact absurd rfl hy
    | dsimp only [UnpackedFloat.compare, place]
      simp [Prod.Lex.toLex_lt_toLex, Ordering.then_eq_lt, Ordering.then_eq_gt, compare_lt_iff_lt,
        compare_gt_iff_gt]
  rfl

theorem compare_eq_eq_iff : x.compare y = some .eq ↔ place x = place y := by
  rcases x with (_ | _) | _ | (_ | _) | ⟨_ | _, m, e, hm⟩ <;>
    rcases y with (_ | _) | _ | (_ | _) | ⟨_ | _, m', e', hm'⟩ <;>
    first
    | exact absurd rfl hx
    | exact absurd rfl hy
    | dsimp only [UnpackedFloat.compare, place]
      simp [Ordering.then_eq_eq]
  · rfl
  · rfl

end

theorem compare_of_notANumber {x y : UnpackedFloat} (h : x = .notANumber ∨ y = .notANumber) :
    x.compare y = none := by
  rcases h with rfl | rfl
  · rfl
  · cases x <;> rfl

/-! ## Machine floats -/

def lineOf (x : Float) : ℤ ×ₗ ℤ ×ₗ ℤ := place x.toModel.unpack

section
variable {x y : Float}

theorem isNaN_eq_false_iff : x.isNaN = false ↔ x.toModel.unpack ≠ .notANumber := by
  change x.toModel.unpack.isNaN = false ↔ _
  cases x.toModel.unpack with
  | notANumber => exact iff_of_false Bool.noConfusion fun h => h rfl
  | _ => exact iff_of_true rfl UnpackedFloat.noConfusion

theorem compare_eq_none_of_isNaN (h : ¬ (x.isNaN = false ∧ y.isNaN = false)) :
    x.toModel.unpack.compare y.toModel.unpack = none := by
  rw [isNaN_eq_false_iff, isNaN_eq_false_iff, not_and_or, not_not, not_not] at h
  exact compare_of_notANumber h

theorem lt_iff_lineOf : x < y ↔ x.isNaN = false ∧ y.isNaN = false ∧ lineOf x < lineOf y := by
  have hlt : x < y ↔ x.toModel.unpack.compare y.toModel.unpack = some .lt := by
    change decide ((x.toModel.unpack.compare y.toModel.unpack == some .lt) = true) = true ↔ _
    rw [decide_eq_true_iff, beq_iff_eq]
  rw [hlt, ← and_assoc]
  by_cases h : x.isNaN = false ∧ y.isNaN = false
  · rw [compare_eq_lt_iff (isNaN_eq_false_iff.mp h.1) (isNaN_eq_false_iff.mp h.2)]
    exact (and_iff_right h).symm
  · rw [compare_eq_none_of_isNaN h]
    exact iff_of_false (by decide) fun hboth => h hboth.1

theorem beq_iff_lineOf :
    (x == y) = true ↔ x.isNaN = false ∧ y.isNaN = false ∧ lineOf x = lineOf y := by
  have heq : (x == y) = true ↔ x.toModel.unpack.compare y.toModel.unpack = some .eq := by
    change (x.toModel.unpack.compare y.toModel.unpack == some .eq) = true ↔ _
    exact beq_iff_eq
  rw [heq, ← and_assoc]
  by_cases h : x.isNaN = false ∧ y.isNaN = false
  · rw [compare_eq_eq_iff (isNaN_eq_false_iff.mp h.1) (isNaN_eq_false_iff.mp h.2)]
    exact (and_iff_right h).symm
  · rw [compare_eq_none_of_isNaN h]
    exact iff_of_false (by decide) fun hboth => h hboth.1

theorem beq_swap (x y : Float) : (x == y) = (y == x) := by
  rw [Bool.eq_iff_iff, beq_iff_lineOf, beq_iff_lineOf, and_left_comm, eq_comm (a := lineOf x)]

end

end Lisplet.Number
