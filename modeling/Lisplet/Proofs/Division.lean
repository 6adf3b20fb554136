import Lisplet.Builtin.Arithmetic
import Mathlib.Algebra.Order.Field.Rat
import Mathlib.Data.Rat.Floor
import Mathlib.Tactic.Linarith

/-!
# Division of integers

The exact quotient of two integers is a rational number. `%` leaves what is left
over when the quotient is rounded down, and `/` gives the quotient rounded toward
zero. Both hold over the whole range of 64-bit integers: the remainder always fits,
and only one quotient does not.
-/

namespace Lisplet

/-! ## Rounding -/

def towardZero (q : ℚ) : ℤ := if 0 ≤ q then ⌊q⌋ else ⌈q⌉

/-- A remainder between zero and the divisor is left over from the quotient rounded down. -/
theorem floor_of_remainder {a b q r : ℤ} (h : b * q + r = a) (hr : 0 ≤ r ∧ r < b ∨ b < r ∧ r ≤ 0) :
    ⌊(a / b : ℚ)⌋ = q := by
  have ha : (a : ℚ) = b * q + r := by exact_mod_cast h.symm
  rw [Int.floor_eq_iff, ha]
  rcases hr with ⟨h0, h1⟩ | ⟨h1, h0⟩
  · have hb : (0 : ℚ) < b := by exact_mod_cast (by omega : 0 < b)
    have h0' : (0 : ℚ) ≤ r := by exact_mod_cast h0
    have h1' : (r : ℚ) < b := by exact_mod_cast h1
    rw [le_div_iff₀ hb, div_lt_iff₀ hb]
    constructor <;> linarith
  -- dividing by a negative number turns both bounds round
  · have hb : (b : ℚ) < 0 := by exact_mod_cast (by omega : b < 0)
    have h0' : (r : ℚ) ≤ 0 := by exact_mod_cast h0
    have h1' : (b : ℚ) < r := by exact_mod_cast h1
    rw [le_div_iff_of_neg hb, div_lt_iff_of_neg hb]
    constructor <;> linarith

theorem natAbs_tmod_lt (a : ℤ) {b : ℤ} (hb : b ≠ 0) : (a.tmod b).natAbs < b.natAbs := by
  rw [Int.natAbs_tmod]
  exact Nat.mod_lt _ (Int.natAbs_pos.mpr hb)

theorem tmod_nonpos {a : ℤ} (b : ℤ) (ha : a ≤ 0) : a.tmod b ≤ 0 := by
  have := Int.tmod_nonneg b (Int.neg_nonneg_of_nonpos ha)
  rw [Int.neg_tmod] at this
  omega

theorem towardZero_div (a : ℤ) {b : ℤ} (hb : b ≠ 0) : towardZero (a / b : ℚ) = a.tdiv b := by
  have hsum := Int.mul_tdiv_add_tmod a b
  have hsmall := natAbs_tmod_lt a hb
  have hpos := Int.tmod_nonneg (a := a) b
  have hneg := tmod_nonpos (a := a) b
  unfold towardZero
  by_cases hq : 0 ≤ (a / b : ℚ)
  · rw [if_pos hq]
    apply floor_of_remainder hsum
    rcases div_nonneg_iff.mp hq with ⟨ha, hb'⟩ | ⟨ha, hb'⟩ <;> norm_cast at ha hb' <;> omega
  · -- the opposite quotient is positive, and rounding down turns into rounding up
    have hfloor : ⌊((-a : ℤ) / b : ℚ)⌋ = -a.tdiv b := by
      apply floor_of_remainder (r := -a.tmod b) (by linarith)
      rcases div_neg_iff.mp (not_le.mp hq) with ⟨ha, hb'⟩ | ⟨ha, hb'⟩ <;> norm_cast at ha hb' <;> omega
    rw [if_neg hq, ← neg_neg (a / b : ℚ), Int.ceil_neg, ← neg_div, ← Int.cast_neg, hfloor, neg_neg]

/-! ## Remainders -/

/-- What is left of `a` when `b` is taken away as often as the quotient, rounded down, says. -/
structure IsFloorMod (a b m : ℤ) : Prop where
  exact : m = a - b * ⌊(a / b : ℚ)⌋
  sign : m = 0 ∨ (m < 0 ↔ b < 0)
  small : m.natAbs < b.natAbs
  divides : b ∣ a - m

theorem isFloorMod_of_between {a b q m : ℤ} (h : b * q + m = a) (hm : 0 ≤ m ∧ m < b ∨ b < m ∧ m ≤ 0) :
    IsFloorMod a b m where
  exact := by rw [floor_of_remainder h hm]; omega
  sign := by omega
  small := by omega
  divides := ⟨q, by omega⟩

/-- Nothing overflows where the signs differ. -/
theorem toInt_add_of_signs {x y : Int64} (h : decide (x < 0) ≠ decide (y < 0)) :
    (x + y).toInt = x.toInt + y.toInt := by
  have hx := x.le_toInt
  have hx' := x.toInt_lt
  have hy := y.le_toInt
  have hy' := y.toInt_lt
  simp only [Int64.lt_iff_toInt_lt, Int64.toInt_zero, ne_eq, decide_eq_decide] at h
  rw [Int64.toInt_add]
  apply Int.bmod_eq_of_le <;> omega

theorem toInt_ne_zero {b : Int64} (hb : b ≠ 0) : b.toInt ≠ 0 := by
  rwa [ne_eq, ← Int64.toInt_zero, Int64.toInt_inj]

theorem isFloorMod_floorMod (a : Int64) {b : Int64} (hb : b ≠ 0) :
    IsFloorMod a.toInt b.toInt (Number.floorMod a b).toInt := by
  have hsum := Int.mul_tdiv_add_tmod a.toInt b.toInt
  have hsmall := natAbs_tmod_lt a.toInt (toInt_ne_zero hb)
  unfold Number.floorMod
  dsimp only
  split
  · rename_i h
    obtain ⟨hr, hsigns⟩ := h
    rw [toInt_add_of_signs hsigns, Int64.toInt_mod]
    rw [ne_eq, ← Int64.toInt_inj, Int64.toInt_mod, Int64.toInt_zero] at hr
    simp only [Int64.lt_iff_toInt_lt, Int64.toInt_mod, Int64.toInt_zero, ne_eq, decide_eq_decide] at hsigns
    -- the divisor added to the remainder comes off the quotient
    apply isFloorMod_of_between (q := a.toInt.tdiv b.toInt - 1)
    · linarith
    · omega
  · rename_i h
    rw [ne_eq, ← Int64.toInt_inj] at h
    simp only [Int64.lt_iff_toInt_lt, Int64.toInt_mod, Int64.toInt_zero, ne_eq, decide_eq_decide,
      not_and_or, not_not] at h
    rw [Int64.toInt_mod]
    apply isFloorMod_of_between hsum
    omega

/-! ## Quotients -/

theorem div_eq_ofInt (a b : Int64) : a / b = Int64.ofInt (a.toInt.tdiv b.toInt) := by
  rw [← Int64.toInt_inj, Int64.toInt_div, Int64.toInt_ofInt]

/-- One quotient alone does not fit. -/
theorem toInt_ofInt_tdiv_iff (a : Int64) {b : Int64} (hb : b ≠ 0) :
    (Int64.ofInt (a.toInt.tdiv b.toInt)).toInt = a.toInt.tdiv b.toInt ↔
      ¬ (a = Int64.minValue ∧ b = -1) := by
  rw [← div_eq_ofInt]
  constructor
  · rintro h ⟨rfl, rfl⟩
    exact absurd h (by decide)
  · intro h
    by_cases ha : a = Int64.minValue
    · exact Int64.toInt_div_of_ne_right a b fun hb => h ⟨ha, hb⟩
    · exact Int64.toInt_div_of_ne_left a b ha

namespace Builtin

/-- `%` and `/` on integers have a value unless the divisor is zero. Then `%` is what is left
over from the quotient rounded down, computed without overflow, and `/` is the quotient rounded
toward zero and wrapped to 64 bits. -/
theorem rem_floors_div_truncates (a b : Int64) :
    (rem (some (.int a)) (some (.int b)) = none ↔ b = 0) ∧
    (div (some (.int a)) (some (.int b)) = none ↔ b = 0) ∧
    (b ≠ 0 →
      rem (some (.int a)) (some (.int b)) = some (.int (Number.floorMod a b)) ∧
      IsFloorMod a.toInt b.toInt (Number.floorMod a b).toInt ∧
      (a % b ≠ 0 → decide (a % b < 0) ≠ decide (b < 0) →
        Number.floorMod a b = a % b + b ∧ (a % b + b).toInt = (a % b).toInt + b.toInt) ∧
      ∃ q, div (some (.int a)) (some (.int b)) = some (.int q) ∧
        q = Int64.ofInt (towardZero (a.toInt / b.toInt : ℚ)) ∧
        (q.toInt = towardZero (a.toInt / b.toInt : ℚ) ↔ ¬ (a = Int64.minValue ∧ b = -1))) := by
  by_cases hb : b = 0
  · simp [rem, div, operands?, hb]
  · have hround := towardZero_div a.toInt (toInt_ne_zero hb)
    refine ⟨by simp [rem, operands?, hb], by simp [div, operands?, hb], fun _ => ⟨?_, ?_, ?_, a / b, ?_, ?_, ?_⟩⟩
    · simp [rem, operands?, hb]
    · exact isFloorMod_floorMod a hb
    · intro hr hsigns
      exact ⟨if_pos ⟨hr, hsigns⟩, toInt_add_of_signs hsigns⟩
    · simp [div, operands?, hb]
    · rw [hround, div_eq_ofInt]
    · rw [hround, div_eq_ofInt, toInt_ofInt_tdiv_iff a hb]

/-- The quotient that does not fit, beside a remainder that does. -/
theorem rem_floors_div_truncates_minValue :
    (-1 : Int64) ≠ 0 ∧
    rem (some (.int Int64.minValue)) (some (.int (-1))) = some (.int 0) ∧
    IsFloorMod Int64.minValue.toInt (-1 : Int64).toInt 0 ∧
    ∃ q, div (some (.int Int64.minValue)) (some (.int (-1))) = some (.int q) ∧
      q.toInt ≠ towardZero (Int64.minValue.toInt / (-1 : Int64).toInt : ℚ) := by
  have hzero : Number.floorMod Int64.minValue (-1) = 0 := by decide
  obtain ⟨hrem, hmod, -, q, hdiv, -, hfits⟩ :=
    (rem_floors_div_truncates Int64.minValue (-1)).2.2 (by decide)
  rw [hzero] at hrem hmod
  exact ⟨by decide, hrem, hmod, q, hdiv, fun h => hfits.mp h ⟨rfl, rfl⟩⟩

end Builtin

end Lisplet
