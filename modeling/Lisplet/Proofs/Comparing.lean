import Lisplet.Builtin.Comparison
import Lisplet.Proofs.Widening
import Mathlib.Data.String.Basic

/-!
# One order of values

Integers compare exactly and an integer with a float after rounding. Both come from
one order: by the place on the line of floats, and in one place by the integers
themselves. So values of different kinds are never ordered in a circle.
-/

namespace Lisplet.Builtin

open Number

/-! ## Numbers -/

theorem trichotomy_swap {lt eq gt : Bool} (heq : eq = true → lt = false ∧ gt = false)
    (hlt : lt = true → gt = false) : trichotomy gt eq lt = (trichotomy lt eq gt).map .swap := by
  cases lt <;> cases eq <;> cases gt <;> simp_all [trichotomy]

theorem trichotomy_eq_lt_iff {lt eq gt : Bool} : trichotomy lt eq gt = some .lt ↔ lt = true := by
  cases lt <;> cases eq <;> cases gt <;> simp [trichotomy]

namespace Numeric

def Below : Numeric → Numeric → Prop
  | .int a, .int b => a < b
  | x, y => x.toFloat < y.toFloat

def line (x : Numeric) : ℤ ×ₗ ℤ ×ₗ ℤ := lineOf x.toFloat

variable {x y z : Numeric}

theorem order_eq_lt_iff : x.order y = some .lt ↔ x.Below y := by
  cases x <;> cases y <;> simp [order, Below, trichotomy_eq_lt_iff]

theorem float_swap (a b : Float) :
    trichotomy (b < a) (b == a) (a < b) = (trichotomy (a < b) (a == b) (b < a)).map .swap := by
  rw [beq_swap b a]
  apply trichotomy_swap
  · intro heq
    obtain ⟨-, -, hline⟩ := beq_iff_lineOf.mp heq
    simp only [decide_eq_false_iff_not, lt_iff_lineOf, hline, lt_irrefl, and_false, not_false_eq_true,
      and_self]
  · intro hlt
    obtain ⟨-, -, hline⟩ := lt_iff_lineOf.mp (of_decide_eq_true hlt)
    simp only [decide_eq_false_iff_not, lt_iff_lineOf, not_and]
    exact fun _ _ => not_lt_of_gt hline

theorem order_swap (x y : Numeric) : y.order x = (x.order y).map .swap := by
  cases x with
  | float a => cases y <;> exact float_swap _ _
  | int a =>
    cases y with
    | float b => exact float_swap _ _
    | int b =>
      simp only [order]
      rw [BEq.comm (a := b)]
      apply trichotomy_swap
      · intro heq
        obtain rfl := beq_iff_eq.mp heq
        simp [Int64.lt_irrefl]
      · intro hlt
        simpa using Int64.le_of_lt (of_decide_eq_true hlt)

/-- A number is smaller by its place, or as an integer in the same place. -/
theorem below_iff : x.Below y ↔ x.toFloat.isNaN = false ∧ y.toFloat.isNaN = false ∧
    (x.line < y.line ∨ x.line = y.line ∧ ∃ a b, x = .int a ∧ y = .int b ∧ a < b) := by
  cases x with
  | float a => cases y <;> simp [Below, line, lt_iff_lineOf]
  | int a =>
    cases y with
    | float b => simp [Below, line, lt_iff_lineOf]
    | int b =>
      -- widening may put two integers in one place, so only `≤` carries over
      have hmono {m n : Int64} (h : m ≤ n) : line (.int m) ≤ line (.int n) :=
        lineOf_widen_mono (Int64.le_iff_toInt_le.mp h)
      simp only [Below, toFloat, isNaN_widen, true_and]
      constructor
      · intro hlt
        rcases lt_or_eq_of_le (hmono (Int64.le_of_lt hlt)) with h | h
        · exact .inl h
        · exact .inr ⟨h, a, b, rfl, rfl, hlt⟩
      · rintro (h | ⟨-, _, _, ha, hb, hlt⟩)
        · by_contra hle
          exact absurd (hmono (Int64.not_lt.mp hle)) (not_le_of_gt h)
        · cases ha
          cases hb
          exact hlt

theorem Below.irrefl (x : Numeric) : ¬ x.Below x := by
  rw [below_iff]
  rintro ⟨-, -, h | ⟨-, a, b, rfl, hb, hlt⟩⟩
  · exact lt_irrefl _ h
  · cases hb
    exact Int64.lt_irrefl hlt

theorem Below.trans (h : x.Below y) (h' : y.Below z) : x.Below z := by
  rw [below_iff] at h h' ⊢
  obtain ⟨hx, -, h⟩ := h
  obtain ⟨-, hz, h'⟩ := h'
  refine ⟨hx, hz, ?_⟩
  rcases h with h | ⟨h, a, b, rfl, rfl, hab⟩ <;> rcases h' with h' | ⟨h', c, d, hc, rfl, hcd⟩
  · exact .inl (h.trans h')
  · exact .inl (h'.symm ▸ h)
  · exact .inl (h ▸ h')
  · cases hc
    exact .inr ⟨h.trans h', a, d, rfl, rfl, Int64.lt_trans hab hcd⟩

end Numeric

/-! ## Values -/

def isText : Value → Bool
  | .str _ _ => true
  | _ => false

def isNumber : Value → Bool
  | .bool _ | .int _ | .float _ => true
  | _ => false

def Comparable (a b : Option Value) : Prop :=
  (a.any isText ∧ b.any isText) ∨ (a.any isNumber ∧ b.any isNumber)

inductive Exact : Option Value → Option Value → Prop
  | bool (a b : Bool) : Exact (some (.bool a)) (some (.bool b))
  | int (a b : Int64) : Exact (some (.int a)) (some (.int b))
  | str (r r' : Ref) (s t : String) : Exact (some (.str r s)) (some (.str r' t))

inductive Precedes : Option Value → Option Value → Prop
  | text {r r' : Ref} {s t : String} : s < t → Precedes (some (.str r s)) (some (.str r' t))
  | number {v w : Value} {x y : Numeric} : numeric? v = some x → numeric? w = some y → x.Below y →
      Precedes (some v) (some w)

theorem text_of_any {a : Option Value} (h : a.any isText = true) : ∃ r s, a = some (.str r s) := by
  rcases a with _ | v
  · cases h
  · cases v with
    | str r s => exact ⟨r, s, rfl⟩
    | _ => cases h

theorem number_of_any {a : Option Value} (h : a.any isNumber = true) :
    ∃ v x, a = some v ∧ numeric? v = some x := by
  rcases a with _ | v
  · cases h
  · cases v with
    | bool b => exact ⟨_, _, rfl, rfl⟩
    | int n => exact ⟨_, _, rfl, rfl⟩
    | float x => exact ⟨_, _, rfl, rfl⟩
    | _ => cases h

theorem isNumber_of_numeric? {v : Value} {x : Numeric} (h : numeric? v = some x) : isNumber v = true := by
  cases v with
  | bool b => rfl
  | int n => rfl
  | float x => rfl
  | _ => cases h

theorem order?_number {v w : Value} {x y : Numeric} (hv : numeric? v = some x)
    (hw : numeric? w = some y) : order? (some v) (some w) = some (x.order y) := by
  cases v <;> cases hv <;> cases w <;> cases hw <;> rfl

theorem text_swap (s t : String) :
    trichotomy (t < s) (t == s) (s < t) = (trichotomy (s < t) (s == t) (t < s)).map .swap := by
  rw [BEq.comm (a := t)]
  apply trichotomy_swap
  · intro heq
    simp [beq_iff_eq.mp heq]
  · intro hlt
    exact decide_eq_false (lt_asymm (of_decide_eq_true hlt))

theorem precedes_text_iff {r r' : Ref} {s t : String} :
    Precedes (some (.str r s)) (some (.str r' t)) ↔ s < t := by
  constructor
  · rintro (h | ⟨hv, -, -⟩)
    · exact h
    · cases hv
  · exact .text

theorem precedes_number_iff {v w : Value} {x y : Numeric} (hv : numeric? v = some x)
    (hw : numeric? w = some y) : Precedes (some v) (some w) ↔ x.Below y := by
  constructor
  · rintro (_ | ⟨hv', hw', h⟩)
    · cases hv
    · rw [hv] at hv'
      rw [hw] at hw'
      cases hv'
      cases hw'
      exact h
  · exact .number hv hw

section
variable {a b c : Option Value}

theorem Comparable.symm (h : Comparable a b) : Comparable b a :=
  h.imp And.symm And.symm

theorem order?_eq_none (h : ¬ Comparable a b) : order? a b = none := by
  unfold order?
  split
  · exact absurd (.inl ⟨rfl, rfl⟩) h
  · split
    · rename_i hv hw
      exact absurd (.inr ⟨isNumber_of_numeric? hv, isNumber_of_numeric? hw⟩) h
    · rfl
  · rfl

theorem order?_swap (a b : Option Value) : order? b a = (order? a b).map (Option.map .swap) := by
  by_cases h : Comparable a b
  · rcases h with ⟨ha, hb⟩ | ⟨ha, hb⟩
    · obtain ⟨r, s, rfl⟩ := text_of_any ha
      obtain ⟨r', t, rfl⟩ := text_of_any hb
      exact congrArg some (text_swap s t)
    · obtain ⟨v, x, rfl, hv⟩ := number_of_any ha
      obtain ⟨w, y, rfl, hw⟩ := number_of_any hb
      rw [order?_number hv hw, order?_number hw hv, Numeric.order_swap x y]
      rfl
  · rw [order?_eq_none h, order?_eq_none fun h' => h h'.symm]
    rfl

/-- What can be compared has an answer, and it says whether the first value is smaller. -/
theorem order?_of_comparable (h : Comparable a b) :
    ∃ o, order? a b = some o ∧ (o = some .lt ↔ Precedes a b) := by
  rcases h with ⟨ha, hb⟩ | ⟨ha, hb⟩
  · obtain ⟨r, s, rfl⟩ := text_of_any ha
    obtain ⟨r', t, rfl⟩ := text_of_any hb
    refine ⟨_, rfl, ?_⟩
    rw [trichotomy_eq_lt_iff, decide_eq_true_iff, precedes_text_iff]
  · obtain ⟨v, x, rfl, hv⟩ := number_of_any ha
    obtain ⟨w, y, rfl, hw⟩ := number_of_any hb
    refine ⟨_, order?_number hv hw, ?_⟩
    rw [Numeric.order_eq_lt_iff, precedes_number_iff hv hw]

theorem less_eq_greater (a b : Option Value) : less a b = greater b a := by
  rw [less, greater, order?_swap a b, Option.map_map]
  congr 1
  funext o
  rcases o with _ | (_ | _ | _) <;> rfl

theorem less_eq_none_iff : less a b = none ↔ ¬ Comparable a b := by
  rw [less, Option.map_eq_none_iff]
  refine ⟨fun hnone h => ?_, order?_eq_none⟩
  obtain ⟨o, ho, -⟩ := order?_of_comparable h
  rw [hnone] at ho
  cases ho

open Classical in
theorem less_of_comparable (h : Comparable a b) : less a b = some (.bool (decide (Precedes a b))) := by
  obtain ⟨o, ho, hlt⟩ := order?_of_comparable h
  rw [less, ho, Option.map_some, ← hlt]
  congr 2
  rw [Bool.eq_iff_iff]
  simp

theorem Precedes.comparable (h : Precedes a b) : Comparable a b := by
  cases h with
  | text h => exact .inl ⟨rfl, rfl⟩
  | number hv hw h => exact .inr ⟨isNumber_of_numeric? hv, isNumber_of_numeric? hw⟩

theorem less_eq_true_iff : less a b = some (.bool true) ↔ Precedes a b := by
  classical
  by_cases h : Comparable a b
  · simp [less_of_comparable h]
  · rw [less_eq_none_iff.mpr h]
    exact iff_of_false (by simp) fun h' => h h'.comparable

theorem less_eq_false_iff : less a b = some (.bool false) ↔ Comparable a b ∧ ¬ Precedes a b := by
  classical
  by_cases h : Comparable a b
  · simp [less_of_comparable h, h]
  · rw [less_eq_none_iff.mpr h]
    exact iff_of_false (by simp) fun h' => h h'.1

theorem Precedes.irrefl (a : Option Value) : ¬ Precedes a a := by
  rintro (h | ⟨hv, hw, h⟩)
  · exact lt_irrefl _ h
  · rw [hv] at hw
    cases hw
    exact Numeric.Below.irrefl _ h

theorem Precedes.trans (h : Precedes a b) (h' : Precedes b c) : Precedes a c := by
  cases h with
  | text h =>
    cases h' with
    | text h' => exact .text (h.trans h')
    | number hv _ _ => cases hv
  | number hv hw h =>
    cases h' with
    | text _ => cases hw
    | number hw' hz h' =>
      rw [hw] at hw'
      cases hw'
      exact .number hv hz (h.trans h')

theorem equals_comparable (h : equals a b = true) : Comparable a b := by
  unfold equals at h
  split at h
  · exact .inr ⟨rfl, rfl⟩
  · exact .inr ⟨rfl, rfl⟩
  · exact .inr ⟨rfl, rfl⟩
  · exact .inl ⟨rfl, rfl⟩
  · cases h

theorem not_precedes_of_equals (h : equals a b = true) : ¬ Precedes a b := by
  unfold equals at h
  split at h
  · rw [beq_iff_eq.mp h]
    exact Precedes.irrefl _
  · rw [beq_iff_eq.mp h]
    exact Precedes.irrefl _
  · obtain ⟨-, -, hline⟩ := beq_iff_lineOf.mp h
    rw [precedes_number_iff rfl rfl]
    simp [Numeric.Below, Numeric.toFloat, lt_iff_lineOf, hline]
  · rw [precedes_text_iff, beq_iff_eq.mp h]
    exact lt_irrefl _
  · cases h

theorem equals_comm (a b : Option Value) : equals a b = equals b a := by
  unfold equals
  split
  · exact BEq.comm
  · exact BEq.comm
  · exact beq_swap _ _
  · exact BEq.comm
  · split <;> simp_all

/-- Of two booleans, integers or strings one is smaller, unless they are equal. -/
theorem Exact.total (h : Exact a b) : Precedes a b ∨ Precedes b a ∨ equals a b = true := by
  cases h with
  | bool a b =>
    rw [precedes_number_iff rfl rfl, precedes_number_iff rfl rfl]
    cases a <;> cases b <;> simp [Numeric.Below, equals]
  | int a b =>
    rw [precedes_number_iff rfl rfl, precedes_number_iff rfl rfl]
    simp only [Numeric.Below, equals, beq_iff_eq, Int64.lt_iff_toInt_lt, ← Int64.toInt_inj]
    omega
  | str r r' s t =>
    rw [precedes_text_iff, precedes_text_iff]
    simp only [equals, beq_iff_eq]
    rcases lt_trichotomy s t with h | h | h
    · exact .inl h
    · exact .inr (.inr h)
    · exact .inr (.inl h)

end

/-- Smaller and greater mirror each other and have an answer for two strings and for two of
boolean, integer and float. Smaller is a strict order, also across kinds and for integers that no
float is equal to; equal values are neither smaller nor greater. Of two booleans, two integers or
two strings exactly one is smaller, greater or equal. -/
theorem one_order_across_kinds (a b c : Option Value) :
    less a b = greater b a ∧
    (less a b = none ↔ ¬ Comparable a b) ∧ (greater a b = none ↔ ¬ Comparable a b) ∧
    less a a ≠ some (.bool true) ∧
    (less a b = some (.bool true) → less b a ≠ some (.bool true)) ∧
    (less a b = some (.bool true) → less b c = some (.bool true) → less a c = some (.bool true)) ∧
    (equals a b = true → less a b = some (.bool false) ∧ greater a b = some (.bool false)) ∧
    (Exact a b →
      (less a b = some (.bool true) ∧ greater a b = some (.bool false) ∧ equals a b = false) ∨
      (less a b = some (.bool false) ∧ greater a b = some (.bool true) ∧ equals a b = false) ∨
      (less a b = some (.bool false) ∧ greater a b = some (.bool false) ∧ equals a b = true)) := by
  have hneither (h : equals a b = true) : less a b = some (.bool false) ∧ less b a = some (.bool false) := by
    have h' : equals b a = true := equals_comm a b ▸ h
    exact ⟨less_eq_false_iff.mpr ⟨equals_comparable h, not_precedes_of_equals h⟩,
      less_eq_false_iff.mpr ⟨equals_comparable h', not_precedes_of_equals h'⟩⟩
  have hone {x y : Option Value} (h : Precedes x y) : less x y = some (.bool true) ∧
      less y x = some (.bool false) ∧ equals x y = false := by
    refine ⟨less_eq_true_iff.mpr h, less_eq_false_iff.mpr ⟨h.comparable.symm, ?_⟩, ?_⟩
    · exact fun h' => Precedes.irrefl x (h.trans h')
    · exact Bool.eq_false_iff.mpr fun heq => not_precedes_of_equals heq h
  rw [← less_eq_greater b a]
  refine ⟨less_eq_greater a b, less_eq_none_iff, ?_, ?_, ?_, ?_, hneither, ?_⟩
  · rw [less_eq_none_iff, not_iff_not]
    exact ⟨Comparable.symm, Comparable.symm⟩
  · rw [ne_eq, less_eq_true_iff]
    exact Precedes.irrefl a
  · simp only [ne_eq, less_eq_true_iff]
    exact fun h h' => Precedes.irrefl a (h.trans h')
  · simp only [less_eq_true_iff]
    exact Precedes.trans
  · intro h
    rcases h.total with h | h | h
    · exact .inl (hone h)
    · obtain ⟨hless, hgreater, heq⟩ := hone h
      exact .inr (.inl ⟨hgreater, hless, equals_comm a b ▸ heq⟩)
    · exact .inr (.inr ⟨(hneither h).1, (hneither h).2, h⟩)

end Lisplet.Builtin
