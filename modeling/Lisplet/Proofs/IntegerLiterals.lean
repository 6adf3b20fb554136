import Lisplet.Proofs.ReadBack
import Mathlib.Data.List.Forall2
import Mathlib.Data.Nat.Digits.Defs

/-!
# Integer literals and their values

The grammar of integer literals, with the digits that a literal spells and the base
in which it does. What is read is the value of the digits, brought into 64 bits:
all of the value is there, or the nearest number that fits. Gathering the digits in
64 bits and stopping at the first overflow comes to the same.
-/

namespace Lisplet.Number

/-! ## The grammar -/

def digitChars : List Char := "0123456789abcdef".toList

/-- The character is the digit `d` of a base, a letter in upper or lower case. -/
structure IsDigit (base : Nat) (c : Char) (d : Nat) : Prop where
  small : d < base
  spelled : digitChars[d]? = some c.toLower

instance (base : Nat) (c : Char) (d : Nat) : Decidable (IsDigit base c d) :=
  decidable_of_iff (d < base ∧ digitChars[d]? = some c.toLower)
    ⟨fun h => ⟨h.1, h.2⟩, fun h => ⟨h.small, h.spelled⟩⟩

abbrev Digits (base : Nat) : List Char → List Nat → Prop := List.Forall₂ (IsDigit base)

/-- Literals without a sign: `0[xX][0-9a-fA-F]+`, `0[0-7]+`, `0` and `[1-9][0-9]*`. -/
inductive Unsigned : List Char → Nat → List Nat → Prop
  | hex {x : Char} {cs : List Char} {ds : List Nat} : x = 'x' ∨ x = 'X' → cs ≠ [] → Digits 16 cs ds →
      Unsigned ('0' :: x :: cs) 16 ds
  | octal {cs : List Char} {ds : List Nat} : cs ≠ [] → Digits 8 cs ds → Unsigned ('0' :: cs) 8 ds
  | zero : Unsigned ['0'] 10 [0]
  | decimal {c : Char} {cs : List Char} {ds : List Nat} : c ≠ '0' → Digits 10 (c :: cs) ds →
      Unsigned (c :: cs) 10 ds

/-- Literals, with the sign, the base and the digits that they spell. -/
inductive Literal : List Char → Bool → Nat → List Nat → Prop
  | bare {cs : List Char} {base : Nat} {ds : List Nat} : Unsigned cs base ds → Literal cs false base ds
  | plus {cs : List Char} {base : Nat} {ds : List Nat} : Unsigned cs base ds →
      Literal ('+' :: cs) false base ds
  | minus {cs : List Char} {base : Nat} {ds : List Nat} : Unsigned cs base ds →
      Literal ('-' :: cs) true base ds

def signed (negative : Bool) (n : Nat) : Int :=
  if negative then -(n : Int) else n

def valueOf (negative : Bool) (base : Nat) (ds : List Nat) : Int :=
  signed negative (Nat.ofDigits base ds.reverse)

/-! ## Digits -/

theorem digitValue_lt {c : Char} {d : Nat} (h : digitValue c = some d) : d < 16 ∧ c.toNat < 128 := by
  have hval : c.val.toNat = c.toNat := rfl
  simp only [digitValue, Char.le_def, UInt32.le_iff_toNat_le, Char.reduceVal, UInt32.reduceToNat, hval,
    Char.reduceToNat] at h
  grind

theorem digitChars_lt {c : Char} {d : Nat} (h : digitChars[d]? = some c.toLower) :
    d < 16 ∧ c.toNat < 128 := by
  have hlow : digitChars.all (·.toNat < 128) = true := by decide
  have hc := of_decide_eq_true (List.all_eq_true.mp hlow _ (List.mem_of_getElem? h))
  refine ⟨(List.getElem?_eq_some_iff.mp h).1, ?_⟩
  by_cases hupper : c.val ≥ 'A'.val ∧ c.val ≤ 'Z'.val
  · have hle : c.toNat ≤ 90 := UInt32.le_iff_toNat_le.mp hupper.2
    omega
  · have hsame : c.toLower = c := dif_neg hupper
    rwa [hsame] at hc

theorem digitValue_eq_some_iff (c : Char) (d : Nat) :
    digitValue c = some d ↔ digitChars[d]? = some c.toLower := by
  have table : ∀ i : Fin 128, ∀ d : Fin 16, digitValue (Char.ofNat i) = some d.val ↔
      digitChars[d.val]? = some (Char.ofNat i).toLower := by decide +kernel
  have small (h : d < 16 ∧ c.toNat < 128) :
      digitValue c = some d ↔ digitChars[d]? = some c.toLower := by
    simpa using table ⟨c.toNat, h.2⟩ ⟨d, h.1⟩
  exact ⟨fun h => (small (digitValue_lt h)).mp h, fun h => (small (digitChars_lt h)).mpr h⟩

theorem digit_eq_some_iff {base : Nat} {c : Char} {d : Nat} :
    digit base c = some d ↔ IsDigit base c d := by
  rw [digit, Option.filter_eq_some_iff, digitValue_eq_some_iff, decide_eq_true_iff]
  exact ⟨fun h => ⟨h.2, h.1⟩, fun h => ⟨h.spelled, h.small⟩⟩

/-! ## Numerals -/

/-- Digits in front of others count as often as the others have places. -/
theorem ofDigits_reverse_cons_add (base acc d : Nat) (ds : List Nat) :
    acc * base ^ (d :: ds).length + Nat.ofDigits base (d :: ds).reverse =
      (acc * base + d) * base ^ ds.length + Nat.ofDigits base ds.reverse := by
  rw [Nat.ofDigits_reverse_cons, List.length_cons, Nat.pow_succ]
  ring

/-- Cutting a value off at the cap in between changes nothing that stays below it. -/
theorem min_mul_add_min {cap base acc d : Nat} (hbase : 0 < base) :
    min cap (min cap acc * base + d) = min cap (acc * base + d) := by
  rcases Nat.le_total acc cap with h | h
  · rw [Nat.min_eq_right h]
  · have hcap : cap ≤ cap * base := Nat.le_mul_of_pos_right cap hbase
    have hacc : cap * base ≤ acc * base := Nat.mul_le_mul_right base h
    rw [Nat.min_eq_left h]
    omega

theorem numeralFrom_digits {base cap : Nat} {cs : List Char} {ds : List Nat} (h : Digits base cs ds)
    (acc : Nat) : numeralFrom base cap (min cap acc) cs =
      some (min cap (acc * base ^ ds.length + Nat.ofDigits base ds.reverse)) := by
  induction h generalizing acc with
  | nil => simp [numeralFrom]
  | @cons c d cs ds hd _ ih =>
    have hbase : 0 < base := Nat.zero_lt_of_lt hd.small
    rw [numeralFrom, digit_eq_some_iff.mpr hd, Option.bind_some, min_mul_add_min hbase, ih,
      ofDigits_reverse_cons_add]

theorem digits_of_numeralFrom {base cap acc n : Nat} {cs : List Char}
    (h : numeralFrom base cap acc cs = some n) : ∃ ds, Digits base cs ds := by
  induction cs generalizing acc with
  | nil => exact ⟨[], .nil⟩
  | cons c cs ih =>
    rw [numeralFrom, Option.bind_eq_some_iff] at h
    obtain ⟨d, hd, hrest⟩ := h
    obtain ⟨ds, hds⟩ := ih hrest
    exact ⟨d :: ds, .cons (digit_eq_some_iff.mp hd) hds⟩

theorem numeral_eq_some_iff {base n : Nat} {cs : List Char} :
    numeral base cs = some n ↔
      cs ≠ [] ∧ ∃ ds, Digits base cs ds ∧ n = min wordCap (Nat.ofDigits base ds.reverse) := by
  have hvalue {ds : List Nat} (hds : Digits base cs ds) :
      numeralFrom base wordCap 0 cs = some (min wordCap (Nat.ofDigits base ds.reverse)) := by
    have h := @numeralFrom_digits base wordCap cs ds hds 0
    simpa using h
  rw [numeral]
  constructor
  · intro h
    split at h
    · cases h
    · rename_i hne
      obtain ⟨ds, hds⟩ := digits_of_numeralFrom h
      exact ⟨by simpa using hne, ds, hds, Option.some_inj.mp (h.symm.trans (hvalue hds))⟩
  · rintro ⟨hne, ds, hds, rfl⟩
    rw [if_neg (by simpa using hne), hvalue hds]

theorem digits_singleton_zero {base : Nat} {ds : List Nat} (h : Digits base ['0'] ds) : ds = [0] := by
  obtain _ | ⟨hd, hnil⟩ := h
  cases hnil
  have hzero := (digitValue_eq_some_iff _ _).mpr hd.spelled
  simp_all [digitValue]

theorem magnitude_octal {c : Char} {cs : List Char} {ds : List Nat} (h : Digits 8 (c :: cs) ds) :
    magnitude ('0' :: c :: cs) = numeral 8 (c :: cs) := by
  obtain _ | ⟨hc, -⟩ := h
  have hdigit := digit_eq_some_iff.mpr hc
  have hlower : c ≠ 'x' := by rintro rfl; simp [digit, digitValue] at hdigit
  have hupper : c ≠ 'X' := by rintro rfl; simp [digit, digitValue] at hdigit
  rw [magnitude]
  · simpa using hlower
  · simpa using hupper

theorem magnitude_decimal {c : Char} {cs : List Char} (h : c ≠ '0') :
    magnitude (c :: cs) = numeral 10 (c :: cs) := by
  rw [magnitude] <;> simp [h]

theorem magnitude_eq_some_iff {cs : List Char} {n : Nat} :
    magnitude cs = some n ↔
      ∃ base ds, Unsigned cs base ds ∧ n = min wordCap (Nat.ofDigits base ds.reverse) := by
  constructor
  · intro h
    unfold magnitude at h
    split at h <;> obtain ⟨hne, ds, hds, hn⟩ := numeral_eq_some_iff.mp h
    · exact ⟨16, ds, .hex (.inl rfl) hne hds, hn⟩
    · exact ⟨16, ds, .hex (.inr rfl) hne hds, hn⟩
    · exact ⟨8, ds, .octal hne hds, hn⟩
    · rename_i hsingle
      obtain ⟨c, cs, rfl⟩ := List.exists_cons_of_ne_nil hne
      by_cases hc : c = '0'
      · subst hc
        -- no character follows, or the numeral would be octal
        obtain rfl : cs = [] := by
          cases cs with
          | nil => rfl
          | cons c cs => exact (hsingle c cs rfl).elim
        obtain rfl := digits_singleton_zero hds
        exact ⟨10, [0], .zero, hn⟩
      · exact ⟨10, ds, .decimal hc hds, hn⟩
  · rintro ⟨base, ds, hcs, hn⟩
    cases hcs with
    | hex hx hne hds =>
      rcases hx with rfl | rfl <;> exact numeral_eq_some_iff.mpr ⟨hne, ds, hds, hn⟩
    | octal hne hds =>
      obtain ⟨c, cs, rfl⟩ := List.exists_cons_of_ne_nil hne
      rw [magnitude_octal hds]
      exact numeral_eq_some_iff.mpr ⟨hne, ds, hds, hn⟩
    | zero => rw [hn]; rfl
    | decimal hc hds =>
      rw [magnitude_decimal hc]
      exact numeral_eq_some_iff.mpr ⟨by simp, ds, hds, hn⟩

/-! ## Signs -/

theorem splitSign_unsigned {cs : List Char} {base : Nat} {ds : List Nat} (h : Unsigned cs base ds) :
    splitSign cs = (false, cs) := by
  cases h with
  | hex | octal | zero => rfl
  | decimal _ hds =>
    obtain _ | ⟨hc, -⟩ := hds
    have hdigit := digit_eq_some_iff.mpr hc
    rw [splitSign]
    · rintro cs ⟨⟩; simp [digit, digitValue] at hdigit
    · rintro cs ⟨⟩; simp [digit, digitValue] at hdigit

theorem literal_iff {cs : List Char} {negative : Bool} {base : Nat} {ds : List Nat} :
    Literal cs negative base ds ↔ (splitSign cs).1 = negative ∧ Unsigned (splitSign cs).2 base ds := by
  constructor
  · rintro (h | h | h)
    · rw [splitSign_unsigned h]
      exact ⟨rfl, h⟩
    · exact ⟨rfl, h⟩
    · exact ⟨rfl, h⟩
  · rintro ⟨rfl, h⟩
    revert h
    unfold splitSign
    split
    · exact .minus
    · exact .plus
    · exact .bare

/-! ## Sixty-four bits -/

theorem toInt_clamp (z : Int) : (clamp z).toInt = max (-2 ^ 63) (min z (2 ^ 63 - 1)) := by
  have hmin : Int64.minValue.toInt = -2 ^ 63 := by decide
  have hmax : Int64.maxValue.toInt = 2 ^ 63 - 1 := by decide
  rw [clamp]
  split
  · omega
  · split
    · omega
    · rw [Int64.toInt_ofInt_of_le (by omega) (by omega)]
      omega

theorem clamp_signed_min (negative : Bool) (n : Nat) :
    clamp (signed negative (min wordCap n)) = clamp (signed negative n) := by
  have hcap : wordCap = 2 ^ 64 := rfl
  apply Int64.toInt_inj.mp
  rw [toInt_clamp, toInt_clamp]
  cases negative <;> simp only [signed, Bool.false_eq_true, if_true, if_false] <;> omega

theorem readInt_eq_some_iff {cs : List Char} {n : Int64} :
    readInt cs = some n ↔
      ∃ negative base ds, Literal cs negative base ds ∧ n = clamp (valueOf negative base ds) := by
  have hread : readInt cs =
      (magnitude (splitSign cs).2).map fun k => clamp (signed (splitSign cs).1 k) := by
    simp only [readInt, signed]
    cases magnitude (splitSign cs).2 <;> rfl
  simp only [hread, Option.map_eq_some_iff, magnitude_eq_some_iff, literal_iff]
  constructor
  · rintro ⟨k, ⟨base, ds, hds, rfl⟩, rfl⟩
    exact ⟨_, base, ds, ⟨rfl, hds⟩, clamp_signed_min _ _⟩
  · rintro ⟨negative, base, ds, ⟨rfl, hds⟩, rfl⟩
    exact ⟨_, ⟨base, ds, hds, rfl⟩, clamp_signed_min _ _⟩

/-! ## Gathering in sixty-four bits -/

def fit? (z : Int) : Option Int64 :=
  if (clamp z).toInt = z then some (clamp z) else none

/-- One more digit, on the side of zero that the sign says. The product and the result both
have to fit. -/
def appendDigit? (negative : Bool) (base : Nat) (acc : Int64) (d : Nat) : Option Int64 :=
  (fit? (acc.toInt * base)).bind fun n => fit? (n.toInt + signed negative d)

def limit (negative : Bool) : Int64 :=
  if negative then Int64.minValue else Int64.maxValue

def gather (negative : Bool) (base : Nat) (acc : Int64) : List Nat → Int64
  | [] => acc
  | d :: ds =>
    match appendDigit? negative base acc d with
    | some n => gather negative base n ds
    | none => limit negative

theorem fit?_eq_some_iff {z : Int} {n : Int64} : fit? z = some n ↔ n.toInt = z := by
  rw [fit?]
  constructor
  · grind
  · rintro rfl
    simp [clamp_toInt]

/-- Beyond a value that does not fit there is only the limit on that side. -/
theorem clamp_of_fit?_none {negative : Bool} {a b : Nat} (h : fit? (signed negative a) = none)
    (hab : a ≤ b) : clamp (signed negative b) = limit negative := by
  have hmin : Int64.minValue.toInt = -2 ^ 63 := by decide
  have hmax : Int64.maxValue.toInt = 2 ^ 63 - 1 := by decide
  have hout : (clamp (signed negative a)).toInt ≠ signed negative a := by
    simpa [fit?] using h
  apply Int64.toInt_inj.mp
  rw [toInt_clamp] at hout ⊢
  cases negative <;> simp_all only [signed, limit, Bool.false_eq_true, if_true, if_false] <;> omega

theorem gather_eq {negative : Bool} {base : Nat} (hbase : 0 < base) (ds : List Nat) (acc : Int64)
    (a : Nat) (hacc : acc.toInt = signed negative a) : gather negative base acc ds =
      clamp (signed negative (a * base ^ ds.length + Nat.ofDigits base ds.reverse)) := by
  induction ds generalizing acc a with
  | nil => simp [gather, ← hacc, clamp_toInt]
  | cons d ds ih =>
    rw [ofDigits_reverse_cons_add]
    have hmul : acc.toInt * base = signed negative (a * base) := by
      cases negative <;> simp [hacc, signed]
    have hadd (n : Int64) (hn : n.toInt = signed negative (a * base)) :
        n.toInt + signed negative d = signed negative (a * base + d) := by
      rw [hn]
      cases negative <;> simp [signed]
      omega
    -- what does not fit now is not made smaller by the digits that follow
    have hgrow : a * base + d ≤ (a * base + d) * base ^ ds.length + Nat.ofDigits base ds.reverse :=
      le_add_right (Nat.le_mul_of_pos_right _ (Nat.pow_pos hbase))
    rw [gather, appendDigit?, hmul]
    cases hproduct : fit? (signed negative (a * base)) with
    | none =>
      exact (clamp_of_fit?_none hproduct (by omega)).symm
    | some n =>
      have hn := fit?_eq_some_iff.mp hproduct
      rw [Option.bind_some, hadd n hn]
      cases hsum : fit? (signed negative (a * base + d)) with
      | none => exact (clamp_of_fit?_none hsum hgrow).symm
      | some k => exact ih k _ (fit?_eq_some_iff.mp hsum)

theorem Unsigned.base_pos {cs : List Char} {base : Nat} {ds : List Nat} (h : Unsigned cs base ds) :
    0 < base := by
  cases h <;> decide

theorem gather_literal {cs : List Char} {negative : Bool} {base : Nat} {ds : List Nat}
    (h : Literal cs negative base ds) : gather negative base 0 ds = clamp (valueOf negative base ds) := by
  have hbase := (literal_iff.mp h).2.base_pos
  have hzero : (0 : Int64).toInt = signed negative 0 := by cases negative <;> rfl
  simpa [valueOf] using gather_eq hbase ds 0 0 hzero

/-! ## Reading -/

theorem readInt_literal {cs : List Char} {negative : Bool} {base : Nat} {ds : List Nat}
    (h : Literal cs negative base ds) : readInt cs = some (clamp (valueOf negative base ds)) :=
  readInt_eq_some_iff.mpr ⟨negative, base, ds, h, rfl⟩

theorem toInt_toStr (h : Heap) (n : Int64) :
    Builtin.toInt (Builtin.toStr h (some (.int n))).1 = some (.int n) := by
  have hrender : h.render (some (.int n)) = some (toString n.toInt) := rfl
  simpa [Builtin.toStr, Builtin.toInt, hrender, Heap.newStr] using readInt_toString n

/-- A text is an integer exactly if it is a literal, and then the integer is the value of the
literal, brought between the least and the greatest 64-bit integer. That is also what comes
of gathering the digits up to the first overflow. A literal that has the value of a 64-bit
integer is read as that integer, in every base, and so is the text of one. -/
theorem readInt_clamps_literal :
    (∀ (cs : List Char) (n : Int64), readInt cs = some n ↔
      ∃ negative base ds, Literal cs negative base ds ∧
        n.toInt = max (-2 ^ 63) (min (valueOf negative base ds) (2 ^ 63 - 1))) ∧
    (∀ (cs : List Char) (negative : Bool) (base : Nat) (ds : List Nat),
      Literal cs negative base ds → readInt cs = some (gather negative base 0 ds)) ∧
    (∀ (cs : List Char) (negative : Bool) (base : Nat) (ds : List Nat) (n : Int64),
      Literal cs negative base ds → valueOf negative base ds = n.toInt → readInt cs = some n) ∧
    (∀ (h : Heap) (n : Int64), Builtin.toInt (Builtin.toStr h (some (.int n))).1 = some (.int n)) := by
  refine ⟨fun cs n => ?_, fun cs negative base ds h => ?_, fun cs negative base ds n h hn => ?_,
    toInt_toStr⟩
  · simp only [readInt_eq_some_iff, ← toInt_clamp, Int64.toInt_inj]
  · rw [readInt_literal h, gather_literal h]
  · rw [readInt_literal h, hn, clamp_toInt]

/-- The least 64-bit integer in the three bases. -/
theorem readInt_clamps_literal_minValue :
    Literal "-0x8000000000000000".toList true 16 (8 :: List.replicate 15 0) ∧
    Literal "-01000000000000000000000".toList true 8 (1 :: List.replicate 21 0) ∧
    Literal "-9223372036854775808".toList true 10
      [9, 2, 2, 3, 3, 7, 2, 0, 3, 6, 8, 5, 4, 7, 7, 5, 8, 0, 8] ∧
    (∀ text ∈ ["-0x8000000000000000", "-01000000000000000000000", "-9223372036854775808"],
      readInt text.toList = some Int64.minValue) := by
  have hex : Literal "-0x8000000000000000".toList true 16 (8 :: List.replicate 15 0) :=
    .minus (.hex (.inl rfl) (by decide) (by decide))
  have octal : Literal "-01000000000000000000000".toList true 8 (1 :: List.replicate 21 0) :=
    .minus (.octal (by decide) (by decide))
  have decimal : Literal "-9223372036854775808".toList true 10
      [9, 2, 2, 3, 3, 7, 2, 0, 3, 6, 8, 5, 4, 7, 7, 5, 8, 0, 8] :=
    .minus (.decimal (by decide) (by decide))
  have hexact := readInt_clamps_literal.2.2.1
  refine ⟨hex, octal, decimal, ?_⟩
  simp only [List.forall_mem_cons]
  exact ⟨hexact _ _ _ _ _ hex (by decide), hexact _ _ _ _ _ octal (by decide),
    hexact _ _ _ _ _ decimal (by decide), by simp⟩

end Lisplet.Number
