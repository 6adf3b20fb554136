import Lisplet.Proofs.FloatLine

/-!
# Integers among the floats

An integer becomes the float of 53 leading bits next to it. Rounding never turns two
integers around, so the floats of integers stand on the line in the order of the
integers, some of them in one place.
-/

namespace Lisplet.Number

open Float.Model Float.Model.UnpackedFloat

/-! ## Rounding keeps the order -/

/-- Mantissa, round bit and sticky bit in one number, the mantissa counted in quarters. -/
def quarters (em : ExtendedMantissa) : ℕ :=
  4 * em.mantissa + 2 * em.roundBit.toNat + em.stickyBit.toNat

/-- A shift by one bit takes half of the mantissa's quarters; what is cut off only sticks. -/
theorem quarters_shiftRightOne (em : ExtendedMantissa) :
    quarters em.shiftRightOne = 2 * (quarters em / 4) + min 1 (quarters em % 4) := by
  rcases em with ⟨m, _ | _, _ | _⟩ <;> rcases Nat.mod_two_eq_zero_or_one m with hm | hm <;>
    simp [quarters, ExtendedMantissa.shiftRightOne, hm] <;> omega

theorem mantissa_eq (em : ExtendedMantissa) : em.mantissa = quarters em / 4 := by
  rcases em with ⟨m, _ | _, _ | _⟩ <;> simp [quarters] <;> omega

/-- Rounding goes to the next mantissa, from the middle to the even one. -/
theorem roundedMantissa_eq (em : ExtendedMantissa) :
    em.roundedMantissa = (quarters em + 1 + em.mantissa % 2) / 4 := by
  rcases em with ⟨m, _ | _, _ | _⟩ <;> rcases Nat.mod_two_eq_zero_or_one m with hm | hm <;>
    simp [quarters, ExtendedMantissa.roundedMantissa, ExtendedMantissa.accuracy,
      Accuracy.roundToNearestEven, hm] <;> omega

theorem roundedMantissa_bounds (em : ExtendedMantissa) :
    em.mantissa ≤ em.roundedMantissa ∧ em.roundedMantissa ≤ em.mantissa + 1 := by
  have hmantissa := mantissa_eq em
  rw [roundedMantissa_eq]
  omega

section
variable {a b : ExtendedMantissa} (h : quarters a ≤ quarters b)
include h

theorem quarters_shiftRight_mono (k : ℕ) : quarters (a >>> k) ≤ quarters (b >>> k) := by
  induction k with
  | zero => exact h
  | succ k ih =>
    change quarters (a >>> k).shiftRightOne ≤ quarters (b >>> k).shiftRightOne
    rw [quarters_shiftRightOne, quarters_shiftRightOne]
    omega

theorem roundedMantissa_mono : a.roundedMantissa ≤ b.roundedMantissa := by
  have hle : a.mantissa ≤ b.mantissa := by
    rw [mantissa_eq, mantissa_eq]
    exact Nat.div_le_div_right h
  rcases hle.lt_or_eq with hlt | heq
  · exact (roundedMantissa_bounds a).2.trans (hlt.trans_le (roundedMantissa_bounds b).1)
  · rw [roundedMantissa_eq, roundedMantissa_eq, heq]
    omega

end

theorem mantissa_shiftRight (em : ExtendedMantissa) (k : ℕ) :
    (em >>> k).mantissa = em.mantissa / 2 ^ k := by
  induction k with
  | zero => exact (Nat.div_one _).symm
  | succ k ih =>
    rw [pow_succ, ← Nat.div_div_eq_div_mul, ← ih]
    rfl

/-! ## The leading bits -/

theorem log2_shiftLeft {n : ℕ} (hn : n ≠ 0) (k : ℕ) : (n <<< k).log2 = n.log2 + k := by
  induction k with
  | zero => rfl
  | succ k ih =>
    rw [Nat.shiftLeft_succ, Nat.log2_two_mul (by simpa [Nat.shiftLeft_eq] using hn), ih]
    rfl

theorem log2_mono {n n' : ℕ} (hn : n ≠ 0) (h : n ≤ n') : n.log2 ≤ n'.log2 :=
  (Nat.le_log2 (by omega)).mpr ((Nat.log2_self_le hn).trans h)

def aligned (n : ℕ) : ExtendedMantissa :=
  ExtendedMantissa.mk (n <<< (52 - n.log2)) false false >>> (n.log2 - 52)

/-- The 53 leading bits of a number, rounded. Rounding up may give one bit more. -/
def leading (n : ℕ) : ℕ := (aligned n).roundedMantissa

theorem leading_bounds {n : ℕ} (hn : n ≠ 0) : 2 ^ 52 ≤ leading n ∧ leading n ≤ 2 ^ 53 := by
  have hne : n <<< (52 - n.log2) ≠ 0 := by simpa [Nat.shiftLeft_eq] using hn
  obtain ⟨hlow, hhigh⟩ := (Nat.log2_eq_iff hne).mp (log2_shiftLeft hn (52 - n.log2))
  have hmantissa : (aligned n).mantissa = n <<< (52 - n.log2) / 2 ^ (n.log2 - 52) :=
    mantissa_shiftRight _ _
  obtain ⟨hle, hge⟩ := roundedMantissa_bounds (aligned n)
  have hfloor : 2 ^ 52 ≤ (aligned n).mantissa := by
    rw [hmantissa, Nat.le_div_iff_mul_le (Nat.two_pow_pos _), ← pow_add]
    exact (Nat.pow_le_pow_right (by decide) (by omega)).trans hlow
  have hceil : (aligned n).mantissa < 2 ^ 53 := by
    rw [hmantissa, Nat.div_lt_iff_lt_mul (Nat.two_pow_pos _), ← pow_add]
    exact hhigh.trans_le (Nat.pow_le_pow_right (by decide) (by omega))
  exact ⟨hfloor.trans hle, hge.trans hceil⟩

theorem leading_mono {n n' : ℕ} (hlog : n.log2 = n'.log2) (h : n ≤ n') : leading n ≤ leading n' := by
  refine roundedMantissa_mono ?_
  unfold aligned
  rw [hlog]
  refine quarters_shiftRight_mono ?_ _
  have hshift : n <<< (52 - n'.log2) ≤ n' <<< (52 - n'.log2) := by
    rw [Nat.shiftLeft_eq, Nat.shiftLeft_eq]
    exact Nat.mul_le_mul_right _ h
  simp only [quarters]
  omega

/-- Mantissa and exponent of the float next to a positive number: the leading bits, and
one exponent more where they would be too many. -/
structure Rounds (n m : ℕ) (e : ℤ) : Prop where
  low : 2 ^ 52 ≤ m
  high : m < 2 ^ 53
  bits : m = leading n ∧ e = n.log2 - 52 ∨ leading n = 2 ^ 53 ∧ m = 2 ^ 52 ∧ e = n.log2 - 51

theorem Rounds.mono {n n' m m' : ℕ} {e e' : ℤ} (hn : n ≠ 0) (h : n ≤ n') (hr : Rounds n m e)
    (hr' : Rounds n' m' e') : e < e' ∨ e = e' ∧ m ≤ m' := by
  have hlog := log2_mono hn h
  obtain ⟨_, _, _⟩ := hr
  obtain ⟨_, _, _⟩ := hr'
  by_cases hsame : n.log2 = n'.log2
  · have := leading_mono hsame h
    omega
  · omega

theorem Rounds.exponent {n m : ℕ} {e : ℤ} (h : Rounds n m e) (hn : n ≠ 0) (h64 : n < 2 ^ 64) :
    -1074 ≤ e ∧ e ≤ 971 := by
  have hlog : n.log2 < 64 := (Nat.log2_lt hn).mpr h64
  have := h.bits
  omega

/-! ## Integers as floats -/

theorem targetExponent_eq (t : ℤ) : Format.binary64.targetExponent t = max (t - 53) (-1074) := by
  simp only [Format.targetExponent]
  rfl

theorem shiftToTargetExponent_aligned {n : ℕ} (hn : n ≠ 0) :
    shiftToTargetExponent .binary64 (n <<< (52 - n.log2)) (0 - (52 - n.log2 : ℕ)) .exact =
      (aligned n, (n.log2 : ℤ) - 52) := by
  have hshift : (Format.binary64.targetExponent
      (totalExponent (n <<< (52 - n.log2)) (0 - (52 - n.log2 : ℕ))) - (0 - (52 - n.log2 : ℕ))).toNat =
        n.log2 - 52 := by
    rw [targetExponent_eq, totalExponent, log2_shiftLeft hn]
    omega
  have hexponent : (0 - (52 - n.log2 : ℕ) : ℤ) + (n.log2 - 52 : ℕ) = n.log2 - 52 := by omega
  simp only [shiftToTargetExponent, shiftToExponent, hshift, hexponent]
  rfl

theorem shiftToTargetExponent_normal {m : ℕ} {e : ℤ} (hm : m.log2 = 52) (he : -1074 ≤ e) :
    shiftToTargetExponent .binary64 m e .exact = (⟨m, false, false⟩, e) := by
  have hshift : (Format.binary64.targetExponent (totalExponent m e) - e).toNat = 0 := by
    rw [targetExponent_eq, totalExponent]
    omega
  simp only [shiftToTargetExponent, shiftToExponent, hshift, Nat.cast_zero, add_zero]
  rfl

theorem shiftToTargetExponent_carry {e : ℤ} (he : -1074 ≤ e) :
    shiftToTargetExponent .binary64 (2 ^ 53) e .exact = (⟨2 ^ 52, false, false⟩, e + 1) := by
  have hshift : (Format.binary64.targetExponent (totalExponent (2 ^ 53) e) - e).toNat = 1 := by
    rw [targetExponent_eq, totalExponent, Nat.log2_two_pow]
    omega
  simp only [shiftToTargetExponent, shiftToExponent, hshift]
  rfl

theorem roundWithAccuracy_eq {s : Sign} {m : ℕ} {e e₁ e₂ : ℤ} {em fm : ExtendedMantissa}
    (hfirst : shiftToTargetExponent .binary64 m e .exact = (em, e₁))
    (hsecond : shiftToTargetExponent .binary64 em.roundedMantissa e₁ .exact = (fm, e₂))
    (hpos : 0 < fm.mantissa) :
    roundWithAccuracy .binary64 s m e .exact = .finite s fm.mantissa e₂ hpos := by
  have hne : fm.mantissa ≠ 0 := by omega
  rw [roundWithAccuracy, hfirst]
  dsimp only
  rw [hsecond]
  exact dif_neg hne

theorem round_eq {n : ℕ} (hn : n ≠ 0) : ∃ m e, ∃ hm : 0 < m,
    UnpackedFloat.round .binary64 .positive n 0 = .finite .positive m e hm ∧ Rounds n m e := by
  have htarget : Format.binary64.targetExponent (totalExponent n 0) = n.log2 - 52 := by
    rw [targetExponent_eq, totalExponent]
    omega
  have hleft : (0 - ((n.log2 : ℤ) - 52)).toNat = 52 - n.log2 := by omega
  have hround : UnpackedFloat.round .binary64 .positive n 0 =
      roundWithAccuracy .binary64 .positive (n <<< (52 - n.log2)) (0 - (52 - n.log2 : ℕ)) .exact := by
    rw [← hleft, ← htarget]
    rfl
  have he : -1074 ≤ (n.log2 : ℤ) - 52 := by omega
  have hfirst := shiftToTargetExponent_aligned hn
  obtain ⟨hlow, hhigh⟩ := leading_bounds hn
  rw [hround]
  -- rounding up may carry into one bit more, which moves the exponent
  by_cases hcarry : leading n < 2 ^ 53
  · have hlog : (leading n).log2 = 52 := (Nat.log2_eq_iff (by omega)).mpr ⟨hlow, hcarry⟩
    have hpos : 0 < leading n := by omega
    exact ⟨_, _, hpos, roundWithAccuracy_eq hfirst (shiftToTargetExponent_normal hlog he) hpos,
      hlow, hcarry, .inl ⟨rfl, rfl⟩⟩
  · have hfull : leading n = 2 ^ 53 := by omega
    have hsecond : shiftToTargetExponent .binary64 (aligned n).roundedMantissa (n.log2 - 52) .exact =
        (⟨2 ^ 52, false, false⟩, (n.log2 : ℤ) - 52 + 1) := by
      rw [← leading, hfull]
      exact shiftToTargetExponent_carry he
    exact ⟨_, _, by decide, roundWithAccuracy_eq hfirst hsecond (by decide), by decide, by decide,
      .inr ⟨hfull, rfl, by omega⟩⟩

/-! ## Packing -/

theorem toNat_implicit {m : ℕ} (hlow : 2 ^ 52 ≤ m) (hhigh : m < 2 ^ 53) :
    (1#1 ++ BitVec.ofNat 52 m).toNat = m := by
  rw [BitVec.toNat_append, ← Nat.shiftLeft_add_eq_or_of_lt (BitVec.isLt _), BitVec.toNat_ofNat]
  simp only [BitVec.toNat_ofNat, Nat.shiftLeft_eq]
  omega

theorem sign_packComponents (s : Sign) (e : BitVec 11) (m : BitVec 52) :
    Sign.ofBitVec (unpackSign (packComponents .binary64 s e m)) = s := by
  have hbit : unpackSign (packComponents .binary64 s e m) = s.toBitVec.extractLsb' 0 1 := by
    unfold unpackSign packComponents BitVec.extractLsb
    rw [BitVec.extractLsb'_append_eq_of_le (by decide), BitVec.extractLsb'_append_eq_of_le (by decide)]
    rfl
  rw [hbit]
  cases s <;> rfl

section
variable {s : Sign} {m : ℕ} {e : ℤ} {hm : 0 < m}

theorem pack_normal (hlog : m.log2 = 52) (he : -1074 ≤ e ∧ e ≤ 971) :
    UnpackedFloat.pack .binary64 (.finite s m e hm) =
      packComponents .binary64 s (BitVec.ofNat 11 (e + 1023 + 52).toNat) (BitVec.ofNat 52 m) := by
  change (if 2 ^ 11 ≤ (e + 1023 + 52).toNat + 1 then packedInfinity .binary64 s
    else if m.log2 + 1 = 53 then _ else _) = _
  rw [if_neg (by omega), if_pos (by omega)]
  rfl

theorem unpack_normal {x : BitVec 11} {y : BitVec 52} (hinfinity : x ≠ -1#11) (hzero : x ≠ 0#11)
    (hy : (1#1 ++ y).toNat = m) (hx : (x.toNat : ℤ) - (1023 + 52) = e) :
    UnpackedFloat.unpack .binary64 (packComponents .binary64 s x y) = .finite s m e hm := by
  have hexponent : unpackExponent (packComponents .binary64 s x y) = x := unpackExponent_packComponents
  have hmantissa : unpackMantissa (packComponents .binary64 s x y) = y := unpackMantissa_packComponents
  have hnormal : ¬ unpackExponent (packComponents .binary64 s x y) = -1#11 ∧
      ¬ unpackExponent (packComponents .binary64 s x y) = 0#11 := by
    rw [hexponent]
    exact ⟨hinfinity, hzero⟩
  refine (if_neg hnormal.1).trans ((if_neg hnormal.2).trans ?_)
  rw [UnpackedFloat.finite.injEq]
  refine ⟨sign_packComponents s x y, ?_, ?_⟩
  · rw [hmantissa, hy]
  · rw [hexponent]
    exact hx

/-- What fits into a float is still there after it has been packed. -/
theorem unpack_pack (hlow : 2 ^ 52 ≤ m) (hhigh : m < 2 ^ 53) (he : -1074 ≤ e ∧ e ≤ 971) :
    (Float.Model.pack (.finite s m e hm)).unpack = .finite s m e hm := by
  have hlog : m.log2 = 52 := (Nat.log2_eq_iff (by omega)).mpr ⟨hlow, hhigh⟩
  have htoNat : (BitVec.ofNat 11 (e + 1023 + 52).toNat).toNat = (e + 1075).toNat := by
    rw [BitVec.toNat_ofNat]
    omega
  have hinfinity : BitVec.ofNat 11 (e + 1023 + 52).toNat ≠ -1#11 := by
    intro h
    have hones : (e + 1075).toNat = 2047 := htoNat.symm.trans (congrArg BitVec.toNat h)
    omega
  have hzero : BitVec.ofNat 11 (e + 1023 + 52).toNat ≠ 0#11 := by
    intro h
    have hnone : (e + 1075).toNat = 0 := htoNat.symm.trans (congrArg BitVec.toNat h)
    omega
  change UnpackedFloat.unpack .binary64 (UnpackedFloat.pack .binary64 (.finite s m e hm)) = _
  rw [pack_normal hlog he]
  exact unpack_normal hinfinity hzero (toNat_implicit hlow hhigh) (by rw [htoNat]; omega)

end

/-! ## Widened integers -/

theorem toInt_eq_toNat (n : Int64) : n.toInt =
    if 2 * n.toUInt64.toNat < 2 ^ 64 then (n.toUInt64.toNat : ℤ) else n.toUInt64.toNat - 2 ^ 64 :=
  BitVec.toInt_eq_toNat_cond n.toBitVec

theorem lt_zero_iff (n : Int64) : n < 0 ↔ n.toInt < 0 := Int64.lt_iff_toInt_lt

theorem natAbs_toInt (n : Int64) :
    n.toInt.natAbs = if n < 0 then (0 - n.toUInt64).toNat else n.toUInt64.toNat := by
  have hint := toInt_eq_toNat n
  have hlt := n.toUInt64.toNat_lt
  simp only [lt_zero_iff, UInt64.toNat_sub]
  split at hint
  · rw [if_neg (by omega)]
    omega
  · rw [if_pos (by omega)]
    change _ = (2 ^ 64 - n.toUInt64.toNat + 0) % 2 ^ 64
    omega

theorem unpack_toFloat {u : UInt64} (hu : u.toNat ≠ 0) : ∃ m e, ∃ hm : 0 < m, Rounds u.toNat m e ∧
    u.toFloat.toModel.unpack = .finite .positive m e hm := by
  obtain ⟨m, e, hm, hround, hrounds⟩ := round_eq hu
  refine ⟨m, e, hm, hrounds, ?_⟩
  have hcompare : compare (u.toNat : ℤ) 0 = .gt := Int.compare_eq_gt.mpr (by omega)
  have hnat : UnpackedFloat.ofNat .binary64 u.toNat = UnpackedFloat.round .binary64 .positive u.toNat 0 := by
    simp [UnpackedFloat.ofNat, UnpackedFloat.ofInt, UnpackedFloat.normalize, hcompare]
  change (Float.Model.pack (UnpackedFloat.ofNat .binary64 u.toNat)).unpack = _
  rw [hnat, hround]
  exact unpack_pack hrounds.low hrounds.high (hrounds.exponent hu u.toNat_lt)

theorem unpack_widen {n : Int64} (hn : n.toInt ≠ 0) : ∃ m e, ∃ hm : 0 < m,
    Rounds n.toInt.natAbs m e ∧
      (widen n).toModel.unpack = .finite (if n.toInt < 0 then .negative else .positive) m e hm := by
  have habs : n.toInt.natAbs ≠ 0 := Int.natAbs_ne_zero.mpr hn
  have hsign := lt_zero_iff n
  rw [natAbs_toInt] at habs ⊢
  rw [widen]
  by_cases hneg : n < 0
  · rw [if_pos hneg] at habs
    rw [if_pos hneg, if_pos hneg, if_pos (hsign.mp hneg)]
    obtain ⟨m, e, hm, hrounds, hunpack⟩ := unpack_toFloat habs
    refine ⟨m, e, hm, hrounds, ?_⟩
    change (Float.Model.pack (UnpackedFloat.neg _)).unpack = _
    rw [hunpack]
    exact unpack_pack hrounds.low hrounds.high (hrounds.exponent habs (UInt64.toNat_lt _))
  · rw [if_neg hneg] at habs
    rw [if_neg hneg, if_neg hneg, if_neg (hsign.not.mp hneg)]
    exact unpack_toFloat habs

theorem unpack_widen_zero {n : Int64} (hn : n.toInt = 0) : (widen n).toModel.unpack = .zero .positive := by
  obtain rfl : n = 0 := Int64.toInt_inj.mp hn
  rfl

theorem isNaN_widen (n : Int64) : (widen n).isNaN = false := by
  rw [isNaN_eq_false_iff]
  by_cases hn : n.toInt = 0
  · rw [unpack_widen_zero hn]
    exact UnpackedFloat.noConfusion
  · obtain ⟨m, e, hm, -, hunpack⟩ := unpack_widen hn
    rw [hunpack]
    exact UnpackedFloat.noConfusion

theorem lineOf_widen_zero {n : Int64} (hn : n.toInt = 0) : lineOf (widen n) = toLex (0, toLex (0, 0)) := by
  rw [lineOf, unpack_widen_zero hn]
  rfl

theorem lineOf_widen_neg {n : Int64} (hn : n.toInt < 0) : ∃ m e, Rounds n.toInt.natAbs m e ∧
    lineOf (widen n) = toLex (-1, toLex (-e, -(m : ℤ))) := by
  obtain ⟨m, e, hm, hrounds, hunpack⟩ := unpack_widen (n := n) (by omega)
  refine ⟨m, e, hrounds, ?_⟩
  rw [lineOf, hunpack, if_pos hn]
  rfl

theorem lineOf_widen_pos {n : Int64} (hn : 0 < n.toInt) : ∃ m e, Rounds n.toInt.natAbs m e ∧
    lineOf (widen n) = toLex (1, toLex (e, (m : ℤ))) := by
  obtain ⟨m, e, hm, hrounds, hunpack⟩ := unpack_widen (n := n) (by omega)
  refine ⟨m, e, hrounds, ?_⟩
  rw [lineOf, hunpack, if_neg (by omega)]
  rfl

theorem lineOf_widen_below {n : Int64} (hn : n.toInt < 0) :
    lineOf (widen n) < toLex (0, toLex (0, 0)) := by
  obtain ⟨m, e, -, hline⟩ := lineOf_widen_neg hn
  rw [hline]
  exact Prod.Lex.toLex_lt_toLex.mpr (.inl (by simp))

theorem lineOf_widen_above {n : Int64} (hn : 0 ≤ n.toInt) :
    toLex (0, toLex (0, 0)) ≤ lineOf (widen n) := by
  rcases hn.eq_or_lt with hn | hn
  · rw [lineOf_widen_zero hn.symm]
  · obtain ⟨m, e, -, hline⟩ := lineOf_widen_pos hn
    rw [hline]
    exact Prod.Lex.toLex_le_toLex.mpr (.inl (by simp))

/-- Rounding keeps the order of integers, although it may put two of them together. -/
theorem lineOf_widen_mono {a b : Int64} (h : a.toInt ≤ b.toInt) : lineOf (widen a) ≤ lineOf (widen b) := by
  rcases lt_or_ge a.toInt 0 with ha | ha
  · rcases lt_or_ge b.toInt 0 with hb | hb
    · obtain ⟨m, e, hr, hline⟩ := lineOf_widen_neg ha
      obtain ⟨m', e', hr', hline'⟩ := lineOf_widen_neg hb
      have hmono := hr'.mono (by omega) (by omega) hr
      simp only [hline, hline', Prod.Lex.toLex_le_toLex, lt_self_iff_false, true_and, false_or]
      omega
    · exact (lineOf_widen_below ha).le.trans (lineOf_widen_above hb)
  · rcases ha.eq_or_lt with ha | ha
    · rw [lineOf_widen_zero ha.symm]
      exact lineOf_widen_above (by omega)
    · obtain ⟨m, e, hr, hline⟩ := lineOf_widen_pos ha
      obtain ⟨m', e', hr', hline'⟩ := lineOf_widen_pos (ha.trans_le h)
      have hmono := hr.mono (by omega) (by omega) hr'
      simp only [hline, hline', Prod.Lex.toLex_le_toLex, lt_self_iff_false, true_and, false_or]
      omega

end Lisplet.Number
