import Lisplet.Proofs.Bare.Operations
import Lisplet.Proofs.IntegerLiterals
import Mathlib.Order.Bounds.Basic

/-!
# Strings as rows of characters

Length, characters and occurrences of strings go by characters alone: those of a
sum are those of its parts one after another, and an occurrence is found where the
characters agree. Searching the bytes finds the same place.
-/

namespace Lisplet

/-! ## Occurrences -/

namespace Text

def OccursAt {α : Type} (pat xs : List α) (i : Nat) : Prop :=
  i + pat.length ≤ xs.length ∧ ∀ k < pat.length, xs[i + k]? = pat[k]?

instance {α : Type} [DecidableEq α] (pat xs : List α) (i : Nat) : Decidable (OccursAt pat xs i) :=
  inferInstanceAs (Decidable (_ ∧ _))

section
variable {α : Type} {pat : List α}

theorem occursAt_zero_iff {xs : List α} : OccursAt pat xs 0 ↔ pat <+: xs := by
  constructor
  · intro h
    rw [List.prefix_iff_getElem?]
    intro i hi
    simpa [hi] using h.2 i hi
  · intro h
    refine ⟨by simpa using h.length_le, fun k hk => ?_⟩
    simpa [hk] using List.prefix_iff_getElem?.mp h k hk

theorem occursAt_succ_iff {x : α} {xs : List α} {i : Nat} :
    OccursAt pat (x :: xs) (i + 1) ↔ OccursAt pat xs i := by
  simp only [OccursAt, List.length_cons, Nat.add_right_comm i 1, List.getElem?_cons_succ,
    Nat.add_le_add_iff_right]

theorem OccursAt.le {xs : List α} {i : Nat} (h : OccursAt pat xs i) : i ≤ xs.length := by
  have := h.1
  omega

end

inductive Found {α : Type} (pat xs : List α) : Option Nat → Prop
  | nowhere : (∀ i, ¬ OccursAt pat xs i) → Found pat xs none
  | first {i : Nat} : IsLeast {i | OccursAt pat xs i} i → Found pat xs (some i)

section
variable {α : Type} {pat : List α} {x : α} {xs : List α}

theorem Found.eq_none_iff {found : Option Nat} (h : Found pat xs found) :
    found = none ↔ ∀ i, ¬ OccursAt pat xs i := by
  cases h with
  | nowhere hno => exact iff_of_true rfl hno
  | @first i hi => exact iff_of_false (by simp) fun hno => hno i hi.1

theorem Found.eq_some_iff {found : Option Nat} (h : Found pat xs found) {i : Nat} :
    found = some i ↔ IsLeast {i | OccursAt pat xs i} i := by
  cases h with
  | nowhere hno => exact iff_of_false (by simp) fun hi => hno i hi.1
  | first hleast =>
    rw [Option.some.injEq]
    exact ⟨fun e => e ▸ hleast, fun hi => hleast.unique hi⟩

theorem found_zero (h : pat <+: xs) : Found pat xs (some 0) :=
  .first ⟨occursAt_zero_iff.mpr h, fun _ _ => Nat.zero_le _⟩

/-- What is not in front is found behind the first place. -/
theorem Found.cons (hp : ¬ pat <+: x :: xs) {found : Option Nat} (h : Found pat xs found) :
    Found pat (x :: xs) (found.map (· + 1)) := by
  have hzero : ¬ OccursAt pat (x :: xs) 0 := fun h0 => hp (occursAt_zero_iff.mp h0)
  cases h with
  | nowhere hno =>
    apply Found.nowhere
    intro i
    cases i with
    | zero => exact hzero
    | succ i => exact fun hi => hno i (occursAt_succ_iff.mp hi)
  | @first i hleast =>
    refine .first ⟨occursAt_succ_iff.mpr hleast.1, fun j hj => ?_⟩
    cases j with
    | zero => exact absurd hj hzero
    | succ j => exact Nat.succ_le_succ (hleast.2 (occursAt_succ_iff.mp hj))

end

section
variable {α : Type} [BEq α] [LawfulBEq α] {pat : List α} (search : Nat → List α → Option Nat)
  (hnil : ∀ i, search i [] = if pat.isEmpty then some i else none)
  (hcons : ∀ i x xs, search i (x :: xs) = if pat.isPrefixOf (x :: xs) then some i else search (i + 1) xs)
include hnil hcons

/-- Trying place after place finds the first occurrence, in a row of anything. -/
theorem found_of_search (xs : List α) (i : Nat) :
    ∃ found, Found pat xs found ∧ search i xs = found.map (i + ·) := by
  induction xs generalizing i with
  | nil =>
    rw [hnil]
    cases pat with
    | nil => exact ⟨some 0, found_zero List.prefix_rfl, rfl⟩
    | cons p ps => exact ⟨none, .nowhere fun i h => by simpa using h.1, rfl⟩
  | cons x xs ih =>
    rw [hcons]
    by_cases hp : pat.isPrefixOf (x :: xs) = true
    · exact ⟨some 0, found_zero (List.isPrefixOf_iff_prefix.mp hp), by simp [hp]⟩
    -- no occurrence here: the first one in the rest is one place further on
    · obtain ⟨found, hfound, hsearch⟩ := ih (i + 1)
      refine ⟨_, hfound.cons fun h => hp (List.isPrefixOf_iff_prefix.mpr h), ?_⟩
      rw [if_neg hp, hsearch, Option.map_map]
      congr 1
      funext k
      simp only [Function.comp_apply]
      omega

end

theorem found_occurrence (pat cs : List Char) : Found pat cs (occurrence pat cs) := by
  obtain ⟨found, hfound, hsearch⟩ :=
    found_of_search (occurrenceFrom pat) (fun _ => rfl) (fun _ _ _ => rfl) cs 0
  rw [occurrence_eq, hsearch]
  simpa using hfound

/-- The bytes of a text are found in front of the character where the text is. -/
theorem occurrence_bytes (pat cs : List Char) :
    (occurrence pat cs = none ↔ ∀ b, ¬ OccursAt (utf8 pat) (utf8 cs) b) ∧
    ∀ b, IsLeast {b | OccursAt (utf8 pat) (utf8 cs) b} b →
      ∃ front, Span.takeBytes b cs = some front ∧ occurrence pat cs = some front.length := by
  obtain ⟨found, hfound, hsearch⟩ :=
    found_of_search (Bare.findFrom (utf8 pat)) (fun _ => rfl) (fun _ _ _ => rfl) (utf8 cs) 0
  have hchars := Bare.occurrence_eq pat cs
  rw [Bare.occurrence, hsearch] at hchars
  cases hfound with
  | nowhere hno =>
    have hnone : occurrence pat cs = none := (Option.some.inj hchars).symm
    exact ⟨iff_of_true hnone hno, fun b hb => absurd hb.1 (hno b)⟩
  | @first i hi =>
    simp only [Option.map_some, Nat.zero_add, Option.map_eq_some_iff] at hchars
    obtain ⟨front, hfront, hchars⟩ := hchars
    refine ⟨iff_of_false (by simp [← hchars]) fun hno => hno i hi.1, fun b hb => ?_⟩
    rw [hb.unique hi]
    exact ⟨front, hfront, hchars.symm⟩

end Text

/-! ## Positions -/

namespace Builtin

theorem toInt_count (n : Nat) : ∃ k : Int64, count n = .int k ∧ k.toInt = min (n : Int) (2 ^ 63 - 1) := by
  refine ⟨Number.clamp n, rfl, ?_⟩
  rw [Number.toInt_clamp]
  omega

theorem count_eq_int_iff {i : Nat} (hi : i < 2 ^ 63) {n : Int64} : count i = .int n ↔ n.toInt = i := by
  obtain ⟨k, hcount, hk⟩ := toInt_count i
  rw [hcount, Value.int.injEq, ← Int64.toInt_inj]
  omega

theorem position?_of_eq {i : Int64} {n : Nat} (h : i.toInt = n) : position? (some (.int i)) = some n := by
  have h0 : 0 ≤ i := Int64.le_iff_toInt_le.mpr (by simp [h])
  have hn : i.toNatClampNeg = n := by simp [Int64.toNatClampNeg, h]
  simp [position?, h0, hn]

theorem position?_of_neg {i : Int64} (h : i.toInt < 0) : position? (some (.int i)) = none := by
  have h0 : ¬ 0 ≤ i := fun h0 => Int.not_le.mpr h (Int64.le_iff_toInt_le.mp h0)
  simp [position?, h0]

theorem exists_of_position? {key : Option Value} {n : Nat} (hn : position? key = some n) :
    ∃ i : Int64, key = some (.int i) ∧ i.toInt = n := by
  unfold position? at hn
  split at hn
  · rename_i i
    by_cases h0 : 0 ≤ i.toInt
    · obtain ⟨m, hm⟩ := Int.eq_ofNat_of_zero_le h0
      obtain rfl : m = n := Option.some.inj ((position?_of_eq hm).symm.trans hn)
      exact ⟨i, rfl, hm⟩
    · cases (position?_of_neg (Int.not_le.mp h0)).symm.trans hn
  · cases hn

/-! ## Reading strings -/

section
variable (h : Heap) (r : Ref) {s : String} {i : Int64} {n : Nat} {c : Char}

theorem select_char (hi : i.toInt = n) (hc : s.toList[n]? = some c) :
    select h (some (.str r s)) (some (.int i)) = .inr (String.singleton c) := by
  simp [select, position?_of_eq hi, Text.charAt?_eq, hc]

theorem select_outside (hi : ¬ (0 ≤ i.toInt ∧ i.toInt < s.length)) :
    select h (some (.str r s)) (some (.int i)) = .inl none := by
  by_cases h0 : 0 ≤ i.toInt
  · obtain ⟨n, hn⟩ := Int.eq_ofNat_of_zero_le h0
    have hlen : s.toList[n]? = none := List.getElem?_eq_none (by rw [String.length_toList]; omega)
    simp [select, position?_of_eq hn, Text.charAt?_eq, hlen]
  · simp [select, position?_of_neg (Int.not_le.mp h0)]

theorem exists_char (hn : n < s.length) : ∃ c, s.toList[n]? = some c :=
  ⟨_, List.getElem?_eq_getElem (by rwa [String.length_toList])⟩

theorem getItem_char (hi : i.toInt = n) (hc : s.toList[n]? = some c) :
    (getItem h (some (.str r s)) (some (.int i))).1 = some (.str h.objects.size (String.singleton c)) := by
  rw [getItem, select_char h r hi hc]
  rfl

/-- There is a character inside the string, and nothing outside. -/
theorem getItem_text (s : String) (i : Int64) :
    (∃ p c, 0 ≤ i.toInt ∧ i.toInt < s.length ∧
      (getItem h (some (.str r s)) (some (.int i))).1 = some (.str p (String.singleton c))) ∨
    ¬ (0 ≤ i.toInt ∧ i.toInt < s.length) ∧ (getItem h (some (.str r s)) (some (.int i))).1 = none := by
  by_cases hi : 0 ≤ i.toInt ∧ i.toInt < s.length
  · obtain ⟨n, hn⟩ := Int.eq_ofNat_of_zero_le hi.1
    obtain ⟨c, hc⟩ := exists_char (s := s) (n := n) (by omega)
    exact .inl ⟨_, c, hi.1, hi.2, getItem_char h r hn hc⟩
  · refine .inr ⟨hi, ?_⟩
    rw [getItem, select_outside h r hi]

end

/-! ## Sums of strings -/

section
variable (h : Heap) (r q : Ref) (s t : String)

theorem add_text : ∃ p, (add h (some (.str r s)) (some (.str q t))).1 = some (.str p (s ++ t)) := ⟨_, rfl⟩

variable {s t} {i : Int64}

theorem getItem_append_front (p : Ref) (hi : i.toInt < s.length) :
    getItem h (some (.str p (s ++ t))) (some (.int i)) = getItem h (some (.str r s)) (some (.int i)) := by
  have hselect : select h (some (.str p (s ++ t))) (some (.int i)) =
      select h (some (.str r s)) (some (.int i)) := by
    by_cases h0 : 0 ≤ i.toInt
    · obtain ⟨n, hn⟩ := Int.eq_ofNat_of_zero_le h0
      obtain ⟨c, hc⟩ := exists_char (s := s) (n := n) (by omega)
      have hsum : (s ++ t).toList[n]? = some c := by
        rw [String.toList_append, List.getElem?_append_left (List.getElem?_eq_some_iff.mp hc).1, hc]
      rw [select_char h p hn hsum, select_char h r hn hc]
    · rw [select_outside h p (by omega), select_outside h r (by omega)]
  rw [getItem, getItem, hselect]

theorem getItem_append_back (p : Ref) {j : Int64} {n : Nat} (hi : i.toInt = s.length + n)
    (hj : j.toInt = n) :
    getItem h (some (.str p (s ++ t))) (some (.int i)) = getItem h (some (.str q t)) (some (.int j)) := by
  have hselect : select h (some (.str p (s ++ t))) (some (.int i)) =
      select h (some (.str q t)) (some (.int j)) := by
    by_cases hlt : n < t.length
    · obtain ⟨c, hc⟩ := exists_char hlt
      have hsum : (s ++ t).toList[s.length + n]? = some c := by
        rw [String.toList_append, List.getElem?_append_right (by rw [String.length_toList]; omega),
          String.length_toList, Nat.add_sub_cancel_left, hc]
      rw [select_char h p (by omega) hsum, select_char h q hj hc]
    · rw [select_outside h p (by rw [String.length_append]; omega), select_outside h q (by omega)]
  rw [getItem, getItem, hselect]

theorem length_text : ∃ k : Int64, length h (some (.str r s)) = some (.int k) ∧
    k.toInt = min (s.length : Int) (2 ^ 63 - 1) := by
  obtain ⟨k, hcount, hk⟩ := toInt_count s.length
  exact ⟨k, congrArg some hcount, hk⟩

/-- Behind the first string the places are counted anew. -/
theorem sub_length (hi : s.length ≤ i.toInt) :
    ∃ (j : Int64) (n : Nat), sub (some (.int i)) (length h (some (.str r s))) = some (.int j) ∧
      j.toInt = n ∧ i.toInt = s.length + n := by
  obtain ⟨k, hlength, hk⟩ := length_text h r (s := s)
  have hlt := i.toInt_lt
  refine ⟨i - k, (i.toInt - s.length).toNat, by rw [hlength]; rfl, ?_, by omega⟩
  rw [Int64.toInt_sub, Int.bmod_eq_of_le (by omega) (by omega)]
  omega

theorem length_append (p : Ref) (hroom : s.length + t.length < 2 ^ 63) :
    length h (some (.str p (s ++ t))) =
      sum (length h (some (.str r s))) (length h (some (.str q t))) := by
  obtain ⟨a, ha, hs⟩ := length_text h r (s := s)
  obtain ⟨b, hb, ht⟩ := length_text h q (s := t)
  obtain ⟨k, hk, hst⟩ := length_text h p (s := s ++ t)
  rw [String.length_append] at hst
  have hsum : k = a + b := by
    rw [← Int64.toInt_inj, Int64.toInt_add, Int.bmod_eq_of_le (by omega) (by omega)]
    omega
  rw [ha, hb, hk, hsum]
  rfl

end

def addUp (v : Option Value) : Nat → Heap → Option Value × Heap
  | 0, h =>
    let (empty, h) := h.newStr ""
    (some empty, h)
  | n + 1, h =>
    let (front, h) := addUp v n h
    let (c, h) := getItem h v (some (count n))
    add h front c

theorem addUp_take (r : Ref) {s : String} (hs : s.length < 2 ^ 63) (h : Heap) {n : Nat} (hn : n ≤ s.length) :
    ∃ q, (addUp (some (.str r s)) n h).1 = some (.str q (String.ofList (s.toList.take n))) := by
  induction n with
  | zero => exact ⟨_, rfl⟩
  | succ n ih =>
    obtain ⟨q, hq⟩ := ih (by omega)
    obtain ⟨k, hcount, hk⟩ := toInt_count n
    obtain ⟨c, hc⟩ := exists_char (s := s) (n := n) (by omega)
    have htake : String.ofList (s.toList.take (n + 1)) =
        String.ofList (s.toList.take n) ++ String.singleton c := by
      rw [List.take_add_one, hc, String.ofList_append, String.singleton_eq_ofList]
      rfl
    rw [addUp, htake]
    simp only [hcount, hq, getItem_char _ r (by omega : k.toInt = n) hc]
    exact add_text _ _ _ _ _

/-! ## Finding strings -/

section
variable (h : Heap) (r q : Ref) (s t : String)

theorem indexOf_text : indexOf h (some (.str r s)) (some (.str q t)) =
    (Text.occurrence t.toList s.toList).map count := rfl

theorem indexOf_text_eq_none_iff : indexOf h (some (.str r s)) (some (.str q t)) = none ↔
    ∀ i, ¬ Text.OccursAt t.toList s.toList i := by
  rw [indexOf_text, Option.map_eq_none_iff]
  exact (Text.found_occurrence t.toList s.toList).eq_none_iff

theorem indexOf_text_eq_some_iff (hs : s.length < 2 ^ 63) (n : Int64) :
    indexOf h (some (.str r s)) (some (.str q t)) = some (.int n) ↔
      ∃ i : Nat, n.toInt = i ∧ IsLeast {i | Text.OccursAt t.toList s.toList i} i := by
  rw [indexOf_text, Option.map_eq_some_iff]
  have hfound := Text.found_occurrence t.toList s.toList
  have hcount {i : Nat} (hi : IsLeast {i | Text.OccursAt t.toList s.toList i} i) :
      count i = .int n ↔ n.toInt = i := by
    have := hi.1.le
    rw [String.length_toList] at this
    exact count_eq_int_iff (by omega)
  constructor
  · rintro ⟨i, hi, hn⟩
    have hleast := hfound.eq_some_iff.mp hi
    exact ⟨i, (hcount hleast).mp hn, hleast⟩
  · rintro ⟨i, hn, hleast⟩
    exact ⟨i, hfound.eq_some_iff.mpr hleast, (hcount hleast).mpr hn⟩

end

/-- Strings are rows of characters: so they are measured, taken apart, put together and searched,
as exactly as integers can say up to the `2 ^ 63` characters that no memory holds. A search of the
bytes ends in front of the same character. -/
theorem strings_are_rows_of_characters (h : Heap) (r q : Ref) (s t : String) :
    let S := some (.str r s)
    let T := some (.str q t)
    let joined := add h S T
    (∃ k : Int64, length h S = some (.int k) ∧ k.toInt = min (s.length : Int) (2 ^ 63 - 1)) ∧
    (s.length + t.length < 2 ^ 63 → length joined.2 joined.1 = sum (length h S) (length h T)) ∧
    (∀ i : Int64,
      ((getItem h S (some (.int i))).1 ≠ none ↔ 0 ≤ i.toInt ∧ i.toInt < s.length) ∧
      ∀ v, (getItem h S (some (.int i))).1 = some v → ∃ p c, v = .str p (String.singleton c)) ∧
    (s.length < 2 ^ 63 → ∃ p, (addUp S s.length h).1 = some (.str p s)) ∧
    (∀ i : Int64,
      (i.toInt < s.length →
        getItem joined.2 joined.1 (some (.int i)) = getItem joined.2 S (some (.int i))) ∧
      (s.length ≤ i.toInt →
        getItem joined.2 joined.1 (some (.int i)) =
          getItem joined.2 T (sub (some (.int i)) (length h S)))) ∧
    (∀ i, IsLeast {i | Text.OccursAt t.toList s.toList i} i → indexOf h S T = some (count i)) ∧
    (s.length < 2 ^ 63 → ∀ n : Int64, indexOf h S T = some (.int n) ↔
      ∃ i : Nat, n.toInt = i ∧ IsLeast {i | Text.OccursAt t.toList s.toList i} i) ∧
    (indexOf h S T = none ↔ ∀ i, ¬ Text.OccursAt t.toList s.toList i) ∧
    (indexOf h S T = none ↔ ∀ b, ¬ Text.OccursAt (utf8 t.toList) (utf8 s.toList) b) ∧
    ∀ b, IsLeast {b | Text.OccursAt (utf8 t.toList) (utf8 s.toList) b} b →
      ∃ front, Span.takeBytes b s.toList = some front ∧ indexOf h S T = some (count front.length) := by
  intro S T joined
  refine ⟨length_text h r, length_append joined.2 r q _, fun i => ?_, ?_, fun i => ⟨?_, ?_⟩, ?_,
    indexOf_text_eq_some_iff h r q s t, indexOf_text_eq_none_iff h r q s t, ?_, ?_⟩
  · obtain ⟨p, c, h0, hlt, hitem⟩ | ⟨hi, hitem⟩ := getItem_text h r s i
    · simp [S, hitem, h0, hlt]
    · simpa [S, hitem] using hi
  · intro hs
    have htake : s.toList.take s.length = s.toList := List.take_of_length_le (by rw [String.length_toList])
    simpa [S, htake] using addUp_take r hs h (Nat.le_refl _)
  · exact getItem_append_front joined.2 r _
  · intro hi
    obtain ⟨j, n, hsub, hj, hsum⟩ := sub_length h r hi
    rw [hsub]
    exact getItem_append_back joined.2 q _ hsum hj
  · intro i hi
    rw [indexOf_text, (Text.found_occurrence _ _).eq_some_iff.mpr hi]
    rfl
  · rw [indexOf_text, Option.map_eq_none_iff, (Text.occurrence_bytes t.toList s.toList).1]
  · intro b hb
    obtain ⟨front, hfront, hfound⟩ := (Text.occurrence_bytes t.toList s.toList).2 b hb
    refine ⟨front, hfront, ?_⟩
    rw [indexOf_text, hfound]
    rfl

/-- Two occurrences that overlap, behind a character of two bytes. -/
theorem strings_are_rows_of_characters_accents :
    let S := some (.str 0 "éaéaéa")
    let T := some (.str 1 "aéa")
    let joined := add {} S T
    length joined.2 joined.1 = sum (length {} S) (length {} T) ∧
    (∃ p, (addUp S 6 {}).1 = some (.str p "éaéaéa")) ∧
    getItem joined.2 joined.1 (some (.int 7)) = getItem joined.2 T (sub (some (.int 7)) (length {} S)) ∧
    IsLeast {b | Text.OccursAt (utf8 "aéa".toList) (utf8 "éaéaéa".toList) b} 2 ∧
    ∃ front, Span.takeBytes 2 "éaéaéa".toList = some front ∧ indexOf {} S T = some (count front.length) := by
  intro S T joined
  have hleast : IsLeast {b | Text.OccursAt (utf8 "aéa".toList) (utf8 "éaéaéa".toList) b} 2 := by
    refine ⟨by decide +kernel, fun b hb => ?_⟩
    have hbefore : ∀ b < 2, ¬ Text.OccursAt (utf8 "aéa".toList) (utf8 "éaéaéa".toList) b := by decide +kernel
    exact Nat.le_of_not_lt fun hlt => hbefore b hlt hb
  obtain ⟨-, hlength, -, hsum, hitem, -, -, -, -, hbytes⟩ :=
    strings_are_rows_of_characters {} 0 1 "éaéaéa" "aéa"
  exact ⟨hlength (by decide), hsum (by decide), (hitem 7).2 (by decide), hleast, hbytes 2 hleast⟩

end Builtin

end Lisplet
