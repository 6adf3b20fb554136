/-!
# Occurrences

The first place at which one text occurs inside another. A window as long as the
pattern moves over the text, and a fingerprint of the window moves with it, so
that windows are compared with the pattern only where the fingerprints agree.
`occurrence_eq` says that this finds the least position at which the pattern
stands.
-/

namespace Lisplet.Text

/-- The least position, counted from `i`, at which `pat` occurs in `cs`. -/
def occurrenceFrom (pat : List Char) (i : Nat) : List Char → Option Nat
  | [] => if pat.isEmpty then some i else none
  | c :: cs => if pat.isPrefixOf (c :: cs) then some i else occurrenceFrom pat (i + 1) cs

/-! ## Fingerprints -/

def base : UInt64 := 0x9E3779B97F4A7C15

def code (c : Char) : UInt64 := c.val.toUInt64

/-- A text as a numeral in `base`, behind the digits of `h`. -/
def fingerprint (h : UInt64) (cs : List Char) : UInt64 :=
  cs.foldl (fun h c => h * base + code c) h

def shift (w : UInt64) : Nat → UInt64
  | 0 => w
  | n + 1 => shift (w * base) n

theorem shift_eq_mul (w : UInt64) (n : Nat) : shift w n = w * shift 1 n := by
  induction n generalizing w with
  | zero => simp [shift]
  | succ n ih =>
    rw [shift, shift, ih (w * base), ih (1 * base)]
    grind

theorem fingerprint_eq_add (h : UInt64) (cs : List Char) :
    fingerprint h cs = h * shift 1 cs.length + fingerprint 0 cs := by
  induction cs generalizing h with
  | nil => simp [fingerprint, shift]
  | cons c cs ih =>
    have hs : shift 1 (cs.length + 1) = base * shift 1 cs.length := by
      rw [shift, shift_eq_mul]
      grind
    have h1 : fingerprint h (c :: cs) = fingerprint (h * base + code c) cs := rfl
    have h0 : fingerprint 0 (c :: cs) = fingerprint (0 * base + code c) cs := rfl
    rw [h1, h0, ih (h * base + code c), ih (0 * base + code c), List.length_cons, hs]
    grind

/-- The fingerprint when the window moves on: the first character goes, the next one comes. -/
theorem fingerprint_move (c d : Char) (cs : List Char) :
    fingerprint 0 (cs ++ [d]) =
      (fingerprint 0 (c :: cs) - code c * shift 1 cs.length) * base + code d := by
  have h0 : fingerprint 0 (c :: cs) = fingerprint (0 * base + code c) cs := rfl
  have h1 : fingerprint 0 (cs ++ [d]) = fingerprint 0 cs * base + code d := by simp [fingerprint]
  rw [h0, h1, fingerprint_eq_add (0 * base + code c)]
  grind

/-! ## Search -/

/-- The least position of `pat`, counted from `i`. The window at the front of
the first list has the fingerprint `mark`, and the second list is what follows it. -/
def search (pat : List Char) (target weight : UInt64) (i : Nat) (mark : UInt64) :
    List Char → List Char → Option Nat
  | cs, [] => if pat.isPrefixOf cs then some i else none
  | [], _ :: _ => none
  | c :: cs, d :: ahead =>
    if mark = target ∧ pat.isPrefixOf (c :: cs) then some i
    else search pat target weight (i + 1) ((mark - code c * weight) * base + code d) cs ahead

def occurrence (pat cs : List Char) : Option Nat :=
  if pat.isEmpty then some 0
  else
    search pat (fingerprint 0 pat) (shift 1 (pat.length - 1)) 0
      (fingerprint 0 (cs.take pat.length)) cs (cs.drop pat.length)

theorem occurrenceFrom_eq_none {pat : List Char} {i : Nat} {cs : List Char}
    (h : cs.length < pat.length) : occurrenceFrom pat i cs = none := by
  induction cs generalizing i with
  | nil =>
    cases pat with
    | nil => simp at h
    | cons _ _ => rfl
  | cons c cs ih =>
    have hp : ¬ pat.isPrefixOf (c :: cs) := by
      intro hp
      have := (List.isPrefixOf_iff_prefix.1 hp).length_le
      omega
    rw [occurrenceFrom, if_neg hp]
    exact ih (by simp at h; omega)

theorem search_eq {pat : List Char} (hne : 0 < pat.length) (i : Nat) (cs : List Char) :
    search pat (fingerprint 0 pat) (shift 1 (pat.length - 1)) i
      (fingerprint 0 (cs.take pat.length)) cs (cs.drop pat.length) = occurrenceFrom pat i cs := by
  induction cs generalizing i with
  | nil =>
    cases pat with
    | nil => simp at hne
    | cons p ps => simp [search, occurrenceFrom]
  | cons c cs ih =>
    rw [occurrenceFrom]
    cases hd : (c :: cs).drop pat.length with
    | nil =>
      have hl : (c :: cs).length ≤ pat.length := List.drop_eq_nil_iff.1 hd
      rw [search, occurrenceFrom_eq_none (by simp at hl; omega)]
    | cons d ahead =>
      have hmark : pat.isPrefixOf (c :: cs) = true →
          fingerprint 0 ((c :: cs).take pat.length) = fingerprint 0 pat := by
        intro hp
        rw [← List.prefix_iff_eq_take.1 (List.isPrefixOf_iff_prefix.1 hp)]
      rw [search]
      by_cases hp : pat.isPrefixOf (c :: cs) = true
      · rw [if_pos ⟨hmark hp, hp⟩, if_pos hp]
      · rw [if_neg fun h => hp h.2, if_neg hp, ← ih (i + 1)]
        obtain ⟨m, hm⟩ : ∃ m, pat.length = m + 1 := ⟨pat.length - 1, by omega⟩
        rw [hm] at hd
        rw [List.drop_succ_cons] at hd
        have hlen : m < cs.length := by
          have := congrArg List.length hd
          simp at this
          omega
        obtain ⟨hdm, ha⟩ := List.cons.inj (hd.symm.trans (List.drop_eq_getElem_cons hlen))
        have ht : cs.take (m + 1) = cs.take m ++ [d] := by
          rw [hdm, List.take_append_getElem hlen]
        have hl : (cs.take m).length = m := by simp; omega
        rw [hm, ht, ← ha, fingerprint_move c, hl]
        simp

theorem occurrence_eq (pat cs : List Char) : occurrence pat cs = occurrenceFrom pat 0 cs := by
  rw [occurrence]
  cases pat with
  | nil => cases cs <;> rfl
  | cons p ps => exact search_eq (by simp) 0 cs

end Lisplet.Text
