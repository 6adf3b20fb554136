/-!
# Single characters

The character of a text at a position, counted in characters. The text is
followed from its start, and `charAt?_eq` says that this is the element of the
list of its characters.
-/

namespace Lisplet.Text

def charFrom? {s : String} (p : s.Pos) : Nat → Option Char
  | 0 => if h : p = s.endPos then none else some (p.get h)
  | n + 1 => if h : p = s.endPos then none else charFrom? (p.next h) n

def charAt? (s : String) (n : Nat) : Option Char := charFrom? s.startPos n

theorem charFrom?_of_splits {s t u : String} {p : s.Pos} (hp : p.Splits t u) (n : Nat) :
    charFrom? p n = u.toList[n]? := by
  induction n generalizing p t u with
  | zero =>
    rw [charFrom?]
    by_cases h : p = s.endPos
    · rw [dif_pos h, hp.eq_endPos_iff.1 h]
      rfl
    · obtain ⟨v, rfl⟩ := hp.exists_eq_singleton_append h
      simp [h]
  | succ n ih =>
    rw [charFrom?]
    by_cases h : p = s.endPos
    · rw [dif_pos h, hp.eq_endPos_iff.1 h]
      rfl
    · obtain ⟨v, rfl⟩ := hp.exists_eq_singleton_append h
      rw [dif_neg h, ih hp.next]
      simp

theorem charAt?_eq (s : String) (n : Nat) : charAt? s n = s.toList[n]? :=
  charFrom?_of_splits s.splits_startPos n

end Lisplet.Text
