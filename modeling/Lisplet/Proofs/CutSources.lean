import Lisplet.Proofs.Positions
import Mathlib.Algebra.Ring.Parity

/-!
# Cut sources

A string literal without an end takes the rest of the source with it. What stands
before its opening quote is a source of its own, and the cut source has the tokens
and the tree of that. At the end the scanner stays where it is, and keeps the cut.
-/

namespace Lisplet

/-! ## The text before the quote -/

theorem EndsAtom.of_append {front rest : List Char} {c : Char} (h : EndsAtom (front ++ c :: rest)) :
    EndsAtom front := by
  intro d hd
  apply h d
  cases front with
  | nil => cases hd
  | cons _ _ => exact hd

/-- What stands before the quote has the same tokens and no cut. -/
theorem Scans.front {cs : List Char} {p : Position} {s : Scan} {c : Cut} (h : Scans cs p s)
    (hc : s.cut = some c) :
    ∃ front rest, cs = front ++ '"' :: rest ∧ RunsOff c.kind rest ∧ c.quote.start = p.advanceAll front ∧
      Scans front p ⟨s.tokens, .finish (p.advanceAll front), none⟩ := by
  induction h with
  | finish _ => cases hc
  | @cut gap cs kind p q hgap hruns hq =>
    cases hc
    exact ⟨gap, cs, rfl, hruns, hq, .finish (.closed hgap)⟩
  | @token gap text after kind p q s hgap htext hends hq _ ih =>
    obtain ⟨front, rest, rfl, hruns, hquote, hfront⟩ := ih hc
    have hplace : p.advanceAll (gap ++ (text ++ front)) = (q.advanceAll text).advanceAll front := by
      rw [hq, advanceAll_append, advanceAll_append]
    refine ⟨gap ++ (text ++ front), rest, by simp, hruns, hquote.trans hplace.symm, ?_⟩
    rw [hplace]
    exact .token hgap htext (fun hatom => (hends hatom).of_append) hq hfront

/-! ## Backslashes at the end -/

def endingBackslashes (cs : List Char) : Nat := (cs.reverse.takeWhile (· = '\\')).length

theorem endingBackslashes_cons (c : Char) (cs : List Char) :
    endingBackslashes (c :: cs) =
      if endingBackslashes cs = cs.length ∧ c = '\\' then cs.length + 1 else endingBackslashes cs := by
  unfold endingBackslashes
  rw [List.reverse_cons, List.takeWhile_append, List.length_reverse]
  by_cases hall : (cs.reverse.takeWhile (· = '\\')).length = cs.length
  · by_cases hc : c = '\\' <;> simp [hall, hc]
  · simp [hall]

theorem endingBackslashes_snoc (cs : List Char) :
    endingBackslashes (cs ++ ['\\']) = endingBackslashes cs + 1 := by
  simp [endingBackslashes]

theorem endingBackslashes_le (cs : List Char) : endingBackslashes cs ≤ cs.length := by
  simpa [endingBackslashes] using (List.takeWhile_prefix (· = '\\') (l := cs.reverse)).length_le

/-- Inside a literal backslashes come in pairs, or the last one escapes something else. -/
theorem LiteralBody.even_endingBackslashes {body : List Char} (h : LiteralBody body) :
    Even (endingBackslashes body) := by
  induction h with
  | nil => exact ⟨0, rfl⟩
  | plain _ hslash _ ih => rwa [endingBackslashes_cons, if_neg (by simp [hslash])]
  | @escape c cs _ ih =>
    -- a pair counts only if nothing but backslashes follows; else the end lies in `cs`
    by_cases hpair : endingBackslashes cs = cs.length ∧ c = '\\'
    · have htwo : endingBackslashes ('\\' :: c :: cs) = cs.length + 2 := by
        rw [endingBackslashes_cons, endingBackslashes_cons, if_pos hpair]
        simp
      rw [htwo, Nat.even_add, ← hpair.1]
      exact iff_of_true ih (by decide)
    · have hlast : endingBackslashes (c :: cs) = endingBackslashes cs := by
        rw [endingBackslashes_cons, if_neg hpair]
      have hle := endingBackslashes_le cs
      rw [endingBackslashes_cons, if_neg (by rw [hlast, List.length_cons]; omega), hlast]
      exact ih

theorem RunsOff.trailingEscape_iff {kind : CutKind} {cs : List Char} (h : RunsOff kind cs) :
    kind = .trailingEscape ↔ Odd (endingBackslashes cs) := by
  cases h with
  | unterminated hbody => simpa using hbody.even_endingBackslashes
  | trailingEscape hbody =>
    rw [endingBackslashes_snoc, Nat.odd_add_one, Nat.not_odd_iff_even]
    simpa using hbody.even_endingBackslashes

/-! ## Asking for tokens at the end -/

def Lexer.skip (lx : Lexer) : Nat → Lexer
  | 0 => lx
  | k + 1 => lx.next.2.skip k

theorem Lexer.skip_finished (q : Position) (cut : Option Cut) (k : Nat) :
    Lexer.skip ⟨[], q, cut⟩ k = ⟨[], q, cut⟩ := by
  induction k with
  | zero => rfl
  | succ k ih => exact ih

/-- The tokens come one after the other, then the end of input as often as one asks, and the cut
is there from the first time on. -/
theorem Scans.skip {cs : List Char} {p : Position} {s : Scan} (h : Scans cs p s) (k : Nat) :
    (Lexer.skip ⟨cs, p, none⟩ k).next.1 = s.tokens[k]?.getD s.finish ∧
      (s.tokens.length ≤ k → (Lexer.skip ⟨cs, p, none⟩ k).next.2.cut = s.cut) := by
  induction h generalizing k with
  | finish hgap =>
    cases k with
    | zero => simp [Lexer.skip, Lexer.next_finish hgap]
    | succ k =>
      rw [Lexer.skip, Lexer.next_finish hgap, Lexer.skip_finished]
      exact ⟨rfl, fun _ => rfl⟩
  | cut hgap hruns hq =>
    cases k with
    | zero => simp [Lexer.skip, Lexer.next_cut hgap hruns, hq]
    | succ k =>
      rw [Lexer.skip, Lexer.next_cut hgap hruns, Lexer.skip_finished, hq]
      exact ⟨rfl, fun _ => rfl⟩
  | token hgap htext hends hq _ ih =>
    cases k with
    | zero => simp [Lexer.skip, Lexer.next_token hgap htext hends, hq]
    | succ k =>
      rw [Lexer.skip, Lexer.next_token hgap htext hends, ← hq]
      simpa using ih k

/-! ## Reading -/

/-- Both fail with the same error, or both give the same nodes, under roots that start together. -/
inductive SameNodes : Except ReadError Reading → Except ReadError Reading → Prop
  | failed (e : ReadError) : SameNodes (.error e) (.error e)
  | read (nodes : List Node) (start stop stop' : Position) (tag : Option Nat) (cut cut' : Option Cut) :
      SameNodes (.ok ⟨.branch nodes ⟨start, stop⟩ tag, cut⟩) (.ok ⟨.branch nodes ⟨start, stop'⟩ tag, cut'⟩)

theorem sameNodes_of_tokens {source source' : List Char} (h : (scan source').tokens = (scan source).tokens) :
    SameNodes (readTree source) (readTree source') := by
  unfold readTree Scan.read
  rw [h]
  cases readFrom (scan source).tokens [] [] with
  | error e => exact .failed e
  | ok nodes => exact .read nodes _ _ _ none _ _

/-- A source that is cut at a quote has the tokens and the tree of the text before the quote, which
is not cut. It is cut behind a backslash if an odd number of them stands at the end. Whoever goes on
asking for tokens gets the end of the whole source, and the cut stays. -/
theorem cut_source_reads_as_front {source : List Char} {c : Cut} (h : (scan source).cut = some c) :
    ∃ front rest, source = front ++ '"' :: rest ∧
      Span.takeBytes c.quote.start.offset source = some front ∧
      (scan front).cut = none ∧ (scan front).tokens = (scan source).tokens ∧
      SameNodes (readTree source) (readTree front) ∧
      (c.kind = .trailingEscape ↔ Odd (endingBackslashes rest)) ∧
      (c.kind = .unterminated ↔ ¬ Odd (endingBackslashes rest)) ∧
      ∀ k, let lx := (Lexer.start source).skip k
        (∀ t, (scan source).tokens[k]? = some t → lx.next.1 = t) ∧
        ((scan source).tokens.length ≤ k →
          lx.next.1 = .finish (.behind source) ∧ lx.next.2.cut = some c) := by
  obtain ⟨front, rest, hsource, hruns, hquote, hfront⟩ := (scans_scan source).front h
  have hscan := scan_eq_of_scans hfront
  have hoffset : c.quote.start.offset = (utf8 front).length := by
    rw [hquote, ← behind_nil, advanceAll_behind]
    rfl
  have hkind : c.kind = .unterminated ↔ ¬ c.kind = .trailingEscape := by cases c.kind <;> simp
  have htokens : (scan front).tokens = (scan source).tokens := by rw [hscan]
  refine ⟨front, rest, hsource, ?_, by rw [hscan], htokens, sameNodes_of_tokens htokens,
    hruns.trailingEscape_iff, by rw [hkind, hruns.trailingEscape_iff], ?_⟩
  · rw [hoffset, hsource]
    exact Span.takeBytes_utf8 front ('"' :: rest)
  · intro k lx
    obtain ⟨htoken, hcut⟩ := (scans_scan source).skip k
    refine ⟨fun t ht => htoken.trans (by rw [ht, Option.getD_some]), fun hk => ⟨?_, (hcut hk).trans h⟩⟩
    rw [List.getElem?_eq_none hk] at htoken
    exact htoken.trans (stands_scan source).finish

def threeQuotes : List Char := "(f ;\"\n \"\\\"é\" g)\"x\\\\\\".toList

theorem cut_source_reads_as_front_threeQuotes :
    ∃ c, (scan threeQuotes).cut = some c ∧ c.kind = .trailingEscape ∧ c.quote.start = ⟨16, 2, 10⟩ ∧
      ∃ front rest, threeQuotes = front ++ '"' :: rest ∧
        Span.takeBytes c.quote.start.offset threeQuotes = some front ∧
        (scan front).cut = none ∧ (scan front).tokens = (scan threeQuotes).tokens ∧
        SameNodes (readTree threeQuotes) (readTree front) ∧
        (c.kind = .trailingEscape ↔ Odd (endingBackslashes rest)) ∧
        (c.kind = .unterminated ↔ ¬ Odd (endingBackslashes rest)) ∧
        ∀ k, let lx := (Lexer.start threeQuotes).skip k
          (∀ t, (scan threeQuotes).tokens[k]? = some t → lx.next.1 = t) ∧
          ((scan threeQuotes).tokens.length ≤ k →
            lx.next.1 = .finish (.behind threeQuotes) ∧ lx.next.2.cut = some c) := by
  have hcut : (scan threeQuotes).cut = some ⟨.trailingEscape, ⟨16, 2, 10⟩, ⟨17, 2, 11⟩⟩ := by decide +kernel
  exact ⟨_, hcut, rfl, rfl, cut_source_reads_as_front hcut⟩

end Lisplet
