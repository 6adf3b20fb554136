import Lisplet.Proofs.RelocatedRuns
import Lisplet.Proofs.SingleLine

/-!
# Line endings

A line may end with a carriage return and a line feed instead of a line feed alone. The
return is one more blank, or one more character of a comment, and the line feed behind it
starts a new line as before. So tokens stay on their lines and in their columns, unless a
literal goes over several lines. Only byte offsets grow, by one for each line.
-/

namespace Lisplet

/-! ## Texts and positions -/

def withReturns (cs : List Char) : List Char := cs.flatMap fun c => if c = '\n' then ['\r', '\n'] else [c]

@[simp] theorem withReturns_feed (cs : List Char) :
    withReturns ('\n' :: cs) = '\r' :: '\n' :: withReturns cs := rfl

theorem withReturns_cons {c : Char} (hc : c ≠ '\n') (cs : List Char) :
    withReturns (c :: cs) = c :: withReturns cs := by
  simp [withReturns, hc]

@[simp] theorem withReturns_append (a b : List Char) : withReturns (a ++ b) = withReturns a ++ withReturns b :=
  List.flatMap_append

/-- A text on one line stays as it is. -/
theorem withReturns_eq {cs : List Char} (h : '\n' ∉ cs) : withReturns cs = cs := by
  induction cs with
  | nil => rfl
  | cons c cs ih =>
    simp only [List.mem_cons, not_or] at h
    rw [withReturns_cons (Ne.symm h.1), ih h.2]

/-- The position that is one byte further for every line before it. -/
def Position.withReturns (p : Position) : Position := { p with offset := p.offset + (p.line - 1) }

namespace Position

theorem withReturns_advance {p : Position} {c : Char} (hc : c ≠ '\n') :
    p.withReturns.advance c = (p.advance c).withReturns := by
  simp only [advance, if_neg hc, withReturns]
  congr 1
  omega

theorem withReturns_advance_feed {p : Position} (hp : 0 < p.line) :
    (p.withReturns.advance '\r').advance '\n' = (p.advance '\n').withReturns := by
  have hreturn : ('\r' : Char).utf8Size = 1 := rfl
  simp only [advance, withReturns, hreturn, if_true, if_neg (show '\r' ≠ '\n' by decide)]
  congr 1
  omega

theorem line_pos_advanceAll {p : Position} (hp : 0 < p.line) (cs : List Char) : 0 < (p.advanceAll cs).line := by
  induction cs generalizing p with
  | nil => exact hp
  | cons c cs ih =>
    refine ih ?_
    unfold advance
    split
    · exact Nat.succ_pos _
    · exact hp

theorem withReturns_advanceAll {p : Position} (hp : 0 < p.line) (cs : List Char) :
    p.withReturns.advanceAll (Lisplet.withReturns cs) = (p.advanceAll cs).withReturns := by
  induction cs generalizing p with
  | nil => rfl
  | cons c cs ih =>
    have hnext := ih (line_pos_advanceAll hp [c])
    by_cases hc : c = '\n'
    · subst hc
      rw [withReturns_feed]
      show ((p.withReturns.advance '\r').advance '\n').advanceAll _ = _
      rw [withReturns_advance_feed hp]
      exact hnext
    · rw [withReturns_cons hc]
      show (p.withReturns.advance c).advanceAll _ = _
      rw [withReturns_advance hc]
      exact hnext

end Position

/-! ## The lexical grammar -/

theorem Trivia.returns {gap : List Char} (h : Trivia gap) : Trivia (withReturns gap) := by
  induction h with
  | nil => exact .nil
  | @blank c cs hc _ ih =>
    by_cases hfeed : c = '\n'
    · subst hfeed
      exact .blank rfl (.blank rfl ih)
    · rw [withReturns_cons hfeed]
      exact .blank hc ih
  | @comment body cs hbody _ ih =>
    -- the carriage return is the last character of the comment
    have hlonger : '\n' ∉ body ++ ['\r'] := by simp [hbody]
    rw [withReturns_cons (by decide), withReturns_append, withReturns_eq hbody, withReturns_feed]
    simpa using Trivia.comment hlonger ih

theorem LastTrivia.returns {gap : List Char} (h : LastTrivia gap) : LastTrivia (withReturns gap) := by
  cases h with
  | closed h => exact .closed h.returns
  | running h hbody =>
    rw [withReturns_append, withReturns_cons (by decide), withReturns_eq hbody]
    exact .running h.returns hbody

theorem LiteralBody.returns {body : List Char} (h : LiteralBody body) : LiteralBody (withReturns body) := by
  induction h with
  | nil => exact .nil
  | @plain c cs hquote hslash _ ih =>
    by_cases hfeed : c = '\n'
    · subst hfeed
      exact .plain (by decide) (by decide) (.plain (by decide) (by decide) ih)
    · rw [withReturns_cons hfeed]
      exact .plain hquote hslash ih
  | @escape c cs _ ih =>
    rw [withReturns_cons (by decide)]
    by_cases hfeed : c = '\n'
    · -- the backslash takes the carriage return, and the line feed stands for itself
      subst hfeed
      exact .escape (.plain (by decide) (by decide) ih)
    · rw [withReturns_cons hfeed]
      exact .escape ih

theorem RunsOff.returns {kind : CutKind} {cs : List Char} (h : RunsOff kind cs) :
    RunsOff kind (withReturns cs) := by
  cases h with
  | unterminated h => exact .unterminated h.returns
  | trailingEscape h =>
    rw [withReturns_append]
    exact .trailingEscape h.returns

theorem EndsAtom.returns {rest : List Char} (h : EndsAtom rest) : EndsAtom (withReturns rest) := by
  cases rest with
  | nil => exact h
  | cons c cs =>
    by_cases hfeed : c = '\n'
    · subst hfeed
      simp [EndsAtom, isDelimiter, isLayout]
    · rw [withReturns_cons hfeed]
      simpa [EndsAtom] using h

/-! ## Scanning -/

theorem Scans.returns {cs : List Char} {p : Position} {s : Scan} (h : Scans cs p s) (hp : 0 < p.line)
    (hs : ∀ t ∈ s.tokens, Unbroken t.text) : Scans (withReturns cs) p.withReturns (s.moved .withReturns) := by
  induction h with
  | @finish gap p hgap =>
    have hscans := Scans.finish (p := p.withReturns) hgap.returns
    rwa [Position.withReturns_advanceAll hp] at hscans
  | @cut gap cs kind p q hgap hcs hq =>
    have hline : 0 < q.line := hq ▸ Position.line_pos_advanceAll hp gap
    have hquote : withReturns ('"' :: cs) = '"' :: withReturns cs := withReturns_cons (by decide) cs
    have hplace : q.withReturns = p.withReturns.advanceAll (withReturns gap) := by
      rw [Position.withReturns_advanceAll hp, hq]
    have hscans := Scans.cut hgap.returns hcs.returns hplace
    rw [← hquote, Position.withReturns_advanceAll hline, Position.withReturns_advance (by decide),
      ← withReturns_append] at hscans
    exact hscans
  | @token gap text rest kind p q s hgap htext hend hq _ ih =>
    rw [List.forall_mem_cons] at hs
    have hline : 0 < q.line := hq ▸ Position.line_pos_advanceAll hp gap
    have htextual : withReturns text = text := withReturns_eq (by simpa [Unbroken] using hs.1)
    have hplace : q.withReturns = p.withReturns.advanceAll (withReturns gap) := by
      rw [Position.withReturns_advanceAll hp, hq]
    have hstop : q.withReturns.advanceAll text = (q.advanceAll text).withReturns := by
      rw [← Position.withReturns_advanceAll hline, htextual]
    have hrest := ih (Position.line_pos_advanceAll hline text) hs.2
    rw [← hstop] at hrest
    have hscans := Scans.token hgap.returns htext (fun h => (hend h).returns) hplace hrest
    rw [withReturns_append, withReturns_append, htextual]
    rw [hstop] at hscans
    exact hscans

theorem scan_withReturns {source : List Char}
    (h : ∀ t ∈ (scan source).tokens, t.kind = .str → Unbroken t.text) :
    scan (withReturns source) = (scan source).moved .withReturns := by
  have htokens : ∀ t ∈ (scan source).tokens, Unbroken t.text := by
    intro t ht
    by_cases hk : t.kind = .str
    · exact h t ht hk
    · exact (lexeme_of_mem_scan ht).unbroken hk
  exact scan_eq_of_scans ((scans_scan source).returns Nat.one_pos htokens)

/-! ## What is reported -/

def Span.lines (s : Span) : (Nat × Nat) × (Nat × Nat) :=
  ((s.start.line, s.start.column), (s.stop.line, s.stop.column))

/-- Both end alike, and a failure is reported on the same line of text. -/
inductive Outcome.SameReport : Outcome → Outcome → Prop
  | finished : SameReport .finished .finished
  | exhausted : SameReport .exhausted .exhausted
  | failed {f f' : Failure} : (∀ colors, Diagnostic.line ⟨.error, f.message, f.span⟩ colors =
      Diagnostic.line ⟨.error, f'.message, f'.span⟩ colors) → SameReport (.failed f) (.failed f')

@[simp] theorem lines_withReturns (s : Span) : (s.moved .withReturns).lines = s.lines := rfl

theorem sameReport_withReturns (o : Outcome) : o.SameReport (o.moved .withReturns) := by
  cases o with
  | finished => exact .finished
  | exhausted => exact .exhausted
  | failed f =>
    refine .failed fun colors => ?_
    rw [f.message_moved, f.span_moved]
    rfl

/-- Line feeds may be written with a carriage return before them, if no literal contains one.
Tokens and the quote of a cut literal keep their lines and columns. The program prints the same
and ends alike, and a failure is reported in the same words at the same place. -/
theorem returns_unnoticed {source : List Char}
    (h : ∀ t ∈ (scan source).tokens, t.kind = .str → Unbroken t.text) :
    let s := scan source
    let s' := scan (withReturns source)
    (s'.tokens ++ [s'.finish]).map (fun t => (t.kind, t.text, t.span.lines)) =
      (s.tokens ++ [s.finish]).map (fun t => (t.kind, t.text, t.span.lines)) ∧
    s'.cut.map (fun c => (c.kind, c.quote.lines)) = s.cut.map (fun c => (c.kind, c.quote.lines)) ∧
    ∀ limit sink fuel,
      let run := runSource source limit sink fuel
      let run' := runSource (withReturns source) limit sink fuel
      run'.2 = run.2 ∧ run.1.SameReport run'.1 := by
  have hscan := scan_withReturns h
  refine ⟨?_, ?_, fun limit sink fuel => ?_⟩
  · rw [hscan]
    simp [Scan.moved, Token.moved]
  · rw [hscan]
    simp [Scan.moved, Cut.moved, Function.comp_def]
  · dsimp only
    rw [runSource_moved _ rfl hscan]
    exact ⟨rfl, sameReport_withReturns _⟩

def mixedEndings : List Char := "; ( \"\n(defun (main)\r\n (print \"a\" 1)) \"b\\\n".toList

theorem returns_unnoticed_mixedEndings :
    (∀ t ∈ (scan mixedEndings).tokens, t.kind = .str → Unbroken t.text) ∧
    (scan (withReturns mixedEndings)).cut.map (fun c => (c.kind, c.quote.lines)) =
      some (.unterminated, ((3, 17), (3, 18))) ∧
    (runSource mixedEndings none {} 5).1.SameReport (runSource (withReturns mixedEndings) none {} 5).1 := by
  have hliterals : ∀ t ∈ (scan mixedEndings).tokens, t.kind = .str → Unbroken t.text := by
    show ∀ t ∈ (scan mixedEndings).tokens, t.kind = .str → '\n' ∉ t.text.toList
    decide +kernel
  have hcut : (scan mixedEndings).cut.map (fun c => (c.kind, c.quote.lines)) =
      some (.unterminated, ((3, 17), (3, 18))) := by decide +kernel
  obtain ⟨-, hsame, hrun⟩ := returns_unnoticed hliterals
  exact ⟨hliterals, hsame.trans hcut, (hrun none {} 5).2⟩

end Lisplet
