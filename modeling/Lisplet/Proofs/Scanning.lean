import Lisplet.Token.Lexer

/-!
# The lexical grammar

Gaps of blanks and comments, and the texts that are one token, as predicates that
do not mention the scanner. `Scans` puts them together to what the scanner makes of
a source, position by position: `scans_scan` says that it makes that of it, and
`scan_eq_of_scans` that it makes nothing else.
-/

namespace Lisplet

/-! ## Gaps -/

inductive Trivia : List Char → Prop
  | nil : Trivia []
  | blank {c : Char} {cs : List Char} : isLayout c = true → Trivia cs → Trivia (c :: cs)
  | comment {body cs : List Char} : '\n' ∉ body → Trivia cs → Trivia (';' :: (body ++ '\n' :: cs))

/-- The gap at the end of a source, where a comment may do without its line feed. -/
inductive LastTrivia : List Char → Prop
  | closed {cs : List Char} : Trivia cs → LastTrivia cs
  | running {cs body : List Char} : Trivia cs → '\n' ∉ body → LastTrivia (cs ++ ';' :: body)

theorem LastTrivia.blank {c : Char} {cs : List Char} (hc : isLayout c = true) (h : LastTrivia cs) :
    LastTrivia (c :: cs) := by
  cases h with
  | closed h => exact .closed (.blank hc h)
  | running h hb => exact .running (.blank hc h) hb

theorem LastTrivia.comment {body cs : List Char} (hb : '\n' ∉ body) (h : LastTrivia cs) :
    LastTrivia (';' :: (body ++ '\n' :: cs)) := by
  cases h with
  | closed h => exact .closed (.comment hb h)
  | @running cs rest h hr =>
    have := LastTrivia.running (.comment hb h) hr
    simpa using this

theorem delimits_of_layout {c : Char} (h : isLayout c = true) : isDelimiter c = true := by
  simp [isDelimiter, h]

def EndsAtom (rest : List Char) : Prop := ∀ c ∈ rest.head?, isDelimiter c = true

theorem Trivia.endsAtom {gap : List Char} (h : Trivia gap) (hne : gap ≠ []) (rest : List Char) :
    EndsAtom (gap ++ rest) := by
  cases h with
  | nil => exact absurd rfl hne
  | blank hc _ => simpa [EndsAtom] using delimits_of_layout hc
  | comment _ _ => simp [EndsAtom, isDelimiter]

theorem LastTrivia.endsAtom {gap : List Char} (h : LastTrivia gap) : EndsAtom gap := by
  cases h with
  | closed h =>
    by_cases hne : gap = []
    · simp [EndsAtom, hne]
    · simpa using h.endsAtom hne []
  | @running cs body h _ =>
    by_cases hne : cs = []
    · simp [EndsAtom, hne, isDelimiter]
    · exact h.endsAtom hne _

/-! ## Passing over a gap -/

theorem advanceAll_append (p : Position) (a b : List Char) :
    p.advanceAll (a ++ b) = (p.advanceAll a).advanceAll b := List.foldl_append

theorem skipTrivia_comment {body : List Char} (hb : '\n' ∉ body) (rest : List Char) (p : Position) :
    skipTrivia true (body ++ '\n' :: rest) p = skipTrivia false rest ((p.advanceAll body).advance '\n') := by
  induction body generalizing p with
  | nil => simp [skipTrivia, Position.advanceAll]
  | cons c body ih =>
    simp only [List.mem_cons, not_or] at hb
    have hc : (c != '\n') = true := by simpa using Ne.symm hb.1
    rw [List.cons_append, skipTrivia, if_pos rfl, hc, ih hb.2]
    rfl

theorem skipTrivia_running {body : List Char} (hb : '\n' ∉ body) (p : Position) :
    skipTrivia true body p = ([], p.advanceAll body) := by
  induction body generalizing p with
  | nil => rfl
  | cons c body ih =>
    simp only [List.mem_cons, not_or] at hb
    have hc : (c != '\n') = true := by simpa using Ne.symm hb.1
    rw [skipTrivia, if_pos rfl, hc, ih hb.2]
    rfl

theorem skipTrivia_gap {gap : List Char} (h : Trivia gap) (rest : List Char) (p : Position) :
    skipTrivia false (gap ++ rest) p = skipTrivia false rest (p.advanceAll gap) := by
  induction h generalizing p with
  | nil => rfl
  | blank hc _ ih =>
    rw [List.cons_append, skipTrivia, if_neg (by simp), if_pos hc, ih]
    rfl
  | @comment body cs hb _ ih =>
    have hassoc : ';' :: (body ++ '\n' :: cs) ++ rest = ';' :: (body ++ '\n' :: (cs ++ rest)) := by simp
    rw [hassoc, skipTrivia, if_neg (by simp), if_neg (by decide), if_pos rfl, skipTrivia_comment hb, ih]
    simp [Position.advanceAll]

theorem skipTrivia_last {gap : List Char} (h : LastTrivia gap) (p : Position) :
    skipTrivia false gap p = ([], p.advanceAll gap) := by
  cases h with
  | closed h => simpa [skipTrivia] using skipTrivia_gap h [] p
  | @running cs body h hb =>
    rw [skipTrivia_gap h, skipTrivia, if_neg (by simp), if_neg (by decide), if_pos rfl,
      skipTrivia_running hb, advanceAll_append]
    rfl

theorem skipTrivia_stop {c : Char} (hlayout : isLayout c = false) (hsemi : c ≠ ';') (cs : List Char)
    (p : Position) : skipTrivia false (c :: cs) p = (c :: cs, p) := by
  simp [skipTrivia, hlayout, hsemi]

/-- Every text is a gap, or it starts with one and goes on with something else. -/
theorem leading_gap : ∀ cs : List Char, LastTrivia cs ∨
    ∃ gap c rest, cs = gap ++ c :: rest ∧ Trivia gap ∧ isLayout c = false ∧ c ≠ ';'
  | [] => .inl (.closed .nil)
  | c :: cs => by
    by_cases hlayout : isLayout c = true
    · rcases leading_gap cs with h | ⟨gap, d, rest, rfl, hgap, hd⟩
      · exact .inl (h.blank hlayout)
      · exact .inr ⟨c :: gap, d, rest, rfl, .blank hlayout hgap, hd⟩
    by_cases hsemi : c = ';'
    · subst hsemi
      by_cases hline : '\n' ∈ cs
      · obtain ⟨body, after, rfl, hbody⟩ := List.eq_append_cons_of_mem hline
        rcases leading_gap after with h | ⟨gap, d, rest, rfl, hgap, hd⟩
        · exact .inl (h.comment hbody)
        · exact .inr ⟨';' :: (body ++ '\n' :: gap), d, rest, by simp, .comment hbody hgap, hd⟩
      · exact .inl (.running .nil hline)
    · exact .inr ⟨[], c, cs, rfl, .nil, by simpa using hlayout, hsemi⟩
termination_by cs => cs.length
decreasing_by
  all_goals subst_vars; simp only [List.length_cons, List.length_append]; omega

/-! ## String literals -/

/-- What may stand between the quotes of a literal: a backslash takes the next
character with it. -/
inductive LiteralBody : List Char → Prop
  | nil : LiteralBody []
  | plain {c : Char} {cs : List Char} : c ≠ '"' → c ≠ '\\' → LiteralBody cs → LiteralBody (c :: cs)
  | escape {c : Char} {cs : List Char} : LiteralBody cs → LiteralBody ('\\' :: c :: cs)

/-- A text behind an opening quote in which no closing one comes. -/
inductive RunsOff : CutKind → List Char → Prop
  | unterminated {body : List Char} : LiteralBody body → RunsOff .unterminated body
  | trailingEscape {body : List Char} : LiteralBody body → RunsOff .trailingEscape (body ++ ['\\'])

theorem literal_cases : ∀ cs : List Char,
    (∃ body rest, cs = body ++ '"' :: rest ∧ LiteralBody body) ∨ ∃ kind, RunsOff kind cs
  | [] => .inr ⟨_, .unterminated .nil⟩
  | c :: cs => by
    by_cases hquote : c = '"'
    · exact .inl ⟨[], cs, by rw [hquote]; rfl, .nil⟩
    by_cases hslash : c = '\\'
    · subst hslash
      cases cs with
      | nil => exact .inr ⟨_, .trailingEscape .nil⟩
      | cons d cs =>
        rcases literal_cases cs with ⟨body, rest, rfl, hbody⟩ | ⟨kind, h⟩
        · exact .inl ⟨'\\' :: d :: body, rest, rfl, .escape hbody⟩
        · cases h with
          | unterminated h => exact .inr ⟨_, .unterminated (.escape h)⟩
          | trailingEscape h => exact .inr ⟨_, .trailingEscape (.escape h)⟩
    · rcases literal_cases cs with ⟨body, rest, rfl, hbody⟩ | ⟨kind, h⟩
      · exact .inl ⟨c :: body, rest, rfl, .plain hquote hslash hbody⟩
      · cases h with
        | unterminated h => exact .inr ⟨_, .unterminated (.plain hquote hslash h)⟩
        | trailingEscape h => exact .inr ⟨_, .trailingEscape (.plain hquote hslash h)⟩

theorem literalLength_plain {c : Char} (hquote : c ≠ '"') (hslash : c ≠ '\\') (cs : List Char) (n : Nat) :
    literalLength (c :: cs) n = literalLength cs (n + 1) := by
  rw [literalLength.eq_def]
  split <;> simp_all

theorem literalLength_body {body : List Char} (h : LiteralBody body) (rest : List Char) (n : Nat) :
    literalLength (body ++ rest) n = literalLength rest (n + body.length) := by
  induction h generalizing n with
  | nil => rfl
  | plain hquote hslash _ ih =>
    rw [List.cons_append, literalLength_plain hquote hslash, ih, List.length_cons]
    congr 1; omega
  | escape _ ih =>
    rw [List.cons_append, List.cons_append, literalLength, ih, List.length_cons, List.length_cons]
    congr 1; omega

theorem literalLength_runsOff {kind : CutKind} {cs : List Char} (h : RunsOff kind cs) (n : Nat) :
    literalLength cs n = .error kind := by
  cases h with
  | unterminated h => simpa [literalLength] using literalLength_body h [] n
  | trailingEscape h => rw [literalLength_body h, literalLength]

/-! ## Token texts -/

inductive Lexeme : TokenKind → List Char → Prop
  | opening : Lexeme .opening ['(']
  | closing : Lexeme .closing [')']
  | str {body : List Char} : LiteralBody body → Lexeme .str ('"' :: (body ++ ['"']))
  | atom {cs : List Char} : cs ≠ [] → (∀ c ∈ cs, isDelimiter c = false) → Lexeme .atom cs

theorem Lexeme.head {kind : TokenKind} {text : List Char} (h : Lexeme kind text) :
    ∃ c cs, text = c :: cs ∧ isLayout c = false ∧ c ≠ ';' ∧ (isDelimiter c = false ↔ kind = .atom) := by
  cases h with
  | opening => exact ⟨_, _, rfl, by decide⟩
  | closing => exact ⟨_, _, rfl, by decide⟩
  | str _ => exact ⟨_, _, rfl, by decide⟩
  | atom hne hplain =>
    obtain ⟨c, cs, rfl⟩ := List.exists_cons_of_ne_nil hne
    have hc := hplain c List.mem_cons_self
    have hparts := hc
    simp only [isDelimiter, Bool.or_eq_false_iff, beq_eq_false_iff_ne] at hparts
    exact ⟨c, cs, rfl, hparts.1.1.1.1, hparts.1.1.2, by simp [hc]⟩

/-- The first character of a token text tells its kind. -/
theorem Lexeme.kind_eq {kind : TokenKind} {c : Char} {cs : List Char} (h : Lexeme kind (c :: cs)) :
    kind = if c = '(' then .opening else if c = ')' then .closing else if c = '"' then .str else .atom := by
  cases h with
  | opening => rfl
  | closing => rfl
  | str _ => rfl
  | atom _ hplain =>
    have hc := hplain c List.mem_cons_self
    simp only [isDelimiter, Bool.or_eq_false_iff, beq_eq_false_iff_ne] at hc
    simp [hc]

theorem Lexeme.kind_unique {kind kind' : TokenKind} {text : List Char} (h : Lexeme kind text)
    (h' : Lexeme kind' text) : kind = kind' := by
  obtain ⟨c, cs, rfl, -⟩ := h.head
  rw [h.kind_eq, h'.kind_eq]

theorem Lexeme.kind_ne_finish {kind : TokenKind} {text : List Char} (h : Lexeme kind text) :
    kind ≠ .finish := by
  cases h <;> decide

theorem Lexeme.opening_text {text : List Char} (h : Lexeme .opening text) : text = ['('] := by
  cases h; rfl

theorem Lexeme.closing_text {text : List Char} (h : Lexeme .closing text) : text = [')'] := by
  cases h; rfl

theorem takeWhile_of_endsAtom {cs rest : List Char} (hplain : ∀ c ∈ cs, isDelimiter c = false)
    (hrest : EndsAtom rest) : (cs ++ rest).takeWhile (fun c => !isDelimiter c) = cs := by
  rw [List.takeWhile_append_of_pos (by simpa using hplain)]
  cases rest with
  | nil => simp
  | cons c rest =>
    have hc : isDelimiter c = true := hrest c rfl
    simp [hc]

theorem lexeme_text {kind : TokenKind} {c : Char} {cs rest : List Char} (h : Lexeme kind (c :: cs))
    (hrest : kind = .atom → EndsAtom rest) : lexeme c (cs ++ rest) = .ok (kind, cs.length + 1) := by
  cases h with
  | opening => rfl
  | closing => rfl
  | @str body hbody =>
    have hlen : literalLength (body ++ '"' :: rest) 1 = .ok (body.length + 1 + 1) := by
      rw [literalLength_body hbody, literalLength, Nat.add_comm 1]
    simp [lexeme, hlen, Except.map]
  | atom _ hplain =>
    have hc := hplain c List.mem_cons_self
    have htail := takeWhile_of_endsAtom (fun d hd => hplain d (List.mem_cons_of_mem c hd)) (hrest rfl)
    simp only [isDelimiter, Bool.or_eq_false_iff, beq_eq_false_iff_ne] at hc
    simp only [lexeme, if_neg hc.1.2, if_neg hc.2, if_neg hc.1.1.1.2, htail, Nat.add_comm]

theorem lexeme_runsOff {kind : CutKind} {cs : List Char} (h : RunsOff kind cs) :
    lexeme '"' cs = .error kind := by
  simp [lexeme, literalLength_runsOff h, Except.map]

/-- A text that starts with neither a gap nor a cut literal starts with a token text, and
with the longest one if that is an atom. -/
theorem leading_text {c : Char} (cs : List Char) (hlayout : isLayout c = false) (hsemi : c ≠ ';') :
    (∃ kind text rest, c :: cs = text ++ rest ∧ Lexeme kind text ∧ (kind = .atom → EndsAtom rest)) ∨
      ∃ kind, c = '"' ∧ RunsOff kind cs := by
  by_cases hopen : c = '('
  · exact .inl ⟨_, ['('], cs, by rw [hopen]; rfl, .opening, by simp⟩
  by_cases hclose : c = ')'
  · exact .inl ⟨_, [')'], cs, by rw [hclose]; rfl, .closing, by simp⟩
  by_cases hquote : c = '"'
  · rcases literal_cases cs with ⟨body, rest, rfl, hbody⟩ | ⟨kind, h⟩
    · exact .inl ⟨_, '"' :: (body ++ ['"']), rest, by simp [hquote], .str hbody, by simp⟩
    · exact .inr ⟨kind, hquote, h⟩
  · have hc : isDelimiter c = false := by
      simp [isDelimiter, hlayout, hopen, hclose, hquote, hsemi]
    have hsplit := (List.takeWhile_append_dropWhile (p := fun c => !isDelimiter c) (l := cs)).symm
    refine .inl ⟨.atom, c :: cs.takeWhile fun c => !isDelimiter c, cs.dropWhile fun c => !isDelimiter c,
      congrArg (c :: ·) hsplit, .atom (by simp) ?_, ?_⟩
    · intro d hd
      rcases List.mem_cons.mp hd with rfl | hd
      · exact hc
      · simpa using List.all_eq_true.mp List.all_takeWhile d hd
    · intro _ d hd
      have := List.head?_dropWhile_not (fun c => !isDelimiter c) cs
      rw [Option.mem_def.mp hd] at this
      simpa using this

/-! ## Scanning -/

/-- What scanning gives from position `p` on, if `cs` is all that is left. -/
inductive Scans : List Char → Position → Scan → Prop
  | finish {gap : List Char} {p : Position} : LastTrivia gap →
      Scans gap p ⟨[], .finish (p.advanceAll gap), none⟩
  | cut {gap cs : List Char} {kind : CutKind} {p q : Position} : Trivia gap → RunsOff kind cs →
      q = p.advanceAll gap →
      Scans (gap ++ '"' :: cs) p ⟨[], .finish (q.advanceAll ('"' :: cs)), some ⟨kind, ⟨q, q.advance '"'⟩⟩⟩
  | token {gap text rest : List Char} {kind : TokenKind} {p q : Position} {s : Scan} : Trivia gap →
      Lexeme kind text → (kind = .atom → EndsAtom rest) → q = p.advanceAll gap →
      Scans rest (q.advanceAll text) s →
      Scans (gap ++ (text ++ rest)) p
        ⟨⟨kind, String.ofList text, ⟨q, q.advanceAll text⟩⟩ :: s.tokens, s.finish, s.cut⟩

theorem exists_scans (cs : List Char) (p : Position) : ∃ s, Scans cs p s := by
  rcases leading_gap cs with h | ⟨gap, c, rest, hcs, hgap, hlayout, hsemi⟩
  · exact ⟨_, .finish h⟩
  · rcases leading_text rest hlayout hsemi with ⟨kind, text, after, heq, htext, hend⟩ | ⟨kind, rfl, h⟩
    · obtain ⟨d, ds, rfl, -⟩ := htext.head
      have hlen : after.length < cs.length := by
        rw [hcs, heq]
        simp only [List.length_append, List.length_cons]
        omega
      obtain ⟨s, hs⟩ := exists_scans after ((p.advanceAll gap).advanceAll (d :: ds))
      rw [hcs, heq]
      exact ⟨_, .token hgap htext hend rfl hs⟩
    · rw [hcs]
      exact ⟨_, .cut hgap h rfl⟩
termination_by cs.length
decreasing_by exact hlen

namespace Lexer

theorem next_finish {gap : List Char} (h : LastTrivia gap) (p : Position) :
    next ⟨gap, p, none⟩ = (.finish (p.advanceAll gap), ⟨[], p.advanceAll gap, none⟩) := by
  simp only [next, skipTrivia_last h]

theorem next_cut {gap cs : List Char} {kind : CutKind} (hgap : Trivia gap) (h : RunsOff kind cs)
    (p : Position) : next ⟨gap ++ '"' :: cs, p, none⟩ =
      (.finish ((p.advanceAll gap).advanceAll ('"' :: cs)), ⟨[], (p.advanceAll gap).advanceAll ('"' :: cs),
        some ⟨kind, ⟨p.advanceAll gap, (p.advanceAll gap).advance '"'⟩⟩⟩) := by
  simp only [next, skipTrivia_gap hgap, skipTrivia_stop (c := '"') (by decide) (by decide),
    lexeme_runsOff h]

theorem next_token {gap text rest : List Char} {kind : TokenKind} (hgap : Trivia gap)
    (htext : Lexeme kind text) (hend : kind = .atom → EndsAtom rest) (p : Position) :
    next ⟨gap ++ (text ++ rest), p, none⟩ =
      (⟨kind, String.ofList text, ⟨p.advanceAll gap, (p.advanceAll gap).advanceAll text⟩⟩,
        ⟨rest, (p.advanceAll gap).advanceAll text, none⟩) := by
  obtain ⟨c, cs, rfl, hlayout, hsemi, -⟩ := htext.head
  have htake : (c :: (cs ++ rest)).take (cs.length + 1) = c :: cs := by simp
  have hdrop : (c :: (cs ++ rest)).drop (cs.length + 1) = rest := by simp
  simp only [next, skipTrivia_gap hgap, List.cons_append, skipTrivia_stop hlayout hsemi,
    lexeme_text htext hend, htake, hdrop]

end Lexer

theorem collect_of_scans {cs : List Char} {p : Position} {s : Scan} (h : Scans cs p s)
    (acc : List Token) :
    Lexer.collect ⟨cs, p, none⟩ acc = ⟨acc.reverse ++ s.tokens, s.finish, s.cut⟩ := by
  induction h generalizing acc with
  | @finish gap p hgap =>
    rw [Lexer.collect, Lexer.next_finish hgap]
    simp [Token.finish]
  | cut hgap h hq =>
    rw [Lexer.collect, Lexer.next_cut hgap h, hq]
    simp [Token.finish]
  | token hgap htext hend hq _ ih =>
    rw [Lexer.collect, Lexer.next_token hgap htext hend]
    simp only [dif_neg htext.kind_ne_finish, ← hq, ih, List.reverse_cons, List.append_assoc, List.singleton_append]

theorem scan_eq_of_scans {source : List Char} {s : Scan} (h : Scans source .origin s) :
    scan source = s := collect_of_scans h []

theorem scans_scan (source : List Char) : Scans source .origin (scan source) := by
  obtain ⟨s, hs⟩ := exists_scans source .origin
  rwa [scan_eq_of_scans hs]

theorem lexeme_of_mem_scan {source : List Char} {t : Token} (h : t ∈ (scan source).tokens) :
    Lexeme t.kind t.text.toList := by
  have hs := scans_scan source
  generalize scan source = s, Position.origin = p at h hs
  induction hs with
  | finish _ => cases h
  | cut _ _ _ => cases h
  | token _ htext _ _ _ ih =>
    rcases List.mem_cons.mp h with rfl | h
    · simpa using htext
    · exact ih h

end Lisplet
