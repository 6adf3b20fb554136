import Lisplet.Proofs.Encoding
import Lisplet.Token.Lexer

/-!
# Scanning bytes

The bare scanner walks over the bytes of a source and never looks at characters.
Only when a token is complete does it cut the token's text out of the source, at
the byte offsets that it has counted, and a cut inside a character has no result.
`Bare.scan_eq` says that every cut falls between two characters and that the
tokens are those of `scan`.
-/

namespace Lisplet.Bare

def isLayout (b : UInt8) : Bool :=
  b == ascii ' ' || b == ascii '\t' || b == ascii '\n' || b == ascii '\r'

def isDelimiter (b : UInt8) : Bool :=
  isLayout b || b == ascii '"' || b == ascii ';' || b == ascii '(' || b == ascii ')'

def skipTrivia (comment : Bool) : List UInt8 → Position → List UInt8 × Position
  | [], p => ([], p)
  | b :: bs, p =>
    if comment then skipTrivia (b != ascii '\n') bs (p.bump b)
    else if isLayout b then skipTrivia false bs (p.bump b)
    else if b = ascii ';' then skipTrivia true bs (p.bump b)
    else (b :: bs, p)

/-- Drops a string literal whose opening quote is behind. A backslash takes one
byte with it, which may be the first byte of a longer character. -/
def skipLiteral : List UInt8 → Position → Option CutKind × List UInt8 × Position
  | [], p => (some .unterminated, [], p)
  | b :: bs, p =>
    if b = ascii '"' then (none, bs, p.bump b)
    else if b = ascii '\\' then
      match bs with
      | [] => (some .trailingEscape, [], p.bump b)
      | e :: bs => skipLiteral bs ((p.bump b).bump e)
    else skipLiteral bs (p.bump b)

def skipAtom : List UInt8 → Position → List UInt8 × Position
  | [], p => ([], p)
  | b :: bs, p => if isDelimiter b then (b :: bs, p) else skipAtom bs (p.bump b)

structure Lexer where
  rest : List UInt8
  position : Position
  cut : Option Cut

namespace Lexer

def emit (source : List Char) (kind : TokenKind) (start stop : Position) (rest : List UInt8)
    (cut : Option Cut) : Option (Token × Lexer) :=
  (Span.slice ⟨start, stop⟩ source).map fun text =>
    (⟨kind, String.ofList text, ⟨start, stop⟩⟩, ⟨rest, stop, cut⟩)

def finish (source : List Char) (p : Position) (cut : Option Cut) : Token × Lexer :=
  let stop : Position := { p with offset := (utf8 source).length }
  (.finish stop, ⟨[], stop, cut⟩)

def take (source : List Char) (b : UInt8) (bs : List UInt8) (p : Position) (cut : Option Cut) :
    Option (Token × Lexer) :=
  if b = ascii '(' then emit source .opening p (p.bump b) bs cut
  else if b = ascii ')' then emit source .closing p (p.bump b) bs cut
  else if b = ascii '"' then
    match skipLiteral bs (p.bump b) with
    | (none, rest, stop) => emit source .str p stop rest cut
    | (some kind, _, stop) =>
      let quote : Position := ⟨p.offset + 1, p.line, p.column + 1⟩
      some (finish source stop (some ⟨kind, ⟨p, quote⟩⟩))
  else
    match skipAtom (b :: bs) p with
    | (rest, stop) => emit source .atom p stop rest cut

def next (source : List Char) (lx : Lexer) : Option (Token × Lexer) :=
  match skipTrivia false lx.rest lx.position with
  | ([], p) => some (finish source p lx.cut)
  | (b :: bs, p) => take source b bs p lx.cut

def collect (source : List Char) : Nat → Lexer → List Token → Option Scan
  | 0, _, _ => none
  | fuel + 1, lx, acc =>
    (lx.next source).bind fun (token, lx) =>
      if token.kind = .finish then some ⟨acc.reverse, token, lx.cut⟩
      else collect source fuel lx (token :: acc)

end Lexer

/-- Splits a source into tokens. Every token takes a byte, so that there are
fewer tokens than the loop has rounds. -/
def scan (source : List Char) : Option Scan :=
  Lexer.collect source ((utf8 source).length + 1) ⟨utf8 source, .origin, none⟩ []

/-! ## Bytes of characters -/

theorem ascii_beq {c d : Char} (hc : c.toNat < 0x80) (hd : d.toNat < 0x80) :
    (ascii c == ascii d) = (c == d) := by
  rw [Bool.eq_iff_iff, beq_iff_eq, beq_iff_eq, ascii_inj hc hd]

theorem beq_ascii {b : UInt8} (hb : 0x80 ≤ b.toNat) {d : Char} (hd : d.toNat < 0x80) :
    (b == ascii d) = false := by
  rw [beq_eq_false_iff_ne]
  exact ne_ascii hb hd

theorem isLayout_ascii {c : Char} (hc : c.toNat < 0x80) : isLayout (ascii c) = Lisplet.isLayout c := by
  simp only [isLayout, Lisplet.isLayout]
  rw [ascii_beq hc (by decide), ascii_beq hc (by decide), ascii_beq hc (by decide),
    ascii_beq hc (by decide)]

theorem isDelimiter_ascii {c : Char} (hc : c.toNat < 0x80) :
    isDelimiter (ascii c) = Lisplet.isDelimiter c := by
  simp only [isDelimiter, Lisplet.isDelimiter, isLayout_ascii hc]
  rw [ascii_beq hc (by decide), ascii_beq hc (by decide), ascii_beq hc (by decide),
    ascii_beq hc (by decide)]

theorem isLayout_high {b : UInt8} (hb : 0x80 ≤ b.toNat) : isLayout b = false := by
  simp only [isLayout]
  rw [beq_ascii hb (by decide), beq_ascii hb (by decide), beq_ascii hb (by decide),
    beq_ascii hb (by decide)]
  rfl

theorem isDelimiter_high {b : UInt8} (hb : 0x80 ≤ b.toNat) : isDelimiter b = false := by
  simp only [isDelimiter, isLayout_high hb]
  rw [beq_ascii hb (by decide), beq_ascii hb (by decide), beq_ascii hb (by decide),
    beq_ascii hb (by decide)]
  rfl

theorem beq_of_high {c : Char} (hc : ¬ c.toNat < 0x80) {d : Char} (hd : d.toNat < 0x80) :
    (c == d) = false := by
  rw [beq_eq_false_iff_ne]
  rintro rfl
  exact hc hd

theorem isLayout_of_high {c : Char} (hc : ¬ c.toNat < 0x80) : Lisplet.isLayout c = false := by
  simp only [Lisplet.isLayout]
  rw [beq_of_high hc (by decide), beq_of_high hc (by decide), beq_of_high hc (by decide),
    beq_of_high hc (by decide)]
  rfl

theorem isDelimiter_of_high {c : Char} (hc : ¬ c.toNat < 0x80) : Lisplet.isDelimiter c = false := by
  simp only [Lisplet.isDelimiter, isLayout_of_high hc]
  rw [beq_of_high hc (by decide), beq_of_high hc (by decide), beq_of_high hc (by decide),
    beq_of_high hc (by decide)]
  rfl

/-! ## Blanks and comments -/

theorem skipTrivia_high {bs : List UInt8} (h : ∀ b ∈ bs, 0x80 ≤ b.toNat) (rest : List UInt8)
    (p : Position) : skipTrivia true (bs ++ rest) p = skipTrivia true rest (p.bumpAll bs) := by
  induction bs generalizing p with
  | nil => rfl
  | cons b bs ih =>
    have hb : (b != ascii '\n') = true := by
      rw [bne, beq_ascii (h b List.mem_cons_self) (by decide)]
      rfl
    rw [List.cons_append, skipTrivia, if_pos rfl, hb, ih fun x hx => h x (List.mem_cons_of_mem b hx)]
    rfl

theorem skipTrivia_utf8 (comment : Bool) (cs : List Char) (p : Position) :
    skipTrivia comment (utf8 cs) p =
      (utf8 (Lisplet.skipTrivia comment cs p).1, (Lisplet.skipTrivia comment cs p).2) := by
  induction cs generalizing comment p with
  | nil => rfl
  | cons c cs ih =>
    rw [Lisplet.skipTrivia, utf8_cons]
    by_cases hc : c.toNat < 0x80
    · have hbump : p.bump (ascii c) = p.advance c := by
        rw [← Position.bumpAll_encode, encode_ascii hc]
        rfl
      have hsemi : ascii c = ascii ';' ↔ c = ';' := ascii_inj hc (by decide)
      have hline : (ascii c != ascii '\n') = (c != '\n') := by
        rw [bne, bne, ascii_beq hc (by decide)]
      rw [encode_ascii hc, List.singleton_append, skipTrivia, hbump, hline, isLayout_ascii hc]
      simp only [hsemi, ih]
      split
      · rfl
      split
      · rfl
      split
      · rfl
      · rw [utf8_cons, encode_ascii hc]
        rfl
    · cases comment with
      | true =>
        have hline : (c != '\n') = true := by
          rw [bne, beq_of_high hc (by decide)]
          rfl
        rw [skipTrivia_high (fun b => encode_high hc), Position.bumpAll_encode, ih, if_pos rfl, hline]
      | false =>
        have hsemi : c ≠ ';' := beq_eq_false_iff_ne.mp (beq_of_high hc (by decide))
        simp only [isLayout_of_high hc, hsemi, Bool.false_eq_true, if_false]
        rw [utf8_cons]
        cases he : String.utf8EncodeChar c with
        | nil => exact absurd he String.utf8EncodeChar_ne_nil
        | cons b bs =>
          have hb : 0x80 ≤ b.toNat := encode_high hc (by rw [he]; exact List.mem_cons_self)
          rw [List.cons_append, skipTrivia]
          simp only [isLayout_high hb, ne_ascii hb (show ';'.toNat < 0x80 by decide),
            Bool.false_eq_true, if_false]

/-! ## Atoms -/

theorem skipAtom_high {bs : List UInt8} (h : ∀ b ∈ bs, 0x80 ≤ b.toNat) (rest : List UInt8)
    (p : Position) : skipAtom (bs ++ rest) p = skipAtom rest (p.bumpAll bs) := by
  induction bs generalizing p with
  | nil => rfl
  | cons b bs ih =>
    have hb := isDelimiter_high (h b List.mem_cons_self)
    rw [List.cons_append, skipAtom, hb, if_neg Bool.false_ne_true,
      ih fun x hx => h x (List.mem_cons_of_mem b hx)]
    rfl

theorem skipAtom_utf8 (cs : List Char) (p : Position) :
    skipAtom (utf8 cs) p = (utf8 (cs.dropWhile fun c => !Lisplet.isDelimiter c),
      p.advanceAll (cs.takeWhile fun c => !Lisplet.isDelimiter c)) := by
  induction cs generalizing p with
  | nil => rfl
  | cons c cs ih =>
    have hon : Lisplet.isDelimiter c = false → skipAtom (utf8 (c :: cs)) p = skipAtom (utf8 cs) (p.advance c) := by
      intro hd
      rw [utf8_cons, ← Position.bumpAll_encode]
      by_cases hc : c.toNat < 0x80
      · rw [encode_ascii hc, List.singleton_append, skipAtom, isDelimiter_ascii hc, hd,
          if_neg Bool.false_ne_true]
        rfl
      · exact skipAtom_high (fun b => encode_high hc) _ p
    cases hd : Lisplet.isDelimiter c with
    | false =>
      rw [hon hd, ih]
      simp only [List.dropWhile_cons, List.takeWhile_cons, hd, Bool.not_false, if_true]
      rfl
    | true =>
      have hc : c.toNat < 0x80 := by
        by_cases hc : c.toNat < 0x80
        · exact hc
        · rw [isDelimiter_of_high hc] at hd
          cases hd
      simp only [List.dropWhile_cons, List.takeWhile_cons, hd, Bool.not_true, Bool.false_eq_true,
        if_false]
      rw [utf8_cons, encode_ascii hc, List.singleton_append, skipAtom, isDelimiter_ascii hc, hd,
        if_pos rfl]
      rfl

/-! ## String literals -/

theorem skipLiteral_cons (b : UInt8) (bs : List UInt8) (p : Position) :
    skipLiteral (b :: bs) p =
      if b = ascii '"' then (none, bs, p.bump b)
      else if b = ascii '\\' then
        match bs with
        | [] => (some .trailingEscape, [], p.bump b)
        | e :: bs => skipLiteral bs ((p.bump b).bump e)
      else skipLiteral bs (p.bump b) := by
  rw [skipLiteral.eq_def]

theorem skipLiteral_high {bs : List UInt8} (h : ∀ b ∈ bs, 0x80 ≤ b.toNat) (rest : List UInt8)
    (p : Position) : skipLiteral (bs ++ rest) p = skipLiteral rest (p.bumpAll bs) := by
  induction bs generalizing p with
  | nil => rfl
  | cons b bs ih =>
    have hb := h b List.mem_cons_self
    rw [List.cons_append, skipLiteral_cons, if_neg (ne_ascii hb (by decide)),
      if_neg (ne_ascii hb (by decide)), ih fun x hx => h x (List.mem_cons_of_mem b hx)]
    rfl

theorem skipLiteral_plain {c : Char} (hquote : c ≠ '"') (hslash : c ≠ '\\') (cs : List Char)
    (p : Position) : skipLiteral (utf8 (c :: cs)) p = skipLiteral (utf8 cs) (p.advance c) := by
  rw [utf8_cons, ← Position.bumpAll_encode]
  by_cases hc : c.toNat < 0x80
  · rw [encode_ascii hc, List.singleton_append, skipLiteral_cons,
      if_neg (mt (ascii_inj hc (by decide)).mp hquote),
      if_neg (mt (ascii_inj hc (by decide)).mp hslash)]
    rfl
  · exact skipLiteral_high (fun b => encode_high hc) _ p

/-- A character behind a backslash: what the escape leaves of it is passed over
like any other byte that is no ASCII character. -/
theorem skipLiteral_escaped (c : Char) (cs : List Char) (p : Position) :
    skipLiteral (utf8 ('\\' :: c :: cs)) p =
      skipLiteral (utf8 cs) ((p.advance '\\').advance c) := by
  have hslash : p.bump (ascii '\\') = p.advance '\\' := by
    rw [← Position.bumpAll_encode, encode_ascii (by decide)]
    rfl
  rw [utf8_cons, encode_ascii (show '\\'.toNat < 0x80 by decide), List.singleton_append, utf8_cons,
    ← Position.bumpAll_encode _ c]
  cases he : String.utf8EncodeChar c with
  | nil => exact absurd he String.utf8EncodeChar_ne_nil
  | cons b bs =>
    have hbs : ∀ x ∈ bs, 0x80 ≤ x.toNat := fun x hx =>
      ((continuation_iff x).mp (encode_tail he x hx)).1
    rw [List.cons_append, skipLiteral_cons, if_neg (by decide), if_pos rfl, hslash]
    exact skipLiteral_high hbs (utf8 cs) _

theorem skipLiteral_quote (cs : List Char) (p : Position) :
    skipLiteral (utf8 ('"' :: cs)) p = (none, utf8 cs, p.advance '"') := by
  rw [utf8_cons, encode_ascii (show '"'.toNat < 0x80 by decide), List.singleton_append, skipLiteral_cons,
    if_pos rfl, ← Position.bumpAll_encode, encode_ascii (show '"'.toNat < 0x80 by decide)]
  rfl

theorem skipLiteral_utf8 (cs : List Char) (n : Nat) (p : Position) :
    (∀ kind, literalLength cs n = .error kind →
      skipLiteral (utf8 cs) p = (some kind, [], p.advanceAll cs)) ∧
    (∀ m, literalLength cs n = .ok m → ∃ k, m = n + k ∧
      skipLiteral (utf8 cs) p = (none, utf8 (cs.drop k), p.advanceAll (cs.take k))) := by
  fun_induction literalLength cs n generalizing p with
  | case1 n =>
    refine ⟨?_, fun m hm => by cases hm⟩
    intro kind hk
    cases hk
    rfl
  | case2 cs n =>
    refine ⟨fun kind hk => (by cases hk), ?_⟩
    intro m hm
    cases hm
    exact ⟨1, rfl, skipLiteral_quote cs p⟩
  | case3 n =>
    refine ⟨?_, fun m hm => by cases hm⟩
    intro kind hk
    cases hk
    rfl
  | case4 c cs n ih =>
    obtain ⟨ihe, iho⟩ := ih ((p.advance '\\').advance c)
    rw [skipLiteral_escaped]
    refine ⟨fun kind hk => ihe kind hk, ?_⟩
    intro m hm
    obtain ⟨k, rfl, hk⟩ := iho m hm
    exact ⟨k + 2, by omega, hk⟩
  | case5 c cs n hquote hlast hescape ih =>
    have hslash : c ≠ '\\' := by
      intro hc
      cases cs with
      | nil => exact hlast hc rfl
      | cons d cs => exact hescape d cs hc rfl
    obtain ⟨ihe, iho⟩ := ih (p.advance c)
    rw [skipLiteral_plain hquote hslash]
    refine ⟨fun kind hk => ihe kind hk, ?_⟩
    intro m hm
    obtain ⟨k, rfl, hk⟩ := iho m hm
    exact ⟨k + 1, by omega, hk⟩

/-! ## Tokens -/

/-- What the scanner of characters passes over, it counts. -/
theorem skipTrivia_split (comment : Bool) (cs : List Char) (p : Position) :
    ∃ ts, cs = ts ++ (Lisplet.skipTrivia comment cs p).1 ∧
      (Lisplet.skipTrivia comment cs p).2 = p.advanceAll ts := by
  fun_induction Lisplet.skipTrivia comment cs p with
  | case1 => exact ⟨[], rfl, rfl⟩
  | case2 c cs p ih =>
    obtain ⟨ts, hcs, hp⟩ := ih
    exact ⟨c :: ts, congrArg (c :: ·) hcs, hp⟩
  | case3 _ c cs p _ _ ih =>
    obtain ⟨ts, hcs, hp⟩ := ih
    exact ⟨c :: ts, congrArg (c :: ·) hcs, hp⟩
  | case4 _ cs p _ _ ih =>
    obtain ⟨ts, hcs, hp⟩ := ih
    exact ⟨';' :: ts, congrArg (';' :: ·) hcs, hp⟩
  | case5 => exact ⟨[], rfl, rfl⟩

theorem skipTrivia_stops {comment : Bool} {cs rest : List Char} {p stop : Position} {c : Char}
    (h : Lisplet.skipTrivia comment cs p = (c :: rest, stop)) :
    Lisplet.isLayout c = false ∧ c ≠ ';' := by
  fun_induction Lisplet.skipTrivia comment cs p with
  | case1 => cases h
  | case2 _ _ _ ih => exact ih h
  | case3 _ _ _ _ _ _ ih => exact ih h
  | case4 _ _ _ _ _ ih => exact ih h
  | case5 comment c cs p hcomment hlayout hsemi =>
    cases h
    exact ⟨Bool.eq_false_iff.mpr hlayout, hsemi⟩

theorem lead_ne {c d : Char} (hd : d.toNat < 0x80) (hne : c ≠ d) {b : UInt8} {bs : List UInt8}
    (he : String.utf8EncodeChar c = b :: bs) : b ≠ ascii d := by
  by_cases hc : c.toNat < 0x80
  · rw [encode_ascii hc] at he
    cases he
    exact mt (ascii_inj hc hd).mp hne
  · exact ne_ascii (encode_high hc (by rw [he]; exact List.mem_cons_self)) hd

def bytesOf (lx : Lisplet.Lexer) : Lexer := ⟨utf8 lx.rest, lx.position, lx.cut⟩

def Stands (source : List Char) (lx : Lisplet.Lexer) : Prop :=
  ∃ pre, source = pre ++ lx.rest ∧ lx.position.offset = (utf8 pre).length

/-- A text that starts where the scanner stands can be cut out. -/
theorem emit_eq {source pre text rest : List Char} {p stop : Position}
    (hsource : source = pre ++ (text ++ rest)) (hp : p.offset = (utf8 pre).length)
    (hstop : stop = p.advanceAll text) (kind : TokenKind) (cut : Option Cut) :
    Lexer.emit source kind p stop (utf8 rest) cut =
        some (⟨kind, String.ofList text, ⟨p, stop⟩⟩, bytesOf ⟨rest, stop, cut⟩) ∧
      Stands source ⟨rest, stop, cut⟩ := by
  have hoff : stop.offset = (utf8 (pre ++ text)).length := by
    rw [hstop, Position.offset_advanceAll, hp, utf8_append, List.length_append]
  refine ⟨?_, pre ++ text, by rw [hsource, List.append_assoc], hoff⟩
  rw [Lexer.emit, hsource, ← List.append_assoc, Span.slice_utf8 hp hoff]
  rfl

theorem finish_eq {source : List Char} {p : Position} (hp : p.offset = (utf8 source).length)
    (cut : Option Cut) : Lexer.finish source p cut = (.finish p, bytesOf ⟨[], p, cut⟩) := by
  rw [Lexer.finish, ← hp]
  rfl

theorem take_takeWhile (f : Char → Bool) (cs : List Char) :
    cs.take (cs.takeWhile f).length = cs.takeWhile f :=
  (List.prefix_iff_eq_take.mp (List.takeWhile_prefix f)).symm

theorem drop_takeWhile (f : Char → Bool) (cs : List Char) :
    cs.drop (cs.takeWhile f).length = cs.dropWhile f := by
  have h : cs.takeWhile f ++ cs.drop (cs.takeWhile f).length = cs.takeWhile f ++ cs.dropWhile f := by
    conv => lhs; lhs; rw [← take_takeWhile f cs]
    rw [List.take_append_drop, List.takeWhile_append_dropWhile]
  exact List.append_cancel_left h

theorem bump_ascii {c : Char} (hc : c.toNat < 0x80) (p : Position) :
    p.bump (ascii c) = p.advance c := by
  rw [← Position.bumpAll_encode, encode_ascii hc]
  rfl

section
variable (source : List Char) {c : Char} {cs : List Char} {b : UInt8} {bs : List UInt8}
  (he : String.utf8EncodeChar c = b :: bs) (p : Position) (cut : Option Cut)
include he

/-- The bytes of a token end where its characters do. -/
theorem take_of_lexeme {kind : TokenKind} {n : Nat} (hlayout : Lisplet.isLayout c = false)
    (hsemi : c ≠ ';') (h : lexeme c cs = .ok (kind, n)) :
    Lexer.take source b (bs ++ utf8 cs) p cut =
      Lexer.emit source kind p (p.advanceAll ((c :: cs).take n)) (utf8 ((c :: cs).drop n)) cut := by
  unfold lexeme at h
  by_cases hopen : c = '('
  · subst hopen
    rw [encode_ascii (by decide)] at he
    cases he
    cases h
    rw [Lexer.take, if_pos rfl, bump_ascii (by decide)]
    rfl
  by_cases hclose : c = ')'
  · subst hclose
    rw [encode_ascii (by decide)] at he
    cases he
    cases h
    rw [Lexer.take, if_neg (by decide), if_pos rfl, bump_ascii (by decide)]
    rfl
  by_cases hquote : c = '"'
  · subst hquote
    rw [encode_ascii (by decide)] at he
    cases he
    cases hl : literalLength cs 1 with
    | error e => simp [hl, Except.map] at h
    | ok m =>
      obtain ⟨k, rfl, hk⟩ := (skipLiteral_utf8 cs 1 (p.advance '"')).2 m hl
      simp only [hl, hopen, hclose, if_false, if_true, Except.map, Except.ok.injEq, Prod.mk.injEq] at h
      obtain ⟨rfl, rfl⟩ := h
      rw [Lexer.take, if_neg (by decide), if_neg (by decide), if_pos rfl, bump_ascii (by decide),
        List.nil_append, hk, Nat.add_comm 1 k]
      rfl
  · have hplain : Lisplet.isDelimiter c = false := by
      simp [Lisplet.isDelimiter, hlayout, hopen, hclose, hquote, hsemi]
    simp only [hopen, hclose, hquote, if_false, Except.ok.injEq, Prod.mk.injEq] at h
    obtain ⟨rfl, rfl⟩ := h
    rw [Lexer.take, if_neg (lead_ne (by decide) hopen he), if_neg (lead_ne (by decide) hclose he),
      if_neg (lead_ne (by decide) hquote he), ← List.cons_append, ← he, ← utf8_cons, skipAtom_utf8]
    simp only [List.dropWhile_cons, List.takeWhile_cons, hplain, Bool.not_false, if_true]
    rw [Nat.add_comm 1, List.take_succ_cons, List.drop_succ_cons, take_takeWhile, drop_takeWhile]

theorem take_of_cut {kind : CutKind} (h : lexeme c cs = .error kind) :
    Lexer.take source b (bs ++ utf8 cs) p cut =
      some (Lexer.finish source (p.advanceAll (c :: cs)) (some ⟨kind, ⟨p, p.advance c⟩⟩)) := by
  unfold lexeme at h
  by_cases hopen : c = '('
  · simp [hopen] at h
  by_cases hclose : c = ')'
  · simp [hclose] at h
  by_cases hquote : c = '"'
  · subst hquote
    rw [encode_ascii (by decide)] at he
    cases he
    cases hl : literalLength cs 1 with
    | ok m => simp [hl, Except.map] at h
    | error e =>
      have hk := (skipLiteral_utf8 cs 1 (p.advance '"')).1 e hl
      simp only [hl, hopen, hclose, if_false, if_true, Except.map, Except.error.injEq] at h
      subst h
      rw [Lexer.take, if_neg (by decide), if_neg (by decide), if_pos rfl, bump_ascii (by decide),
        List.nil_append, hk]
      rfl
  · simp [hopen, hclose, hquote] at h

end

/-- Both scanners take the same token and stop at the same place. -/
theorem next_eq {source : List Char} {lx : Lisplet.Lexer} (h : Stands source lx) :
    (bytesOf lx).next source = some (lx.next.1, bytesOf lx.next.2) ∧ Stands source lx.next.2 := by
  obtain ⟨pre, hsource, hpos⟩ := h
  obtain ⟨ts, hts, hp⟩ := skipTrivia_split false lx.rest lx.position
  have hbytes : skipTrivia false (bytesOf lx).rest (bytesOf lx).position = _ :=
    skipTrivia_utf8 false lx.rest lx.position
  rw [Lexer.next, hbytes, Lisplet.Lexer.next]
  generalize hs : Lisplet.skipTrivia false lx.rest lx.position = skipped at hts hp ⊢
  obtain ⟨rest, p⟩ := skipped
  dsimp only at hts hp
  replace hsource : source = (pre ++ ts) ++ rest := by rw [hsource, hts, List.append_assoc]
  replace hpos : p.offset = (utf8 (pre ++ ts)).length := by
    rw [hp, Position.offset_advanceAll, hpos, utf8_append, List.length_append]
  cases rest with
  | nil =>
    rw [List.append_nil] at hsource
    rw [← hsource] at hpos
    exact ⟨congrArg some (finish_eq hpos lx.cut), source, (List.append_nil source).symm, hpos⟩
  | cons c cs =>
    obtain ⟨hlayout, hsemi⟩ := skipTrivia_stops hs
    cases he : String.utf8EncodeChar c with
    | nil => exact absurd he String.utf8EncodeChar_ne_nil
    | cons b bs =>
      have hcut : (bytesOf lx).cut = lx.cut := rfl
      simp only [utf8_cons, he, List.cons_append, hcut]
      cases hl : lexeme c cs with
      | ok r =>
        obtain ⟨kind, n⟩ := r
        rw [take_of_lexeme source he p lx.cut hlayout hsemi hl]
        exact emit_eq (by rw [List.take_append_drop]; exact hsource) hpos rfl kind lx.cut
      | error kind =>
        have hend : (p.advanceAll (c :: cs)).offset = (utf8 source).length := by
          rw [Position.offset_advanceAll, hpos, hsource, utf8_append (pre ++ ts), List.length_append]
        rw [take_of_cut source he p lx.cut hl, finish_eq hend]
        exact ⟨rfl, source, (List.append_nil source).symm, hend⟩

theorem collect_eq {source : List Char} {fuel : Nat} {lx : Lisplet.Lexer} (acc : List Token)
    (h : Stands source lx) (hfuel : lx.rest.length < fuel) :
    (bytesOf lx).collect source fuel acc = some (lx.collect acc) := by
  induction fuel generalizing lx acc with
  | zero => exact absurd hfuel (Nat.not_lt_zero _)
  | succ fuel ih =>
    obtain ⟨hnext, hstands⟩ := next_eq h
    have hshorter := Lisplet.Lexer.length_next_lt lx
    rw [Lexer.collect, hnext, Option.bind_some, Lisplet.Lexer.collect]
    dsimp only
    by_cases hk : lx.next.1.kind = .finish
    · rw [if_pos hk, dif_pos hk]
      rfl
    · rw [if_neg hk, dif_neg hk]
      have := hshorter hk
      exact ih _ hstands (by omega)

theorem length_le_utf8 (cs : List Char) : cs.length ≤ (utf8 cs).length := by
  induction cs with
  | nil => exact Nat.le_refl 0
  | cons c cs ih =>
    have := c.utf8Size_pos
    simp only [utf8_cons, List.length_cons, List.length_append, String.length_utf8EncodeChar]
    omega

/-- The scanner of bytes never cuts inside a character, and finds the same tokens. -/
theorem scan_eq (source : List Char) : scan source = some (Lisplet.scan source) := by
  have hstart : Stands source (Lisplet.Lexer.start source) := ⟨[], rfl, rfl⟩
  exact collect_eq [] hstart (Nat.lt_succ_of_le (length_le_utf8 source))

end Lisplet.Bare
