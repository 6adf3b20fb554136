import Lisplet.Proofs.Scanning
import Lisplet.Tree.Reader
import Mathlib.Data.List.Chain

/-!
# Layout

A source without a cut is a row of token texts with gaps between them, and every
such row is read back as just these tokens, as long as a gap keeps neighbouring
atoms apart. So the gaps say nothing about the tree, spans aside.
-/

namespace Lisplet

structure Stretch where
  gap : List Char
  kind : TokenKind
  text : List Char

def Stretch.spelling (s : Stretch) : TokenKind × List Char := (s.kind, s.text)

def Token.spelling (t : Token) : TokenKind × List Char := (t.kind, t.text.toList)

def layOut (stretches : List Stretch) (last : List Char) : List Char :=
  stretches.flatMap (fun s => s.gap ++ s.text) ++ last

structure WellLaid (stretches : List Stretch) (last : List Char) : Prop where
  gaps : ∀ s ∈ stretches, Trivia s.gap
  last : LastTrivia last
  texts : ∀ s ∈ stretches, Lexeme s.kind s.text
  apart : stretches.IsChain fun s t => s.kind = .atom → t.kind = .atom → t.gap ≠ []

theorem layOut_cons (s : Stretch) (ss : List Stretch) (last : List Char) :
    layOut (s :: ss) last = s.gap ++ (s.text ++ layOut ss last) := by
  simp [layOut]

theorem wellLaid_nil {last : List Char} : WellLaid [] last ↔ LastTrivia last :=
  ⟨WellLaid.last, fun h => ⟨by simp, h, by simp, .nil⟩⟩

/-- An atom may stand in front of a layout if the layout starts with a delimiter. -/
theorem wellLaid_cons {s : Stretch} {ss : List Stretch} {last : List Char} :
    WellLaid (s :: ss) last ↔ Trivia s.gap ∧ Lexeme s.kind s.text ∧
      (s.kind = .atom → EndsAtom (layOut ss last)) ∧ WellLaid ss last := by
  have first : WellLaid ss last → ((s.kind = .atom → EndsAtom (layOut ss last)) ↔
      ∀ t ∈ ss.head?, s.kind = .atom → t.kind = .atom → t.gap ≠ []) := by
    intro h
    cases ss with
    | nil => simpa [layOut] using fun _ => h.last.endsAtom
    | cons t ss =>
      have hgap := h.gaps t List.mem_cons_self
      obtain ⟨c, cs, htext, -, -, hc⟩ := (h.texts t List.mem_cons_self).head
      rw [layOut_cons]
      -- without a gap the next token decides, and only an atom would run on
      by_cases hne : t.gap = []
      · have hends : EndsAtom (t.gap ++ (t.text ++ layOut ss last)) ↔ isDelimiter c = true := by
          simp [EndsAtom, hne, htext]
        rw [hends, ← Bool.not_eq_false, hc]
        simp [hne]
      · simp [hne, hgap.endsAtom hne]
  constructor
  · intro h
    have hrest : WellLaid ss last :=
      ⟨fun t ht => h.gaps t (List.mem_cons_of_mem s ht), h.last,
        fun t ht => h.texts t (List.mem_cons_of_mem s ht), h.apart.tail⟩
    refine ⟨h.gaps s List.mem_cons_self, h.texts s List.mem_cons_self, (first hrest).mpr ?_, hrest⟩
    intro t ht
    cases ss with
    | nil => cases ht
    | cons u ss => cases ht; exact h.apart.rel
  · rintro ⟨hgap, htext, hends, hrest⟩
    refine ⟨by simpa using ⟨hgap, hrest.gaps⟩, hrest.last, by simpa using ⟨htext, hrest.texts⟩, ?_⟩
    have hfirst := (first hrest).mp hends
    cases ss with
    | nil => exact .singleton s
    | cons t ss => exact .cons_cons (hfirst t rfl) hrest.apart

/-! ## Sources and their layouts -/

theorem exists_layout {cs : List Char} {p : Position} {s : Scan} (h : Scans cs p s)
    (hcut : s.cut = none) : ∃ ss last, WellLaid ss last ∧ cs = layOut ss last ∧
      s.tokens.map Token.spelling = ss.map Stretch.spelling := by
  induction h with
  | @finish gap p hgap => exact ⟨[], gap, wellLaid_nil.mpr hgap, rfl, rfl⟩
  | cut _ _ _ => cases hcut
  | @token gap text rest kind p q s hgap htext hends _ _ ih =>
    obtain ⟨ss, last, hlaid, rfl, hspell⟩ := ih hcut
    refine ⟨⟨gap, kind, text⟩ :: ss, last, wellLaid_cons.mpr ⟨hgap, htext, hends, hlaid⟩,
      by rw [layOut_cons], ?_⟩
    simp [hspell, Token.spelling, Stretch.spelling]

theorem scans_of_wellLaid {ss : List Stretch} {last : List Char} (h : WellLaid ss last)
    (p : Position) : ∃ s, Scans (layOut ss last) p s ∧ s.cut = none ∧
      s.tokens.map Token.spelling = ss.map Stretch.spelling := by
  induction ss generalizing p with
  | nil => exact ⟨_, .finish h.last, rfl, rfl⟩
  | cons t ss ih =>
    obtain ⟨hgap, htext, hends, hrest⟩ := wellLaid_cons.mp h
    obtain ⟨s, hs, hcut, hspell⟩ := ih hrest ((p.advanceAll t.gap).advanceAll t.text)
    rw [layOut_cons]
    refine ⟨_, .token hgap htext hends rfl hs, hcut, ?_⟩
    simp [hspell, Token.spelling, Stretch.spelling]

/-! ## Trees without their spans -/

def Token.unplaced (t : Token) : Token := { t with span := default }

def Leaf.unplaced (l : Leaf) : Leaf := { l with token := l.token.unplaced }

mutual

def Node.unplaced : Node → Node
  | .leaf l => .leaf l.unplaced
  | .branch cs _ tag => .branch (Node.unplacedAll cs) default tag

def Node.unplacedAll : List Node → List Node
  | [] => []
  | n :: ns => n.unplaced :: Node.unplacedAll ns

end

def OpenForm.unplaced (f : OpenForm) : OpenForm := ⟨Node.unplacedAll f.before, default⟩

def ReadError.unplaced : ReadError → ReadError
  | .invalidUtf8 _ => .invalidUtf8 default
  | .unmatchedClose _ => .unmatchedClose default
  | .unclosedOpen _ => .unclosedOpen default

theorem unplacedAll_eq (ns : List Node) : Node.unplacedAll ns = ns.map Node.unplaced := by
  induction ns with
  | nil => rfl
  | cons n ns ih => simp [Node.unplacedAll, ih]

/-- The reader looks at no span. -/
theorem readFrom_unplaced (ts : List Token) (nodes : List Node) (forms : List OpenForm) :
    readFrom (ts.map Token.unplaced) (Node.unplacedAll nodes) (forms.map OpenForm.unplaced) =
      ((readFrom ts nodes forms).map Node.unplacedAll).mapError ReadError.unplaced := by
  induction ts generalizing nodes forms with
  | nil =>
    cases forms with
    | nil => simp [readFrom, Except.map, Except.mapError, unplacedAll_eq]
    | cons _ _ => rfl
  | cons t ts ih =>
    have hkind : t.unplaced.kind = t.kind := rfl
    simp only [List.map_cons, readFrom, hkind]
    cases t.kind with
    | opening => exact ih [] (⟨nodes, t.span⟩ :: forms)
    | closing =>
      cases forms with
      | nil => rfl
      | cons form forms =>
        have hreverse : Node.unplacedAll nodes.reverse = (Node.unplacedAll nodes).reverse := by
          simp [unplacedAll_eq]
        have hstep := ih (.branch nodes.reverse (form.opening.merge t.span) none :: form.before) forms
        rw [Node.unplacedAll, Node.unplaced, hreverse] at hstep
        exact hstep
    | str | atom | finish => exact ih (.leaf (.ofToken t) :: nodes) forms

def unplacedReading (r : Except ReadError Reading) : Except ReadError Node :=
  (r.map fun reading => reading.root.unplaced).mapError ReadError.unplaced

theorem unplacedReading_readTree (source : List Char) : unplacedReading (readTree source) =
    (readFrom ((scan source).tokens.map Token.unplaced) [] []).map fun nodes => .branch nodes default none := by
  have h := readFrom_unplaced (scan source).tokens [] []
  rw [show readFrom ((scan source).tokens.map Token.unplaced) [] [] = _ from h, readTree, Scan.read]
  cases readFrom (scan source).tokens [] [] <;> rfl

theorem unplaced_of_texts {ts ts' : List Token} (h : ∀ t ∈ ts, Lexeme t.kind t.text.toList)
    (h' : ∀ t ∈ ts', Lexeme t.kind t.text.toList) (htext : ts.map Token.text = ts'.map Token.text) :
    ts.map Token.unplaced = ts'.map Token.unplaced := by
  induction ts generalizing ts' with
  | nil =>
    cases ts' with
    | nil => rfl
    | cons _ _ => cases htext
  | cons t ts ih =>
    cases ts' with
    | nil => cases htext
    | cons t' ts' =>
      simp only [List.map_cons, List.cons.injEq] at htext ⊢
      have hkind : t.kind = t'.kind :=
        (h t List.mem_cons_self).kind_unique (htext.1 ▸ h' t' List.mem_cons_self)
      refine ⟨?_, ih (fun u hu => h u (List.mem_cons_of_mem t hu))
        (fun u hu => h' u (List.mem_cons_of_mem t' hu)) htext.2⟩
      simp only [Token.unplaced, hkind, htext.1]

/-- The scanner takes a source apart into token texts and gaps, and takes no other source
apart in that way; the tree depends on the texts alone. -/
theorem scan_inverts_layout :
    (∀ source, (scan source).cut = none → ∃ ss last, WellLaid ss last ∧ source = layOut ss last ∧
      (scan source).tokens.map Token.spelling = ss.map Stretch.spelling) ∧
    (∀ ss last, WellLaid ss last → (scan (layOut ss last)).cut = none ∧
      (scan (layOut ss last)).tokens.map Token.spelling = ss.map Stretch.spelling) ∧
    ∀ source source', (scan source).tokens.map Token.text = (scan source').tokens.map Token.text →
      unplacedReading (readTree source) = unplacedReading (readTree source') := by
  refine ⟨fun source => exists_layout (scans_scan source), ?_, ?_⟩
  · intro ss last h
    obtain ⟨s, hs, hcut, hspell⟩ := scans_of_wellLaid h .origin
    rw [scan_eq_of_scans hs]
    exact ⟨hcut, hspell⟩
  · intro source source' htext
    rw [unplacedReading_readTree, unplacedReading_readTree,
      unplaced_of_texts (fun _ => lexeme_of_mem_scan) (fun _ => lexeme_of_mem_scan) htext]

def tightSource : List Char := "(a \"\\\"\"b)".toList

def looseStretches : List Stretch :=
  [⟨[';', '(', '\n'], .opening, ['(']⟩, ⟨['\t'], .atom, ['a']⟩,
    ⟨[';', '"', '\n'], .str, ['"', '\\', '"', '"']⟩, ⟨[], .atom, ['b']⟩, ⟨['\r', '\n'], .closing, [')']⟩]

theorem wellLaid_looseStretches : WellLaid looseStretches [';', 'é'] := by
  have hb : Lexeme .atom ['b'] := .atom (by simp) (by simp [isDelimiter, isLayout])
  have ha : Lexeme .atom ['a'] := .atom (by simp) (by simp [isDelimiter, isLayout])
  have hquote : Lexeme .str ['"', '\\', '"', '"'] := .str (.escape .nil)
  have hcomment (c : Char) (hc : c ≠ '\n') : Trivia [';', c, '\n'] :=
    @Trivia.comment [c] [] (by simpa using Ne.symm hc) .nil
  refine wellLaid_cons.mpr ⟨hcomment '(' (by decide), .opening, by simp, ?_⟩
  refine wellLaid_cons.mpr ⟨.blank (by decide) .nil, ha, by simp [EndsAtom, layOut, isDelimiter], ?_⟩
  refine wellLaid_cons.mpr ⟨hcomment '"' (by decide), hquote, by simp, ?_⟩
  refine wellLaid_cons.mpr ⟨.nil, hb, by simp [EndsAtom, layOut, isDelimiter, isLayout], ?_⟩
  refine wellLaid_cons.mpr ⟨.blank (by decide) (.blank (by decide) .nil), .closing, by simp, ?_⟩
  exact wellLaid_nil.mpr (@LastTrivia.running [] ['é'] .nil (by decide))

theorem scan_inverts_layout_comments :
    ((scan tightSource).cut = none ∧ ∃ ss last, WellLaid ss last ∧ tightSource = layOut ss last ∧
      (scan tightSource).tokens.map Token.spelling = ss.map Stretch.spelling) ∧
    (WellLaid looseStretches [';', 'é'] ∧ (scan (layOut looseStretches [';', 'é'])).cut = none ∧
      (scan (layOut looseStretches [';', 'é'])).tokens.map Token.spelling =
        looseStretches.map Stretch.spelling) ∧
    (scan tightSource).tokens.map Token.text = (scan (layOut looseStretches [';', 'é'])).tokens.map Token.text ∧
      unplacedReading (readTree tightSource) =
        unplacedReading (readTree (layOut looseStretches [';', 'é'])) := by
  have hcut : (scan tightSource).cut = none := by decide +kernel
  have htext : (scan tightSource).tokens.map Token.text =
      (scan (layOut looseStretches [';', 'é'])).tokens.map Token.text := by decide +kernel
  obtain ⟨hsource, hlaid, htree⟩ := scan_inverts_layout
  exact ⟨⟨hcut, hsource _ hcut⟩, ⟨wellLaid_looseStretches, hlaid _ _ wellLaid_looseStretches⟩,
    htext, htree _ _ htext⟩

end Lisplet
