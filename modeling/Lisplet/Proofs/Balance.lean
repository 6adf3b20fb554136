import Lisplet.Proofs.Layout
import Lisplet.Proofs.Leaves

/-!
# Balanced parentheses

The reader accepts the tokens whose parentheses are balanced, and the tree that it
makes of them spells them again. `Spells` says of which tokens a row of nodes is
made, and `Opened` extends it to the middle of a row: every form on the reader's
stack stands for one parenthesis that is still open.
-/

namespace Lisplet

/-! ## Counting -/

def excess (ts : List Token) : Int :=
  ts.countP (fun t => t.kind = .opening) - ts.countP (fun t => t.kind = .closing)

theorem excess_append (a b : List Token) : excess (a ++ b) = excess a + excess b := by
  simp only [excess, List.countP_append]
  omega

theorem excess_opening {t : Token} (h : t.kind = .opening) : excess [t] = 1 := by
  simp [excess, h]

theorem excess_closing {t : Token} (h : t.kind = .closing) : excess [t] = -1 := by
  simp [excess, h]

/-- No prefix closes more than it opens, and in the end all is closed. -/
structure Balanced (ts : List Token) : Prop where
  covered : ∀ pre, pre <+: ts → 0 ≤ excess pre
  level : excess ts = 0

structure Climbs (ts : List Token) (top : Nat) : Prop extends Balanced ts where
  bounded : ∀ pre, pre <+: ts → excess pre ≤ top
  reached : ∃ pre, pre <+: ts ∧ excess pre = top

theorem prefix_append_cases {α : Type} {pre a b : List α} (h : pre <+: a ++ b) :
    pre <+: a ∨ ∃ rest, pre = a ++ rest ∧ rest <+: b := by
  rcases List.prefix_or_prefix_of_prefix h (List.prefix_append a b) with h' | ⟨rest, rfl⟩
  · exact .inl h'
  · exact .inr ⟨rest, rfl, (List.prefix_append_right_inj a).mp h⟩

theorem Climbs.append {a b : List Token} {m n : Nat} (ha : Climbs a m) (hb : Climbs b n) :
    Climbs (a ++ b) (max m n) := by
  refine ⟨⟨?_, by rw [excess_append, ha.level, hb.level]; rfl⟩, ?_, ?_⟩
  · intro pre hpre
    rcases prefix_append_cases hpre with h | ⟨rest, rfl, h⟩
    · exact ha.covered pre h
    · rw [excess_append, ha.level, Int.zero_add]
      exact hb.covered rest h
  · intro pre hpre
    rcases prefix_append_cases hpre with h | ⟨rest, rfl, h⟩
    · have := ha.bounded pre h
      omega
    · have := hb.bounded rest h
      rw [excess_append, ha.level]
      omega
  -- the greater height is reached within `a`, or within `b` behind all of `a`
  · rcases Nat.le_total m n with h | h
    · obtain ⟨pre, hpre, htop⟩ := hb.reached
      refine ⟨a ++ pre, (List.prefix_append_right_inj a).mpr hpre, ?_⟩
      rw [excess_append, ha.level, htop, Nat.max_eq_right h]
      omega
    · obtain ⟨pre, hpre, htop⟩ := ha.reached
      exact ⟨pre, List.prefix_append_of_prefix hpre, by rw [htop, Nat.max_eq_left h]⟩

theorem climbs_nil : Climbs [] 0 := by
  refine ⟨⟨?_, rfl⟩, ?_, [], List.prefix_rfl, rfl⟩ <;>
    (intro pre hpre; rw [List.prefix_nil.mp hpre]; decide)

theorem climbs_single {t : Token} (ho : t.kind ≠ .opening) (hc : t.kind ≠ .closing) : Climbs [t] 0 := by
  have hflat : ∀ pre, pre <+: [t] → excess pre = 0 := by
    intro pre hpre
    rcases List.prefix_cons_iff.mp hpre with rfl | ⟨rest, rfl, hrest⟩
    · rfl
    · rw [List.prefix_nil.mp hrest]
      simp [excess, ho, hc]
  exact ⟨⟨fun pre h => Int.le_of_eq (hflat pre h).symm, hflat _ List.prefix_rfl⟩,
    fun pre h => Int.le_of_eq (hflat pre h), [], List.nil_prefix, rfl⟩

theorem Climbs.wrap {ts : List Token} {n : Nat} (h : Climbs ts n) {o c : Token}
    (ho : o.kind = .opening) (hc : c.kind = .closing) : Climbs (o :: (ts ++ [c])) (n + 1) := by
  have hcons (pre : List Token) : excess (o :: pre) = 1 + excess pre := by
    rw [← List.singleton_append, excess_append, excess_opening ho]
  have hlevel : excess (o :: (ts ++ [c])) = 0 := by
    rw [hcons, excess_append, h.level, excess_closing hc]
    rfl
  -- a prefix is empty, ends inside the parentheses, or is everything
  have hcases : ∀ pre, pre <+: o :: (ts ++ [c]) → pre = [] ∨ (∃ q, q <+: ts ∧ pre = o :: q) ∨
      pre = o :: (ts ++ [c]) := by
    intro pre hpre
    rcases List.prefix_cons_iff.mp hpre with rfl | ⟨q, rfl, hq⟩
    · exact .inl rfl
    · rcases List.prefix_concat_iff.mp hq with rfl | hq
      · exact .inr (.inr rfl)
      · exact .inr (.inl ⟨q, hq, rfl⟩)
  refine ⟨⟨?_, hlevel⟩, ?_, ?_⟩
  · intro pre hpre
    rcases hcases pre hpre with rfl | ⟨q, hq, rfl⟩ | rfl
    · decide
    · have := h.covered q hq
      rw [hcons]
      omega
    · exact Int.le_of_eq hlevel.symm
  · intro pre hpre
    rcases hcases pre hpre with rfl | ⟨q, hq, rfl⟩ | rfl
    · exact Int.natCast_nonneg _
    · have := h.bounded q hq
      rw [hcons]
      omega
    · rw [hlevel]
      exact Int.natCast_nonneg _
  · obtain ⟨q, hq, htop⟩ := h.reached
    refine ⟨o :: q, ?_, by rw [hcons, htop]; omega⟩
    exact (List.prefix_cons_inj o).mpr (List.prefix_append_of_prefix hq)

/-! ## What nodes are made of -/

/-- The nodes are made of the tokens: a leaf of one, and a branch of what its children
are made of, between the parentheses whose outer ends are the ends of its span. -/
inductive Spells : List Node → List Token → Prop
  | nil : Spells [] []
  | leaf {t : Token} {ns : List Node} {ts : List Token} : t.kind = .str ∨ t.kind = .atom →
      Spells ns ts → Spells (.leaf (.ofToken t) :: ns) (t :: ts)
  | branch {o c : Token} {cs ns : List Node} {inner ts : List Token} : o.kind = .opening →
      c.kind = .closing → Spells cs inner → Spells ns ts →
      Spells (.branch cs ⟨o.span.start, c.span.stop⟩ none :: ns) (o :: (inner ++ c :: ts))

theorem Spells.append {ns ms : List Node} {ts us : List Token} (h : Spells ns ts) (h' : Spells ms us) :
    Spells (ns ++ ms) (ts ++ us) := by
  induction h with
  | nil => exact h'
  | leaf hk _ ih => exact .leaf hk ih
  | branch ho hc hcs _ _ ih =>
    have := Spells.branch ho hc hcs ih
    simpa using this

theorem depthAll_branch (cs ns : List Node) (span : Span) (tag : Option Nat) :
    Node.depthAll (.branch cs span tag :: ns) = max (Node.depthAll cs + 1) (Node.depthAll ns) := by
  rw [Node.depthAll]

theorem Spells.climbs {ns : List Node} {ts : List Token} (h : Spells ns ts) :
    Climbs ts (Node.depthAll ns) := by
  induction h with
  | nil => simpa [Node.depthAll] using climbs_nil
  | @leaf t ns ts hk _ ih =>
    have hflat : Climbs [t] 0 := by
      rcases hk with hk | hk <;> exact climbs_single (by simp [hk]) (by simp [hk])
    simpa [Node.depthAll] using hflat.append ih
  | branch ho hc _ _ ihcs ih =>
    have := (ihcs.wrap ho hc).append ih
    simpa [depthAll_branch] using this

def Token.isParenthesis (t : Token) : Bool := t.kind = .opening ∨ t.kind = .closing

theorem Spells.leaves {ns : List Node} {ts : List Token} (h : Spells ns ts) :
    (ns.flatMap Node.leaves).map Leaf.token = ts.filter (fun t => !t.isParenthesis) := by
  induction h with
  | nil => rfl
  | leaf hk _ ih => rcases hk with hk | hk <;> simp [Token.isParenthesis, hk, ih, Leaf.ofToken]
  | branch ho hc _ _ ihcs ih => simp [Token.isParenthesis, ho, hc, ihcs, ih]

mutual

def Node.spelling : Node → List (TokenKind × List Char)
  | .leaf l => [l.token.spelling]
  | .branch cs _ _ => (.opening, ['(']) :: (Node.spellingAll cs ++ [(.closing, [')'])])

def Node.spellingAll : List Node → List (TokenKind × List Char)
  | [] => []
  | n :: ns => n.spelling ++ Node.spellingAll ns

end

theorem Spells.spelling {ns : List Node} {ts : List Token} (h : Spells ns ts)
    (htext : ∀ t ∈ ts, Lexeme t.kind t.text.toList) :
    Node.spellingAll ns = ts.map Token.spelling := by
  induction h with
  | nil => rfl
  | leaf _ _ ih =>
    simp only [List.forall_mem_cons] at htext
    simp [Node.spellingAll, Node.spelling, ih htext.2, Leaf.ofToken]
  | @branch o c cs ns inner ts ho hc _ _ ihcs ih =>
    simp only [List.forall_mem_cons, List.forall_mem_append] at htext
    obtain ⟨hopen, hinner, hclose, hts⟩ := htext
    rw [ho] at hopen
    rw [hc] at hclose
    simp [Node.spellingAll, Node.spelling, ihcs hinner, ih hts, Token.spelling, ho, hc,
      hopen.opening_text, hclose.closing_text]

/-! ## The reader -/

/-- What the reader holds after the tokens `ts`: the nodes of the innermost open form,
last one first, and the forms that are open. -/
inductive Opened : List Token → List Node → List OpenForm → Prop
  | base {ns : List Node} {ts : List Token} : Spells ns ts → Opened ts ns.reverse []
  | form {ts us : List Token} {nodes ns : List Node} {forms : List OpenForm} {o : Token} :
      Opened ts nodes forms → o.kind = .opening → Spells ns us →
      Opened (ts ++ o :: us) ns.reverse (⟨nodes, o.span⟩ :: forms)

theorem Opened.append {ts us : List Token} {nodes ns : List Node} {forms : List OpenForm}
    (h : Opened ts nodes forms) (hs : Spells ns us) : Opened (ts ++ us) (ns.reverse ++ nodes) forms := by
  cases h with
  | base h => simpa using Opened.base (h.append hs)
  | form h ho h' => simpa using Opened.form h ho (h'.append hs)

theorem Opened.leaf {ts : List Token} {nodes : List Node} {forms : List OpenForm} {t : Token}
    (h : Opened ts nodes forms) (ht : t.kind = .str ∨ t.kind = .atom) :
    Opened (ts ++ [t]) (.leaf (.ofToken t) :: nodes) forms := h.append (.leaf ht .nil)

theorem Opened.open {ts : List Token} {nodes : List Node} {forms : List OpenForm} {o : Token}
    (h : Opened ts nodes forms) (ho : o.kind = .opening) :
    Opened (ts ++ [o]) [] (⟨nodes, o.span⟩ :: forms) := Opened.form h ho .nil

theorem Opened.close {ts : List Token} {nodes : List Node} {form : OpenForm} {forms : List OpenForm}
    {c : Token} (h : Opened ts nodes (form :: forms)) (hc : c.kind = .closing) :
    Opened (ts ++ [c]) (.branch nodes.reverse (form.opening.merge c.span) none :: form.before) forms := by
  cases h with
  | @form ts us nodes ns forms o h ho hs =>
    have := h.append (.branch ho hc hs .nil)
    simpa [Span.merge] using this

/-- Every open form stands for one parenthesis. -/
theorem Opened.excess_eq {ts : List Token} {nodes : List Node} {forms : List OpenForm}
    (h : Opened ts nodes forms) : excess ts = forms.length ∧ ∀ pre, pre <+: ts → 0 ≤ excess pre := by
  induction h with
  | base h => exact ⟨h.climbs.level, h.climbs.covered⟩
  | @form ts us nodes ns forms o _ ho hs ih =>
    have hcons (q : List Token) : excess (ts ++ o :: q) = forms.length + 1 + excess q := by
      rw [← List.singleton_append, excess_append, excess_append, ih.1, excess_opening ho]
      omega
    refine ⟨by rw [hcons, hs.climbs.level]; simp, ?_⟩
    intro pre hpre
    rcases prefix_append_cases hpre with h | ⟨rest, rfl, h⟩
    · exact ih.2 pre h
    · rcases List.prefix_cons_iff.mp h with rfl | ⟨q, rfl, hq⟩
      · rw [List.append_nil, ih.1]
        exact Int.natCast_nonneg _
      · have := hs.climbs.covered q hq
        rw [hcons]
        omega

/-- What the reader makes of `ts` after `done`: nodes that spell all tokens, or an error
at the first parenthesis that closes nothing or at the last one that stays open. -/
theorem readFrom_outcome {done : List Token} {nodes : List Node} {forms : List OpenForm}
    (h : Opened done nodes forms) (ts : List Token) (hk : ∀ t ∈ ts, t.kind ≠ .finish) :
    (∃ ns, readFrom ts nodes forms = .ok ns ∧ Spells ns (done ++ ts)) ∨
    (∃ pre t post ns, done ++ ts = pre ++ t :: post ∧ t.kind = .closing ∧ Spells ns pre ∧
      readFrom ts nodes forms = .error (.unmatchedClose t.span)) ∨
    (∃ pre o post ns outer around, done ++ ts = pre ++ o :: post ∧ o.kind = .opening ∧
      Opened pre outer around ∧ Spells ns post ∧
      readFrom ts nodes forms = .error (.unclosedOpen o.span)) := by
  -- each token goes over to `done`, and the open forms change as `Opened` says
  induction ts generalizing done nodes forms with
  | nil =>
    cases h with
    | @base ns _ h => exact .inl ⟨ns, by simp [readFrom], by simpa using h⟩
    | form h ho hs => exact .inr (.inr ⟨_, _, _, _, _, _, by simp, ho, h, hs, by simp [readFrom]⟩)
  | cons t ts ih =>
    simp only [List.forall_mem_cons] at hk
    rw [show done ++ t :: ts = (done ++ [t]) ++ ts by simp]
    cases hkind : t.kind with
    | opening => simpa only [readFrom, hkind] using ih (h.open hkind) hk.2
    | closing =>
      cases forms with
      | nil =>
        cases h with
        | base h => exact .inr (.inl ⟨_, t, ts, _, by simp, hkind, h, by simp [readFrom, hkind]⟩)
      | cons form forms => simpa only [readFrom, hkind] using ih (h.close hkind) hk.2
    | str => simpa only [readFrom, hkind] using ih (h.leaf (.inl hkind)) hk.2
    | atom => simpa only [readFrom, hkind] using ih (h.leaf (.inr hkind)) hk.2
    | finish => exact absurd hkind hk.1

theorem kind_ne_finish_of_mem_scan {source : List Char} {t : Token} (h : t ∈ (scan source).tokens) :
    t.kind ≠ .finish := (lexeme_of_mem_scan h).kind_ne_finish

/-! ## Unbalanced tokens -/

/-- `t` is the first parenthesis that closes nothing. -/
def FirstUnmatched (ts : List Token) (t : Token) : Prop :=
  ∃ pre post, ts = pre ++ t :: post ∧ t.kind = .closing ∧ (∀ q, q <+: pre → 0 ≤ excess q) ∧
    excess (pre ++ [t]) < 0

/-- Every closing parenthesis has an opening one, and `t` is the last of those that stay open. -/
def LastUnclosed (ts : List Token) (t : Token) : Prop :=
  (∀ q, q <+: ts → 0 ≤ excess q) ∧ ∃ pre post, ts = pre ++ t :: post ∧ t.kind = .opening ∧ Balanced post

theorem FirstUnmatched.not_balanced {ts : List Token} {t : Token} (h : FirstUnmatched ts t) :
    ¬ Balanced ts := by
  obtain ⟨pre, post, rfl, -, -, hneg⟩ := h
  intro hb
  have := hb.covered (pre ++ [t]) ⟨post, by simp⟩
  omega

theorem LastUnclosed.not_balanced {ts : List Token} {t : Token} (h : LastUnclosed ts t) :
    ¬ Balanced ts := by
  obtain ⟨hcovered, pre, post, rfl, ht, hpost⟩ := h
  intro hb
  have hpre := hcovered pre (List.prefix_append _ _)
  have hlevel := hb.level
  rw [← List.singleton_append, excess_append, excess_append, excess_opening ht, hpost.level] at hlevel
  omega

theorem readTree_outcome (source : List Char) :
    (∃ ns, readTree source =
        .ok ⟨.branch ns ⟨.origin, (scan source).finish.span.stop⟩ none, (scan source).cut⟩ ∧
      Spells ns (scan source).tokens) ∨
    (∃ t, readTree source = .error (.unmatchedClose t.span) ∧ FirstUnmatched (scan source).tokens t) ∨
    ∃ t, readTree source = .error (.unclosedOpen t.span) ∧ LastUnclosed (scan source).tokens t := by
  have hempty : Opened [] [] [] := .base .nil
  rcases readFrom_outcome hempty (scan source).tokens fun _ => kind_ne_finish_of_mem_scan with
    ⟨ns, hread, hs⟩ | ⟨pre, t, post, ns, hts, ht, hs, hread⟩ |
    ⟨pre, t, post, ns, outer, around, hts, ht, hopened, hs, hread⟩
  · exact .inl ⟨ns, by rw [readTree, Scan.read, hread]; rfl, hs⟩
  · have hneg : excess (pre ++ [t]) < 0 := by
      rw [excess_append, hs.climbs.level, excess_closing ht]
      decide
    exact .inr (.inl ⟨t, by rw [readTree, Scan.read, hread]; rfl, pre, post, hts, ht,
      hs.climbs.covered, hneg⟩)
  · have hall := (Opened.form hopened ht hs).excess_eq.2
    rw [← hts] at hall
    exact .inr (.inr ⟨t, by rw [readTree, Scan.read, hread]; rfl, hall, pre, post, hts, ht,
      hs.climbs.toBalanced⟩)

theorem spells_of_readTree {source : List Char} {r : Reading} (h : readTree source = .ok r) :
    ∃ ns, r.root = .branch ns ⟨.origin, (scan source).finish.span.stop⟩ none ∧
      Spells ns (scan source).tokens := by
  rcases readTree_outcome source with ⟨ns, hr, hs⟩ | ⟨t, hr, -⟩ | ⟨t, hr, -⟩ <;> rw [hr] at h <;> cases h
  exact ⟨ns, rfl, hs⟩

/-- The reader accepts a source exactly if its parentheses are balanced. The tree spells the
tokens of the source, its leaves are those that are no parentheses, and it is as deep as
parentheses are ever open at a time. Otherwise the error is at the first parenthesis that
closes nothing, or if there is none, at the last one that stays open. -/
theorem readTree_balanced (source : List Char) :
    ((∃ r, readTree source = .ok r) ↔ Balanced (scan source).tokens) ∧
    (∀ r, readTree source = .ok r →
      Spells r.root.children (scan source).tokens ∧
      Node.spellingAll r.root.children = (scan source).tokens.map Token.spelling ∧
      r.root.leaves.map Leaf.token = (scan source).tokens.filter (fun t => !t.isParenthesis) ∧
      (∀ pre, pre <+: (scan source).tokens → excess pre ≤ r.root.depth) ∧
      ∃ pre, pre <+: (scan source).tokens ∧ excess pre = r.root.depth) ∧
    ∀ e, readTree source = .error e →
      (∃ t, FirstUnmatched (scan source).tokens t ∧ e = .unmatchedClose t.span) ∨
      ∃ t, LastUnclosed (scan source).tokens t ∧ e = .unclosedOpen t.span := by
  refine ⟨?_, ?_, ?_⟩
  · rcases readTree_outcome source with ⟨ns, hr, hs⟩ | ⟨t, hr, ht⟩ | ⟨t, hr, ht⟩
    · simp [hr, hs.climbs.toBalanced]
    · simp [hr, ht.not_balanced]
    · simp [hr, ht.not_balanced]
  · intro r hr
    obtain ⟨ns, hroot, hs⟩ := spells_of_readTree hr
    have htop := hs.climbs
    rw [hroot, Node.leaves_branch, Node.depth]
    exact ⟨hs, hs.spelling fun _ => lexeme_of_mem_scan, hs.leaves, htop.bounded, htop.reached⟩
  · intro e he
    rcases readTree_outcome source with ⟨ns, hr, -⟩ | ⟨t, hr, ht⟩ | ⟨t, hr, ht⟩ <;> rw [hr] at he <;> cases he
    · exact .inl ⟨t, ht, rfl⟩
    · exact .inr ⟨t, ht, rfl⟩

def evenSource : List Char := "(a (b) \")\") ; (".toList

def openSource : List Char := "(a (b) (".toList

theorem readTree_balanced_evenSource :
    (∃ r, readTree evenSource = .ok r ∧ Balanced (scan evenSource).tokens ∧
      Spells r.root.children (scan evenSource).tokens) ∧
    ∃ e, readTree openSource = .error e ∧ ¬ Balanced (scan openSource).tokens ∧
      ((∃ t, FirstUnmatched (scan openSource).tokens t ∧ e = .unmatchedClose t.span) ∨
        ∃ t, LastUnclosed (scan openSource).tokens t ∧ e = .unclosedOpen t.span) := by
  have hsome : (readTree evenSource).toOption.isSome = true := by decide +kernel
  have hnone : (readTree openSource).toOption.isSome = false := by decide +kernel
  obtain ⟨heven, htree, -⟩ := readTree_balanced evenSource
  obtain ⟨hopen, -, herror⟩ := readTree_balanced openSource
  cases hr : readTree evenSource with
  | error e => rw [hr] at hsome; cases hsome
  | ok r =>
    cases he : readTree openSource with
    | ok r => rw [he] at hnone; cases hnone
    | error e =>
      refine ⟨⟨r, rfl, heven.mp ⟨r, hr⟩, (htree r hr).1⟩, e, rfl, ?_, herror e he⟩
      intro hb
      obtain ⟨r, hr⟩ := hopen.mpr hb
      rw [he] at hr
      cases hr

end Lisplet
