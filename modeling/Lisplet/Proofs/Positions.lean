import Lisplet.Proofs.Balance
import Lisplet.Proofs.Encoding

/-!
# Positions in a source

A position says how many bytes, lines and characters of the line lie before it.
`Position.behind` counts them in the text before the position, and everything that
the scanner and the reader say about where something stands agrees with it.
-/

namespace Lisplet

/-! ## The position behind a text -/

/-- The position behind `before`: one line more than it has line feeds, and one column
more than it has characters after the last of them. -/
def Position.behind (before : List Char) : Position where
  offset := (utf8 before).length
  line := 1 + before.count '\n'
  column := 1 + (before.reverse.takeWhile (· ≠ '\n')).length

theorem behind_nil : Position.behind [] = .origin := rfl

theorem advance_behind (before : List Char) (c : Char) :
    (Position.behind before).advance c = .behind (before ++ [c]) := by
  unfold Position.advance
  by_cases hc : c = '\n'
  · subst hc
    simp [Position.behind, Nat.add_assoc]
    rfl
  · have hne : ¬ '\n' = c := Ne.symm hc
    simp [Position.behind, hc, Nat.add_comm]

theorem advanceAll_behind (before cs : List Char) :
    (Position.behind before).advanceAll cs = .behind (before ++ cs) := by
  induction cs generalizing before with
  | nil => simp [Position.advanceAll]
  | cons c cs ih =>
    have hstep : (Position.behind before).advanceAll (c :: cs) =
        ((Position.behind before).advance c).advanceAll cs := rfl
    rw [hstep, advance_behind, ih, List.append_assoc, List.singleton_append]

/-- A place between two characters of `source`, with the line and the column that it has there. -/
def Position.In (source : List Char) (p : Position) : Prop :=
  ∃ before after, source = before ++ after ∧ p = .behind before

theorem offset_behind_le (before after : List Char) :
    (Position.behind before).offset ≤ (Position.behind (before ++ after)).offset := by
  simp [Position.behind]

theorem Position.In.offset_le {source : List Char} {p : Position} (h : p.In source) :
    p.offset ≤ (utf8 source).length := by
  obtain ⟨before, after, rfl, rfl⟩ := h
  exact offset_behind_le before after

/-! ## Spans -/

structure Span.Right (source : List Char) (s : Span) : Prop where
  start : s.start.In source
  stop : s.stop.In source
  ordered : s.start.offset ≤ s.stop.offset
  inside : s.stop.offset ≤ (utf8 source).length

theorem right_of_in {source : List Char} {s : Span} (hstart : s.start.In source) (hstop : s.stop.In source)
    (h : s.start.offset ≤ s.stop.offset) : s.Right source := ⟨hstart, hstop, h, hstop.offset_le⟩

def Span.Covers (source : List Char) (s : Span) (text : List Char) : Prop :=
  ∃ before after, source = before ++ text ++ after ∧ s = ⟨.behind before, .behind (before ++ text)⟩

theorem Span.Covers.right {source text : List Char} {s : Span} (h : s.Covers source text) :
    s.Right source := by
  obtain ⟨before, after, rfl, rfl⟩ := h
  exact right_of_in ⟨before, text ++ after, by simp, rfl⟩ ⟨before ++ text, after, rfl, rfl⟩
    (offset_behind_le before text)

theorem Span.Covers.slice_eq {source text : List Char} {s : Span} (h : s.Covers source text) :
    s.slice source = some text := by
  obtain ⟨before, after, rfl, rfl⟩ := h
  exact slice_utf8 rfl rfl

/-! ## Tokens -/

/-- Each token ends before the next one starts, and none before it starts itself. -/
structure InLine (ts : List Token) : Prop where
  ordered : ∀ t ∈ ts, t.span.start.offset ≤ t.span.stop.offset
  apart : ts.Pairwise fun a b => a.span.stop.offset ≤ b.span.start.offset

structure Scan.Stands (source : List Char) (s : Scan) : Prop where
  tokens : ∀ t ∈ s.tokens, t.span.Covers source t.text.toList
  finish : s.finish = .finish (.behind source)
  quote : ∀ c, s.cut = some c → c.quote.Covers source ['"']

theorem Scans.stands {source before cs : List Char} {p : Position} {s : Scan} (h : Scans cs p s)
    (hp : p = .behind before) (hsource : source = before ++ cs) : s.Stands source := by
  induction h generalizing before with
  | finish _ => exact ⟨by simp, by rw [hp, advanceAll_behind, hsource], by simp⟩
  | @cut gap cs kind p q _ _ hq =>
    rw [hp, advanceAll_behind] at hq
    refine ⟨by simp, by rw [hq, advanceAll_behind, hsource, List.append_assoc], ?_⟩
    rintro c ⟨⟩
    exact ⟨before ++ gap, cs, by simp [hsource], by rw [hq, advance_behind]⟩
  | @token gap text rest kind p q s _ _ _ hq _ ih =>
    rw [hp, advanceAll_behind] at hq
    have hstop : q.advanceAll text = .behind (before ++ gap ++ text) := by rw [hq, advanceAll_behind]
    have hrest : source = before ++ gap ++ text ++ rest := by simp [hsource]
    obtain ⟨htokens, hfinish, hquote⟩ := ih hstop hrest
    refine ⟨?_, hfinish, hquote⟩
    rw [List.forall_mem_cons]
    exact ⟨⟨before ++ gap, rest, by simpa using hrest, by simp [hq, advanceAll_behind]⟩, htokens⟩

theorem stands_scan (source : List Char) : (scan source).Stands source :=
  (scans_scan source).stands behind_nil.symm (List.nil_append source).symm

theorem Scans.inLine {cs : List Char} {p : Position} {s : Scan} (h : Scans cs p s) :
    InLine s.tokens ∧ ∀ t ∈ s.tokens, p.offset ≤ t.span.start.offset := by
  induction h with
  | finish _ => exact ⟨⟨by simp, .nil⟩, by simp⟩
  | cut _ _ _ => exact ⟨⟨by simp, .nil⟩, by simp⟩
  | @token gap text rest kind p q s _ _ _ hq _ ih =>
    have hpq : p.offset ≤ q.offset := by rw [hq, Position.offset_advanceAll]; omega
    have hstop : q.offset ≤ (q.advanceAll text).offset := by rw [Position.offset_advanceAll]; omega
    refine ⟨⟨?_, ?_⟩, ?_⟩
    · rw [List.forall_mem_cons]
      exact ⟨hstop, ih.1.ordered⟩
    · rw [List.pairwise_cons]
      exact ⟨ih.2, ih.1.apart⟩
    · rw [List.forall_mem_cons]
      refine ⟨hpq, ?_⟩
      intro t ht
      have := ih.2 t ht
      omega

theorem covers_of_mem_scan {source : List Char} {t : Token}
    (h : t ∈ (scan source).tokens ∨ t = (scan source).finish) : t.span.Covers source t.text.toList := by
  rcases h with h | rfl
  · exact (stands_scan source).tokens t h
  · rw [(stands_scan source).finish]
    exact ⟨source, [], by simp [Token.finish], by simp [Token.finish, Span.point]⟩

theorem inLine_scan (source : List Char) : InLine (scan source).tokens := (scans_scan source).inLine.1

/-! ## Nodes -/

structure Node.Nested (n : Node) : Prop where
  ordered : n.span.start.offset ≤ n.span.stop.offset
  inside : ∀ c ∈ n.children, n.span.start.offset ≤ c.span.start.offset ∧
    c.span.stop.offset ≤ n.span.stop.offset
  apart : n.children.Pairwise fun a b => a.span.stop.offset ≤ b.span.start.offset

def Span.Joins (ts : List Token) (s : Span) : Prop :=
  ∃ a ∈ ts, ∃ b ∈ ts, s = ⟨a.span.start, b.span.stop⟩

theorem Span.Joins.mono {ts us : List Token} (h : ts ⊆ us) {s : Span} (hs : s.Joins ts) : s.Joins us := by
  obtain ⟨a, ha, b, hb, rfl⟩ := hs
  exact ⟨a, h ha, b, h hb, rfl⟩

theorem InLine.sublist {ts us : List Token} (h : InLine us) (hs : ts.Sublist us) : InLine ts :=
  ⟨fun t ht => h.ordered t (hs.subset ht), h.apart.sublist hs⟩

/-- All nodes that a row of tokens is read into start and end where tokens do. -/
theorem Spells.joins {ns : List Node} {ts : List Token} (h : Spells ns ts) {n m : Node} (hn : n ∈ ns)
    (hm : m.OccursIn n) : m.span.Joins ts := by
  induction h generalizing n with
  | nil => cases hn
  | @leaf t ns ts _ _ ih =>
    rcases List.mem_cons.mp hn with rfl | hn
    · cases hm
      exact ⟨t, by simp, t, by simp, rfl⟩
    · exact (ih hn hm).mono (by simp)
  | @branch o c cs ns inner ts _ _ _ _ ihcs ih =>
    rcases List.mem_cons.mp hn with rfl | hn
    · cases hm with
      | here => exact ⟨o, by simp, c, by simp, rfl⟩
      | inside hc hm => exact (ihcs hc hm).mono (by intro t; simp +contextual)
    · exact (ih hn hm).mono (by intro t; simp +contextual)

theorem apart_of_joins {ts us : List Token} (h : InLine (ts ++ us)) {s s' : Span} (hs : s.Joins ts)
    (hs' : s'.Joins us) : s.stop.offset ≤ s'.start.offset := by
  obtain ⟨-, -, b, hb, rfl⟩ := hs
  obtain ⟨a, ha, -, -, rfl⟩ := hs'
  exact (List.pairwise_append.mp h.apart).2.2 b hb a ha

theorem Spells.apart {ns : List Node} {ts : List Token} (h : Spells ns ts) (hts : InLine ts) :
    ns.Pairwise fun a b => a.span.stop.offset ≤ b.span.start.offset := by
  induction h with
  | nil => exact .nil
  | @leaf t ns ts _ hns ih =>
    have hline : InLine ([t] ++ ts) := hts
    rw [List.pairwise_cons]
    refine ⟨fun n hn => apart_of_joins hline ⟨t, by simp, t, by simp, rfl⟩ (hns.joins hn .here), ?_⟩
    exact ih (hts.sublist (List.sublist_cons_self ..))
  | @branch o c cs ns inner ts _ _ _ hns _ ih =>
    have hline : InLine ((o :: (inner ++ [c])) ++ ts) := by simpa using hts
    rw [List.pairwise_cons]
    refine ⟨fun n hn => apart_of_joins hline ⟨o, by simp, c, by simp, rfl⟩ (hns.joins hn .here), ?_⟩
    exact ih (hline.sublist (List.sublist_append_right ..))

theorem Spells.nested {ns : List Node} {ts : List Token} (h : Spells ns ts) (hts : InLine ts)
    {n m : Node} (hn : n ∈ ns) (hm : m.OccursIn n) : m.Nested := by
  induction h generalizing n with
  | nil => cases hn
  | @leaf t ns ts _ _ ih =>
    rcases List.mem_cons.mp hn with rfl | hn
    · cases hm
      exact ⟨hts.ordered t (by simp), by simp [Node.children], .nil⟩
    · exact ih (hts.sublist (List.sublist_cons_self ..)) hn hm
  | @branch o c cs ns inner ts _ _ hcs _ ihcs ih =>
    have hline : InLine ((o :: inner) ++ ([c] ++ ts)) := by simpa using hts
    have hfirst : InLine ([o] ++ inner) := hline.sublist (List.sublist_append_left ..)
    have hlast : InLine (inner ++ [c]) :=
      hts.sublist (.cons o ((List.Sublist.refl inner).append (.cons_cons c (List.nil_sublist ts))))
    rcases List.mem_cons.mp hn with rfl | hn
    · cases hm with
      | here =>
        have ho := hts.ordered o (by simp)
        have hc := hts.ordered c (by simp)
        have hoc : o.span.stop.offset ≤ c.span.start.offset :=
          (List.pairwise_append.mp hline.apart).2.2 o (by simp) c (by simp)
        refine ⟨Nat.le_trans ho (Nat.le_trans hoc hc), ?_, hcs.apart (hfirst.sublist (List.sublist_cons_self ..))⟩
        intro child hchild
        have hjoins := hcs.joins hchild .here
        -- what the child is made of stands between the two parentheses
        have hbefore := apart_of_joins hfirst ⟨o, by simp, o, by simp, rfl⟩ hjoins
        have hafter := apart_of_joins hlast hjoins ⟨c, by simp, c, by simp, rfl⟩
        exact ⟨Nat.le_trans ho hbefore, Nat.le_trans hafter hc⟩
      | inside hc hm => exact ihcs (hfirst.sublist (List.sublist_cons_self ..)) hc hm
    · exact ih (hline.sublist ((List.sublist_cons_self ..).trans (List.sublist_append_right ..))) hn hm

theorem right_of_joins {source : List Char} {s : Span} (h : s.Joins (scan source).tokens)
    (hs : s.start.offset ≤ s.stop.offset) : s.Right source := by
  obtain ⟨a, ha, b, hb, rfl⟩ := h
  exact right_of_in (covers_of_mem_scan (.inl ha)).right.start (covers_of_mem_scan (.inl hb)).right.stop hs

theorem nodes_right {source : List Char} {r : Reading} (h : readTree source = .ok r) {n : Node}
    (hn : n.OccursIn r.root) : n.span.Right source ∧ n.Nested := by
  obtain ⟨ns, hroot, hs⟩ := spells_of_readTree h
  have hline := inLine_scan source
  rw [(stands_scan source).finish] at hroot
  rw [hroot] at hn
  cases hn with
  | here =>
    have hspan : (Span.mk .origin (.behind source)).Covers source source :=
      ⟨[], [], by simp, by simp [behind_nil]⟩
    refine ⟨hspan.right, Nat.zero_le _, ?_, hs.apart hline⟩
    intro c hc
    have hc := right_of_joins (hs.joins hc .here) (hs.nested hline hc .here).ordered
    exact ⟨Nat.zero_le _, hc.inside⟩
  | inside hc hn =>
    have hnested := hs.nested hline hc hn
    exact ⟨right_of_joins (hs.joins hc hn) hnested.ordered, hnested⟩

/-! ## Bytes that are no text -/

theorem decodeChar_iff {bytes : ByteArray} {i : Nat} {c : Char} :
    bytes.utf8DecodeChar? i = some c ↔ String.utf8EncodeChar c <+: bytes.data.toList.drop i := by
  have hdrop : (bytes.extract i bytes.size).data.toList = bytes.data.toList.drop i := by
    have hlen : (bytes.data.toList.drop i).length ≤ bytes.size - i := by simp
    rw [ByteArray.data_extract, Array.toList_extract, List.extract_eq_take_drop, List.take_of_length_le hlen]
  rw [ByteArray.utf8DecodeChar?_eq_utf8DecodeChar?_extract, ← hdrop]
  constructor
  · intro h
    obtain ⟨rest, hrest⟩ := ByteArray.exists_of_utf8DecodeChar?_eq_some h
    exact ⟨rest.data.toList, by rw [hrest]; simp⟩
  · rintro ⟨rest, hrest⟩
    have hsplit : bytes.extract i bytes.size = (String.utf8EncodeChar c).toByteArray ++ rest.toByteArray := by
      apply ByteArray.ext
      simp [← Array.toList_inj, hrest]
    rw [hsplit, ByteArray.utf8DecodeChar?_utf8EncodeChar_append]

/-- Reading goes on as long as characters can be read. -/
theorem verifiedFrom_spec (bytes : ByteArray) (i : Nat) (acc : List Char) :
    ∃ cs, Utf8.verifiedFrom bytes i acc = (acc.reverse ++ cs, i + (utf8 cs).length) ∧
      utf8 cs <+: bytes.data.toList.drop i ∧ ∀ cs', utf8 cs' <+: bytes.data.toList.drop i → cs' <+: cs := by
  fun_induction Utf8.verifiedFrom bytes i acc with
  | case1 i acc c hc ih =>
    obtain ⟨cs, heq, hcs, hmax⟩ := ih
    have hrest := decodeChar_iff.mp hc
    obtain ⟨rest, hrest⟩ := hrest
    have hdrop : bytes.data.toList.drop (i + c.utf8Size) = rest := by
      rw [← List.drop_drop, ← hrest, ← String.length_utf8EncodeChar, List.drop_left]
    rw [hdrop] at hcs hmax
    refine ⟨c :: cs, by simp [heq, Nat.add_assoc], ?_, ?_⟩
    · rw [← hrest, utf8_cons]
      exact (List.prefix_append_right_inj _).mpr hcs
    · intro cs' hcs'
      cases cs' with
      | nil => exact List.nil_prefix
      | cons d ds =>
        rw [utf8_cons] at hcs'
        -- two characters that start at one place are the same
        have hd := decodeChar_iff.mpr ((List.prefix_append _ _).trans hcs')
        rw [hc] at hd
        cases hd
        rw [← hrest, List.prefix_append_right_inj] at hcs'
        exact (List.prefix_cons_inj c).mpr (hmax ds hcs')
  | case2 i acc hc =>
    refine ⟨[], by simp, List.nil_prefix, ?_⟩
    intro cs' hcs'
    cases cs' with
    | nil => exact List.prefix_rfl
    | cons d ds =>
      rw [utf8_cons] at hcs'
      rw [decodeChar_iff.mpr ((List.prefix_append _ _).trans hcs')] at hc
      cases hc

structure LongestText (bytes : ByteArray) (cs : List Char) : Prop where
  front : utf8 cs <+: bytes.data.toList
  longest : ∀ cs', utf8 cs' <+: bytes.data.toList → (utf8 cs').length ≤ (utf8 cs).length

theorem decodeSource_outcome (bytes : ByteArray) :
    (∃ cs, utf8 cs = bytes.data.toList ∧ decodeSource bytes = .ok cs) ∨
    ((∀ cs, utf8 cs ≠ bytes.data.toList) ∧ ∃ cs, LongestText bytes cs ∧
      decodeSource bytes = .error (.invalidUtf8 (.point (.behind cs)))) := by
  obtain ⟨cs, heq, hfront, hmax⟩ := verifiedFrom_spec bytes 0 []
  rw [List.drop_zero] at hfront hmax
  have hsize : bytes.size = bytes.data.toList.length := Array.length_toList.symm
  unfold decodeSource Utf8.decode Utf8.verified
  rw [heq]
  by_cases hn : (utf8 cs).length = bytes.size
  · refine .inl ⟨cs, hfront.eq_of_length (hn.trans hsize), ?_⟩
    simp [hn, Except.mapError]
  · refine .inr ⟨?_, cs, ⟨hfront, ?_⟩, ?_⟩
    · intro cs' hcs'
      obtain ⟨more, rfl⟩ := hmax cs' (hcs' ▸ List.prefix_rfl)
      have hlen := hfront.length_le
      rw [← hcs', utf8_append, List.length_append] at hlen
      apply hn
      rw [hsize, ← hcs', utf8_append, List.length_append]
      omega
    · intro cs' hcs'
      obtain ⟨more, rfl⟩ := hmax cs' hcs'
      simp
    · have horigin : Position.origin.advanceAll cs = .behind cs := advanceAll_behind [] cs
      simp [hn, Except.mapError, horigin]

end Lisplet
