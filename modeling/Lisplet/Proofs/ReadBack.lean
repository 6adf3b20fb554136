import Lisplet.Eval.Interpreter
import Lisplet.Proofs.Balance
import Lisplet.Proofs.Views

/-!
# Texts of values read back

The text of a value made of scalars, strings and lists is a form, and evaluating that
form gives such a value again. Printer, scanner, reader, leaf kinds and evaluator have
to agree on this: `scans_plain` goes from the text to the form, `eval_denotes` from the
form to a value, and `text_reads_back` puts them together.
-/

namespace Lisplet

/-! ## Quoted text -/

namespace Quoted

/-- A character is written as itself, or with a backslash and the character that the
backslash takes back to it. -/
theorem encodeChar_cases (c : Char) :
    (∃ e, encodeChar c = ['\\', e] ∧ escaped e = c) ∨ encodeChar c = [c] ∧ c ≠ '"' ∧ c ≠ '\\' := by
  unfold encodeChar
  split
  · exact .inl ⟨'n', rfl, rfl⟩
  · exact .inl ⟨'t', rfl, rfl⟩
  · exact .inl ⟨'\\', rfl, rfl⟩
  · exact .inl ⟨'"', rfl, rfl⟩
  · rename_i hslash hquote
    exact .inr ⟨rfl, hquote, hslash⟩

theorem literalBody_encode (cs : List Char) : LiteralBody (cs.flatMap encodeChar) := by
  induction cs with
  | nil => exact .nil
  | cons c cs ih =>
    rw [List.flatMap_cons]
    rcases encodeChar_cases c with ⟨e, he, -⟩ | ⟨hc, hquote, hslash⟩
    · rw [he]; exact .escape ih
    · rw [hc]; exact .plain hquote hslash ih

theorem decodeBody_plain {c : Char} (hc : c ≠ '\\') (acc cs : List Char) :
    decodeBody acc (c :: cs) = decodeBody (c :: acc) cs := by
  rw [decodeBody.eq_def]
  split <;> simp_all

theorem decodeBody_encode (acc cs : List Char) :
    decodeBody acc (cs.flatMap encodeChar) = acc.reverse ++ cs := by
  induction cs generalizing acc with
  | nil => simp [decodeBody]
  | cons c cs ih =>
    rw [List.flatMap_cons]
    rcases encodeChar_cases c with ⟨e, he, hc⟩ | ⟨hc, -, hslash⟩
    · rw [he, List.cons_append, List.singleton_append, decodeBody, ih, hc]
      simp
    · rw [hc, List.singleton_append, decodeBody_plain hslash, ih]
      simp

theorem decode_encode (cs : List Char) : decode (encode cs) = cs := by
  have hbody : body? (encode cs) = some (cs.flatMap encodeChar) := by
    simp [body?, encode]
  rw [decode, hbody, Option.getD_some, decodeBody_encode]
  rfl

end Quoted

/-! ## Decimal integers -/

namespace Number

theorem digit_of_isDigit {c : Char} (hc : c.isDigit = true) :
    digit 10 c = some (c.toNat - '0'.toNat) := by
  have hrange : '0' ≤ c ∧ c ≤ '9' := by
    simpa [Char.isDigit, Char.le_def] using hc
  have hlt : c.toNat - 48 < 10 := by
    have : c.toNat ≤ 57 := hrange.2
    omega
  simp [digit, digitValue, hrange, hlt]

theorem le_ofDigitChars (acc : Nat) (cs : List Char) : acc ≤ Nat.ofDigitChars 10 cs acc := by
  induction cs generalizing acc with
  | nil => simp
  | cons c cs ih =>
    rw [Nat.ofDigitChars_cons]
    have := ih (10 * acc + (c.toNat - '0'.toNat))
    omega

/-- Below the cap a numeral has the value of its digits. -/
theorem numeralFrom_ten {cap acc : Nat} {cs : List Char} (hdigits : ∀ c ∈ cs, c.isDigit = true)
    (hcap : Nat.ofDigitChars 10 cs acc < cap) :
    numeralFrom 10 cap acc cs = some (Nat.ofDigitChars 10 cs acc) := by
  induction cs generalizing acc with
  | nil => rfl
  | cons c cs ih =>
    simp only [List.forall_mem_cons] at hdigits
    rw [Nat.ofDigitChars_cons] at hcap ⊢
    have hle := le_ofDigitChars (10 * acc + (c.toNat - '0'.toNat)) cs
    have hmin : min cap (acc * 10 + (c.toNat - '0'.toNat)) = 10 * acc + (c.toNat - '0'.toNat) := by omega
    rw [numeralFrom, digit_of_isDigit hdigits.1, Option.bind_some, hmin, ih hdigits.2 hcap]

theorem toDigits_head {n : Nat} (hn : n ≠ 0) : ∃ c cs, Nat.toDigits 10 n = c :: cs ∧ c ≠ '0' := by
  induction n using Nat.strongRecOn with
  | ind n ih =>
    by_cases hlt : n < 10
    · have hdigit : ∀ k < 10, k ≠ 0 → Nat.digitChar k ≠ '0' := by decide
      exact ⟨_, [], Nat.toDigits_of_lt_base hlt, hdigit n hlt hn⟩
    · obtain ⟨c, cs, hcs, hc⟩ := ih (n / 10) (by omega) (by omega)
      rw [Nat.toDigits_of_base_le (by decide) (by omega), hcs]
      exact ⟨c, _, rfl, hc⟩

theorem isDigit_of_toDigits {n : Nat} : ∀ c ∈ Nat.toDigits 10 n, c.isDigit = true :=
  fun _ => Nat.isDigit_of_mem_toDigits (by decide) (by decide)

theorem magnitude_toDigits {n : Nat} (hn : n < wordCap) : magnitude (Nat.toDigits 10 n) = some n := by
  by_cases hzero : n = 0
  · subst hzero
    rfl
  · obtain ⟨c, cs, hcs, hc⟩ := toDigits_head hzero
    have hnumeral : numeral 10 (Nat.toDigits 10 n) = some n := by
      have hfits : Nat.ofDigitChars 10 (Nat.toDigits 10 n) 0 < wordCap := by
        rwa [Nat.ofDigitChars_ten_toDigits]
      have hvalue := numeralFrom_ten isDigit_of_toDigits hfits
      rw [Nat.ofDigitChars_ten_toDigits] at hvalue
      rw [numeral, if_neg (by simp), hvalue]
    rw [hcs] at hnumeral ⊢
    rw [← hnumeral, magnitude.eq_def]
    split <;> simp_all

theorem splitSign_toDigits (n : Nat) : splitSign (Nat.toDigits 10 n) = (false, Nat.toDigits 10 n) := by
  cases hcs : Nat.toDigits 10 n with
  | nil => rfl
  | cons c cs =>
    have hc := isDigit_of_toDigits (n := n) c (by simp [hcs])
    rw [splitSign.eq_def]
    split <;> simp_all

theorem clamp_toInt (n : Int64) : clamp n.toInt = n := by
  have hmin : Int64.minValue.toInt = -2 ^ 63 := by decide
  have hmax : Int64.maxValue.toInt = 2 ^ 63 - 1 := by decide
  have := n.le_toInt
  have := n.toInt_lt
  rw [clamp, if_neg (by omega), if_neg (by omega), Int64.ofInt_toInt]

/-- The digits of an integer, behind a minus sign if it is negative. -/
theorem toList_toString (z : Int) :
    (toString z).toList = (if z < 0 then ['-'] else []) ++ Nat.toDigits 10 z.natAbs := by
  cases z with
  | ofNat n => simp [Int.toString_eq_repr, Int.repr, Nat.repr_eq_ofList_toDigits]
  | negSucc n => simp [Int.toString_eq_repr, Int.repr, Nat.repr_eq_ofList_toDigits, Int.negSucc_lt_zero]

theorem readInt_toString (n : Int64) : readInt (toString n.toInt).toList = some n := by
  have hcap : n.toInt.natAbs < wordCap := by
    have := n.le_toInt
    have := n.toInt_lt
    have : wordCap = 2 ^ 64 := rfl
    omega
  rw [toList_toString]
  by_cases hneg : n.toInt < 0
  · have habs : -(n.toInt.natAbs : Int) = n.toInt := by omega
    have hclamp : clamp (-(n.toInt.natAbs : Int)) = n := by rw [habs, clamp_toInt]
    simpa [hneg, readInt, splitSign, magnitude_toDigits hcap] using hclamp
  · have habs : (n.toInt.natAbs : Int) = n.toInt := by omega
    have hclamp : clamp (n.toInt.natAbs : Int) = n := by rw [habs, clamp_toInt]
    simpa [hneg, readInt, splitSign_toDigits, magnitude_toDigits hcap] using hclamp

end Number

theorem isDelimiter_of_isDigit {c : Char} (hc : c.isDigit = true) : isDelimiter c = false := by
  cases hd : isDelimiter c with
  | false => rfl
  | true =>
    simp only [isDelimiter, isLayout, Bool.or_eq_true, beq_iff_eq] at hd
    rcases hd with ((((((rfl | rfl) | rfl) | rfl) | rfl) | rfl) | rfl) | rfl <;> simp at hc

theorem lexeme_toString (z : Int) : Lexeme .atom (toString z).toList := by
  rw [Number.toList_toString]
  refine .atom (by simp) ?_
  intro c hc
  rcases List.mem_append.mp hc with hc | hc
  · split at hc
    · obtain rfl : c = '-' := by simpa using hc
      decide
    · cases hc
  · exact isDelimiter_of_isDigit (Number.isDigit_of_toDigits c hc)

theorem ofAtom_toString (n : Int64) : LeafKind.ofAtom (toString n.toInt) = .int n := by
  have hread := Number.readInt_toString n
  have hne (word : String) (hw : Number.readInt word.toList = none) : toString n.toInt ≠ word := by
    intro heq
    rw [heq, hw] at hread
    cases hread
  rw [LeafKind.ofAtom, if_neg (hne "true" (by decide)), if_neg (hne "false" (by decide)),
    if_neg (hne "null" (by decide)), hread]

/-! ## Texts of data -/

namespace Datum

mutual

theorem write_eq : ∀ (d : Datum) (out : String), d.write out = out ++ d.render
  | null, out | bool _, out | int _, out | float _, out | str _, out => by simp [render, write]
  | tuple items, out => by
    rw [render, write, write, writeItems_eq items, writeItems_eq items ("" ++ "(tuple")]
    simp [String.append_assoc]
  | list items, out => by
    rw [render, write, write, writeItems_eq items, writeItems_eq items ("" ++ "(list")]
    simp [String.append_assoc]
  | table entries, out => by
    rw [render, write, write, writeEntries_eq entries, writeEntries_eq entries ("" ++ "\x7b")]
    simp [String.append_assoc]

theorem writeItems_eq : ∀ (ds : List Datum) (out : String), writeItems out ds = out ++ writeItems "" ds
  | [], out => by simp [writeItems]
  | d :: ds, out => by
    rw [writeItems, writeItems, writeItems_eq ds, writeItems_eq ds (d.write ("" ++ " ")), write_eq d,
      write_eq d ("" ++ " ")]
    simp [String.append_assoc]

theorem writeEntries_eq : ∀ (es : List (String × Datum)) (out : String),
    writeEntries out es = out ++ writeEntries "" es
  | [], out => by simp [writeEntries]
  | (key, d) :: es, out => by
    rw [writeEntries, writeEntries, writeEntries_eq es, writeEntries_eq es (d.write _ ++ ", "),
      write_eq d, write_eq d ("" ++ key ++ ": ")]
    simp [String.append_assoc]

end

def chars (d : Datum) : List Char := d.render.toList

theorem toList_writeItems (ds : List Datum) :
    (writeItems "" ds).toList = ds.flatMap fun d => ' ' :: d.chars := by
  induction ds with
  | nil => rfl
  | cons d ds ih =>
    rw [writeItems, writeItems_eq, write_eq, String.toList_append, ih]
    simp [chars]

theorem chars_list (ds : List Datum) :
    (list ds).chars = "(list".toList ++ (ds.flatMap (fun d => ' ' :: d.chars) ++ [')']) := by
  rw [chars, render, write, writeItems_eq, String.toList_append, String.toList_append, toList_writeItems]
  simp

end Datum

/-! ## Forms that stand for data -/

inductive Denotes : Node → Datum → Prop
  | null {l : Leaf} : l.kind = .null → Denotes (.leaf l) .null
  | bool {l : Leaf} {b : Bool} : l.kind = .bool b → Denotes (.leaf l) (.bool b)
  | int {l : Leaf} {n : Int64} : l.kind = .int n → Denotes (.leaf l) (.int n)
  | str {l : Leaf} {s : String} : l.kind = .str s → l.cell = none → Denotes (.leaf l) (.str s)
  | list {head : Leaf} {ns : List Node} {span : Span} {tag : Option Nat} {ds : List Datum} :
      head.kind = .keyword .list → ns.length = ds.length →
      (∀ (i : Nat) (n : Node) (d : Datum), ns[i]? = some n → ds[i]? = some d → Denotes n d) →
      Denotes (.branch (.leaf head :: ns) span tag) (.list ds)

/-- Wherever the text of `d` stands, it is scanned as the tokens of a form for `d`. -/
def Scanned (d : Datum) : Prop :=
  ∀ (gap rest : List Char) (p : Position) (s : Scan), Trivia gap → EndsAtom rest →
    Scans rest ((p.advanceAll gap).advanceAll d.chars) s →
    ∃ ts n, Spells [n] ts ∧ Denotes n d ∧
      Scans (gap ++ (d.chars ++ rest)) p ⟨ts ++ s.tokens, s.finish, s.cut⟩

theorem scanned_leaf {d : Datum} {kind : TokenKind} (hk : kind = .str ∨ kind = .atom)
    (htext : Lexeme kind d.chars)
    (hd : ∀ span, Denotes (.leaf (.ofToken ⟨kind, String.ofList d.chars, span⟩)) d) : Scanned d := by
  intro gap rest p s hgap hrest hs
  exact ⟨_, _, .leaf hk .nil, hd _, .token hgap htext (fun _ => hrest) rfl hs⟩

theorem scanned_atom {d : Datum} (word : String) (hword : d.render = word) (htext : Lexeme .atom word.toList)
    (hd : ∀ l : Leaf, l.kind = LeafKind.ofAtom word → Denotes (.leaf l) d) : Scanned d := by
  refine scanned_leaf (.inr rfl) (by rwa [Datum.chars, hword]) fun span => hd _ ?_
  simp [Leaf.ofToken, LeafKind.ofToken, Datum.chars, hword]

theorem lexeme_encode (cs : List Char) : Lexeme .str (Quoted.encode cs) :=
  .str (Quoted.literalBody_encode cs)

theorem scanned_str (s : String) : Scanned (.str s) := by
  have hchars : (Datum.str s).chars = Quoted.encode s.toList := by simp [Datum.chars, Datum.render, Datum.write]
  refine scanned_leaf (.inl rfl) (by rw [hchars]; exact lexeme_encode _) fun span => .str ?_ rfl
  simp [Leaf.ofToken, LeafKind.ofToken, hchars, Quoted.decode_encode]

theorem scanned_items {ds : List Datum} (hds : ∀ d ∈ ds, Scanned d) (rest : List Char) (p : Position)
    (s : Scan) (hrest : EndsAtom rest)
    (hs : Scans rest (p.advanceAll (ds.flatMap fun d => ' ' :: d.chars)) s) :
    ∃ ts ns, Spells ns ts ∧ ns.length = ds.length ∧
      (∀ (i : Nat) (n : Node) (d : Datum), ns[i]? = some n → ds[i]? = some d → Denotes n d) ∧
      Scans ((ds.flatMap fun d => ' ' :: d.chars) ++ rest) p ⟨ts ++ s.tokens, s.finish, s.cut⟩ := by
  induction ds generalizing p with
  | nil => exact ⟨[], [], .nil, rfl, by simp, hs⟩
  | cons d ds ih =>
    simp only [List.forall_mem_cons] at hds
    have hblank : Trivia [' '] := .blank rfl .nil
    have hends : EndsAtom ((ds.flatMap fun d => ' ' :: d.chars) ++ rest) := by
      cases ds with
      | nil => simpa using hrest
      | cons e ds => simp [EndsAtom, isDelimiter, isLayout]
    have hsplit : p.advanceAll ((d :: ds).flatMap fun d => ' ' :: d.chars) =
        ((p.advanceAll [' ']).advanceAll d.chars).advanceAll (ds.flatMap fun d => ' ' :: d.chars) := by
      rw [← advanceAll_append, ← advanceAll_append]
      simp
    rw [hsplit] at hs
    obtain ⟨ts, ns, hspell, hlen, hden, hscan⟩ := ih hds.2 _ hs
    obtain ⟨us, n, hspell', hden', hscan'⟩ := hds.1 [' '] _ p _ hblank hends hscan
    refine ⟨us ++ ts, n :: ns, hspell'.append hspell, by simp [hlen], ?_, by simpa using hscan'⟩
    intro i m e hm he
    cases i with
    | zero => simp at hm he; subst hm he; exact hden'
    | succ i => exact hden i m e (by simpa using hm) (by simpa using he)

theorem exists_token {gap text rest : List Char} {kind : TokenKind} {p : Position} {s : Scan}
    (hgap : Trivia gap) (htext : Lexeme kind text) (hend : kind = .atom → EndsAtom rest)
    (hs : Scans rest ((p.advanceAll gap).advanceAll text) s) :
    ∃ t : Token, t.kind = kind ∧ t.text = String.ofList text ∧
      Scans (gap ++ (text ++ rest)) p ⟨t :: s.tokens, s.finish, s.cut⟩ :=
  ⟨_, rfl, rfl, .token hgap htext hend rfl hs⟩

theorem scanned_list {ds : List Datum} (hds : ∀ d ∈ ds, Scanned d) : Scanned (.list ds) := by
  intro gap rest p s hgap hrest hs
  have hpos (q : Position) : q.advanceAll (Datum.list ds).chars = (((q.advanceAll ['(']).advanceAll
      "list".toList).advanceAll (ds.flatMap fun d => ' ' :: d.chars)).advanceAll [')'] := by
    rw [← advanceAll_append, ← advanceAll_append, ← advanceAll_append, Datum.chars_list]
    simp
  have hword : Lexeme .atom "list".toList := .atom (by decide) (by simp [isDelimiter, isLayout])
  have hends : EndsAtom ((ds.flatMap fun d => ' ' :: d.chars) ++ ')' :: rest) := by
    cases ds with
    | nil => simp [EndsAtom, isDelimiter]
    | cons e ds => simp [EndsAtom, isDelimiter, isLayout]
  rw [hpos] at hs
  -- the tokens of the form, from the last one to the first
  obtain ⟨c, hc, -, hclose⟩ := exists_token .nil .closing (by simp) hs
  obtain ⟨ts, ns, hspell, hlen, hden, hitems⟩ :=
    scanned_items hds _ _ _ (by simp [EndsAtom, isDelimiter]) hclose
  obtain ⟨a, ha, hatext, hhead⟩ := exists_token .nil hword (fun _ => hends) hitems
  obtain ⟨o, ho, -, hopen⟩ := exists_token hgap .opening (by simp) hhead
  have hkind : (Leaf.ofToken a).kind = .keyword .list := by
    have hlist : LeafKind.ofAtom "list" = .keyword .list := rfl
    simpa [Leaf.ofToken, LeafKind.ofToken, ha, hatext] using hlist
  refine ⟨_, _, .branch ho hc (.leaf (.inr ha) hspell) .nil, .list hkind hlen hden, ?_⟩
  rw [Datum.chars_list]
  simpa using hopen

theorem scans_plain {h : Heap} {v : Option Value} {d : Datum} (hd : h.Plain v d) : Scanned d := by
  induction hd with
  | null =>
    refine scanned_atom "null" rfl (.atom (by decide) (by simp [isDelimiter, isLayout])) fun l hl => .null ?_
    rw [hl]
    rfl
  | bool b =>
    cases b with
    | false =>
      refine scanned_atom "false" rfl (.atom (by decide) (by simp [isDelimiter, isLayout])) fun l hl => .bool ?_
      rw [hl]
      rfl
    | true =>
      refine scanned_atom "true" rfl (.atom (by decide) (by simp [isDelimiter, isLayout])) fun l hl => .bool ?_
      rw [hl]
      rfl
  | int n =>
    refine scanned_atom (toString n.toInt) ?_ (lexeme_toString _) fun l hl => .int ?_
    · simp [Datum.render, Datum.write]
    · rw [hl, ofAtom_toString]
  | str r s => exact scanned_str s
  | @list r items ds hr hlen _ ih =>
    apply scanned_list
    intro d hd
    obtain ⟨i, hi⟩ := List.mem_iff_getElem?.mp hd
    have hlt : i < items.size := by
      have := (List.getElem?_eq_some_iff.mp hi).1
      omega
    exact ih i _ d (Array.getElem?_eq_getElem hlt) hi

/-! ## Reading -/

theorem readFrom_of_spells {ns : List Node} {ts : List Token} (h : Spells ns ts) (rest : List Token)
    (nodes : List Node) (forms : List OpenForm) :
    readFrom (ts ++ rest) nodes forms = readFrom rest (ns.reverse ++ nodes) forms := by
  induction h generalizing rest nodes forms with
  | nil => rfl
  | leaf hk _ ih =>
    rcases hk with hk | hk <;> simp [readFrom, hk, ih]
  | branch ho hc _ _ ihcs ih => simp [readFrom, ho, hc, ihcs, ih, Span.merge]

theorem readTree_of_scanned {d : Datum} (h : Scanned d) :
    ∃ r n, readTree d.chars = .ok r ∧ (scan d.chars).cut = none ∧ r.cut = none ∧
      r.root.children = [n] ∧ Denotes n d := by
  have hend := Scans.finish (p := Position.origin.advanceAll d.chars) (.closed .nil)
  obtain ⟨ts, n, hspell, hden, hscan⟩ := h [] [] .origin _ .nil (by simp [EndsAtom]) hend
  have heq : scan d.chars = _ := scan_eq_of_scans (by simpa using hscan)
  have hread : readFrom ts [] [] = .ok [n] := by
    simpa [readFrom] using readFrom_of_spells hspell [] [] []
  have htree : ∃ span, readTree d.chars = .ok ⟨.branch [n] span none, none⟩ :=
    ⟨_, by rw [readTree, heq, Scan.read, hread]; rfl⟩
  obtain ⟨span, htree⟩ := htree
  exact ⟨_, n, htree, by rw [heq], rfl, rfl, hden⟩

/-! ## Evaluating -/

def Heap.Grows (h h' : Heap) : Prop :=
  ∀ (r : Ref) (o : Object), h.objects[r]? = some o → h'.objects[r]? = some o

theorem Heap.Grows.trans {a b c : Heap} (hab : a.Grows b) (hbc : b.Grows c) : a.Grows c :=
  fun r o hr => hbc r o (hab r o hr)

theorem Heap.grows_alloc (h : Heap) (o : Object) : h.Grows (h.alloc o).2 := by
  intro r o' hr
  have hlt : r < h.objects.size := (Array.getElem?_eq_some_iff.mp hr).1
  simpa [alloc, Array.getElem?_push, Nat.ne_of_lt hlt] using hr

theorem Heap.alloc_at (h : Heap) (o : Object) : (h.alloc o).2.objects[h.objects.size]? = some o := by
  simp [alloc]

/-- The value is `d`, now and in every heap to come. -/
def Heap.Stays (h : Heap) (v : Option Value) (d : Datum) : Prop :=
  ∀ h' : Heap, h.Grows h' → h'.Plain v d

structure Machine.Built (m m' : Machine) : Prop where
  heap : m.heap.Grows m'.heap
  stack : m'.stack = m.stack
  sink : m'.sink = m.sink

theorem Machine.Built.refl (m : Machine) : m.Built m := ⟨fun _ _ h => h, rfl, rfl⟩

theorem Machine.Built.trans {m m₁ m₂ : Machine} (h : m.Built m₁) (h' : m₁.Built m₂) : m.Built m₂ :=
  ⟨h.heap.trans h'.heap, h'.stack.trans h.stack, h'.sink.trans h.sink⟩

theorem make_builds (m : Machine) {f : Heap → Value × Heap} (hf : m.heap.Grows (f m.heap).2) :
    ∃ m', Eval.make f m = .ok (f m.heap).1 m' ∧ m.Built m' ∧ m'.heap = (f m.heap).2 :=
  ⟨_, rfl, ⟨hf, rfl, rfl⟩, rfl⟩

theorem evalAll_denotes {w : Walk} {ns : List Node} {ds : List Datum} (hlen : ns.length = ds.length)
    (hw : ∀ (i : Nat) (n : Node) (d : Datum), ns[i]? = some n → ds[i]? = some d →
      ∀ m, ∃ v m', w.eval n m = .ok v m' ∧ m.Built m' ∧ m'.heap.Stays v d) (m : Machine) :
    ∃ vs m', w.evalAll ns m = .ok vs m' ∧ m.Built m' ∧ vs.length = ds.length ∧
      ∀ (i : Nat) (v : Option Value) (d : Datum), vs[i]? = some v → ds[i]? = some d → m'.heap.Stays v d := by
  induction ns generalizing ds m with
  | nil =>
    obtain rfl : ds = [] := List.eq_nil_of_length_eq_zero hlen.symm
    exact ⟨[], m, rfl, .refl m, rfl, by simp⟩
  | cons n ns ih =>
    cases ds with
    | nil => simp at hlen
    | cons d ds =>
      obtain ⟨v, m₁, hv, hb, hd⟩ := hw 0 n d rfl rfl m
      have hlen : ns.length = ds.length := by simpa using hlen
      obtain ⟨vs, m₂, hvs, hb', hlen', hds⟩ := ih hlen
        (fun i n d hn hd => hw (i + 1) n d (by simpa using hn) (by simpa using hd)) m₁
      refine ⟨v :: vs, m₂, ?_, hb.trans hb', by simp [hlen'], ?_⟩
      · simp only [Walk.evalAll, bind, EStateM.bind, hv, Eval.orUndo, hvs]
        rfl
      · intro i u e hu he
        cases i with
        | zero =>
          simp at hu he
          subst hu he
          exact fun h' hg => hd h' (hb'.heap.trans hg)
        | succ i => exact hds i u e (by simpa using hu) (by simpa using he)

theorem eval_denotes (c : Code) {n : Node} {d : Datum} (hd : Denotes n d) {fuel : Nat}
    (hfuel : sizeOf d ≤ fuel) (m : Machine) :
    ∃ v m', c.eval fuel n m = .ok v m' ∧ m.Built m' ∧ m'.heap.Stays v d := by
  obtain ⟨fuel, rfl⟩ : ∃ k, fuel = k + 1 := ⟨fuel - 1, by cases d <;> simp at hfuel <;> omega⟩
  induction hd generalizing fuel m with
  | null hk =>
    exact ⟨none, m, by simp [Code.eval, Code.evalNode, evalLeaf, hk]; rfl, .refl m, fun _ _ => .null⟩
  | @bool l b hk =>
    exact ⟨_, m, by simp [Code.eval, Code.evalNode, evalLeaf, hk]; rfl, .refl m, fun _ _ => .bool b⟩
  | @int l n hk =>
    exact ⟨_, m, by simp [Code.eval, Code.evalNode, evalLeaf, hk]; rfl, .refl m, fun _ _ => .int n⟩
  | @str l s hk hcell =>
    obtain ⟨m', hm, hb, -⟩ := make_builds m (f := fun h => h.newStr s) (m.heap.grows_alloc .str)
    refine ⟨_, m', ?_, hb, fun _ _ => .str m.heap.objects.size s⟩
    simp only [Code.eval, Code.evalNode, evalLeaf, hk, hcell, bind, EStateM.bind, hm]
    rfl
  | @list head ns span tag ds hk hlen _ ih =>
    -- an item is smaller than the list, so one level of fuel less is enough for it
    have hitems (i : Nat) (n : Node) (d : Datum) (hn : ns[i]? = some n) (hd : ds[i]? = some d) (m : Machine) :
        ∃ v m', c.eval fuel n m = .ok v m' ∧ m.Built m' ∧ m'.heap.Stays v d := by
      have hlt : sizeOf d < sizeOf ds := List.sizeOf_lt_of_mem (List.mem_of_getElem? hd)
      obtain ⟨k, rfl⟩ : ∃ k, fuel = k + 1 := ⟨fuel - 1, by simp at hfuel; omega⟩
      exact ih i n d hn hd m k (by simp at hfuel; omega)
    obtain ⟨vs, m₁, hvs, hb, hlen', hds⟩ := evalAll_denotes (w := ⟨c.eval fuel, c.block fuel⟩) hlen hitems m
    obtain ⟨m₂, hm₂, hb', hheap⟩ := make_builds m₁ (f := fun h => h.newList vs.toArray)
      (m₁.heap.grows_alloc _)
    refine ⟨some (.list m₁.heap.objects.size), m₂, ?_, hb.trans hb', ?_⟩
    · simp only [Code.eval, Code.evalNode, hk, Code.evalKeyword, checkArity, Keyword.arity?, Arity.accepts,
        if_true, Eval.checked, bind, EStateM.bind, pure, EStateM.pure, hvs, hm₂]
      rfl
    · intro h' hg
      have hnew : h'.objects[m₁.heap.objects.size]? = some (.list vs.toArray) := by
        apply hg
        rw [hheap]
        exact m₁.heap.alloc_at _
      refine .list hnew (by simpa using hlen') ?_
      intro i v d hv hd
      exact hds i v d (by simpa using hv) hd h' (hb'.heap.trans hg)

/-! ## Reading back -/

/-- The text of a value made of scalars, strings and lists is one form, and that form
evaluates to a value that looks the same, in every program and on every machine, without
printing anything. In particular a text in quotes is one token that stands for the text,
and an integer in digits is a leaf for the integer. -/
theorem text_reads_back {h : Heap} {v : Option Value} {d : Datum} (hd : h.Plain v d) :
    (∃ (text : String) (r : Reading) (n : Node), h.render v = some text ∧
      readTree text.toList = .ok r ∧ (scan text.toList).cut = none ∧ r.cut = none ∧
      r.root.children = [n] ∧
      ∀ (c : Code) (m : Machine), ∃ enough, ∀ fuel, enough ≤ fuel →
        ∃ v' m', c.eval fuel n m = .ok v' m' ∧ m'.sink = m.sink ∧ m'.heap.Plain v' d) ∧
    (∀ s : String,
      (∃ span finish, scan (Quoted.encode s.toList) =
        ⟨[⟨.str, String.ofList (Quoted.encode s.toList), span⟩], finish, none⟩) ∧
      Quoted.decode (Quoted.encode s.toList) = s.toList) ∧
    ∀ n : Int64, LeafKind.ofAtom (toString n.toInt) = .int n := by
  refine ⟨?_, ?_, ofAtom_toString⟩
  · obtain ⟨r, n, hread, hscan, hcut, hroot, hden⟩ := readTree_of_scanned (scans_plain hd)
    refine ⟨d.render, r, n, by rw [Heap.render, Heap.view_of_plain hd]; rfl, hread, hscan, hcut, hroot, ?_⟩
    intro c m
    refine ⟨sizeOf d, fun fuel hfuel => ?_⟩
    obtain ⟨v', m', heval, hb, hstays⟩ := eval_denotes c hden hfuel m
    exact ⟨v', m', heval, hb.sink, hstays _ fun _ _ hr => hr⟩
  · intro s
    have hend := Scans.finish (p := Position.origin.advanceAll (Quoted.encode s.toList)) (.closed .nil)
    have htoken := Scans.token (p := .origin) (q := .origin) .nil (lexeme_encode s.toList) (by simp) rfl hend
    rw [List.nil_append, List.append_nil] at htoken
    exact ⟨⟨_, _, scan_eq_of_scans htoken⟩, Quoted.decode_encode _⟩

def nestedHeap : Heap where
  objects := #[.str, .list #[some (.int Int64.minValue), some (.bool true)],
    .list #[none, some (.str 0 "a\"b\\;(é)\n"), some (.list 1)]]
  owners := #[1, 1, 1]

theorem text_reads_back_nested :
    ∃ d, nestedHeap.Plain (some (.list 2)) d ∧
      ∃ (text : String) (r : Reading) (n : Node), nestedHeap.render (some (.list 2)) = some text ∧
        readTree text.toList = .ok r ∧ r.cut = none ∧ r.root.children = [n] ∧
        ∃ enough v' m', (⟨⟨n, []⟩, none⟩ : Code).eval enough n {} = .ok v' m' ∧ m'.heap.Plain v' d := by
  have hinner : nestedHeap.Plain (some (.list 1)) (.list [.int Int64.minValue, .bool true]) := by
    refine .list rfl rfl ?_
    intro i v d hv hd
    match i with
    | 0 => cases hv; cases hd; exact .int _
    | 1 => cases hv; cases hd; exact .bool _
    | _ + 2 => simp at hd
  have houter : nestedHeap.Plain (some (.list 2))
      (.list [.null, .str "a\"b\\;(é)\n", .list [.int Int64.minValue, .bool true]]) := by
    refine .list rfl rfl ?_
    intro i v d hv hd
    match i with
    | 0 => cases hv; cases hd; exact .null
    | 1 => cases hv; cases hd; exact .str _ _
    | 2 => cases hv; cases hd; exact hinner
    | _ + 3 => simp at hd
  obtain ⟨⟨text, r, n, htext, hread, -, hcut, hroot, heval⟩, -⟩ := text_reads_back houter
  obtain ⟨enough, hfuel⟩ := heval ⟨⟨n, []⟩, none⟩ {}
  obtain ⟨v', m', heval, -, hd⟩ := hfuel enough (Nat.le_refl _)
  exact ⟨_, houter, text, r, n, htext, hread, hcut, hroot, enough, v', m', heval, hd⟩

end Lisplet
