import Lisplet.Proofs.Resolution
import Lisplet.Proofs.Scanning

/-!
# Dumps tell trees apart

A dump can be read back: whatever stands behind the dump of a node, its text says
where it ends and what node it is, up to spans and to the kind of its bindings. An
atom has no delimiter in it, so that it cannot hold its own end, and a string literal
ends where its quotes say.
-/

namespace Lisplet

/-! ## Numbers -/

theorem toDigits_append_inj {i j : Nat} {c d : Char} {rest rest' : List Char} (hc : c.isDigit = false)
    (hd : d.isDigit = false)
    (h : Nat.toDigits 10 i ++ c :: rest = Nat.toDigits 10 j ++ d :: rest') :
    i = j ∧ c :: rest = d :: rest' := by
  have hdigits {n : Nat} : ∀ e ∈ Nat.toDigits 10 n, e.isDigit = true :=
    fun e => Nat.isDigit_of_mem_toDigits (by decide) (by decide)
  have htake := congrArg (List.takeWhile Char.isDigit) h
  rw [List.takeWhile_append_of_pos hdigits, List.takeWhile_append_of_pos hdigits,
    List.takeWhile_cons_of_neg (by simp [hc]), List.takeWhile_cons_of_neg (by simp [hd]),
    List.append_nil, List.append_nil] at htake
  have hij : i = j := by
    rw [← Nat.ofDigitChars_ten_toDigits (n := i), htake, Nat.ofDigitChars_ten_toDigits]
  subst hij
  exact ⟨rfl, List.append_cancel_left h⟩

/-! ## Leaves -/

def leafEnd (number : Option Nat) (rest : List Char) : List Char :=
  match number with
  | some i => ',' :: ' ' :: 'i' :: 'd' :: '=' :: (Nat.toDigits 10 i ++ ')' :: rest)
  | none => ')' :: rest

def Leaf.number (l : Leaf) : Option Nat := l.binding.map Binding.index

theorem Leaf.dumpOnto_eq (l : Leaf) (rest : List Char) :
    l.dumpOnto rest = "Leaf(token='".toList ++ (l.text.toList ++ '\'' :: leafEnd l.number rest) := by
  have hnone : "')".toList = ['\'', ')'] := rfl
  have hsome : "', id=".toList = ['\'', ',', ' ', 'i', 'd', '='] := rfl
  unfold Leaf.dumpOnto Leaf.number
  cases l.binding with
  | none => simp only [hnone, leafEnd, Option.map_none, List.append_assoc, List.cons_append, List.nil_append]
  | some b => simp only [hsome, leafEnd, Option.map_some, List.append_assoc, List.cons_append, List.nil_append]

theorem leafEnd_inj {i j : Option Nat} {rest rest' : List Char}
    (h : leafEnd i rest = leafEnd j rest') : i = j ∧ rest = rest' := by
  cases i with
  | none =>
    cases j with
    | none => exact ⟨rfl, by simpa [leafEnd] using h⟩
    | some j => simp [leafEnd] at h
  | some i =>
    cases j with
    | none => simp [leafEnd] at h
    | some j =>
      simp only [leafEnd, List.cons.injEq, true_and] at h
      obtain ⟨rfl, hrest⟩ := toDigits_append_inj (by decide) (by decide) h
      exact ⟨rfl, (List.cons.inj hrest).2⟩

theorem LiteralBody.append_inj {body body' rest rest' : List Char} (hb : LiteralBody body)
    (hb' : LiteralBody body') (h : body ++ '"' :: rest = body' ++ '"' :: rest') :
    body = body' ∧ rest = rest' := by
  have hlength := congrArg (literalLength · 0) h
  simp only [literalLength_body hb, literalLength_body hb', literalLength, Except.ok.injEq] at hlength
  obtain ⟨hbody, hrest⟩ := List.append_inj h (by omega)
  exact ⟨hbody, (List.cons.inj hrest).2⟩

/-- What an atom runs into: a quote and, in front of a number, a comma. -/
theorem leafEnd_split (number : Option Nat) (rest : List Char) : ∃ run d after,
    '\'' :: leafEnd number rest = run ++ d :: after ∧ (∀ c ∈ run, isDelimiter c = false) ∧
      isDelimiter d = true ∧ (run = if d = ')' then ['\''] else ['\'', ',']) := by
  cases number with
  | none => exact ⟨['\''], ')', rest, rfl, by simp [isDelimiter, isLayout], by decide, rfl⟩
  | some i => exact ⟨['\'', ','], ' ', _, rfl, by simp [isDelimiter, isLayout], by decide, rfl⟩

theorem atom_append_inj {cs cs' : List Char} (hcs : ∀ c ∈ cs, isDelimiter c = false)
    (hcs' : ∀ c ∈ cs', isDelimiter c = false) {i j : Option Nat} {rest rest' : List Char}
    (h : cs ++ '\'' :: leafEnd i rest = cs' ++ '\'' :: leafEnd j rest') : cs = cs' := by
  obtain ⟨run, d, after, hsplit, hrun, hd, heq⟩ := leafEnd_split i rest
  obtain ⟨run', d', after', hsplit', hrun', hd', heq'⟩ := leafEnd_split j rest'
  have hplain : ∀ c ∈ cs ++ run, isDelimiter c = false :=
    fun c hc => (List.mem_append.mp hc).elim (hcs c) (hrun c)
  have hplain' : ∀ c ∈ cs' ++ run', isDelimiter c = false :=
    fun c hc => (List.mem_append.mp hc).elim (hcs' c) (hrun' c)
  rw [hsplit, hsplit', ← List.append_assoc, ← List.append_assoc] at h
  -- up to the first delimiter both sides are an atom and the start of a leaf's end
  have htake := congrArg (List.takeWhile fun c => !isDelimiter c) h
  rw [takeWhile_of_endsAtom hplain (by simpa [EndsAtom] using hd),
    takeWhile_of_endsAtom hplain' (by simpa [EndsAtom] using hd')] at htake
  rw [htake] at h
  obtain rfl : d = d' := (List.cons.inj (List.append_cancel_left h)).1
  rw [heq, heq'] at htake
  exact List.append_cancel_right htake

theorem Lexeme.append_inj {kind kind' : TokenKind} {text text' : List Char} (ht : Lexeme kind text)
    (ht' : Lexeme kind' text') {i j : Option Nat} {rest rest' : List Char}
    (h : text ++ '\'' :: leafEnd i rest = text' ++ '\'' :: leafEnd j rest') :
    text = text' ∧ leafEnd i rest = leafEnd j rest' := by
  -- a token shows by its first character what it is
  have hkind : kind = kind' := by
    obtain ⟨c, cs, rfl, -⟩ := ht.head
    obtain ⟨d, ds, rfl, -⟩ := ht'.head
    rw [ht.kind_eq, ht'.kind_eq, (List.cons.inj h).1]
  have htext : text = text' := by
    subst hkind
    cases ht with
    | opening => exact ht'.opening_text.symm
    | closing => exact ht'.closing_text.symm
    | @str body hbody =>
      cases ht' with
      | @str body' hbody' =>
        simp only [List.cons_append, List.cons.injEq, true_and, List.append_assoc, List.nil_append] at h
        rw [(hbody.append_inj hbody' h).1]
    | atom _ hplain =>
      cases ht' with
      | atom _ hplain' => exact atom_append_inj hplain hplain' h
  subst htext
  exact ⟨rfl, (List.cons.inj (List.append_cancel_left h)).2⟩

def Leaf.Scanned (l : Leaf) : Prop := Lexeme l.token.kind l.text.toList

theorem Leaf.dumpOnto_inj {l l' : Leaf} (hl : l.Scanned) (hl' : l'.Scanned) {rest rest' : List Char}
    (h : l.dumpOnto rest = l'.dumpOnto rest') : l.text = l'.text ∧ l.number = l'.number ∧ rest = rest' := by
  rw [Leaf.dumpOnto_eq, Leaf.dumpOnto_eq] at h
  obtain ⟨htext, hend⟩ := Lexeme.append_inj hl hl' (List.append_cancel_left h)
  obtain ⟨hnumber, hrest⟩ := leafEnd_inj hend
  exact ⟨String.toList_inj.mp htext, hnumber, hrest⟩

/-! ## Trees -/

theorem dumpTag_inj {tag tag' : Option Nat} {rest rest' : List Char}
    (h : dumpTag tag ("children=[".toList ++ rest) = dumpTag tag' ("children=[".toList ++ rest')) :
    tag = tag' ∧ rest = rest' := by
  have hid : "id=".toList = ['i', 'd', '='] := rfl
  have hchildren : "children=[".toList = 'c' :: "hildren=[".toList := rfl
  have hcomma : ", ".toList = [',', ' '] := rfl
  cases tag with
  | none =>
    cases tag' with
    | none => exact ⟨rfl, List.append_cancel_left h⟩
    | some j => simp [dumpTag, hid, hchildren] at h
  | some i =>
    cases tag' with
    | none => simp [dumpTag, hid, hchildren] at h
    | some j =>
      simp only [dumpTag, hcomma] at h
      obtain ⟨rfl, hrest⟩ := toDigits_append_inj (by decide) (by decide) (List.append_cancel_left h)
      exact ⟨rfl, List.append_cancel_left (List.cons.inj (List.cons.inj hrest).2).2⟩

namespace Node

mutual

/-- Trees of one shape with the same token texts in the same places, the same numbers of
bindings and the same tags. -/
def Agree : Node → Node → Prop
  | leaf l, leaf l' => l.text = l'.text ∧ l.number = l'.number
  | branch cs _ tag, branch cs' _ tag' => tag = tag' ∧ AgreeAll cs cs'
  | _, _ => False

def AgreeAll : List Node → List Node → Prop
  | [], [] => True
  | n :: ns, n' :: ns' => n.Agree n' ∧ AgreeAll ns ns'
  | _, _ => False

end

def dumpMore (ns : List Node) (rest : List Char) : List Char :=
  match ns with
  | [] => rest
  | n :: ns => ',' :: ' ' :: dumpAllOnto (n :: ns) rest

theorem dumpAllOnto_cons (n : Node) (ns : List Node) (rest : List Char) :
    dumpAllOnto (n :: ns) rest = n.dumpOnto (dumpMore ns rest) := by
  cases ns <;> simp [dumpAllOnto, dumpMore]

theorem dumpAllOnto_of_dumpMore {ns ns' : List Node} {rest rest' : List Char}
    (h : dumpMore ns (']' :: rest) = dumpMore ns' (']' :: rest')) :
    dumpAllOnto ns (']' :: rest) = dumpAllOnto ns' (']' :: rest') := by
  cases ns with
  | nil =>
    cases ns' with
    | nil => exact h
    | cons _ _ => simp [dumpMore] at h
  | cons _ _ =>
    cases ns' with
    | nil => simp [dumpMore] at h
    | cons _ _ => simpa [dumpMore] using h

theorem dumpOnto_head (n : Node) (rest : List Char) :
    (n.dumpOnto rest).head? = some (if n matches .leaf _ then 'L' else 'B') := by
  cases n <;> rfl

theorem dumpOnto_branch (cs : List Node) (span : Span) (tag : Option Nat) (rest : List Char) :
    (branch cs span tag).dumpOnto rest = "Branch(".toList ++
      dumpTag tag ("children=[".toList ++ dumpAllOnto cs (']' :: ')' :: rest)) := rfl

mutual

/-- A dump is read back from its front, whatever stands behind it. -/
theorem dumpOnto_inj : ∀ {n n' : Node} {rest rest' : List Char}, n.All Leaf.Scanned →
    n'.All Leaf.Scanned → n.dumpOnto rest = n'.dumpOnto rest' → n.Agree n' ∧ rest = rest'
  | leaf _, leaf _, _, _, hl, hl', h => by
    obtain ⟨htext, hnumber, hrest⟩ := Leaf.dumpOnto_inj hl hl' h
    exact ⟨⟨htext, hnumber⟩, hrest⟩
  | branch _ _ _, branch _ _ _, _, _, hcs, hcs', h => by
    rw [dumpOnto_branch, dumpOnto_branch] at h
    obtain ⟨htag, hchildren⟩ := dumpTag_inj (List.append_cancel_left h)
    obtain ⟨hagree, hrest⟩ := dumpAllOnto_inj hcs hcs' hchildren
    exact ⟨⟨htag, hagree⟩, (List.cons.inj hrest).2⟩
  | leaf l, branch cs span tag, rest, rest', _, _, h => by
    have hhead := congrArg List.head? h
    simp [dumpOnto_head] at hhead
  | branch cs span tag, leaf l, rest, rest', _, _, h => by
    have hhead := congrArg List.head? h
    simp [dumpOnto_head] at hhead

theorem dumpAllOnto_inj : ∀ {ns ns' : List Node} {rest rest' : List Char}, AllIn Leaf.Scanned ns →
    AllIn Leaf.Scanned ns' → dumpAllOnto ns (']' :: rest) = dumpAllOnto ns' (']' :: rest') →
    AgreeAll ns ns' ∧ rest = rest'
  | [], [], _, _, _, _, h => ⟨trivial, (List.cons.inj h).2⟩
  | n :: ns, n' :: ns', _, _, hns, hns', h => by
    rw [dumpAllOnto_cons, dumpAllOnto_cons] at h
    obtain ⟨hn, hmore⟩ := dumpOnto_inj hns.1 hns'.1 h
    obtain ⟨hmore, hrest⟩ := dumpAllOnto_inj hns.2 hns'.2 (dumpAllOnto_of_dumpMore hmore)
    exact ⟨⟨hn, hmore⟩, hrest⟩
  | [], n :: ns, _, _, _, _, h => by
    have hhead := congrArg List.head? h
    rw [dumpAllOnto_cons, dumpOnto_head] at hhead
    cases n <;> simp [dumpAllOnto] at hhead
  | n :: ns, [], _, _, _, _, h => by
    have hhead := congrArg List.head? h
    rw [dumpAllOnto_cons, dumpOnto_head] at hhead
    cases n <;> simp [dumpAllOnto] at hhead

end

mutual

theorem Agree.dumpOnto_eq : ∀ {n n' : Node}, n.Agree n' → ∀ rest, n.dumpOnto rest = n'.dumpOnto rest
  | leaf l, leaf l', h, rest => by
    obtain ⟨htext, hnumber⟩ := h
    change l.dumpOnto rest = l'.dumpOnto rest
    rw [Leaf.dumpOnto_eq, Leaf.dumpOnto_eq, htext, hnumber]
  | branch cs _ tag, branch cs' _ tag', h, rest => by
    obtain ⟨htag, hcs⟩ := h
    rw [dumpOnto_branch, dumpOnto_branch, htag, hcs.dumpAllOnto_eq]
  | leaf _, branch _ _ _, h, _ => h.elim
  | branch _ _ _, leaf _, h, _ => h.elim

theorem AgreeAll.dumpAllOnto_eq : ∀ {ns ns' : List Node}, AgreeAll ns ns' → ∀ rest,
    dumpAllOnto ns rest = dumpAllOnto ns' rest
  | [], [], _, _ => rfl
  | [n], [n'], h, rest => h.1.dumpOnto_eq rest
  | n :: m :: ns, n' :: m' :: ns', h, rest => by
    simp only [dumpAllOnto, AgreeAll.dumpAllOnto_eq h.2, h.1.dumpOnto_eq]
  | [], _ :: _, h, _ => h.elim
  | _ :: _, [], h, _ => h.elim
  | [_], _ :: _ :: _, h, _ => h.2.elim
  | _ :: _ :: _, [_], h, _ => h.2.elim

end

/-- The trees that there are to dump: those read from a text, resolved or not. -/
inductive Obtained : Node → Prop
  | read {source : List Char} {r : Reading} : readTree source = .ok r → Obtained r.root
  | resolved {source : List Char} {r : Reading} {p : Program} : readTree source = .ok r →
      resolve r.root = .ok p → Obtained p.root

theorem scanned_of_readTree {source : List Char} {r : Reading} (h : readTree source = .ok r) :
    r.root.All Leaf.Scanned :=
  readTree_all_tokens h fun _ ht => lexeme_of_mem_scan ht

theorem Obtained.scanned {n : Node} (h : n.Obtained) : n.All Leaf.Scanned := by
  cases h with
  | read hr => exact scanned_of_readTree hr
  | resolved hr hp =>
    obtain ⟨functions, hres⟩ := resolve_spec hp (readTree_all (fun _ _ => rfl) hr)
    refine hres.alike.all_of_all (fun l l' hl hs => ?_) (scanned_of_readTree hr)
    unfold Leaf.Scanned Leaf.text
    rw [hl.token]
    exact hs

/-- The dump of a tree says all of it but for spans, the kinds of bindings and what
follows from token texts. No text in a token can pass for the end of its leaf. -/
theorem dump_eq_iff_agree {n n' : Node} (h : n.Obtained) (h' : n'.Obtained) :
    n.dump = n'.dump ↔ n.Agree n' := by
  unfold dump
  rw [String.ofList_inj]
  exact ⟨fun heq => (dumpOnto_inj h.scanned h'.scanned heq).1, fun hagree => hagree.dumpOnto_eq []⟩

def mimicry : List Char := "(defun (main) (return \"', id=0), Leaf(token='\"))".toList

theorem dump_eq_iff_agree_mimicry :
    ∃ (r : Reading) (p : Program), readTree mimicry = .ok r ∧ resolve r.root = .ok p ∧
      r.root.Obtained ∧ p.root.Obtained ∧ r.root.dump ≠ p.root.dump ∧ ¬ r.root.Agree p.root := by
  have hdumps : ((readTree mimicry).toOption.bind fun r => (resolve r.root).toOption.map fun p =>
      decide (r.root.dump = p.root.dump)) = some false := by decide +kernel
  cases hr : readTree mimicry with
  | error e => rw [hr] at hdumps; cases hdumps
  | ok r =>
    cases hp : resolve r.root with
    | error e => rw [hr] at hdumps; simp [Except.toOption, hp] at hdumps
    | ok p =>
      have hne : r.root.dump ≠ p.root.dump := by
        rw [hr] at hdumps
        simpa [Except.toOption, hp] using hdumps
      exact ⟨r, p, rfl, hp, .read hr, .resolved hr hp, hne,
        fun hagree => hne ((dump_eq_iff_agree (.read hr) (.resolved hr hp)).mpr hagree)⟩

end Node

end Lisplet
