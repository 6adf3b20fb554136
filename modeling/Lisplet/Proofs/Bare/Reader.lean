import Lisplet.Proofs.Bare.Lexer
import Lisplet.Tree.Reader

/-!
# Reading with bare slices

The stages between the bytes of a source and its tree, with every slice of bytes
and every access by index as it is made: outside its bounds it has no result.
What a slice leaves of a text has to start at a character.
-/

namespace Lisplet.Bare

/-! ## Bytes to text -/

/-- The text of a source. The valid front of invalid bytes is taken as a slice. -/
def decodeSource (bytes : ByteArray) : Option (Except ReadError (List Char)) :=
  match Utf8.verified bytes with
  | (cs, n) =>
    if n = bytes.size then some (.ok cs)
    else if n ≤ bytes.size then
      some (.error (.invalidUtf8 (.point (Position.origin.advanceAll cs))))
    else none

theorem verifiedFrom_le (bytes : ByteArray) {i : Nat} (acc : List Char) (hi : i ≤ bytes.size) :
    (Utf8.verifiedFrom bytes i acc).2 ≤ bytes.size := by
  fun_induction Utf8.verifiedFrom bytes i acc with
  | case1 i acc c hc ih => exact ih (ByteArray.le_size_of_utf8DecodeChar?_eq_some hc)
  | case2 i acc hc => exact hi

theorem decodeSource_eq (bytes : ByteArray) :
    decodeSource bytes = some (Lisplet.decodeSource bytes) := by
  have hle := verifiedFrom_le bytes [] (Nat.zero_le _)
  unfold decodeSource Lisplet.decodeSource Utf8.decode Utf8.verified
  generalize Utf8.verifiedFrom bytes 0 [] = r at hle ⊢
  obtain ⟨cs, n⟩ := r
  dsimp only at hle ⊢
  by_cases hn : n = bytes.size
  · rewrite [if_pos hn, if_pos hn]
    rfl
  · rewrite [if_neg hn, if_pos hle, if_neg hn]
    rfl

/-! ## Integer literals -/

/-- An unsigned literal. The zero of an octal literal is cut off as one byte. -/
def magnitude : List Char → Option (Option Nat)
  | '0' :: 'x' :: cs => some (Number.numeral 16 cs)
  | '0' :: 'X' :: cs => some (Number.numeral 16 cs)
  | cs =>
    if 1 < (utf8 cs).length ∧ cs.head? = some '0' then (Span.dropBytes 1 cs).map (Number.numeral 8)
    else some (Number.numeral 10 cs)

/-- Whether a minus sign stands in front, and what follows the sign. The sign is
recognised by its byte and cut off as one. -/
def splitSign (b : UInt8) (cs : List Char) : Option (Bool × List Char) :=
  if b = ascii '-' then (Span.dropBytes 1 cs).map fun rest => (true, rest)
  else if b = ascii '+' then (Span.dropBytes 1 cs).map fun rest => (false, rest)
  else some (false, cs)

def readInt (cs : List Char) : Option (Option Int64) :=
  match utf8 cs with
  | [] => some none
  | b :: _ =>
    (splitSign b cs).bind fun (negative, rest) =>
      (magnitude rest).map fun n =>
        n.map fun n => Number.clamp (if negative then -(n : Int) else n)

theorem dropBytes_ascii {c : Char} (hc : c.toNat < 0x80) (cs : List Char) :
    Span.dropBytes 1 (c :: cs) = some cs := by
  have h := Span.dropBytes_utf8 [c] cs
  rw [utf8_cons, encode_ascii hc] at h
  exact h

theorem magnitude_eq (cs : List Char) : magnitude cs = some (Number.magnitude cs) := by
  fun_cases Number.magnitude cs with
  | case1 cs => rfl
  | case2 cs => rfl
  | case3 c cs hx hX =>
    have hlen : 1 < (utf8 ('0' :: c :: cs)).length :=
      Nat.lt_of_lt_of_le (by simp) (length_le_utf8 ('0' :: c :: cs))
    rw [magnitude, if_pos ⟨hlen, rfl⟩, dropBytes_ascii (by decide)]
    · rfl
    · simpa using hx
    · simpa using hX
  | case4 cs hx hX hoctal =>
    have hshort : ¬ (1 < (utf8 cs).length ∧ cs.head? = some '0') := by
      rintro ⟨hlen, hhead⟩
      obtain ⟨rest, rfl⟩ : ∃ rest, cs = '0' :: rest := List.head?_eq_some_iff.mp hhead
      cases rest with
      | nil => exact absurd hlen (by decide)
      | cons c rest => exact hoctal c rest rfl
    rw [magnitude, if_neg hshort]
    · simpa using hx
    · simpa using hX

theorem readInt_eq (cs : List Char) : readInt cs = some (Number.readInt cs) := by
  cases cs with
  | nil => rfl
  | cons c cs =>
    cases he : String.utf8EncodeChar c with
    | nil => exact absurd he String.utf8EncodeChar_ne_nil
    | cons b bs =>
      have hsign : splitSign b (c :: cs) = some (Number.splitSign (c :: cs)) := by
        unfold splitSign
        by_cases hminus : c = '-'
        · subst hminus
          rw [encode_ascii (by decide)] at he
          cases he
          rw [if_pos rfl, dropBytes_ascii (by decide)]
          rfl
        by_cases hplus : c = '+'
        · subst hplus
          rw [encode_ascii (by decide)] at he
          cases he
          rw [if_neg (by decide), if_pos rfl, dropBytes_ascii (by decide)]
          rfl
        · rw [if_neg (lead_ne (by decide) hminus he), if_neg (lead_ne (by decide) hplus he)]
          simp [Number.splitSign, hminus, hplus]
      simp only [readInt, utf8_cons, he, List.cons_append, hsign, Option.bind_some, magnitude_eq,
        Option.map_some, Number.readInt]

/-! ## Leaves -/

def ofSpelling? (text : String) : Option (Option Keyword) :=
  match (Keyword.all.map Keyword.spelling).findIdx? (· == text) with
  | none => some none
  | some i => Keyword.all[i]?.map some

def ofAtom (text : String) : Option LeafKind :=
  if text = "true" then some (.bool true)
  else if text = "false" then some (.bool false)
  else if text = "null" then some .null
  else (readInt text.toList).bind fun
    | some n => some (.int n)
    | none => match Number.readFloat text.toList with
      | some x => some (.float x)
      | none => (ofSpelling? text).map fun
        | some k => .keyword k
        | none => .identifier

def ofToken (t : Token) : Option Leaf :=
  if t.kind = .str then some { token := t, kind := .str (String.ofList (Quoted.decode t.text.toList)) }
  else (ofAtom t.text).map fun kind => { token := t, kind := kind }

theorem ofSpelling?_eq (text : String) : ofSpelling? text = some (Keyword.ofSpelling? text) := by
  have table : ∀ ks : List Keyword,
      (match (ks.map Keyword.spelling).findIdx? (· == text) with
        | none => some none
        | some i => ks[i]?.map some) = some (ks.find? fun k => k.spelling == text) := by
    intro ks
    induction ks with
    | nil => rfl
    | cons k ks ih =>
      rw [List.map_cons, List.findIdx?_cons, List.find?_cons]
      cases hk : k.spelling == text with
      | true => rfl
      | false =>
        rw [← ih]
        cases (ks.map Keyword.spelling).findIdx? (· == text) with
        | none => rfl
        | some i => rfl
  exact table Keyword.all

theorem ofAtom_eq (text : String) : ofAtom text = some (.ofAtom text) := by
  unfold ofAtom LeafKind.ofAtom
  rw [readInt_eq, ofSpelling?_eq, Option.bind_some]
  split
  · rfl
  split
  · rfl
  split
  · rfl
  cases Number.readInt text.toList with
  | some n => rfl
  | none =>
    cases Number.readFloat text.toList with
    | some x => rfl
    | none => cases Keyword.ofSpelling? text <;> rfl

theorem ofToken_eq (t : Token) : ofToken t = some (.ofToken t) := by
  unfold ofToken Leaf.ofToken LeafKind.ofToken
  rw [ofAtom_eq]
  by_cases ht : t.kind = .str
  · simp only [if_pos ht]
  · simp only [if_neg ht]
    rfl

/-! ## Trees -/

def readFrom : List Token → List Node → List OpenForm → Option (Except ReadError (List Node))
  | [], nodes, [] => some (.ok nodes.reverse)
  | [], _, form :: _ => some (.error (.unclosedOpen form.opening))
  | t :: ts, nodes, forms =>
    match t.kind with
    | .opening => readFrom ts [] (⟨nodes, t.span⟩ :: forms)
    | .closing =>
      match forms with
      | [] => some (.error (.unmatchedClose t.span))
      | form :: forms =>
        readFrom ts (.branch nodes.reverse (form.opening.merge t.span) none :: form.before) forms
    | _ => (ofToken t).bind fun l => readFrom ts (.leaf l :: nodes) forms

def readTree (source : List Char) : Option (Except ReadError Reading) :=
  (scan source).bind fun s =>
    (readFrom s.tokens [] []).map fun r => r.map fun nodes =>
      ⟨.branch nodes (Span.merge (.point .origin) s.finish.span) none, s.cut⟩

theorem readFrom_eq (ts : List Token) (nodes : List Node) (forms : List OpenForm) :
    readFrom ts nodes forms = some (Lisplet.readFrom ts nodes forms) := by
  induction ts generalizing nodes forms with
  | nil => cases forms <;> rfl
  | cons t ts ih =>
    unfold readFrom Lisplet.readFrom
    rw [ofToken_eq]
    cases t.kind with
    | opening => exact ih _ _
    | closing =>
      cases forms with
      | nil => rfl
      | cons form forms => exact ih _ _
    | str => exact ih _ _
    | atom => exact ih _ _
    | finish => exact ih _ _

/-- Reading a source never slices or indexes out of bounds. -/
theorem readTree_eq (source : List Char) : readTree source = some (Lisplet.readTree source) := by
  rw [readTree, scan_eq, Option.bind_some, readFrom_eq]
  rfl

end Lisplet.Bare
