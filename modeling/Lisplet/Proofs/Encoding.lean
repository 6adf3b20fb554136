import Lisplet.Span

/-!
# Texts as bytes

A text is stored as the UTF-8 bytes of its characters. An ASCII character is one
byte below `0x80`. Any other character starts with a byte from `0xC0` on and goes
on with continuation bytes, and all of these lie above the ASCII range. So the
places where one character ends and the next one starts can be told from the
bytes alone.
-/

namespace Lisplet

def utf8 (cs : List Char) : List UInt8 := cs.flatMap String.utf8EncodeChar

@[simp] theorem utf8_nil : utf8 [] = [] := rfl

@[simp] theorem utf8_cons (c : Char) (cs : List Char) :
    utf8 (c :: cs) = String.utf8EncodeChar c ++ utf8 cs := rfl

@[simp] theorem utf8_append (a b : List Char) : utf8 (a ++ b) = utf8 a ++ utf8 b :=
  List.flatMap_append

theorem prefix_of_utf8 {pat cs : List Char} (h : utf8 pat <+: utf8 cs) : pat <+: cs := by
  obtain ⟨rest, hrest⟩ := h
  apply List.isPrefix_of_utf8Encode_append_eq_utf8Encode rest.toByteArray
  rw [List.utf8Encode, List.utf8Encode, ← List.toByteArray_append]
  exact congrArg List.toByteArray hrest

theorem utf8_injective {cs ds : List Char} (h : utf8 cs = utf8 ds) : cs = ds := by
  have hcs : cs <+: ds := prefix_of_utf8 (h ▸ List.prefix_rfl)
  have hds : ds <+: cs := prefix_of_utf8 (h ▸ List.prefix_rfl)
  exact hcs.eq_of_length (Nat.le_antisymm hcs.length_le hds.length_le)

def ascii (c : Char) : UInt8 := UInt8.ofNat c.toNat

def isContinuation (b : UInt8) : Bool := b &&& 0xC0 == 0x80

/-! ## The bytes of one character -/

theorem toNat_ascii {c : Char} (hc : c.toNat < 0x80) : (ascii c).toNat = c.toNat := by
  rw [ascii, UInt8.toNat_ofNat']
  omega

theorem ascii_inj {c d : Char} (hc : c.toNat < 0x80) (hd : d.toNat < 0x80) :
    ascii c = ascii d ↔ c = d := by
  rw [← UInt8.toNat_inj, toNat_ascii hc, toNat_ascii hd, Char.toNat_inj]

theorem ne_ascii {b : UInt8} (hb : 0x80 ≤ b.toNat) {c : Char} (hc : c.toNat < 0x80) :
    b ≠ ascii c := by
  intro h
  rw [h, toNat_ascii hc] at hb
  omega

theorem continuation_iff (b : UInt8) : isContinuation b = true ↔ 0x80 ≤ b.toNat ∧ b.toNat < 0xC0 := by
  have table : ∀ i : Fin 256, isContinuation (UInt8.ofNat i) = true ↔ 0x80 ≤ i.val ∧ i.val < 0xC0 := by
    decide +kernel
  have := table ⟨b.toNat, b.toNat_lt⟩
  rwa [UInt8.ofNat_toNat] at this

theorem encode_cases (c : Char) :
    (c.toNat < 0x80 ∧ String.utf8EncodeChar c = [ascii c]) ∨
    (0x80 ≤ c.toNat ∧ ∃ lead tail, String.utf8EncodeChar c = lead :: tail ∧ 0xC0 ≤ lead.toNat ∧
      ∀ b ∈ tail, isContinuation b = true) := by
  have mark : ∀ n : Nat, isContinuation (UInt8.ofNat (n % 64 + 0x80)) = true := by
    intro n
    rw [continuation_iff, UInt8.toNat_ofNat']
    omega
  have hlead : ∀ n k : Nat, 0xC0 ≤ k → n + k < 256 → 0xC0 ≤ (UInt8.ofNat (n + k)).toNat := by
    intro n k hk hlt
    rw [UInt8.toNat_ofNat']
    omega
  have hc : c.val.toNat = c.toNat := rfl
  unfold String.utf8EncodeChar
  rw [hc]
  by_cases h1 : c.toNat ≤ 0x7f
  · exact .inl ⟨by omega, by simp [h1, ascii]⟩
  refine .inr ⟨by omega, ?_⟩
  by_cases h2 : c.toNat ≤ 0x7ff
  · refine ⟨_, _, by simp only [h1, h2, if_true, if_false]; rfl, hlead _ _ (by decide) (by omega), ?_⟩
    simp only [List.mem_cons, List.not_mem_nil, or_false, forall_eq, mark]
  by_cases h3 : c.toNat ≤ 0xffff
  · refine ⟨_, _, by simp only [h1, h2, h3, if_true, if_false]; rfl, hlead _ _ (by decide) (by omega), ?_⟩
    simp only [List.mem_cons, List.not_mem_nil, or_false, forall_eq_or_imp, forall_eq, mark, and_self]
  · refine ⟨_, _, by simp only [h1, h2, h3, if_false]; rfl, hlead _ _ (by decide) (by omega), ?_⟩
    simp only [List.mem_cons, List.not_mem_nil, or_false, forall_eq_or_imp, forall_eq, mark, and_self]

theorem encode_ascii {c : Char} (hc : c.toNat < 0x80) : String.utf8EncodeChar c = [ascii c] := by
  rcases encode_cases c with ⟨_, he⟩ | ⟨hn, _⟩
  · exact he
  · omega

theorem encode_high {c : Char} (hc : ¬ c.toNat < 0x80) {b : UInt8}
    (hb : b ∈ String.utf8EncodeChar c) : 0x80 ≤ b.toNat := by
  rcases encode_cases c with ⟨hn, _⟩ | ⟨_, lead, tail, he, hlead, htail⟩
  · exact absurd hn hc
  · rw [he] at hb
    rcases List.mem_cons.mp hb with rfl | hb
    · omega
    · exact ((continuation_iff b).mp (htail b hb)).1

theorem encode_tail {c : Char} {b : UInt8} {bs : List UInt8}
    (he : String.utf8EncodeChar c = b :: bs) : ∀ x ∈ bs, isContinuation x = true := by
  rcases encode_cases c with ⟨_, hc⟩ | ⟨_, lead, tail, hc, _, htail⟩
  · rw [hc] at he
    cases he
    exact fun x hx => nomatch hx
  · rw [hc] at he
    cases he
    exact htail

/-! ## Cutting a text at a byte offset -/

namespace Span

theorem dropBytes_utf8 (a b : List Char) : dropBytes (utf8 a).length (a ++ b) = some b := by
  induction a with
  | nil => rw [utf8_nil, List.length_nil, List.nil_append, dropBytes.eq_1]
  | cons c a ih =>
    have hlen : (utf8 (c :: a)).length = c.utf8Size + (utf8 a).length := by simp
    obtain ⟨n, hn⟩ : ∃ n, (utf8 (c :: a)).length = n + 1 :=
      ⟨(utf8 (c :: a)).length - 1, by have := c.utf8Size_pos; omega⟩
    rw [hn, List.cons_append, dropBytes, if_pos (by omega)]
    rw [show n + 1 - c.utf8Size = (utf8 a).length by omega]
    exact ih

theorem takeBytes_utf8 (a b : List Char) : takeBytes (utf8 a).length (a ++ b) = some a := by
  simp [takeBytes, dropBytes_utf8]

/-- A span whose two ends stand between characters covers what is between them. -/
theorem slice_utf8 {s : Span} {a b c : List Char} (hstart : s.start.offset = (utf8 a).length)
    (hstop : s.stop.offset = (utf8 (a ++ b)).length) : s.slice (a ++ b ++ c) = some b := by
  have hsize : s.size = (utf8 b).length := by
    rw [size, hstart, hstop, utf8_append, List.length_append]
    omega
  rw [slice, if_pos (by rw [hstart, hstop, utf8_append, List.length_append]; omega), hstart, hsize,
    List.append_assoc, dropBytes_utf8, Option.bind_some, takeBytes_utf8]

end Span

/-! ## Positions -/

namespace Position

theorem offset_advance (p : Position) (c : Char) :
    (p.advance c).offset = p.offset + (String.utf8EncodeChar c).length := by
  unfold advance
  split
  · rename_i h
    rw [h]
    rfl
  · simp

theorem offset_advanceAll (p : Position) (cs : List Char) :
    (p.advanceAll cs).offset = p.offset + (utf8 cs).length := by
  induction cs generalizing p with
  | nil => rfl
  | cons c cs ih =>
    have hstep : p.advanceAll (c :: cs) = (p.advance c).advanceAll cs := rfl
    rw [hstep, ih, offset_advance, utf8_cons, List.length_append]
    omega

/-- The position behind one byte: a continuation byte takes no column. -/
def bump (p : Position) (b : UInt8) : Position :=
  if b = ascii '\n' then ⟨p.offset + 1, p.line + 1, 1⟩
  else if isContinuation b then ⟨p.offset + 1, p.line, p.column⟩
  else ⟨p.offset + 1, p.line, p.column + 1⟩

def bumpAll (p : Position) (bs : List UInt8) : Position := bs.foldl bump p

theorem bumpAll_continuation {bs : List UInt8} (h : ∀ b ∈ bs, isContinuation b = true)
    (p : Position) : p.bumpAll bs = ⟨p.offset + bs.length, p.line, p.column⟩ := by
  induction bs generalizing p with
  | nil => rfl
  | cons b bs ih =>
    have hb := h b List.mem_cons_self
    have hne : b ≠ ascii '\n' := ne_ascii ((continuation_iff b).mp hb).1 (by decide)
    have hstep : p.bumpAll (b :: bs) = (p.bump b).bumpAll bs := rfl
    rw [hstep, ih fun x hx => h x (List.mem_cons_of_mem b hx), bump, if_neg hne, if_pos hb]
    simp only [List.length_cons, Position.mk.injEq, and_true]
    omega

/-- Byte by byte a character takes as much room as it does at once. -/
theorem bumpAll_encode (p : Position) (c : Char) :
    p.bumpAll (String.utf8EncodeChar c) = p.advance c := by
  rcases encode_cases c with ⟨hc, he⟩ | ⟨hc, lead, tail, he, hlead, htail⟩
  · have hb : isContinuation (ascii c) = false := by
      rw [← Bool.not_eq_true, continuation_iff, toNat_ascii hc]
      omega
    have hsize : c.utf8Size = 1 := by rw [← String.length_utf8EncodeChar, he]; rfl
    rw [he]
    change p.bump (ascii c) = p.advance c
    simp only [bump, advance, ascii_inj hc (show '\n'.toNat < 0x80 by decide), hb, hsize,
      Bool.false_eq_true, if_false]
  -- of several bytes only the leading one moves the column
  · have hb : isContinuation lead = false := by
      rw [← Bool.not_eq_true, continuation_iff]
      omega
    have hne : c ≠ '\n' := by
      rintro rfl
      exact absurd hc (by decide)
    have hsize : c.utf8Size = tail.length + 1 := by rw [← String.length_utf8EncodeChar, he]; rfl
    have hbump : p.bump lead = ⟨p.offset + 1, p.line, p.column + 1⟩ := by
      simp only [bump, ne_ascii (show 0x80 ≤ lead.toNat by omega) (show '\n'.toNat < 0x80 by decide),
        hb, Bool.false_eq_true, if_false]
    rw [he]
    change (p.bump lead).bumpAll tail = p.advance c
    rw [bumpAll_continuation htail, hbump, advance, if_neg hne, hsize]
    simp only [Position.mk.injEq, and_true]
    omega

end Position

end Lisplet
