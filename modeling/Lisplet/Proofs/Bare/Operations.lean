import Lisplet.Eval.Step
import Lisplet.Proofs.Bare.Reader

/-!
# Bare operations on values

The operations of the language with their partial steps as they are made: integer
division wants a divisor other than zero, a text is cut at a byte offset, and a
table is a column of keys beside a column of values, of which the second is read
at a place found in the first. `Bare.applyOperation_eq` and `Bare.store_eq` say
that none of these steps is ever without a result.
-/

namespace Lisplet.Bare

/-! ## Division -/

def div? (a b : Int64) : Option Int64 := if b = 0 then none else some (a / b)

def rem? (a b : Int64) : Option Int64 := if b = 0 then none else some (a % b)

def floorMod (a b : Int64) : Option Int64 :=
  (rem? a b).map fun r => if r ≠ 0 ∧ (decide (r < 0) ≠ decide (b < 0)) then r + b else r

def div (l r : Option Value) : Option (Option Value) :=
  match Builtin.operands? l r with
  | some (.ints a b) => if b = 0 then some none else (div? a b).map fun n => some (.int n)
  | some (.floats x y) => some (some (.float (x / y)))
  | none => some none

def rem (l r : Option Value) : Option (Option Value) :=
  match Builtin.operands? l r with
  | some (.ints a b) => if b = 0 then some none else (floorMod a b).map fun n => some (.int n)
  | some (.floats x y) => some (some (.float (Number.floorModFloat x y)))
  | none => some none

theorem div_eq (l r : Option Value) : div l r = some (Builtin.div l r) := by
  unfold div Builtin.div
  cases Builtin.operands? l r with
  | none => rfl
  | some o =>
    cases o with
    | floats x y => rfl
    | ints a b =>
      by_cases hb : b = 0
      · simp only [if_pos hb]
      · simp only [if_neg hb, div?, Option.map_some]

theorem rem_eq (l r : Option Value) : rem l r = some (Builtin.rem l r) := by
  unfold rem Builtin.rem
  cases Builtin.operands? l r with
  | none => rfl
  | some o =>
    cases o with
    | floats x y => rfl
    | ints a b =>
      by_cases hb : b = 0
      · simp only [if_pos hb]
      · simp only [if_neg hb, floorMod, rem?, Option.map_some, Number.floorMod]

/-! ## Occurrences -/

/-- The least offset, counted from `i`, at which `pat` stands in `bs`. -/
def findFrom (pat : List UInt8) (i : Nat) : List UInt8 → Option Nat
  | [] => if pat.isEmpty then some i else none
  | b :: bs => if pat.isPrefixOf (b :: bs) then some i else findFrom pat (i + 1) bs

/-- The number of characters before the first occurrence of `pat` in `cs`: the
bytes are searched, and the text is cut where they were found. -/
def occurrence (pat cs : List Char) : Option (Option Nat) :=
  match findFrom (utf8 pat) 0 (utf8 cs) with
  | none => some none
  | some i => (Span.takeBytes i cs).map fun before => some before.length

theorem utf8_mono {pat cs : List Char} (h : pat <+: cs) : utf8 pat <+: utf8 cs := by
  obtain ⟨rest, rfl⟩ := h
  rw [utf8_append]
  exact List.prefix_append _ _

/-- Nothing is found inside a character: a text does not start with the bytes that
go on with one. -/
theorem findFrom_continuation {p : Char} {ps : List Char} {bs : List UInt8}
    (h : ∀ b ∈ bs, isContinuation b = true) (i : Nat) (rest : List UInt8) :
    findFrom (utf8 (p :: ps)) i (bs ++ rest) = findFrom (utf8 (p :: ps)) (i + bs.length) rest := by
  induction bs generalizing i with
  | nil => rfl
  | cons b bs ih =>
    have hno : ¬ (utf8 (p :: ps)).isPrefixOf (b :: (bs ++ rest)) = true := by
      intro hp
      have hb := h b List.mem_cons_self
      obtain ⟨tail, htail⟩ := List.isPrefixOf_iff_prefix.mp hp
      rw [utf8_cons] at htail
      rcases encode_cases p with ⟨hlow, he⟩ | ⟨_, lead, _, he, hlead, _⟩
      · rw [he, List.append_assoc] at htail
        have hfirst : ascii p = b := (List.cons.inj htail).1
        rw [← hfirst, continuation_iff, toNat_ascii hlow] at hb
        omega
      · rw [he, List.append_assoc] at htail
        have hfirst : lead = b := (List.cons.inj htail).1
        rw [← hfirst, continuation_iff] at hb
        omega
    rw [List.cons_append, findFrom, if_neg hno, ih fun x hx => h x (List.mem_cons_of_mem b hx)]
    congr 1
    simp only [List.length_cons]
    omega

/-- Bytes are found where characters are. -/
theorem findFrom_utf8 (pat cs : List Char) (i j : Nat) :
    (Text.occurrenceFrom pat j cs = none → findFrom (utf8 pat) i (utf8 cs) = none) ∧
    (∀ k, Text.occurrenceFrom pat j cs = some k → ∃ a b, cs = a ++ b ∧ k = j + a.length ∧
      findFrom (utf8 pat) i (utf8 cs) = some (i + (utf8 a).length)) := by
  induction cs generalizing i j with
  | nil =>
    cases pat with
    | nil =>
      constructor
      · intro h
        cases h
      · intro k hk
        cases hk
        exact ⟨[], [], rfl, rfl, rfl⟩
    | cons p ps =>
      refine ⟨fun _ => ?_, fun k hk => by cases hk⟩
      rw [utf8_nil, findFrom, utf8_cons]
      cases he : String.utf8EncodeChar p with
      | nil => exact absurd he String.utf8EncodeChar_ne_nil
      | cons b bs => rfl
  | cons c cs ih =>
    rw [Text.occurrenceFrom]
    cases he : String.utf8EncodeChar c with
    | nil => exact absurd he String.utf8EncodeChar_ne_nil
    | cons b bs =>
      have hbytes : utf8 (c :: cs) = b :: (bs ++ utf8 cs) := by rw [utf8_cons, he, List.cons_append]
      by_cases hp : pat.isPrefixOf (c :: cs) = true
      · have hb : (utf8 pat).isPrefixOf (b :: (bs ++ utf8 cs)) = true := by
          rw [← hbytes]
          exact List.isPrefixOf_iff_prefix.mpr (utf8_mono (List.isPrefixOf_iff_prefix.mp hp))
        rw [if_pos hp, hbytes, findFrom, if_pos hb]
        constructor
        · intro h
          cases h
        · intro k hk
          cases hk
          exact ⟨[], c :: cs, rfl, rfl, rfl⟩
      · have hb : ¬ (utf8 pat).isPrefixOf (b :: (bs ++ utf8 cs)) = true := by
          rw [← hbytes]
          intro h
          exact hp (List.isPrefixOf_iff_prefix.mpr (prefix_of_utf8 (List.isPrefixOf_iff_prefix.mp h)))
        have hskip : findFrom (utf8 pat) (i + 1) (bs ++ utf8 cs) =
            findFrom (utf8 pat) (i + 1 + bs.length) (utf8 cs) := by
          cases pat with
          | nil => exact absurd rfl hp
          | cons p ps => exact findFrom_continuation (encode_tail he) (i + 1) (utf8 cs)
        obtain ⟨ihnone, ihsome⟩ := ih (i + 1 + bs.length) (j + 1)
        rw [if_neg hp, hbytes, findFrom, if_neg hb, hskip]
        refine ⟨ihnone, ?_⟩
        intro k hk
        obtain ⟨x, y, rfl, rfl, hfound⟩ := ihsome k hk
        refine ⟨c :: x, y, rfl, ?_, ?_⟩
        · rw [List.length_cons]
          omega
        · rw [hfound, utf8_cons, he, List.length_append, List.length_cons]
          congr 1
          omega

theorem occurrence_eq (pat cs : List Char) : occurrence pat cs = some (Text.occurrence pat cs) := by
  obtain ⟨hnone, hsome⟩ := findFrom_utf8 pat cs 0 0
  rw [Text.occurrence_eq, occurrence]
  cases hk : Text.occurrenceFrom pat 0 cs with
  | none => rw [hnone hk]
  | some k =>
    obtain ⟨a, b, rfl, hlen, hfound⟩ := hsome k hk
    rw [Nat.zero_add] at hlen hfound
    rw [hfound]
    dsimp only
    rw [Span.takeBytes_utf8, hlen]
    rfl

/-! ## Tables -/

structure Columns where
  keys : Array Key := #[]
  values : Array (Option Value) := #[]

namespace Columns

def position? (c : Columns) (text : String) : Option Nat :=
  c.keys.findIdx? fun key => key.text == text

def get (c : Columns) (text : String) : Option (Option (Option Value)) :=
  match c.position? text with
  | none => some none
  | some i => c.values[i]?.map some

def set (c : Columns) (key : Key) (value : Option Value) : Option Columns :=
  match c.position? key.text with
  | some i => if i < c.values.size then some { c with values := c.values.setIfInBounds i value } else none
  | none => some ⟨c.keys.push key, c.values.push value⟩

def erase (c : Columns) (text : String) : Option Columns :=
  match c.position? text with
  | some i =>
    if i < c.keys.size ∧ i < c.values.size then
      some ⟨c.keys.eraseIdxIfInBounds i, c.values.eraseIdxIfInBounds i⟩
    else none
  | none => some c

/-- The columns that a sequence of changes can lead to. -/
inductive Built : Columns → Prop
  | empty : Built {}
  | set {c c' : Columns} (key : Key) (value : Option Value) (built : Built c)
      (changed : c.set key value = some c') : Built c'
  | erase {c c' : Columns} (text : String) (built : Built c)
      (changed : c.erase text = some c') : Built c'

theorem position?_lt {c : Columns} {text : String} {i : Nat} (h : c.position? text = some i) :
    i < c.keys.size := by
  rw [position?, Array.findIdx?_eq_some_iff_getElem] at h
  exact h.1

theorem size_set {c c' : Columns} {key : Key} {value : Option Value}
    (h : c.keys.size = c.values.size) (hc : c.set key value = some c') :
    c'.keys.size = c'.values.size := by
  unfold set at hc
  split at hc
  · split at hc
    · cases hc
      simpa using h
    · cases hc
  · cases hc
    simpa using h

theorem size_erase {c c' : Columns} {text : String} (h : c.keys.size = c.values.size)
    (hc : c.erase text = some c') : c'.keys.size = c'.values.size := by
  unfold erase at hc
  split at hc
  · split at hc
    · rename_i hi
      cases hc
      simp [Array.eraseIdxIfInBounds, hi, h]
    · cases hc
  · cases hc
    exact h

theorem Built.size_eq {c : Columns} (h : c.Built) : c.keys.size = c.values.size := by
  induction h with
  | empty => rfl
  | set key value _ changed ih => exact size_set ih changed
  | erase text _ changed ih => exact size_erase ih changed

/-- However a table came about, a key's place is there in the other column too. -/
theorem Built.isSome {c : Columns} (h : c.Built) (key : Key) (value : Option Value) :
    (c.get key.text).isSome ∧ (c.set key value).isSome ∧ (c.erase key.text).isSome := by
  have hsize := h.size_eq
  unfold Columns.get Columns.set Columns.erase
  cases hi : c.position? key.text with
  | none => exact ⟨rfl, rfl, rfl⟩
  | some i =>
    have hkey := position?_lt hi
    have hvalue : i < c.values.size := by omega
    simp [hkey, hvalue]

def table (c : Columns) : Table := ⟨c.keys.zipWith Entry.mk c.values⟩

end Columns

def columnsOf (t : Table) : Columns := ⟨t.entries.map Entry.key, t.entries.map Entry.value⟩

theorem table_columnsOf (t : Table) : (columnsOf t).table = t := by
  rw [columnsOf, Columns.table, Array.zipWith_map, Array.zipWith_self]
  exact congrArg Table.mk (Array.map_id _)

theorem position?_columnsOf (t : Table) (text : String) :
    (columnsOf t).position? text = t.position? text := by
  rw [Columns.position?, columnsOf, Array.findIdx?_map]
  rfl

theorem position?_lt {t : Table} {text : String} {i : Nat} (h : t.position? text = some i) :
    i < t.entries.size := by
  rw [Table.position?, Array.findIdx?_eq_some_iff_getElem] at h
  exact h.1

theorem get_columnsOf (t : Table) (text : String) : (columnsOf t).get text = some (t.get? text) := by
  rw [Columns.get, position?_columnsOf, Table.get?, Table.find?]
  cases hi : t.position? text with
  | none => rfl
  | some i =>
    have hlt := position?_lt hi
    simp [columnsOf, hlt]

theorem set_columnsOf (t : Table) (key : Key) (v : Option Value) :
    (columnsOf t).set key v = some (columnsOf (t.set key v)) := by
  rw [Columns.set, position?_columnsOf, Table.set]
  cases hi : t.position? key.text with
  | none => simp [columnsOf]
  | some i =>
    have hlt : i < (columnsOf t).values.size := by
      rw [columnsOf, Array.size_map]
      exact position?_lt hi
    dsimp only
    rw [if_pos hlt]
    simp only [columnsOf, Option.some.injEq, Columns.mk.injEq]
    constructor
    · apply Array.ext_getElem?
      intro j
      rw [Array.getElem?_map, Array.getElem?_map, Array.getElem?_modify]
      split
      · rw [Option.map_map]
        rfl
      · rfl
    · apply Array.ext_getElem?
      intro j
      by_cases hj : i = j
      · subst hj
        simp [Array.getElem_modify_self, position?_lt hi]
      · simp [Array.getElem?_modify, hj]

theorem erase_columnsOf (t : Table) (text : String) :
    (columnsOf t).erase text = some (columnsOf (t.erase text)) := by
  rw [Columns.erase, position?_columnsOf, Table.erase]
  cases hi : t.position? text with
  | none => rfl
  | some i =>
    have hlt := position?_lt hi
    dsimp only
    rw [if_pos (by simpa [columnsOf] using hlt)]
    simp only [columnsOf, Option.some.injEq, Columns.mk.injEq]
    constructor
    · apply Array.toList_inj.mp
      simp [List.eraseIdx_eq_take_drop_succ]
    · apply Array.toList_inj.mp
      simp [List.eraseIdx_eq_take_drop_succ]

/-! ## Reading and writing collections -/

def toInt : Option Value → Option (Option Value)
  | some (.str _ s) => (readInt s.toList).map fun n => n.map .int
  | v => some (Builtin.toInt v)

def select (h : Heap) : Option Value → Option Value → Option (Option Value ⊕ String)
  | some (.table r), some (.str _ key) =>
    ((columnsOf (h.tableAt r)).get key).map fun v => .inl v.join
  | c, key => some (Builtin.select h c key)

def getItem (h : Heap) (c key : Option Value) : Option (Option Value × Heap) :=
  (select h c key).map fun
    | .inl v => (v, h.retain v)
    | .inr text =>
      let (v, h) := h.newStr text
      (some v, h)

def indexOf (h : Heap) : Option Value → Option Value → Option (Option Value)
  | some (.str _ s), some (.str _ t) =>
    (occurrence t.toList s.toList).map fun n => n.map Builtin.count
  | c, v => some (Builtin.indexOf h c v)

def putEntry (h : Heap) (t : Table) (key : Key) (value : Option Value) : Option (Table × Heap) :=
  ((columnsOf t).get key.text).bind fun old =>
    ((columnsOf t).set key value).map fun c =>
      match old with
      | some old => (c.table, h.releaseRefs (key.ref :: Value.refs old))
      | none => (c.table, h)

def setEntry (h : Heap) (r : Ref) (key : Key) (v : Option Value) : Option Heap :=
  ((columnsOf (h.tableAt r)).get key.text).bind fun old =>
    ((columnsOf (h.tableAt r)).set key v).map fun c =>
      match old with
      | some old => (h.modifyTable r fun _ => c.table).releaseRefs (key.ref :: Value.refs old)
      | none => h.modifyTable r fun _ => c.table

def setItem (h : Heap) (c key v : Option Value) : Option Heap :=
  match c, key with
  | some (.table r), some (.str k text) => setEntry (h.retainRef k) r ⟨k, text⟩ v
  | c, key => some (Builtin.setItem h c key v)

def removeElement (h : Heap) (r : Ref) (i : Nat) : Option Heap :=
  if i < (h.itemsAt r).size then
    (h.itemsAt r)[i]?.map fun old =>
      (h.modifyList r fun items => items.eraseIdxIfInBounds i).release old
  else some h

def removeEntry (h : Heap) (r : Ref) (text : String) : Option Heap :=
  ((columnsOf (h.tableAt r)).erase text).map fun c =>
    match (h.tableAt r).find? text with
    | some e => (h.modifyTable r fun _ => c.table).releaseRefs e.refs
    | none => h

def remove (h : Heap) (c key : Option Value) : Option Heap :=
  match c, key with
  | some (.list r), key =>
    match Builtin.position? key with
    | some i => removeElement h r i
    | none => some h
  | some (.table r), some (.str _ text) => removeEntry h r text
  | c, key => some (Builtin.remove h c key)

theorem toInt_eq (v : Option Value) : toInt v = some (Builtin.toInt v) := by
  unfold toInt
  split
  · rw [readInt_eq]
    rfl
  · rfl

theorem select_eq (h : Heap) (c key : Option Value) :
    select h c key = some (Builtin.select h c key) := by
  unfold select
  split
  · rw [get_columnsOf]
    rfl
  · rfl

theorem getItem_eq (h : Heap) (c key : Option Value) :
    getItem h c key = some (Builtin.getItem h c key) := by
  unfold getItem Builtin.getItem
  rw [select_eq]
  cases Builtin.select h c key <;> rfl

theorem indexOf_eq (h : Heap) (c v : Option Value) :
    indexOf h c v = some (Builtin.indexOf h c v) := by
  unfold indexOf
  split
  · rw [occurrence_eq]
    rfl
  · rfl

theorem putEntry_eq (h : Heap) (t : Table) (key : Key) (v : Option Value) :
    putEntry h t key v = some (h.putEntry t key v) := by
  unfold putEntry Heap.putEntry
  rewrite [get_columnsOf, set_columnsOf, Option.bind_some, Option.map_some, table_columnsOf]
  rfl

theorem modifyTable_tableAt (h : Heap) (r : Ref) (f : Table → Table) :
    (h.modifyTable r fun _ => f (h.tableAt r)) = h.modifyTable r f := by
  unfold Heap.modifyTable Heap.tableAt
  congr 1
  apply Array.ext_getElem?
  intro j
  rw [Array.getElem?_modify, Array.getElem?_modify]
  by_cases hj : r = j
  · subst hj
    rw [if_pos rfl, if_pos rfl]
    cases h.objects[r]? with
    | none => rfl
    | some o => cases o <;> rfl
  · rw [if_neg hj, if_neg hj]

theorem setEntry_eq (h : Heap) (r : Ref) (key : Key) (v : Option Value) :
    setEntry h r key v = some (Builtin.setEntry h r key v) := by
  unfold setEntry Builtin.setEntry
  rewrite [get_columnsOf, set_columnsOf, Option.bind_some, Option.map_some, table_columnsOf,
    modifyTable_tableAt h r fun t => t.set key v]
  rfl

theorem setItem_eq (h : Heap) (c key v : Option Value) :
    setItem h c key v = some (Builtin.setItem h c key v) := by
  unfold setItem
  split
  · rw [setEntry_eq]
    rfl
  · rfl

theorem removeElement_eq (h : Heap) (r : Ref) (i : Nat) :
    removeElement h r i = some (Builtin.removeElement h r i) := by
  unfold removeElement Builtin.removeElement
  by_cases hi : i < (h.itemsAt r).size
  · rw [if_pos hi, Array.getElem?_eq_getElem hi]
    rfl
  · rw [if_neg hi, Array.getElem?_eq_none (Nat.le_of_not_lt hi)]

theorem removeEntry_eq (h : Heap) (r : Ref) (text : String) :
    removeEntry h r text = some (Builtin.removeEntry h r text) := by
  unfold removeEntry Builtin.removeEntry
  rewrite [erase_columnsOf, Option.map_some, table_columnsOf,
    modifyTable_tableAt h r fun t => t.erase text]
  rfl

theorem remove_eq (h : Heap) (c key : Option Value) :
    remove h c key = some (Builtin.remove h c key) := by
  unfold remove
  split
  · rw [Builtin.remove]
    cases Builtin.position? key with
    | none => rfl
    | some i => exact removeElement_eq h _ i
  · exact removeEntry_eq h _ _
  · rfl

/-! ## All operations -/

def applyOperation (k : Keyword) (vs : List (Option Value)) (h : Heap) :
    Option (Option (Option Value) × Heap) :=
  match k, vs with
  | .div, [l, r] => (div l r).map fun v => (some v, h)
  | .mod, [l, r] => (rem l r).map fun v => (some v, h)
  | .item, [c, key] => (getItem h c key).map fun (v, h) => (some v, h)
  | .index, [c, v] => (indexOf h c v).map fun v => (some v, h)
  | .int, [v] => (toInt v).map fun v => (some v, h)
  | k, vs => some (Lisplet.applyOperation k vs h)

def store (k : Keyword) (vs : List (Option Value)) (h : Heap) : Option Heap :=
  match k, vs with
  | .setItem, [c, key, v] => (setItem h c key v).map fun h => h.releaseAll [c, key]
  | .remove, [c, key] => (remove h c key).map fun h => h.releaseAll [c, key]
  | k, vs => some (Lisplet.store k vs h)

theorem applyOperation_eq (k : Keyword) (vs : List (Option Value)) (h : Heap) :
    applyOperation k vs h = some (Lisplet.applyOperation k vs h) := by
  unfold applyOperation
  split
  · rw [div_eq]
    rfl
  · rw [rem_eq]
    rfl
  · rw [getItem_eq]
    rfl
  · rw [indexOf_eq]
    rfl
  · rw [toInt_eq]
    rfl
  · rfl

theorem store_eq (k : Keyword) (vs : List (Option Value)) (h : Heap) :
    store k vs h = some (Lisplet.store k vs h) := by
  unfold store
  split
  · rw [setItem_eq]
    rfl
  · rw [remove_eq]
    rfl
  · rfl

end Lisplet.Bare
