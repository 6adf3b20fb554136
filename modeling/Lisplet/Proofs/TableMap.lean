import Lisplet.Proofs.Bare.Operations
import Mathlib.Data.List.Nodup

/-!
# Tables as maps

A table is followed through any number of changes, beside a plain list of pairs in
which a present key keeps its place, a new one comes last and an erased one goes.
The table, also as a column of keys beside a column of values, always shows the
pairs, and no key stands in it twice.
-/

namespace Lisplet

/-! ## The entry under a text -/

namespace Table

variable {t : Table} {text : String} {front back : List Entry} {e : Entry}

def Lacks (t : Table) (text : String) : Prop := ∀ e ∈ t.entries.toList, e.key.text ≠ text

/-- The first entry under a text, with the entries before and behind it. -/
structure FirstAt (t : Table) (text : String) (front : List Entry) (e : Entry) (back : List Entry) :
    Prop where
  split : t.entries.toList = front ++ e :: back
  key : e.key.text = text
  before : ∀ x ∈ front, x.key.text ≠ text

theorem lacks_or_firstAt (t : Table) (text : String) :
    t.Lacks text ∨ ∃ front e back, t.FirstAt text front e back := by
  cases h : t.entries.toList.find? (·.key.text == text) with
  | none => exact .inl (by simpa [Lacks] using h)
  | some e =>
    obtain ⟨hkey, front, back, hsplit, hbefore⟩ := List.find?_eq_some_iff_append.mp h
    exact .inr ⟨front, e, back, hsplit, by simpa using hkey, by simpa using hbefore⟩

theorem Lacks.position? (h : t.Lacks text) : t.position? text = none := by
  rw [Table.position?, Array.findIdx?_eq_none_iff]
  intro e he
  simpa using h e (by simpa using he)

theorem FirstAt.position? (h : t.FirstAt text front e back) :
    t.position? text = some front.length := by
  have harray : t.entries = (front ++ e :: back).toArray := by rw [← h.split]
  have hfront : front.findIdx? (·.key.text == text) = none := by simpa using h.before
  simp [Table.position?, harray, List.findIdx?_append, hfront, List.findIdx?_cons, h.key]

theorem Lacks.find? (h : t.Lacks text) : t.find? text = none := by
  simp [Table.find?, h.position?]

theorem FirstAt.find? (h : t.FirstAt text front e back) : t.find? text = some e := by
  simp [Table.find?, h.position?, ← Array.getElem?_toList, h.split]

theorem Lacks.set {key : Key} (h : t.Lacks key.text) (v : Option Value) :
    (t.set key v).entries.toList = t.entries.toList ++ [⟨key, v⟩] := by
  simp [Table.set, h.position?]

theorem FirstAt.set {key : Key} (h : t.FirstAt key.text front e back) (v : Option Value) :
    (t.set key v).entries.toList = front ++ { e with value := v } :: back := by
  simp [Table.set, h.position?, h.split, List.modify_eq_take_cons_drop]

theorem Lacks.erase (h : t.Lacks text) : t.erase text = t := by
  simp [Table.erase, h.position?]

theorem FirstAt.erase (h : t.FirstAt text front e back) :
    (t.erase text).entries.toList = front ++ back := by
  simp [Table.erase, h.position?, h.split, List.eraseIdx_append_of_length_le]

end Table

/-! ## Lists of pairs -/

abbrev Pairs := List (String × Option Value)

namespace Pairs

def keys (ps : Pairs) : List String := ps.map Prod.fst

def put (ps : Pairs) (text : String) (v : Option Value) : Pairs :=
  if text ∈ ps.keys then ps.map fun p => if p.1 = text then (text, v) else p else ps ++ [(text, v)]

def drop (ps : Pairs) (text : String) : Pairs := ps.filter fun p => p.1 != text

theorem keys_put (ps : Pairs) (text : String) (v : Option Value) :
    (ps.put text v).keys = if text ∈ ps.keys then ps.keys else ps.keys ++ [text] := by
  unfold put
  by_cases h : text ∈ ps.keys
  · rw [if_pos h, if_pos h, keys, keys, List.map_map]
    apply List.map_congr_left
    intro p _
    by_cases hp : p.1 = text <;> simp [hp]
  · rw [if_neg h, if_neg h]
    simp [keys]

theorem keys_drop (ps : Pairs) (text : String) : (ps.drop text).keys = ps.keys.filter (· != text) := by
  simp [drop, keys, List.filter_map, Function.comp_def]

section
variable {ps : Pairs} {text : String} (h : text ∉ ps.keys)
include h

theorem fst_ne {p : String × Option Value} (hp : p ∈ ps) : p.1 ≠ text := by
  rintro rfl
  exact h (List.mem_map_of_mem hp)

theorem put_new (v : Option Value) : ps.put text v = ps ++ [(text, v)] := if_neg h

theorem drop_new : ps.drop text = ps :=
  List.filter_eq_self.mpr fun _ hp => bne_iff_ne.mpr (fst_ne h hp)

theorem map_new (v : Option Value) : (ps.map fun p => if p.1 = text then (text, v) else p) = ps := by
  conv => rhs; rw [← List.map_id ps]
  apply List.map_congr_left
  intro p hp
  exact if_neg (fst_ne h hp)

end

section
variable {front back : Pairs} {text : String} {old : Option Value}
  (h : (keys (front ++ (text, old) :: back)).Nodup)
include h

theorem not_mem_of_nodup : text ∉ keys front ∧ text ∉ keys back := by
  rw [keys, List.map_append, List.map_cons, List.nodup_middle, List.nodup_cons, List.mem_append, not_or] at h
  exact h.1

theorem put_present (v : Option Value) :
    put (front ++ (text, old) :: back) text v = front ++ (text, v) :: back := by
  obtain ⟨hfront, hback⟩ := not_mem_of_nodup h
  rw [put, if_pos (by simp [keys]), List.map_append, List.map_cons, map_new hfront, map_new hback,
    if_pos rfl]

theorem drop_present : drop (front ++ (text, old) :: back) text = front ++ back := by
  obtain ⟨hfront, hback⟩ := not_mem_of_nodup h
  have hfilter := drop_new hfront
  have hfilter' := drop_new hback
  unfold drop at *
  simp [hfilter, hfilter']

end

theorem lookup_eq_none_iff {ps : Pairs} {text : String} : ps.lookup text = none ↔ text ∉ ps.keys := by
  simp only [List.lookup_eq_none_iff, bne_iff_ne, keys, List.mem_map, not_exists, not_and]
  exact ⟨fun h p hp he => h p hp he.symm, fun h p hp he => h p hp he.symm⟩

theorem lookup_eq_some_iff {ps : Pairs} (h : ps.keys.Nodup) {text : String} {v : Option Value} :
    ps.lookup text = some v ↔ (text, v) ∈ ps := by
  rw [List.lookup_eq_some_iff]
  constructor
  · rintro ⟨front, back, rfl, -⟩
    simp
  · intro hmem
    obtain ⟨front, back, rfl⟩ := List.mem_iff_append.mp hmem
    refine ⟨front, back, rfl, fun p hp => ?_⟩
    rw [bne_comm, bne_iff_ne]
    exact fst_ne (not_mem_of_nodup h).1 hp

theorem lookup_middle {front : Pairs} {text : String} (h : text ∉ front.keys) (v : Option Value)
    (back : Pairs) (text' : String) :
    List.lookup text' (front ++ (text, v) :: back) =
      if text' = text then some v else List.lookup text' (front ++ back) := by
  rw [List.lookup_append, List.lookup_append]
  by_cases he : text' = text
  · subst he
    simp [lookup_eq_none_iff.mpr h]
  · have hbeq : (text' == text) = false := beq_false_of_ne he
    simp [List.lookup_cons, he, hbeq]

end Pairs

/-! ## Tables show pairs -/

def Entry.pair (e : Entry) : String × Option Value := (e.key.text, e.value)

namespace Table

variable {t : Table} {text : String} {front back : List Entry} {e : Entry}

theorem toList_of_entries {es : List Entry} (h : t.entries.toList = es) : t.toList = es.map Entry.pair := by
  rw [← h]
  rfl

theorem Lacks.not_mem_keys (h : t.Lacks text) : text ∉ Pairs.keys t.toList := by
  simpa [Pairs.keys, toList, Lacks] using h

theorem FirstAt.toList_eq (h : t.FirstAt text front e back) :
    t.toList = front.map Entry.pair ++ (text, e.value) :: back.map Entry.pair := by
  simp [toList_of_entries h.split, Entry.pair, h.key]

theorem get?_eq_lookup (t : Table) (text : String) : t.get? text = t.toList.lookup text := by
  rw [get?]
  obtain h | ⟨front, e, back, h⟩ := t.lacks_or_firstAt text
  · rw [h.find?, Option.map_none, Pairs.lookup_eq_none_iff.mpr h.not_mem_keys]
  · rw [h.find?, Option.map_some, eq_comm, List.lookup_eq_some_iff]
    refine ⟨_, _, h.toList_eq, fun p hp => ?_⟩
    obtain ⟨x, hx, rfl⟩ := List.mem_map.mp hp
    exact bne_iff_ne.mpr (h.before x hx).symm

end Table

/-! ## Changes -/

inductive Change
  | set (key : Key) (value : Option Value)
  | erase (text : String)

namespace Change

def onTable (t : Table) : Change → Table
  | set key value => t.set key value
  | erase text => t.erase text

def onPairs (ps : Pairs) : Change → Pairs
  | set key value => ps.put key.text value
  | erase text => ps.drop text

def onColumns (c : Bare.Columns) : Change → Option Bare.Columns
  | set key value => c.set key value
  | erase text => c.erase text

theorem nodup_onPairs {ps : Pairs} (h : ps.keys.Nodup) (change : Change) :
    (change.onPairs ps).keys.Nodup := by
  cases change with
  | set key v =>
    rw [onPairs, Pairs.keys_put]
    split
    · exact h
    · rename_i hnew
      rw [← List.concat_eq_append]
      exact h.concat hnew
  | erase text =>
    rw [onPairs, Pairs.keys_drop]
    exact h.filter _

theorem toList_onTable {t : Table} (h : (Pairs.keys t.toList).Nodup) (change : Change) :
    (change.onTable t).toList = change.onPairs t.toList := by
  cases change with
  | set key v =>
    obtain hnew | ⟨front, e, back, hat⟩ := t.lacks_or_firstAt key.text
    · rw [onTable, onPairs, Pairs.put_new hnew.not_mem_keys, Table.toList_of_entries (hnew.set v)]
      simp [Table.toList_of_entries rfl, Entry.pair]
    -- a known key keeps its place and gets the new value
    · rw [hat.toList_eq] at h
      rw [onTable, onPairs, hat.toList_eq, Pairs.put_present h, Table.toList_of_entries (hat.set v)]
      simp [Entry.pair, hat.key]
  | erase text =>
    obtain hnew | ⟨front, e, back, hat⟩ := t.lacks_or_firstAt text
    · rw [onTable, onPairs, Pairs.drop_new hnew.not_mem_keys, hnew.erase]
    · rw [hat.toList_eq] at h
      rw [onTable, onPairs, hat.toList_eq, Pairs.drop_present h, Table.toList_of_entries hat.erase]
      simp

theorem onColumns_columnsOf (t : Table) (change : Change) :
    change.onColumns (Bare.columnsOf t) = some (Bare.columnsOf (change.onTable t)) := by
  cases change with
  | set key v => exact Bare.set_columnsOf t key v
  | erase text => exact Bare.erase_columnsOf t text

end Change

/-! ## Runs of changes -/

section
variable (changes : List Change)

def Table.after : Table := changes.foldl Change.onTable {}

def Pairs.after : Pairs := changes.foldl Change.onPairs []

def Bare.Columns.after : Option Bare.Columns := changes.foldlM Change.onColumns {}

theorem foldl_onTable {t : Table} (h : (Pairs.keys t.toList).Nodup) :
    (changes.foldl Change.onTable t).toList = changes.foldl Change.onPairs t.toList ∧
    (Pairs.keys (changes.foldl Change.onTable t).toList).Nodup := by
  induction changes generalizing t with
  | nil => exact ⟨rfl, h⟩
  | cons change changes ih =>
    have hstep := change.toList_onTable h
    have hnodup := change.nodup_onPairs h
    rw [← hstep] at hnodup
    simpa [hstep] using ih hnodup

theorem foldlM_onColumns (t : Table) :
    changes.foldlM Change.onColumns (Bare.columnsOf t) =
      some (Bare.columnsOf (changes.foldl Change.onTable t)) := by
  induction changes generalizing t with
  | nil => rfl
  | cons change changes ih =>
    rw [List.foldlM_cons, change.onColumns_columnsOf]
    exact ih (change.onTable t)

theorem columns_after : Bare.Columns.after changes = some (Bare.columnsOf (Table.after changes)) := by
  have hempty : Bare.columnsOf {} = {} := by simp [Bare.columnsOf]
  rw [Bare.Columns.after, ← hempty]
  exact foldlM_onColumns changes {}

end

/-! ## Taking an entry out -/

def Bare.Columns.take (c : Bare.Columns) (text : String) :
    Option (Option (Option Value) × Bare.Columns) :=
  match c.position? text with
  | none => some (none, c)
  | some i =>
    if i < c.keys.size then
      c.values[i]?.map fun v => (some v, ⟨c.keys.eraseIdxIfInBounds i, c.values.eraseIdxIfInBounds i⟩)
    else none

theorem take_columnsOf (t : Table) (text : String) :
    (Bare.columnsOf t).take text = some (t.get? text, Bare.columnsOf (t.erase text)) := by
  have hget := Bare.get_columnsOf t text
  have herase := Bare.erase_columnsOf t text
  unfold Bare.Columns.get at hget
  unfold Bare.Columns.erase at herase
  unfold Bare.Columns.take
  cases hi : (Bare.columnsOf t).position? text with
  | none => simp_all
  | some i =>
    have hlt : i < t.entries.size := Bare.position?_lt (by rwa [Bare.position?_columnsOf] at hi)
    simp_all [Bare.columnsOf]

/-- After any changes of an empty table its two columns are equally long, no key stands twice in
them, and the value taken out with a key is the one found under it. What the table shows is the
list of pairs after the same changes, where an absent value is not a missing key. -/
theorem tables_are_ordered_maps (changes : List Change) :
    let t := Table.after changes
    let ps := Pairs.after changes
    (∃ c, Bare.Columns.after changes = some c ∧ c.table = t ∧ c.keys.size = c.values.size ∧
      (c.keys.toList.map Key.text).Nodup ∧
      ∀ text, c.get text = some (ps.lookup text) ∧
        ∃ c', c.take text = some (ps.lookup text, c') ∧ c.erase text = some c') ∧
    t.toList = ps ∧ t.size = ps.length ∧ t.isEmpty = ps.isEmpty ∧
    ∀ text, t.get? text = ps.lookup text ∧
      (∀ v, t.get? text = some v ↔ (text, v) ∈ ps) ∧ (t.get? text = none ↔ text ∉ ps.keys) := by
  intro t ps
  obtain ⟨hpairs, hnodup⟩ : t.toList = ps ∧ (Pairs.keys t.toList).Nodup :=
    foldl_onTable changes (t := {}) List.nodup_nil
  have hget (text : String) : t.get? text = ps.lookup text := by rw [← hpairs, Table.get?_eq_lookup]
  refine ⟨⟨Bare.columnsOf t, columns_after changes, Bare.table_columnsOf t, ?_, ?_, fun text => ?_⟩,
    hpairs, ?_, ?_, fun text => ⟨hget text, ?_, ?_⟩⟩
  · simp [Bare.columnsOf]
  · simpa [Bare.columnsOf, Pairs.keys, Table.toList, Function.comp_def] using hnodup
  · rw [← hget]
    exact ⟨Bare.get_columnsOf t text, _, take_columnsOf t text, Bare.erase_columnsOf t text⟩
  · simp [← hpairs, Table.toList, Table.size]
  · simp [← hpairs, Table.toList, Table.isEmpty]
  · intro v
    rw [hget, Pairs.lookup_eq_some_iff (hpairs ▸ hnodup)]
  · rw [hget, Pairs.lookup_eq_none_iff]

end Lisplet
