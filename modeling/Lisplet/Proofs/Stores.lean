import Lisplet.Proofs.Characters
import Lisplet.Proofs.Owners
import Lisplet.Proofs.TableMap

/-!
# Stores change one object

Whatever is stored or removed, and however objects refer to each other or to
themselves, at most the object that the first operand denotes has other contents
afterwards. Every handle to that object sees the change. Where the operands make no
sense, there is none.
-/

namespace Lisplet

namespace Heap

variable {h h' : Heap} {c : Option Value} {r : Ref} {o o' : Object}

/-! ## Everything else stays -/

/-- Beside `h`, only the object that `c` denotes may have other contents, and every handle
still denotes an object of its kind. -/
structure DiffersAt (h : Heap) (c : Option Value) (h' : Heap) : Prop where
  size : h'.objects.size = h.objects.size
  elsewhere : ∀ r, r ∉ Value.refs c → h'.objects[r]? = h.objects[r]?
  handles : ∀ v, h'.Fits v ↔ h.Fits v

theorem differsAt_of_objects (e : h'.objects = h.objects) : h.DiffersAt c h' :=
  ⟨by rw [e], fun _ _ => by rw [e], fun v => by simp only [Fits, e]⟩

theorem getElem?_replace (ho : h.objects[r]? = some o) (s : Ref) :
    (h.replace r o').objects[s]? = if r = s then some o' else h.objects[s]? := by
  have hlt := (Array.getElem?_eq_some_iff.mp ho).1
  by_cases hrs : r = s
  · subst hrs
    simp [replace, hlt]
  · simp [replace, hrs]

theorem differsAt_of_replace (hr : r ∈ Value.refs c) (ho : h.objects[r]? = some o)
    (hkind : ∀ x : Value, x.Denotes o' ↔ x.Denotes o) (e : h'.objects = (h.replace r o').objects) :
    h.DiffersAt c h' := by
  refine ⟨by simp [e, replace], fun s hs => ?_, fun v => ?_⟩
  · have hne : r ≠ s := by rintro rfl; exact hs hr
    rw [e, getElem?_replace ho, if_neg hne]
  · have hobject (s : Ref) (x : Value) : (∃ p, h'.objects[s]? = some p ∧ x.Denotes p) ↔
        ∃ p, h.objects[s]? = some p ∧ x.Denotes p := by
      rw [e, getElem?_replace ho]
      by_cases hrs : r = s
      · subst hrs
        simp [ho, hkind]
      · simp [hrs]
    simp only [Fits, hobject]

theorem differsAt_of_list {items items' : Array (Option Value)} (ho : h.objects[r]? = some (.list items))
    (e : h'.objects = (h.replace r (.list items')).objects) : h.DiffersAt (some (.list r)) h' := by
  apply differsAt_of_replace (by simp [Value.refs, Value.ref?]) ho _ e
  intro x
  cases x <;> rfl

theorem differsAt_of_table {t t' : Table} (ho : h.objects[r]? = some (.table t))
    (e : h'.objects = (h.replace r (.table t')).objects) : h.DiffersAt (some (.table r)) h' := by
  apply differsAt_of_replace (by simp [Value.refs, Value.ref?]) ho _ e
  intro x
  cases x <;> rfl

/-! ## Shares -/

def Live (h : Heap) (v : Option Value) : Prop := ∀ r ∈ Value.refs v, 0 < h.count r

theorem settle_shared {objects : Array Object} {owners : Array Nat} {k : Nat}
    (hk : owners[r]? = some (k + 2)) : settle objects owners [r] = owners.setIfInBounds r (k + 1) := by
  rw [settle]
  split
  · simp_all
  · simp_all
  · simp_all
  · simp_all [settle]

/-- A share that is taken and given back leaves no trace. -/
theorem release_retain {v : Option Value} (hv : h.Live v) : (h.retain v).release v = h := by
  unfold retain release
  cases hr : v.bind Value.ref? with
  | none => rfl
  | some r =>
    obtain ⟨k, hk, -⟩ := owners_of_live (hv r (by simp [Value.refs, hr]))
    have hmore : (h.owners.modify r (· + 1))[r]? = some (k + 2) := by simp [Array.getElem?_modify, hk]
    simp only [retainRef, releaseRefs, settle_shared hmore]
    rw [modify_eq_set hk, Array.setIfInBounds_setIfInBounds, setIfInBounds_self hk]

/-! ## Operands that make sense -/

/-- There is a place for the key in what `c` denotes: inside a list, or in a table. -/
inductive Takes (h : Heap) : Option Value → Option Value → Prop
  | element {r : Ref} {items : Array (Option Value)} {i : Int64} {n : Nat} :
      h.objects[r]? = some (.list items) → i.toInt = n → n < items.size →
      Takes h (some (.list r)) (some (.int i))
  | entry {r : Ref} {t : Table} {k : Ref} {text : String} :
      h.objects[r]? = some (.table t) → Takes h (some (.table r)) (some (.str k text))

def Handle (h : Heap) (r : Ref) (a : Value) : Prop := a.ref? = some r ∧ h.Fits (some a)

theorem Handle.denotes {a : Value} (ha : h.Handle r a) (ho : h.objects[r]? = some o) : a.Denotes o := by
  obtain ⟨p, hp, hkind⟩ := ha.2 a rfl r ha.1
  obtain rfl : p = o := by simpa [ho] using hp.symm
  exact hkind

theorem Handle.eq_list {items : Array (Option Value)} {a : Value} (ha : h.Handle r a)
    (ho : h.objects[r]? = some (.list items)) : a = .list r := by
  have hkind := ha.denotes ho
  cases a with
  | list s => exact congrArg Value.list (Option.some.inj ha.1)
  | _ => exact hkind.elim

theorem Handle.eq_table {t : Table} {a : Value} (ha : h.Handle r a)
    (ho : h.objects[r]? = some (.table t)) : a = .table r := by
  have hkind := ha.denotes ho
  cases a with
  | table s => exact congrArg Value.table (Option.some.inj ha.1)
  | _ => exact hkind.elim

theorem Takes.of_objects {key : Option Value} (ht : h'.Takes c key) (e : h'.objects = h.objects) :
    h.Takes c key := by
  cases ht with
  | element ho hi hn => exact .element (e ▸ ho) hi hn
  | entry ho => exact .entry (e ▸ ho)

end Heap

/-! ## Tables after a store -/

namespace Table

/-- A value has come to the key: behind all entries, or in the place of the present one. -/
inductive Stored (t : Table) (key : Key) (v : Option Value) (t' : Table) : Prop
  | last : t.Lacks key.text → t'.entries.toList = t.entries.toList ++ [⟨key, v⟩] → Stored t key v t'
  | inPlace {front : List Entry} {e : Entry} {back : List Entry} : t.FirstAt key.text front e back →
      t'.entries.toList = front ++ { e with value := v } :: back → Stored t key v t'

inductive Removed (t : Table) (text : String) (t' : Table) : Prop
  | missing : t.Lacks text → t' = t → Removed t text t'
  | found {front : List Entry} {e : Entry} {back : List Entry} : t.FirstAt text front e back →
      t'.entries.toList = front ++ back → Removed t text t'

variable {t t' : Table}

theorem FirstAt.not_mem_front {text : String} {front back : List Entry} {e : Entry}
    (h : t.FirstAt text front e back) : text ∉ Pairs.keys (front.map Entry.pair) := by
  simpa [Pairs.keys, Entry.pair] using h.before

theorem stored_set (t : Table) (key : Key) (v : Option Value) : t.Stored key v (t.set key v) := by
  obtain hnew | ⟨front, e, back, hat⟩ := t.lacks_or_firstAt key.text
  · exact .last hnew (hnew.set v)
  · exact .inPlace hat (hat.set v)

theorem removed_erase (t : Table) (text : String) : t.Removed text (t.erase text) := by
  obtain hnew | ⟨front, e, back, hat⟩ := t.lacks_or_firstAt text
  · exact .missing hnew hnew.erase
  · exact .found hat hat.erase

theorem Stored.get? {key : Key} {v : Option Value} (h : t.Stored key v t') (text : String) :
    t'.get? text = if text = key.text then some v else t.get? text := by
  rw [get?_eq_lookup, get?_eq_lookup]
  cases h with
  | last hnew he =>
    have hlist : t'.toList = t.toList ++ [(key.text, v)] := by simp [toList, he]
    rw [hlist, Pairs.lookup_middle hnew.not_mem_keys, List.append_nil]
  | @inPlace front e back hat he =>
    have hlist : t'.toList = front.map Entry.pair ++ (key.text, v) :: back.map Entry.pair := by
      simp [toList_of_entries he, Entry.pair, hat.key]
    rw [hlist, hat.toList_eq, Pairs.lookup_middle hat.not_mem_front, Pairs.lookup_middle hat.not_mem_front]
    split <;> rfl

theorem Removed.get?_of_ne {text text' : String} (h : t.Removed text t') (hne : text' ≠ text) :
    t'.get? text' = t.get? text' := by
  cases h with
  | missing _ he => rw [he]
  | found hat he =>
    rw [get?_eq_lookup, get?_eq_lookup, toList_of_entries he, hat.toList_eq,
      Pairs.lookup_middle hat.not_mem_front, if_neg hne, List.map_append]

theorem Removed.get?_self {text : String} (h : t.Removed text t') (hkeys : (Pairs.keys t.toList).Nodup) :
    t'.get? text = none := by
  rw [get?_eq_lookup, Pairs.lookup_eq_none_iff]
  cases h with
  | missing hnew he => rw [he]; exact hnew.not_mem_keys
  | found hat he =>
    rw [hat.toList_eq] at hkeys
    rw [toList_of_entries he]
    simpa [Pairs.keys] using Pairs.not_mem_of_nodup hkeys

end Table

/-! ## Reading -/

namespace Builtin

variable {h h' : Heap} {c key : Option Value} {r : Ref} {items : Array (Option Value)} {t : Table}

/-- A list as it is seen through a handle: element by element, measured and searched. -/
structure ShowsList (h : Heap) (a : Value) (l : List (Option Value)) : Prop where
  object : ∃ r items, a.ref? = some r ∧ h.objects[r]? = some (.list items) ∧ items.toList = l
  item : ∀ (i : Int64) (n : Nat), i.toInt = n → (getItem h (some a) (some (.int i))).1 = l[n]?.join
  length : ∃ k : Int64, length h (some a) = some (.int k) ∧ k.toInt = min (l.length : Int) (2 ^ 63 - 1)
  found : ∀ x (n : Nat), IsLeast {n | ∃ y, l[n]? = some y ∧ equals y x = true} n →
    ∃ k : Int64, indexOf h (some a) x = some (.int k) ∧ k.toInt = min (n : Int) (2 ^ 63 - 1)
  missed : ∀ x, indexOf h (some a) x = none ↔ ∀ y ∈ l, equals y x = false

structure ShowsTable (h : Heap) (a : Value) (t : Table) : Prop where
  object : ∃ r, a.ref? = some r ∧ h.objects[r]? = some (.table t)
  item : ∀ k text, (getItem h (some a) (some (.str k text))).1 = (t.get? text).join
  length : ∃ k : Int64, length h (some a) = some (.int k) ∧ k.toInt = min (t.size : Int) (2 ^ 63 - 1)

theorem getItem_fst_of_select {v : Option Value} (hs : select h c key = .inl v) : (getItem h c key).1 = v := by
  rw [getItem, hs]

theorem equals_none_right (y : Option Value) : equals y none = false := by
  unfold equals
  split <;> simp_all

theorem indexOf_list (ho : h.objects[r]? = some (.list items)) (x : Option Value) :
    indexOf h (some (.list r)) x = (items.findIdx? fun y => equals y x).map count := by
  cases x with
  | none =>
    -- nothing equals an absent needle, not even an absent element
    have hnone : (items.findIdx? fun y => equals y none) = none := by
      rw [Array.findIdx?_eq_none_iff]
      exact fun y _ => equals_none_right y
    rw [hnone]
    rfl
  | some x => rw [indexOf, Heap.itemsAt_list ho]

theorem showsList (ho : h.objects[r]? = some (.list items)) : ShowsList h (.list r) items.toList := by
  refine ⟨⟨r, items, rfl, ho, rfl⟩, fun i n hi => ?_, ?_, fun x n hn => ?_, fun x => ?_⟩
  · apply getItem_fst_of_select
    simp [select, position?_of_eq hi, Heap.itemsAt_list ho]
  · obtain ⟨k, hcount, hk⟩ := toInt_count items.size
    exact ⟨k, by rw [length, Heap.itemsAt_list ho, hcount], by simpa using hk⟩
  · obtain ⟨k, hcount, hk⟩ := toInt_count n
    refine ⟨k, ?_, hk⟩
    obtain ⟨⟨y, hy, heq⟩, hfirst⟩ := hn
    rw [Array.getElem?_toList] at hy
    obtain ⟨hlt, rfl⟩ := Array.getElem?_eq_some_iff.mp hy
    have hfound : (items.findIdx? fun y => equals y x) = some n := by
      rw [Array.findIdx?_eq_some_iff_getElem]
      refine ⟨hlt, heq, fun j hj hjx => ?_⟩
      exact Nat.not_le.mpr hj (hfirst ⟨items[j], by simp [Nat.lt_trans hj hlt], hjx⟩)
    rw [indexOf_list ho, hfound, ← hcount]
    rfl
  · rw [indexOf_list ho, Option.map_eq_none_iff, Array.findIdx?_eq_none_iff]
    simp

theorem tableAt_table (ho : h.objects[r]? = some (.table t)) : h.tableAt r = t := by
  simp [Heap.tableAt, ho]

theorem showsTable (ho : h.objects[r]? = some (.table t)) : ShowsTable h (.table r) t := by
  refine ⟨⟨r, rfl, ho⟩, fun k text => ?_, ?_⟩
  · apply getItem_fst_of_select
    rw [select, tableAt_table ho]
  · obtain ⟨k, hcount, hk⟩ := toInt_count t.size
    exact ⟨k, by rw [length, tableAt_table ho, hcount], hk⟩

def ReadsAlike (h h' : Heap) (a : Option Value) : Prop :=
  (∀ key, (getItem h' a key).1 = (getItem h a key).1) ∧ length h' a = length h a ∧
    ∀ x, indexOf h' a x = indexOf h a x

theorem readsAlike_of_differsAt (hd : h.DiffersAt c h') {a : Option Value}
    (ha : ∀ r ∈ Value.refs a, r ∉ Value.refs c) : ReadsAlike h h' a := by
  have hitems {r : Ref} (hr : r ∈ Value.refs a) : h'.itemsAt r = h.itemsAt r := by
    simp only [Heap.itemsAt, hd.elsewhere r (ha r hr)]
  have htable {r : Ref} (hr : r ∈ Value.refs a) : h'.tableAt r = h.tableAt r := by
    simp only [Heap.tableAt, hd.elsewhere r (ha r hr)]
  have hselect (key : Option Value) : select h' a key = select h a key := by
    unfold select
    split <;> simp_all [Value.refs, Value.ref?]
  refine ⟨fun key => ?_, ?_, fun x => ?_⟩
  · rw [getItem, getItem, hselect]
    split
    · rfl
    · simp only [Heap.newStr, Heap.alloc, hd.size]
  · unfold length
    split <;> simp_all [Value.refs, Value.ref?]
  · unfold indexOf
    split <;> simp_all [Value.refs, Value.ref?]

/-! ## Writing -/

section
variable {i : Int64} {n : Nat} (ho : h.objects[r]? = some (.list items))
include ho

theorem setItem_inside (hi : i.toInt = n) (hn : n < items.size) (v : Option Value) :
    (setItem h (some (.list r)) (some (.int i)) v).objects =
      (h.replace r (.list (items.setIfInBounds n v))).objects := by
  simp [setItem, position?_of_eq hi, setElement, Heap.itemsAt_list ho, hn, Heap.modifyList_eq ho]

theorem remove_inside (hi : i.toInt = n) (hn : n < items.size) :
    (remove h (some (.list r)) (some (.int i))).objects =
      (h.replace r (.list (items.eraseIdxIfInBounds n))).objects := by
  simp [remove, position?_of_eq hi, removeElement, Heap.itemsAt_list ho, hn, Heap.modifyList_eq ho]

theorem push_list (v : Option Value) :
    push h (some (.list r)) v = h.replace r (.list (items.push v)) := by
  simp [push, Heap.modifyList_eq ho]

end

section
variable (ho : h.objects[r]? = some (.table t)) (k : Ref) (text : String)
include ho

theorem setItem_table (v : Option Value) :
    (setItem h (some (.table r)) (some (.str k text)) v).objects =
      (h.replace r (.table (t.set ⟨k, text⟩ v))).objects := by
  -- the share of the key is counted before the table is looked at
  have ho' : (h.retainRef k).objects[r]? = some (.table t) := ho
  simp only [setItem, setEntry, tableAt_table ho', Heap.modifyTable_eq ho']
  split <;> rfl

theorem remove_table :
    (remove h (some (.table r)) (some (.str k text))).objects =
      (h.replace r (.table (t.erase text))).objects := by
  simp only [remove, removeEntry, tableAt_table ho, Heap.modifyTable_eq ho]
  obtain hnew | ⟨front, e, back, hat⟩ := t.lacks_or_firstAt text
  · rw [hnew.find?, hnew.erase]
    exact (Heap.setIfInBounds_self ho).symm
  · rw [hat.find?]
    rfl

end

/-! ## Doing nothing -/

theorem getElem?_of_not_takes (hc : h.Fits (some (.list r))) (hno : ¬ h.Takes (some (.list r)) key) {n : Nat}
    (hn : position? key = some n) : (h.itemsAt r)[n]? = none := by
  obtain ⟨items, ho⟩ := hc.list
  obtain ⟨i, rfl, hi⟩ := exists_of_position? hn
  rw [Heap.itemsAt_list ho, Array.getElem?_eq_none_iff, ← Nat.not_lt]
  exact fun hlt => hno (.element ho hi hlt)

theorem setItem_idle (hc : h.Fits c) (hno : ¬ h.Takes c key) (v : Option Value) :
    setItem h c key v = h.release v := by
  unfold setItem
  split
  · split
    · rename_i i hi
      rw [setElement, getElem?_of_not_takes hc hno hi]
    · rfl
  · obtain ⟨t, ho⟩ := hc.table
    exact absurd (.entry ho) hno
  · rfl

theorem remove_idle (hc : h.Fits c) (hno : ¬ h.Takes c key) : remove h c key = h := by
  unfold remove
  split
  · split
    · rename_i i hi
      rw [removeElement, getElem?_of_not_takes hc hno hi]
    · rfl
  · obtain ⟨t, ho⟩ := hc.table
    exact absurd (.entry ho) hno
  · rfl

theorem push_idle (hc : ∀ r, c ≠ some (.list r)) (v : Option Value) : push h c v = h.release v := by
  unfold push
  split
  · exact absurd rfl (hc _)
  · rfl

/-! ## Stores -/

theorem differsAt_setItem (hc : h.Fits c) (key v : Option Value) : h.DiffersAt c (setItem h c key v) := by
  by_cases hk : h.Takes c key
  · cases hk with
    | element ho hi hn => exact Heap.differsAt_of_list ho (setItem_inside ho hi hn v)
    | entry ho => exact Heap.differsAt_of_table ho (setItem_table ho _ _ v)
  · rw [setItem_idle hc hk]
    exact Heap.differsAt_of_objects (Heap.objects_release h v)

theorem differsAt_remove (hc : h.Fits c) (key : Option Value) : h.DiffersAt c (remove h c key) := by
  by_cases hk : h.Takes c key
  · cases hk with
    | element ho hi hn => exact Heap.differsAt_of_list ho (remove_inside ho hi hn)
    | entry ho => exact Heap.differsAt_of_table ho (remove_table ho _ _)
  · rw [remove_idle hc hk]
    exact Heap.differsAt_of_objects rfl

theorem differsAt_push (hc : h.Fits c) (v : Option Value) : h.DiffersAt c (push h c v) := by
  by_cases hl : ∃ r, c = some (.list r)
  · obtain ⟨r, rfl⟩ := hl
    obtain ⟨items, ho⟩ := hc.list
    exact Heap.differsAt_of_list ho (congrArg Heap.objects (push_list ho v))
  · rw [push_idle (fun r hr => hl ⟨r, hr⟩)]
    exact Heap.differsAt_of_objects (Heap.objects_release h v)

section
variable {a : Value} (ha : h.Handle r a)
include ha

theorem showsList_of_replace {items' : Array (Option Value)} (ho : h.objects[r]? = some (.list items))
    (e : h'.objects = (h.replace r (.list items')).objects) : ShowsList h' a items'.toList := by
  rw [ha.eq_list ho]
  apply showsList
  rw [e, Heap.getElem?_replace ho, if_pos rfl]

theorem showsTable_of_replace {t' : Table} (ho : h.objects[r]? = some (.table t))
    (e : h'.objects = (h.replace r (.table t')).objects) : ShowsTable h' a t' := by
  rw [ha.eq_table ho]
  apply showsTable
  rw [e, Heap.getElem?_replace ho, if_pos rfl]

end

/-- Of all objects, storing, appending and removing change at most the one that the first operand
denotes, and all its handles see the change. Where the operands make no sense the heap stays as it
is, with the share of the value that was handed over given back. -/
theorem stores_change_one_object (h : Heap) (c key v : Option Value) (hc : h.Fits c) :
    let stored := setItem h c key v
    let pushed := push h c v
    let removed := remove h c key
    (∀ h' ∈ [stored, pushed, removed], h.DiffersAt c h' ∧
      ∀ a, (∀ r ∈ Value.refs a, r ∉ Value.refs c) → ReadsAlike h h' a) ∧
    (∀ r items, c = some (.list r) → h.objects[r]? = some (.list items) → ∀ a, h.Handle r a →
      ShowsList h a items.toList ∧ ShowsList pushed a (items.toList ++ [v]) ∧
      ∀ (i : Int64) (n : Nat), key = some (.int i) → i.toInt = n → n < items.size →
        ShowsList stored a (items.toList.set n v) ∧ ShowsList removed a (items.toList.eraseIdx n)) ∧
    (∀ r t k text, c = some (.table r) → h.objects[r]? = some (.table t) → key = some (.str k text) →
      (∃ t', t.Stored ⟨k, text⟩ v t' ∧ (∀ a, h.Handle r a → ShowsTable stored a t') ∧
        ∀ text', t'.get? text' = if text' = text then some v else t.get? text') ∧
      ∃ t', t.Removed text t' ∧ (∀ a, h.Handle r a → ShowsTable removed a t') ∧
        (∀ text', text' ≠ text → t'.get? text' = t.get? text') ∧
        ((Pairs.keys t.toList).Nodup → t'.get? text = none)) ∧
    (¬ h.Takes c key → removed = h ∧ stored = h.release v ∧
      (h.Live v → setItem (h.retain v) c key v = h)) ∧
    ((∀ r, c ≠ some (.list r)) → pushed = h.release v ∧ (h.Live v → push (h.retain v) c v = h)) ∧
    (h.release v).objects = h.objects := by
  intro stored pushed removed
  refine ⟨fun h' hh' => ?_, fun r items hr ho a ha => ?_, fun r t k text hr ho hkey => ?_, fun hno => ?_,
    fun hno => ?_, Heap.objects_release h v⟩
  · have hd : h.DiffersAt c h' := by
      simp only [List.mem_cons, List.not_mem_nil, or_false] at hh'
      obtain rfl | rfl | rfl := hh'
      · exact differsAt_setItem hc key v
      · exact differsAt_push hc v
      · exact differsAt_remove hc key
    exact ⟨hd, fun a ha => readsAlike_of_differsAt hd ha⟩
  · subst hr
    refine ⟨?_, ?_, fun i n hkey hi hn => ?_⟩
    · rw [ha.eq_list ho]
      exact showsList ho
    · rw [← Array.toList_push]
      exact showsList_of_replace ha ho (congrArg Heap.objects (push_list ho v))
    · subst hkey
      rw [← Array.toList_setIfInBounds, ← Array.toList_eraseIdxIfInBounds]
      constructor
      · exact showsList_of_replace ha ho (setItem_inside ho hi hn v)
      · exact showsList_of_replace ha ho (remove_inside ho hi hn)
  -- keys are told apart by their texts, so the references in them play no part
  · subst hr hkey
    have hstored := t.stored_set ⟨k, text⟩ v
    have hremoved := t.removed_erase text
    refine ⟨⟨_, hstored, fun a ha => ?_, hstored.get?⟩, _, hremoved, fun a ha => ?_,
      fun text' hne => hremoved.get?_of_ne hne, hremoved.get?_self⟩
    · exact showsTable_of_replace ha ho (setItem_table ho k text v)
    · exact showsTable_of_replace ha ho (remove_table ho k text)
  · refine ⟨remove_idle hc hno, setItem_idle hc hno v, fun hv => ?_⟩
    have hobjects := Heap.objects_retain h v
    rw [setItem_idle (hc.mono (.of_objects hobjects)) (fun ht => hno (ht.of_objects hobjects)),
      Heap.release_retain hv]
  · refine ⟨push_idle hno v, fun hv => ?_⟩
    rw [push_idle hno, Heap.release_retain hv]

/-- A list that contains itself, shared by a tuple, and stores inside and outside of it. -/
theorem stores_change_one_object_cyclic :
    let h : Heap := ⟨#[.list #[some (.list 0), some (.int 5)], .tuple #[some (.list 0)]], #[3, 1]⟩
    let c := some (.list 0)
    h.Fits c ∧ h.Handle 0 (.list 0) ∧
    ShowsList (setItem h c (some (.int 1)) c) (.list 0) [some (.list 0), some (.list 0)] ∧
    ShowsList (remove h c (some (.int 0))) (.list 0) [some (.int 5)] ∧
    ReadsAlike h (push h c c) (some (.tuple 1)) ∧
    setItem (h.retain c) c (some (.int (-1))) c = h ∧ remove h (some (.tuple 1)) (some (.int 0)) = h := by
  intro h c
  have hlist : h.Fits (some (.list 0)) := by
    intro x hx r hr
    cases hx
    cases hr
    exact ⟨_, rfl, trivial⟩
  have htuple : h.Fits (some (.tuple 1)) := by
    intro x hx r hr
    cases hx
    cases hr
    exact ⟨_, rfl, trivial⟩
  have hself : h.Handle 0 (.list 0) := ⟨rfl, hlist⟩
  have hlive : h.Live c := by
    intro r hr
    obtain rfl : r = 0 := by simpa [c, Value.refs, Value.ref?] using hr
    decide
  have hbefore : ¬ h.Takes (some (.list 0)) (some (.int (-1))) := by
    intro ht
    cases ht with
    | element ho hi hn => cases hi
  have hfixed : ¬ h.Takes (some (.tuple 1)) (some (.int 0)) := by
    intro ht
    cases ht
  obtain ⟨-, hset, -⟩ := stores_change_one_object h c (some (.int 1)) c hlist
  obtain ⟨hframe, hremove, -⟩ := stores_change_one_object h c (some (.int 0)) c hlist
  obtain ⟨-, -, -, hidle, -⟩ := stores_change_one_object h c (some (.int (-1))) c hlist
  obtain ⟨-, -, -, hidle', -⟩ := stores_change_one_object h (some (.tuple 1)) (some (.int 0)) none htuple
  refine ⟨hlist, hself, ?_, ?_, ?_, (hidle hbefore).2.2 hlive, (hidle' hfixed).1⟩
  · exact ((hset 0 _ rfl rfl _ hself).2.2 1 1 rfl rfl (by decide)).1
  · exact ((hremove 0 _ rfl rfl _ hself).2.2 0 0 rfl rfl (by decide)).2
  · exact (hframe _ (by simp)).2 _ (by simp [c, Value.refs, Value.ref?])

end Builtin

end Lisplet
