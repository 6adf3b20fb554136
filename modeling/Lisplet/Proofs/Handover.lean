import Lisplet.Proofs.Owners

/-!
# What operations take over and give back

An operation on the heap takes some values over and gives others back, and has
nothing to do with any other owner. `Turns` says so, and composes: the built-in
operations, table entries and stores are put together from sharing, letting go,
making and changing objects.
-/

namespace Lisplet

namespace Heap

/-- The heap is in order if the values `vs` are owned from outside, beside `n r`
other owners of each object `r`. -/
def Owned (h : Heap) (vs : List (Option Value)) (n : Ref → Nat) : Prop :=
  (∀ v ∈ vs, h.Fits v) ∧ h.Sound fun r => owns vs r + n r

/-- Whoever owns `vs` in `h` owns `vs'` in `h'` instead, and nobody else notices. -/
def Turns (h : Heap) (vs : List (Option Value)) (h' : Heap) (vs' : List (Option Value)) : Prop :=
  ∀ n, h.Owned vs n → h.Le h' ∧ h'.Owned vs' n

section
variable {h h' h'' : Heap} {us vs vs' vs'' ws : List (Option Value)} {n : Ref → Nat}

theorem Owned.perm (ho : h.Owned vs n) (hp : vs.Perm ws) : h.Owned ws n :=
  ⟨fun v hv => ho.1 v (hp.mem_iff.mpr hv), ho.2.congr fun r => by rw [owns_perm hp]⟩

theorem Owned.live {v : Option Value} {r : Ref} (ho : h.Owned vs n) (hv : v ∈ vs)
    (hr : r ∈ Value.refs v) : 0 < h.count r := by
  have := owns_pos hv hr
  rw [ho.2.count]
  omega

theorem Turns.refl (h : Heap) (vs : List (Option Value)) : h.Turns vs h vs :=
  fun _ ho => ⟨.of_objects rfl, ho⟩

theorem Turns.trans (t : h.Turns vs h' vs') (t' : h'.Turns vs' h'' vs'') : h.Turns vs h'' vs'' := by
  intro n ho
  obtain ⟨hle, ho'⟩ := t n ho
  obtain ⟨hle', ho''⟩ := t' n ho'
  exact ⟨hle.trans hle', ho''⟩

theorem Turns.of_perm (hp : vs.Perm ws) : h.Turns vs h ws := fun _ ho => ⟨.of_objects rfl, ho.perm hp⟩

/-- Values on the side stay as they are. -/
theorem Turns.frame (t : h.Turns vs h' vs') (ws : List (Option Value)) :
    h.Turns (vs ++ ws) h' (vs' ++ ws) := by
  intro n ho
  have hvs : h.Owned vs fun r => owns ws r + n r :=
    ⟨fun v hv => ho.1 v (List.mem_append_left ws hv), ho.2.congr fun r => by
      rw [owns_append, Nat.add_assoc]⟩
  obtain ⟨hle, ho'⟩ := t _ hvs
  refine ⟨hle, ?_, ho'.2.congr fun r => by rw [owns_append, Nat.add_assoc]⟩
  intro v hv
  rcases List.mem_append.mp hv with hv | hv
  · exact ho'.1 v hv
  · exact (ho.1 v (List.mem_append_right vs hv)).mono hle

theorem Turns.frame_left (ws : List (Option Value)) (t : h.Turns vs h' vs') :
    h.Turns (ws ++ vs) h' (ws ++ vs') :=
  (Turns.of_perm List.perm_append_comm).trans ((t.frame ws).trans (.of_perm List.perm_append_comm))

/-! ## Letting go and sharing -/

theorem turns_releaseAll (h : Heap) (vs : List (Option Value)) : h.Turns vs (h.releaseAll vs) [] := by
  intro n ho
  have hsound : (h.releaseRefs (vs.flatMap Value.refs)).Sound n := ho.2.releaseRefs
  exact ⟨.of_objects rfl, by simp, hsound.congr fun r => by simp⟩

theorem release_eq (h : Heap) (v : Option Value) : h.release v = h.releaseAll [v] := by
  unfold release releaseAll
  cases hr : v.bind Value.ref? with
  | none => simp [Value.refs, hr, releaseRefs, settle]
  | some r => simp [Value.refs, hr]

theorem turns_release (h : Heap) (v : Option Value) : h.Turns [v] (h.release v) [] := by
  rw [release_eq]
  exact turns_releaseAll h [v]

theorem turns_releaseTable (h : Heap) (t : Table) : h.Turns t.values (h.releaseRefs t.refs) [] := by
  rw [t.refs_eq]
  exact turns_releaseAll h t.values

/-- A value that somebody owns gets one more owner. -/
theorem turns_retain {v : Option Value} (hv : v ∈ vs) : h.Turns vs (h.retain v) (v :: vs) := by
  intro n ho
  have hle : h.Le (h.retain v) := .of_objects (objects_retain h v)
  refine ⟨hle, ?_, (ho.2.retain fun r hr => ho.live hv hr).congr fun r => by
    rw [owns_cons v vs]; omega⟩
  intro w hw
  rcases List.mem_cons.mp hw with rfl | hw
  · exact (ho.1 w hv).mono hle
  · exact (ho.1 w hw).mono hle

/-- A value inside an object that somebody owns gets one more owner. -/
theorem turns_share {c v : Option Value} {r : Ref} {o : Object} (hc : c ∈ vs) (hr : r ∈ Value.refs c)
    (ho : h.objects[r]? = some o) (hv : v ∈ o.values) : h.Turns vs (h.retain v) (v :: vs) := by
  intro n hn
  have hle : h.Le (h.retain v) := .of_objects (objects_retain h v)
  have hlive : ∀ s ∈ Value.refs v, 0 < h.count s := by
    intro s hs
    refine hn.2.live_of_mem (hn.live hc hr) ho ?_
    rw [o.refs_eq]
    exact List.mem_flatMap.mpr ⟨v, hv, hs⟩
  refine ⟨hle, ?_, (hn.2.retain hlive).congr fun r => by rw [owns_cons v vs]; omega⟩
  intro w hw
  rcases List.mem_cons.mp hw with rfl | hw
  · exact (hn.2.fits r o ho w hv).mono hle
  · exact (hn.1 w hw).mono hle

theorem turns_scalar {v : Option Value} (hv : Scalar v) : h.Turns vs h (v :: vs) := by
  intro n ho
  refine ⟨.of_objects rfl, ?_, ho.2.congr fun r => by rw [owns_cons v vs, hv.owns, Nat.zero_add]⟩
  intro w hw
  rcases List.mem_cons.mp hw with rfl | hw
  · exact fits_of_scalar hv
  · exact ho.1 w hw

/-! ## Making objects -/

theorem turns_alloc {o : Object} {x : Value} (hx : x.ref? = some h.objects.size) (hkind : x.Denotes o) :
    h.Turns o.values (h.alloc o).2 [some x] := by
  intro n ho
  refine ⟨le_alloc h o, ?_, (ho.2.alloc ho.1).congr fun r => by simp [owns, Value.refs, hx]⟩
  intro v hv
  obtain rfl : v = some x := by simpa using hv
  rintro y hy r hr
  cases hy
  rw [hx] at hr
  cases hr
  exact ⟨o, by simp [alloc], hkind⟩

theorem turns_newStr (h : Heap) (text : String) :
    h.Turns [] (h.newStr text).2 [some (h.newStr text).1] :=
  turns_alloc (o := .str) rfl trivial

theorem turns_newList (h : Heap) (items : Array (Option Value)) :
    h.Turns items.toList (h.newList items).2 [some (h.newList items).1] :=
  turns_alloc (o := .list items) rfl trivial

theorem turns_newTable (h : Heap) (t : Table) :
    h.Turns t.values (h.newTable t).2 [some (h.newTable t).1] :=
  turns_alloc (o := .table t) rfl trivial

/-! ## Changing objects -/

/-- Changes a live object; `out` leaves it and `new` comes in. -/
theorem turns_replace {c : Value} {r : Ref} {o : Object} (o' : Object)
    {new out : List (Option Value)} (hc : c.ref? = some r) (ho : h.objects[r]? = some o)
    (hkind : ∀ x : Value, x.Denotes o → x.Denotes o')
    (hp : (out ++ o'.values).Perm (new ++ o.values)) :
    h.Turns (some c :: new) (h.replace r o') (some c :: out) := by
  intro n hn
  have hlive : 0 < h.count r := hn.live List.mem_cons_self (by simp [Value.refs, hc])
  have hle := le_replace (h := h) ho hkind
  have hfits : ∀ v ∈ out ++ o'.values, h.Fits v := by
    intro v hv
    rcases List.mem_append.mp (hp.mem_iff.mp hv) with hv | hv
    · exact hn.1 v (List.mem_cons_of_mem _ hv)
    · exact hn.2.fits r o ho v hv
  refine ⟨hle, ?_, hn.2.replace hlive ho hkind (fun v hv => hfits v (by simp [hv])) ?_⟩
  · intro v hv
    rcases List.mem_cons.mp hv with rfl | hv
    · exact (hn.1 _ List.mem_cons_self).mono hle
    · exact (hfits v (List.mem_append_left _ hv)).mono hle
  · intro s
    have := owns_perm hp s
    simp only [owns_append] at this
    rw [owns_cons (some c) out, owns_cons (some c) new]
    omega

theorem perm_set {l : List (Option Value)} {i : Nat} {old : Option Value} (h : l[i]? = some old)
    (v : Option Value) : (old :: l.set i v).Perm (v :: l) := by
  simpa using perm_flatMap_set (f := fun x => [x]) h v

theorem perm_eraseIdx {l : List (Option Value)} {i : Nat} {old : Option Value} (h : l[i]? = some old) :
    (old :: l.eraseIdx i).Perm l := by
  simpa using perm_flatMap_eraseIdx (f := fun x => [x]) h

end

end Heap

/-! ## Tables -/

namespace Table

variable {t : Table} {key : Key} {v old : Option Value}

theorem get?_inv {text : String} (h : t.get? text = some old) :
    ∃ i e, t.position? text = some i ∧ t.entries[i]? = some e ∧ e.value = old := by
  unfold get? find? at h
  cases hi : t.position? text with
  | none => simp [hi] at h
  | some i =>
    simp only [hi, Option.bind_some, Option.map_eq_some_iff] at h
    obtain ⟨e, he, hv⟩ := h
    exact ⟨i, e, rfl, he, hv⟩

theorem position?_eq_none {text : String} (h : t.get? text = none) : t.position? text = none := by
  cases hi : t.position? text with
  | none => rfl
  | some i =>
    have hlt : i < t.entries.size := (Array.findIdx?_eq_some_iff_getElem.mp hi).1
    simp [get?, find?, hi, hlt] at h

theorem perm_values_set (h : t.get? key.text = some old) (v : Option Value) :
    (old :: (t.set key v).values).Perm (v :: t.values) := by
  obtain ⟨i, e, hi, he, rfl⟩ := get?_inv h
  have hset : t.set key v = ⟨t.entries.setIfInBounds i { e with value := v }⟩ := by
    unfold set
    rw [hi]
    simp only [Heap.modify_eq_set he]
  have hat : t.entries.toList[i]? = some e := by simpa using he
  have hp := perm_flatMap_set (f := fun e : Entry => [some (.str e.key.ref e.key.text), e.value])
    hat { e with value := v }
  rw [hset]
  simpa [values] using hp

theorem values_set_new (h : t.get? key.text = none) (v : Option Value) :
    (t.set key v).values = t.values ++ [some (.str key.ref key.text), v] := by
  unfold set
  rw [position?_eq_none h]
  simp [values]

theorem perm_values_erase {text : String} {e : Entry} (h : t.find? text = some e) :
    (some (.str e.key.ref e.key.text) :: e.value :: (t.erase text).values).Perm t.values := by
  unfold find? at h
  cases hi : t.position? text with
  | none => simp [hi] at h
  | some i =>
    have he : t.entries[i]? = some e := by simpa [hi] using h
    have hlt : i < t.entries.size := (Array.getElem?_eq_some_iff.mp he).1
    have hat : t.entries.toList[i]? = some e := by simpa using he
    have hp := perm_flatMap_eraseIdx
      (f := fun e : Entry => [some (.str e.key.ref e.key.text), e.value]) hat
    unfold erase
    rw [hi]
    simpa [values, Array.eraseIdxIfInBounds, hlt] using hp

end Table

namespace Heap

/-- Letting go of an entry, key and value. -/
theorem turns_releaseEntry (h : Heap) (k : Ref) (text : String) (v : Option Value) :
    h.Turns [some (.str k text), v] (h.releaseRefs (k :: Value.refs v)) [] := by
  have he : h.releaseRefs (k :: Value.refs v) = h.releaseAll [some (.str k text), v] := by
    simp [releaseAll, Value.refs, Value.ref?]
  rw [he]
  exact turns_releaseAll h _

theorem turns_putEntry (h : Heap) (t : Table) (key : Key) (v : Option Value) :
    h.Turns (some (.str key.ref key.text) :: v :: t.values) (h.putEntry t key v).2
      (h.putEntry t key v).1.values := by
  unfold putEntry
  cases hold : t.get? key.text with
  | some old =>
    have hp := (t.perm_values_set hold v).symm.cons (some (.str key.ref key.text))
    refine (Turns.of_perm hp).trans ?_
    exact (turns_releaseEntry h key.ref key.text old).frame (t.set key v).values
  | none =>
    have hp : ([some (.str key.ref key.text), v] ++ t.values).Perm (t.set key v).values := by
      rw [t.values_set_new hold v]
      exact List.perm_append_comm
    exact .of_perm hp

end Heap

/-! ## Built-in operations -/

section
variable {h : Heap} {vs : List (Option Value)}

theorem scalar_map {α : Type} {f : α → Value} (hf : ∀ a, (f a).ref? = none) (o : Option α) :
    Scalar (o.map f) := by
  cases o with
  | none => rfl
  | some a => simp [Scalar, Value.refs, hf]

theorem scalar_sum (l r : Option Value) : Scalar (Builtin.sum l r) :=
  scalar_map (fun a => by cases a <;> rfl) _

theorem scalar_sub (l r : Option Value) : Scalar (Builtin.sub l r) :=
  scalar_map (fun a => by cases a <;> rfl) _

theorem scalar_mul (l r : Option Value) : Scalar (Builtin.mul l r) :=
  scalar_map (fun a => by cases a <;> rfl) _

theorem scalar_neg (v : Option Value) : Scalar (Builtin.neg v) := by
  unfold Builtin.neg
  split <;> rfl

theorem scalar_div (l r : Option Value) : Scalar (Builtin.div l r) := by
  unfold Builtin.div
  split
  · split <;> rfl
  · rfl
  · rfl

theorem scalar_rem (l r : Option Value) : Scalar (Builtin.rem l r) := by
  unfold Builtin.rem
  split
  · split <;> rfl
  · rfl
  · rfl

theorem scalar_less (l r : Option Value) : Scalar (Builtin.less l r) := scalar_map (fun _ => rfl) _

theorem scalar_greater (l r : Option Value) : Scalar (Builtin.greater l r) := scalar_map (fun _ => rfl) _

theorem scalar_negation (v : Option Value) : Scalar (Builtin.negation v) := by
  unfold Builtin.negation
  split <;> rfl

theorem scalar_length (h : Heap) (v : Option Value) : Scalar (Builtin.length h v) := by
  unfold Builtin.length
  split <;> rfl

theorem scalar_indexOf (h : Heap) (c v : Option Value) : Scalar (Builtin.indexOf h c v) := by
  unfold Builtin.indexOf
  split
  · exact scalar_map (fun _ => rfl) _
  · exact scalar_map (fun _ => rfl) _
  · rfl

theorem scalar_toInt (v : Option Value) : Scalar (Builtin.toInt v) := by
  unfold Builtin.toInt
  split
  · rfl
  · rfl
  · rfl
  · exact scalar_map (fun _ => rfl) _
  · rfl

theorem scalar_toFloat (v : Option Value) : Scalar (Builtin.toFloat v) := by
  unfold Builtin.toFloat
  split
  · rfl
  · rfl
  · rfl
  · exact scalar_map (fun _ => rfl) _
  · rfl

end

namespace Heap

/-- A new string beside values that stay. -/
theorem turns_text (h : Heap) (vs : List (Option Value)) (text : String) :
    h.Turns vs (h.newStr text).2 (some (h.newStr text).1 :: vs) :=
  (turns_newStr h text).frame vs

theorem turns_add (h : Heap) (l r : Option Value) (vs : List (Option Value)) :
    h.Turns vs (Builtin.add h l r).2 ((Builtin.add h l r).1 :: vs) := by
  unfold Builtin.add
  split
  · exact turns_text h vs _
  · exact turns_scalar (scalar_sum _ _)

theorem mem_of_itemsAt {h : Heap} {r : Ref} {i : Nat} {v : Option Value}
    (hv : (h.itemsAt r)[i]? = some v) : ∃ o, h.objects[r]? = some o ∧ v ∈ o.values := by
  unfold itemsAt at hv
  split at hv
  · rename_i items ho
    exact ⟨_, ho, List.mem_of_getElem? (i := i) (by simpa [Object.values] using hv)⟩
  · rename_i items ho
    exact ⟨_, ho, List.mem_of_getElem? (i := i) (by simpa [Object.values] using hv)⟩
  · simp at hv

theorem mem_of_tableAt {h : Heap} {r : Ref} {text : String} {v : Option Value}
    (hv : (h.tableAt r).get? text = some v) : ∃ o, h.objects[r]? = some o ∧ v ∈ o.values := by
  obtain ⟨i, e, -, he, rfl⟩ := Table.get?_inv hv
  unfold tableAt at he
  split at he
  · rename_i t ho
    refine ⟨_, ho, List.mem_flatMap.mpr ⟨e, List.mem_of_getElem? (i := i) (by simpa using he), ?_⟩⟩
    simp
  · simp at he

/-- What is selected from a container is scalar or inside the container. -/
theorem select_cases {h : Heap} {c key v : Option Value} (hv : Builtin.select h c key = .inl v) :
    Scalar v ∨ ∃ r o, r ∈ Value.refs c ∧ h.objects[r]? = some o ∧ v ∈ o.values := by
  have hitem {r : Ref} (hv : ((Builtin.position? key).bind fun i => (h.itemsAt r)[i]?.join) = v) :
      Scalar v ∨ ∃ o, h.objects[r]? = some o ∧ v ∈ o.values := by
    cases hp : Builtin.position? key with
    | none => simp only [hp, Option.bind_none] at hv; subst hv; exact .inl rfl
    | some i =>
      simp only [hp, Option.bind_some] at hv
      cases hi : (h.itemsAt r)[i]? with
      | none => simp only [hi, Option.join_none] at hv; subst hv; exact .inl rfl
      | some w =>
        simp only [hi, Option.join_some] at hv
        exact .inr (mem_of_itemsAt (hv ▸ hi))
  unfold Builtin.select at hv
  split at hv
  · split at hv
    · cases hv
    · cases hv; exact .inl rfl
  · obtain hscalar | ⟨o, ho, hmem⟩ := hitem (Sum.inl.inj hv)
    · exact .inl hscalar
    · exact .inr ⟨_, o, by simp [Value.refs, Value.ref?], ho, hmem⟩
  · obtain hscalar | ⟨o, ho, hmem⟩ := hitem (Sum.inl.inj hv)
    · exact .inl hscalar
    · exact .inr ⟨_, o, by simp [Value.refs, Value.ref?], ho, hmem⟩
  · rename_i r _ text
    have hv := Sum.inl.inj hv
    cases hw : (h.tableAt r).get? text with
    | none => rw [hw] at hv; subst hv; exact .inl rfl
    | some w =>
      rw [hw] at hv
      obtain ⟨o, ho, hmem⟩ := mem_of_tableAt hw
      exact .inr ⟨r, o, by simp [Value.refs, Value.ref?], ho, hv ▸ hmem⟩
  · cases hv; exact .inl rfl

theorem turns_getItem (h : Heap) (c key : Option Value) :
    h.Turns [c, key] (Builtin.getItem h c key).2 [(Builtin.getItem h c key).1, c, key] := by
  unfold Builtin.getItem
  cases hs : Builtin.select h c key with
  | inr text => exact turns_text h [c, key] text
  | inl v =>
    dsimp only
    obtain hv | ⟨r, o, hr, ho, hv⟩ := select_cases hs
    · have hnone : v.bind Value.ref? = none := by
        simpa [Scalar, Value.refs] using hv
      rw [retain, hnone]
      exact turns_scalar hv
    · exact turns_share (by simp) hr ho hv

theorem turns_toStr (h : Heap) (v : Option Value) :
    h.Turns [v] (Builtin.toStr h v).2 [(Builtin.toStr h v).1, v] := by
  unfold Builtin.toStr
  split
  · exact turns_retain (v := some (.str _ _)) (by simp)
  · split
    · exact turns_text h _ _
    · exact turns_scalar rfl

/-- Operations only look at their operands, and give back a value of their own. -/
theorem turns_applyOperation (h : Heap) (k : Keyword) (vs : List (Option Value)) :
    h.Turns vs (applyOperation k vs h).2 ((applyOperation k vs h).1.getD none :: vs) := by
  unfold applyOperation
  split
  · exact turns_add h _ _ _
  · exact turns_scalar (scalar_neg _)
  · exact turns_scalar (scalar_sub _ _)
  · exact turns_scalar (scalar_mul _ _)
  · exact turns_scalar (scalar_div _ _)
  · exact turns_scalar (scalar_rem _ _)
  · exact turns_scalar rfl
  · exact turns_scalar (scalar_less _ _)
  · exact turns_scalar (scalar_greater _ _)
  · exact turns_scalar (scalar_negation _)
  · exact turns_getItem h _ _
  · exact turns_scalar (scalar_length h _)
  · exact turns_scalar (scalar_indexOf h _ _)
  · exact turns_scalar rfl
  · exact turns_scalar (scalar_toInt _)
  · exact turns_scalar (scalar_toFloat _)
  · rename_i v
    have ht := turns_toStr h v
    cases hs : Builtin.toStr h v with
    | mk s h' =>
      rw [hs] at ht
      cases s <;> exact ht
  · exact turns_text h _ _
  · exact turns_scalar rfl

/-! ## Stores -/

theorem turns_setElement (h : Heap) (r : Ref) (i : Nat) (v : Option Value) :
    h.Turns [some (.list r), v] (Builtin.setElement h r i v) [some (.list r)] := by
  intro n hn
  obtain ⟨items, ho⟩ := (hn.1 (some (.list r)) (by simp)).list
  have hitems : h.itemsAt r = items := by simp [itemsAt, ho]
  unfold Builtin.setElement
  rw [hitems]
  cases hi : items[i]? with
  | none => exact (turns_release h v).frame_left [some (.list r)] n hn
  | some old =>
    dsimp only
    rw [modifyList_eq ho]
    have hp : ([old] ++ (items.setIfInBounds i v).toList).Perm ([v] ++ items.toList) := by
      simpa using perm_set (l := items.toList) (by simpa using hi) v
    have hset := turns_replace (c := .list r) (.list (items.setIfInBounds i v)) rfl ho
      (fun x hx => by cases x <;> trivial) hp
    exact hset.trans ((turns_release _ old).frame_left [some (.list r)]) n hn

theorem turns_setEntry (h : Heap) (r : Ref) (key : Key) (v : Option Value) :
    h.Turns [some (.table r), some (.str key.ref key.text), v] (Builtin.setEntry h r key v)
      [some (.table r)] := by
  intro n hn
  obtain ⟨t, ho⟩ := (hn.1 (some (.table r)) (by simp)).table
  have htable : h.tableAt r = t := by simp [tableAt, ho]
  have hkind (t' : Table) (x : Value) : x.Denotes (.table t) → x.Denotes (.table t') := by
    cases x <;> exact id
  unfold Builtin.setEntry
  rw [htable, modifyTable_eq ho]
  cases hold : t.get? key.text with
  | some old =>
    -- the table keeps the key it has, so the given one goes out with the old value
    have hp : ([some (.str key.ref key.text), old] ++ (t.set key v).values).Perm
        ([some (.str key.ref key.text), v] ++ t.values) :=
      (t.perm_values_set hold v).cons _
    have hset := turns_replace (c := .table r) (.table (t.set key v)) rfl ho (hkind _) hp
    exact hset.trans ((turns_releaseEntry _ key.ref key.text old).frame_left [some (.table r)]) n hn
  | none =>
    have hp : ([] ++ (t.set key v).values).Perm
        ([some (Value.str key.ref key.text), v] ++ t.values) := by
      rw [t.values_set_new hold v, List.nil_append]
      exact List.perm_append_comm
    exact turns_replace (c := .table r) (.table (t.set key v)) rfl ho (hkind _) hp n hn

theorem turns_setItem (h : Heap) (c key v : Option Value) :
    h.Turns [c, key, v] (Builtin.setItem h c key v) [c, key] := by
  have hdrop : h.Turns [c, key, v] (h.release v) [c, key] :=
    (turns_release h v).frame_left [c, key]
  unfold Builtin.setItem
  split
  · split
    · refine (Turns.of_perm (.cons _ (.swap v key []))).trans ?_
      exact (turns_setElement h _ _ v).frame [key]
    · exact hdrop
  · rename_i r k text
    refine (turns_retain (v := some (.str k text)) (by simp)).trans ?_
    refine (Turns.of_perm (.swap _ _ _)).trans ?_
    refine (Turns.of_perm (.cons _ (.cons _ (.swap v _ [])))).trans ?_
    exact (turns_setEntry _ r ⟨k, text⟩ v).frame [some (.str k text)]
  · exact hdrop

theorem turns_push (h : Heap) (c v : Option Value) : h.Turns [c, v] (Builtin.push h c v) [c] := by
  unfold Builtin.push
  split
  · rename_i r
    intro n hn
    obtain ⟨items, ho⟩ := (hn.1 (some (.list r)) (by simp)).list
    rw [modifyList_eq ho]
    have hp : ([] ++ (items.push v).toList).Perm ([v] ++ items.toList) := by
      simp
    exact turns_replace (c := .list r) (.list (items.push v)) rfl ho
      (fun x hx => by cases x <;> trivial) hp n hn
  · exact (turns_release h v).frame_left [c]

theorem turns_removeElement (h : Heap) (r : Ref) (i : Nat) :
    h.Turns [some (.list r)] (Builtin.removeElement h r i) [some (.list r)] := by
  intro n hn
  obtain ⟨items, ho⟩ := (hn.1 (some (.list r)) (by simp)).list
  have hitems : h.itemsAt r = items := by simp [itemsAt, ho]
  unfold Builtin.removeElement
  rw [hitems]
  cases hi : items[i]? with
  | none => exact Turns.refl h _ n hn
  | some old =>
    dsimp only
    rw [modifyList_eq ho]
    have hlt : i < items.size := (Array.getElem?_eq_some_iff.mp hi).1
    have hp : ([old] ++ (items.eraseIdxIfInBounds i).toList).Perm ([] ++ items.toList) := by
      simpa [Array.eraseIdxIfInBounds, hlt] using perm_eraseIdx (l := items.toList) (by simpa using hi)
    have hset := turns_replace (c := .list r) (.list (items.eraseIdxIfInBounds i)) rfl ho
      (fun x hx => by cases x <;> trivial) hp
    exact hset.trans ((turns_release _ old).frame_left [some (.list r)]) n hn

theorem turns_removeEntry (h : Heap) (r : Ref) (text : String) :
    h.Turns [some (.table r)] (Builtin.removeEntry h r text) [some (.table r)] := by
  intro n hn
  obtain ⟨t, ho⟩ := (hn.1 (some (.table r)) (by simp)).table
  have htable : h.tableAt r = t := by simp [tableAt, ho]
  unfold Builtin.removeEntry
  rw [htable, modifyTable_eq ho]
  cases he : t.find? text with
  | none => exact Turns.refl h _ n hn
  | some e =>
    have hp : ([some (.str e.key.ref e.key.text), e.value] ++ (t.erase text).values).Perm
        ([] ++ t.values) := t.perm_values_erase he
    have hset := turns_replace (c := .table r) (.table (t.erase text)) rfl ho
      (fun x hx => by cases x <;> trivial) hp
    exact hset.trans ((turns_releaseEntry _ e.key.ref e.key.text e.value).frame_left
      [some (.table r)]) n hn

theorem turns_remove (h : Heap) (c key : Option Value) :
    h.Turns [c, key] (Builtin.remove h c key) [c, key] := by
  unfold Builtin.remove
  split
  · split
    · exact (turns_removeElement h _ _).frame [key]
    · exact .refl h _
  · exact (turns_removeEntry h _ _).frame _
  · exact .refl h _

/-- A store takes all its operands over. -/
theorem turns_store (h : Heap) (k : Keyword) (vs : List (Option Value)) :
    h.Turns vs (store k vs h) [] := by
  unfold store
  split
  · exact (turns_setItem h _ _ _).trans (turns_releaseAll _ _)
  · exact (turns_push h _ _).trans (turns_releaseAll _ _)
  · exact (turns_remove h _ _).trans (turns_releaseAll _ _)
  · exact turns_releaseAll h _

end Heap

end Lisplet
