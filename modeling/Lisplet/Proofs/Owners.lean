import Lisplet.Proofs.Contents

/-!
# Owners of heap objects

A heap is in order if every object has as many owners as there are references to
it, from live objects and from outside. Sharing, letting go, making and changing
objects keep it in order. What lies outside is a number for each object, so that
an operation that takes some values over leaves all others alone.
-/

namespace Lisplet

/-! ## References of values -/

def owns (vs : List (Option Value)) (r : Ref) : Nat := (vs.flatMap Value.refs).count r

section
variable {vs ws : List (Option Value)} {v : Option Value} {r : Ref}

@[simp] theorem owns_nil (r : Ref) : owns [] r = 0 := rfl

@[simp] theorem owns_append (vs ws : List (Option Value)) (r : Ref) :
    owns (vs ++ ws) r = owns vs r + owns ws r := by
  simp [owns]

theorem owns_cons (v : Option Value) (vs : List (Option Value)) (r : Ref) :
    owns (v :: vs) r = owns [v] r + owns vs r :=
  owns_append [v] vs r

@[simp] theorem owns_none (r : Ref) : owns [none] r = 0 := rfl

theorem owns_perm (h : vs.Perm ws) (r : Ref) : owns vs r = owns ws r :=
  (h.flatMap_right Value.refs).count_eq r

theorem owns_pos (hv : v ∈ vs) (hr : r ∈ Value.refs v) : 0 < owns vs r :=
  List.count_pos_iff.mpr (List.mem_flatMap.mpr ⟨v, hv, hr⟩)

def Scalar (v : Option Value) : Prop := Value.refs v = []

theorem Scalar.owns (h : Scalar v) (r : Ref) : owns [v] r = 0 := by
  simp [Lisplet.owns, show Value.refs v = [] from h]

end

/-! Replacing and removing one entry of a row. -/

section
variable {α β : Type} {f : α → List β} {l : List α} {i : Nat} {a : α}

theorem perm_flatMap_set (h : l[i]? = some a) (b : α) :
    (f a ++ (l.set i b).flatMap f).Perm (f b ++ l.flatMap f) := by
  induction l generalizing i with
  | nil => simp at h
  | cons x l ih =>
    cases i with
    | zero =>
      obtain rfl : x = a := by simpa using h
      exact List.perm_append_comm_assoc (f x) (f b) (l.flatMap f)
    | succ i =>
      have hrest := (ih (by simpa using h)).append_left (f x)
      exact (List.perm_append_comm_assoc (f a) (f x) _).trans
        (hrest.trans (List.perm_append_comm_assoc (f x) (f b) _))

theorem perm_flatMap_eraseIdx (h : l[i]? = some a) :
    (f a ++ (l.eraseIdx i).flatMap f).Perm (l.flatMap f) := by
  induction l generalizing i with
  | nil => simp at h
  | cons x l ih =>
    cases i with
    | zero =>
      obtain rfl : x = a := by simpa using h
      exact .refl _
    | succ i =>
      have hrest := (ih (by simpa using h)).append_left (f x)
      exact (List.perm_append_comm_assoc (f a) (f x) _).trans hrest

end

/-! ## Contents of objects -/

def Table.values (t : Table) : List (Option Value) :=
  t.entries.toList.flatMap fun e => [some (.str e.key.ref e.key.text), e.value]

def Object.values : Object → List (Option Value)
  | .str => []
  | .tuple items | .list items => items.toList
  | .table t => t.values

theorem Table.refs_eq (t : Table) : t.refs = t.values.flatMap Value.refs := by
  unfold refs values
  rw [List.flatMap_assoc]
  congr 1
  funext e
  simp [Entry.refs, Value.refs, Value.ref?]

theorem Object.refs_eq (o : Object) : o.refs = o.values.flatMap Value.refs := by
  cases o with
  | table t => exact t.refs_eq
  | _ => rfl

theorem Object.count_refs (o : Object) (r : Ref) : o.refs.count r = owns o.values r := by
  rw [o.refs_eq]
  rfl

def Value.Denotes : Value → Object → Prop
  | .str _ _, .str | .tuple _, .tuple _ | .list _, .list _ | .table _, .table _ => True
  | _, _ => False

namespace Heap

/-! ## Kinds of objects -/

/-- There is an object where the value refers to, and it is of the value's kind. -/
def Fits (h : Heap) (v : Option Value) : Prop :=
  ∀ x, v = some x → ∀ r, x.ref? = some r → ∃ o, h.objects[r]? = some o ∧ x.Denotes o

def Le (h h' : Heap) : Prop :=
  ∀ (r : Ref) o, h.objects[r]? = some o → ∃ o', h'.objects[r]? = some o' ∧ ∀ x : Value, x.Denotes o → x.Denotes o'

section
variable {h h' h'' : Heap} {v : Option Value} {r : Ref}

theorem Le.of_objects (e : h'.objects = h.objects) : h.Le h' :=
  fun _ o ho => ⟨o, by rw [e]; exact ho, fun _ => id⟩

theorem Le.trans (h₁ : h.Le h') (h₂ : h'.Le h'') : h.Le h'' := by
  intro r o ho
  obtain ⟨o', ho', hkind⟩ := h₁ r o ho
  obtain ⟨o'', ho'', hkind'⟩ := h₂ r o' ho'
  exact ⟨o'', ho'', fun x hx => hkind' x (hkind x hx)⟩

theorem Fits.mono (hv : h.Fits v) (hle : h.Le h') : h'.Fits v := by
  intro x hx r hr
  obtain ⟨o, ho, hkind⟩ := hv x hx r hr
  obtain ⟨o', ho', hkind'⟩ := hle r o ho
  exact ⟨o', ho', hkind' x hkind⟩

theorem fits_of_scalar (hv : Scalar v) : h.Fits v := by
  rintro x rfl r hr
  simp [Scalar, Value.refs, hr] at hv

theorem Fits.list (hv : h.Fits (some (.list r))) : ∃ items, h.objects[r]? = some (.list items) := by
  obtain ⟨o, ho, hkind⟩ := hv _ rfl r rfl
  cases o with
  | list items => exact ⟨items, ho⟩
  | _ => exact hkind.elim

theorem Fits.table (hv : h.Fits (some (.table r))) : ∃ t, h.objects[r]? = some (.table t) := by
  obtain ⟨o, ho, hkind⟩ := hv _ rfl r rfl
  cases o with
  | table t => exact ⟨t, ho⟩
  | _ => exact hkind.elim

end

/-! ## A heap in order -/

/-- The references in live objects, each as often as it occurs. -/
def held (h : Heap) : List Ref :=
  (h.objects.toList.zip h.owners.toList).flatMap fun p => if p.2 = 0 then [] else p.1.refs

/-- Every object has as many owners as there are references to it: `outside` of
the heap and in live objects. -/
structure Sound (h : Heap) (outside : Ref → Nat) : Prop where
  size : h.owners.size = h.objects.size
  count : ∀ r, h.count r = outside r + h.held.count r
  fits : ∀ (r : Ref) o, h.objects[r]? = some o → ∀ v ∈ o.values, h.Fits v

theorem Sound.congr {h : Heap} {n n' : Ref → Nat} (hs : h.Sound n) (he : ∀ r, n r = n' r) :
    h.Sound n' :=
  ⟨hs.size, fun r => by rw [← he]; exact hs.count r, hs.fits⟩

theorem sound_empty : ({} : Heap).Sound fun _ => 0 :=
  ⟨rfl, fun _ => rfl, fun _ _ ho => by simp at ho⟩

theorem zip_set {α β : Type} (l : List α) (l' : List β) (i : Nat) (a : α) (b : β) :
    (l.set i a).zip (l'.set i b) = (l.zip l').set i (a, b) := by
  induction l generalizing l' i with
  | nil => simp
  | cons x l ih =>
    cases l' with
    | nil => simp
    | cons y l' =>
      cases i with
      | zero => simp
      | succ i => simp [ih]

theorem setIfInBounds_self {α : Type} {xs : Array α} {i : Nat} {x : α} (h : xs[i]? = some x) :
    xs.setIfInBounds i x = xs := by
  apply Array.ext_getElem?
  intro j
  by_cases hij : i = j
  · subst hij
    rw [Array.getElem?_setIfInBounds_self_of_lt (Array.getElem?_eq_some_iff.mp h).1, h]
  · rw [Array.getElem?_setIfInBounds_ne hij]

theorem modify_eq_set {α : Type} {xs : Array α} {i : Nat} {x : α} (h : xs[i]? = some x) (f : α → α) :
    xs.modify i f = xs.setIfInBounds i (f x) := by
  apply Array.ext_getElem?
  intro j
  rw [Array.getElem?_modify]
  by_cases hij : i = j
  · subst hij
    rw [if_pos rfl, h, Array.getElem?_setIfInBounds_self_of_lt (Array.getElem?_eq_some_iff.mp h).1]
    rfl
  · rw [if_neg hij, Array.getElem?_setIfInBounds_ne hij]

/-- What the heap holds after the object and the owners at one place are changed. -/
theorem count_held_set {h : Heap} (h' : Heap) {r : Ref} {o o' : Object} {k k' : Nat}
    (ho : h.objects[r]? = some o) (hk : h.owners[r]? = some k)
    (ho' : h'.objects = h.objects.setIfInBounds r o')
    (hk' : h'.owners = h.owners.setIfInBounds r k') (s : Ref) :
    h'.held.count s + (if k = 0 then [] else o.refs).count s =
      h.held.count s + (if k' = 0 then [] else o'.refs).count s := by
  have hat : (h.objects.toList.zip h.owners.toList)[r]? = some (o, k) := by
    simp [List.getElem?_zip_eq_some, ho, hk]
  have := (perm_flatMap_set (f := fun p : Object × Nat => if p.2 = 0 then [] else p.1.refs)
    hat (o', k')).count_eq s
  rw [← zip_set, List.count_append, List.count_append] at this
  simp only [held, ho', hk', Array.toList_setIfInBounds] at this ⊢
  omega

theorem owners_of_live {h : Heap} {r : Ref} (hr : 0 < h.count r) :
    ∃ k, h.owners[r]? = some (k + 1) ∧ h.count r = k + 1 := by
  unfold count at hr ⊢
  cases hk : h.owners[r]? with
  | none => simp [hk] at hr
  | some k =>
    cases k with
    | zero => simp [hk] at hr
    | succ k => exact ⟨k, rfl, rfl⟩

section
variable {h : Heap} {n : Ref → Nat}

theorem Sound.object_of_live (hs : h.Sound n) {r : Ref} (hr : 0 < h.count r) :
    ∃ o, h.objects[r]? = some o := by
  obtain ⟨k, hk, -⟩ := owners_of_live hr
  have hlt : r < h.owners.size := (Array.getElem?_eq_some_iff.mp hk).1
  rw [hs.size] at hlt
  exact ⟨h.objects[r], by simp [hlt]⟩

/-- What a live object refers to is live. -/
theorem Sound.live_of_mem (hs : h.Sound n) {r s : Ref} {o : Object} (hr : 0 < h.count r)
    (ho : h.objects[r]? = some o) (hmem : s ∈ o.refs) : 0 < h.count s := by
  obtain ⟨k, hk, -⟩ := owners_of_live hr
  have hat : (o, k + 1) ∈ h.objects.toList.zip h.owners.toList := by
    apply List.mem_of_getElem? (i := r)
    simp [List.getElem?_zip_eq_some, ho, hk]
  have hheld : s ∈ h.held := List.mem_flatMap.mpr ⟨_, hat, by simpa using hmem⟩
  have := List.count_pos_iff.mpr hheld
  rw [hs.count]
  omega

end

/-! ## Letting go -/

/-- Taking owners away one by one, with what freed objects give up pending next. -/
theorem settle_sound {objects : Array Object} {owners : Array Nat} {pending : List Ref}
    {n : Ref → Nat} (hsize : owners.size = objects.size)
    (h : ∀ r, Heap.count ⟨objects, owners⟩ r =
      pending.count r + n r + (Heap.held ⟨objects, owners⟩).count r) :
    (settle objects owners pending).size = objects.size ∧
    ∀ r, Heap.count ⟨objects, settle objects owners pending⟩ r =
      n r + (Heap.held ⟨objects, settle objects owners pending⟩).count r := by
  fun_induction settle objects owners pending with
  | case1 owners => exact ⟨hsize, fun r => by simpa using h r⟩
  | case2 owners r pending hnone ih =>
    have := h r
    simp only [Heap.count, hnone, Option.getD_none, List.count_cons_self] at this
    omega
  | case3 owners r pending hzero ih =>
    have := h r
    simp only [Heap.count, hzero, Option.getD_some, List.count_cons_self] at this
    omega
  | case4 owners r pending hone owned ih =>
    have hlt : r < objects.size := by
      rw [← hsize]
      exact (Array.getElem?_eq_some_iff.mp hone).1
    -- the last owner is gone: what the object refers to is let go next
    have hobject : objects[r]? = some objects[r] := by simp [hlt]
    have howned : owned = objects[r].refs := by simp [owned, hobject]
    apply ih (by simpa using hsize)
    intro s
    have hheld := count_held_set (h := ⟨objects, owners⟩) ⟨objects, owners.setIfInBounds r 0⟩
      hobject hone (setIfInBounds_self hobject).symm rfl s
    have hs := h s
    simp only [Nat.one_ne_zero, if_false, if_true, List.count_nil] at hheld
    rw [List.count_append, howned]
    by_cases hrs : r = s
    · subst hrs
      simp only [Heap.count, hone, Option.getD_some, List.count_cons_self] at hs
      simp only [Heap.count, Array.getElem?_setIfInBounds_self_of_lt (hsize ▸ hlt), Option.getD_some]
      omega
    · simp only [Heap.count, Array.getElem?_setIfInBounds_ne hrs] at hs ⊢
      rw [List.count_cons_of_ne hrs] at hs
      omega
  | case5 owners r pending k hmany ih =>
    have hlt : r < objects.size := by
      rw [← hsize]
      exact (Array.getElem?_eq_some_iff.mp hmany).1
    have hobject : objects[r]? = some objects[r] := by simp [hlt]
    apply ih (by simpa using hsize)
    intro s
    have hheld := count_held_set (h := ⟨objects, owners⟩) ⟨objects, owners.setIfInBounds r (k + 1)⟩
      hobject hmany (setIfInBounds_self hobject).symm rfl s
    have hs := h s
    rw [if_neg (Nat.succ_ne_zero _), if_neg (Nat.succ_ne_zero _)] at hheld
    by_cases hrs : r = s
    · subst hrs
      simp only [Heap.count, hmany, Option.getD_some, List.count_cons_self] at hs
      simp only [Heap.count, Array.getElem?_setIfInBounds_self_of_lt (hsize ▸ hlt), Option.getD_some]
      omega
    · simp only [Heap.count, Array.getElem?_setIfInBounds_ne hrs] at hs ⊢
      rw [List.count_cons_of_ne hrs] at hs
      omega

section
variable {h : Heap} {n : Ref → Nat}

theorem Sound.releaseRefs {refs : List Ref} (hs : h.Sound fun r => refs.count r + n r) :
    (h.releaseRefs refs).Sound n := by
  obtain ⟨hsize, hcount⟩ := settle_sound hs.size hs.count
  exact ⟨hsize, hcount, fun r o ho v hv => (hs.fits r o ho v hv).mono (.of_objects rfl)⟩

/-! ## Sharing -/

theorem Sound.retainRef {r : Ref} (hs : h.Sound n) (hr : 0 < h.count r) :
    (h.retainRef r).Sound fun s => [r].count s + n s := by
  obtain ⟨k, hk, -⟩ := owners_of_live hr
  obtain ⟨o, ho⟩ := hs.object_of_live hr
  have hlt : r < h.owners.size := (Array.getElem?_eq_some_iff.mp hk).1
  have howners : (h.retainRef r).owners = h.owners.setIfInBounds r (k + 2) := modify_eq_set hk _
  refine ⟨by simpa [Heap.retainRef] using hs.size, ?_, fun r o ho v hv => (hs.fits r o ho v hv).mono (.of_objects rfl)⟩
  intro s
  have hheld := count_held_set (h.retainRef r) ho hk (setIfInBounds_self ho).symm howners s
  rw [if_neg (Nat.succ_ne_zero _), if_neg (Nat.succ_ne_zero _)] at hheld
  have hcount := hs.count s
  unfold Heap.count at hcount ⊢
  rw [howners]
  by_cases hrs : r = s
  · subst hrs
    rw [hk] at hcount
    rw [Array.getElem?_setIfInBounds_self_of_lt hlt]
    simp only [Option.getD_some, List.count_singleton_self] at hcount ⊢
    omega
  · rw [Array.getElem?_setIfInBounds_ne hrs, List.count_cons_of_ne hrs]
    simp only [List.count_nil]
    omega

theorem Sound.retain {v : Option Value} (hs : h.Sound n) (hv : ∀ r ∈ Value.refs v, 0 < h.count r) :
    (h.retain v).Sound fun s => owns [v] s + n s := by
  unfold Heap.retain
  cases hr : v.bind Value.ref? with
  | none => exact hs.congr fun r => by simp [owns, Value.refs, hr]
  | some r =>
    have hlive := hv r (by simp [Value.refs, hr])
    exact (hs.retainRef hlive).congr fun s => by simp [owns, Value.refs, hr]

/-! ## Making and changing objects -/

theorem le_alloc (h : Heap) (o : Object) : h.Le (h.alloc o).2 := by
  intro r o' ho'
  refine ⟨o', ?_, fun _ => id⟩
  have hlt := (Array.getElem?_eq_some_iff.mp ho').1
  simpa [alloc, Array.getElem?_push, Nat.ne_of_lt hlt] using ho'

/-- A new object takes over what is in it, and has one owner. -/
theorem Sound.alloc {o : Object} (hs : h.Sound fun r => owns o.values r + n r)
    (ho : ∀ v ∈ o.values, h.Fits v) :
    (h.alloc o).2.Sound fun r => [h.objects.size].count r + n r := by
  have hheld : (h.alloc o).2.held = h.held ++ o.refs := by
    have hlen : h.objects.toList.length = h.owners.toList.length := by simp [hs.size]
    simp [held, Heap.alloc, List.zip_append hlen]
  refine ⟨by simp [Heap.alloc, hs.size], ?_, ?_⟩
  · intro r
    have hcount := hs.count r
    rw [hheld, List.count_append, o.count_refs]
    unfold Heap.count at hcount ⊢
    by_cases hr : r = h.objects.size
    · subst hr
      have hnone : h.owners[h.objects.size]? = none := by rw [← hs.size]; simp
      rw [hnone] at hcount
      simp only [Heap.alloc, Array.getElem?_push, hs.size, if_true, Option.getD_some,
        Option.getD_none, List.count_singleton_self] at hcount ⊢
      omega
    · have hne : r ≠ h.owners.size := by rw [hs.size]; exact hr
      simp only [Heap.alloc, Array.getElem?_push, if_neg hne, List.count_cons_of_ne (Ne.symm hr),
        List.count_nil]
      omega
  · intro r o' ho' v hv
    by_cases hr : r = h.objects.size
    · obtain rfl : o = o' := by simpa [Heap.alloc, hr] using ho'
      exact (ho v hv).mono (le_alloc h o)
    · have hold : h.objects[r]? = some o' := by
        simpa [Heap.alloc, Array.getElem?_push, hr] using ho'
      exact (hs.fits r o' hold v hv).mono (le_alloc h o)

def replace (h : Heap) (r : Ref) (o : Object) : Heap :=
  { h with objects := h.objects.setIfInBounds r o }

theorem le_replace {r : Ref} {o o' : Object} (ho : h.objects[r]? = some o)
    (hkind : ∀ x : Value, x.Denotes o → x.Denotes o') : h.Le (h.replace r o') := by
  intro s p hp
  by_cases hrs : r = s
  · subst hrs
    obtain rfl : o = p := by simpa [ho] using hp
    have hlt := (Array.getElem?_eq_some_iff.mp ho).1
    exact ⟨o', Array.getElem?_setIfInBounds_self_of_lt hlt, hkind⟩
  · exact ⟨p, by rw [replace, Array.getElem?_setIfInBounds_ne hrs]; exact hp, fun _ => id⟩

/-- Changing a live object: what it gains comes from outside, and what it loses
goes there. -/
theorem Sound.replace {n' : Ref → Nat} {r : Ref} {o o' : Object} (hs : h.Sound n)
    (hr : 0 < h.count r) (ho : h.objects[r]? = some o)
    (hkind : ∀ x : Value, x.Denotes o → x.Denotes o') (hfits : ∀ v ∈ o'.values, h.Fits v)
    (hn : ∀ s, n' s + owns o'.values s = n s + owns o.values s) : (h.replace r o').Sound n' := by
  obtain ⟨k, hk, -⟩ := owners_of_live hr
  refine ⟨by simpa [Heap.replace] using hs.size, ?_, ?_⟩
  · intro s
    have hheld := count_held_set (h.replace r o') ho hk rfl (setIfInBounds_self hk).symm s
    rw [if_neg (Nat.succ_ne_zero _), if_neg (Nat.succ_ne_zero _), o.count_refs, o'.count_refs] at hheld
    have hcount : (h.replace r o').count s = n s + h.held.count s := hs.count s
    have := hn s
    omega
  · intro s p hp v hv
    have hle := le_replace (h := h) ho hkind
    by_cases hrs : r = s
    · subst hrs
      have hlt := (Array.getElem?_eq_some_iff.mp ho).1
      rw [Heap.replace, Array.getElem?_setIfInBounds_self_of_lt hlt] at hp
      cases hp
      exact (hfits v hv).mono hle
    · rw [Heap.replace, Array.getElem?_setIfInBounds_ne hrs] at hp
      exact (hs.fits s p hp v hv).mono hle

theorem modifyList_eq {r : Ref} {items : Array (Option Value)} (ho : h.objects[r]? = some (.list items))
    (f : Array (Option Value) → Array (Option Value)) :
    h.modifyList r f = h.replace r (.list (f items)) := by
  unfold modifyList
  rw [modify_eq_set ho]
  rfl

theorem modifyTable_eq {r : Ref} {t : Table} (ho : h.objects[r]? = some (.table t)) (f : Table → Table) :
    h.modifyTable r f = h.replace r (.table (f t)) := by
  unfold modifyTable
  rw [modify_eq_set ho]
  rfl

end

end Heap

end Lisplet
