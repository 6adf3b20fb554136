import Lisplet.Proofs.Handover

/-!
# Heaps in which everything refers back

Without writing into containers, a container holds only what was there before it. Then
references lead to earlier and earlier places, no value contains itself, and every value
has a view and a text of finitely many pieces.
-/

namespace Lisplet

/-! ## Values below a place -/

/-- If the value is a container, it lies before place `n`. -/
def Value.Below (n : Nat) : Option Value → Prop
  | some (.tuple r) | some (.list r) | some (.table r) => r < n
  | _ => True

theorem Value.Below.mono {n n' : Nat} {v : Option Value} (h : Value.Below n v) (hn : n ≤ n') :
    Value.Below n' v := by
  match v, h with
  | some (.tuple _), h | some (.list _), h | some (.table _), h => exact Nat.lt_of_lt_of_le h hn
  | none, _ | some (.bool _), _ | some (.int _), _ | some (.float _), _ | some (.str _ _), _ => trivial

theorem Scalar.below {v : Option Value} (h : Scalar v) (n : Nat) : Value.Below n v := by
  match v, h with
  | none, _ | some (.bool _), _ | some (.int _), _ | some (.float _), _ | some (.str _ _), _ => trivial
  | some (.tuple _), h | some (.list _), h | some (.table _), h => cases h

def Keyword.isOperation : Keyword → Bool
  | .add | .sub | .mul | .div | .mod | .eq | .lt | .gt | .not | .item | .len | .index => true
  | .bool | .int | .float | .str | .typeOf => true
  | _ => false

def Object.items : Object → Array (Option Value)
  | .list items | .tuple items => items
  | _ => #[]

namespace Heap

theorem itemsAt_eq (h : Heap) (r : Ref) : h.itemsAt r = (h.objects[r]?.map Object.items).getD #[] := by
  unfold itemsAt
  cases h.objects[r]? with
  | none => rfl
  | some o => cases o <;> rfl

def Ordered (h : Heap) : Prop :=
  ∀ (r : Ref) (o : Object), h.objects[r]? = some o → ∀ v ∈ o.values, Value.Below r v

/-- What happens to an ordered heap: it stays ordered, objects are made, and no list that
was there gets longer. -/
structure Leads (h h' : Heap) : Prop where
  ordered : h'.Ordered
  size : h.objects.size ≤ h'.objects.size
  items : ∀ r < h.objects.size, (h'.itemsAt r).size ≤ (h.itemsAt r).size

section
variable {h h' h'' : Heap}

theorem Leads.trans (h₁ : h.Leads h') (h₂ : h'.Leads h'') : h.Leads h'' := by
  refine ⟨h₂.ordered, Nat.le_trans h₁.size h₂.size, ?_⟩
  intro r hr
  exact Nat.le_trans (h₂.items r (Nat.lt_of_lt_of_le hr h₁.size)) (h₁.items r hr)

theorem Leads.of_objects (hl : h.Leads h') (e : h.objects = h''.objects) : h''.Leads h' := by
  refine ⟨hl.ordered, e ▸ hl.size, ?_⟩
  intro r hr
  rw [← itemsAt_congr e]
  exact hl.items r (e ▸ hr)

theorem Ordered.leads (ho : h.Ordered) (e : h'.objects = h.objects) : h.Leads h' := by
  refine ⟨fun r o hr => ho r o (e ▸ hr), Nat.le_of_eq (by rw [e]), ?_⟩
  intro r _
  exact Nat.le_of_eq (congrArg Array.size (itemsAt_congr e r))

theorem Ordered.leads_alloc (ho : h.Ordered) {o : Object}
    (hv : ∀ v ∈ o.values, Value.Below h.objects.size v) : h.Leads (h.alloc o).2 := by
  have hold {r : Ref} (hr : r ≠ h.objects.size) : (h.alloc o).2.objects[r]? = h.objects[r]? := by
    simp [alloc, Array.getElem?_push, hr]
  refine ⟨?_, by simp [alloc], ?_⟩
  · intro r p hp
    by_cases hr : r = h.objects.size
    · subst hr
      obtain rfl : o = p := by simpa [alloc] using hp
      exact hv
    · exact ho r p (hold hr ▸ hp)
  · intro r hr
    have hsame : (h.alloc o).2.itemsAt r = h.itemsAt r := by
      rw [itemsAt_eq, itemsAt_eq, hold (Nat.ne_of_lt hr)]
    exact Nat.le_of_eq (congrArg Array.size hsame)

/-- Taking something out of an object. -/
theorem Ordered.leads_modify (ho : h.Ordered) (r : Ref) {f : Object → Object}
    (hvalues : ∀ o, ∀ v ∈ (f o).values, v ∈ o.values)
    (hitems : ∀ o, (f o).items.size ≤ o.items.size) :
    h.Leads { h with objects := h.objects.modify r f } := by
  refine ⟨?_, by simp, ?_⟩
  · intro s p hp v hv
    rw [Array.getElem?_modify] at hp
    split at hp
    · obtain ⟨o, hs, rfl⟩ := Option.map_eq_some_iff.mp hp
      exact ho s o hs v (hvalues o v hv)
    · exact ho s p hp v hv
  · intro s _
    rw [itemsAt_eq, itemsAt_eq, Array.getElem?_modify]
    split
    · cases h.objects[s]? with
      | none => exact Nat.le_refl _
      | some o => exact hitems o
    · exact Nat.le_refl _

/-! ## Removing -/

theorem Ordered.leads_removeElement (ho : h.Ordered) (r : Ref) (i : Nat) :
    h.Leads (Builtin.removeElement h r i) := by
  unfold Builtin.removeElement
  split
  · have hmodify : h.Leads (h.modifyList r fun items => items.eraseIdxIfInBounds i) := by
      refine ho.leads_modify r ?_ ?_
      · intro o v hv
        cases o with
        | list items =>
          simp only [Object.values, Array.toList_eraseIdxIfInBounds] at hv ⊢
          exact List.mem_of_mem_eraseIdx hv
        | _ => exact hv
      · intro o
        cases o with
        | list items =>
          simp only [Object.items, ← Array.length_toList, Array.toList_eraseIdxIfInBounds]
          exact List.length_eraseIdx_le _ _
        | _ => exact Nat.le_refl _
    exact hmodify.trans (hmodify.ordered.leads (objects_release _ _))
  · exact ho.leads rfl

theorem Ordered.leads_removeEntry (ho : h.Ordered) (r : Ref) (text : String) :
    h.Leads (Builtin.removeEntry h r text) := by
  have herase (t : Table) : ∀ v ∈ (t.erase text).values, v ∈ t.values := by
    intro v hv
    unfold Table.erase at hv
    split at hv
    · simp only [Table.values, Array.toList_eraseIdxIfInBounds] at hv ⊢
      obtain ⟨e, he, hv⟩ := List.mem_flatMap.mp hv
      exact List.mem_flatMap.mpr ⟨e, List.mem_of_mem_eraseIdx he, hv⟩
    · exact hv
  unfold Builtin.removeEntry
  split
  · have hmodify : h.Leads (h.modifyTable r fun t => t.erase text) := by
      refine ho.leads_modify r ?_ ?_
      · intro o v hv
        cases o with
        | table t => exact herase t v hv
        | _ => exact hv
      · intro o
        cases o <;> exact Nat.le_refl _
    exact hmodify.trans (hmodify.ordered.leads (objects_releaseRefs _ _))
  · exact ho.leads rfl

theorem Ordered.leads_remove (ho : h.Ordered) (c key : Option Value) :
    h.Leads (Builtin.remove h c key) := by
  unfold Builtin.remove
  split
  · split
    · exact ho.leads_removeElement _ _
    · exact ho.leads rfl
  · exact ho.leads_removeEntry _ _
  · exact ho.leads rfl

/-! ## Reading -/

theorem Ordered.below_of_mem (ho : h.Ordered) {r : Ref} {o : Object} {v : Option Value}
    (hr : h.objects[r]? = some o) (hv : v ∈ o.values) : Value.Below h.objects.size v :=
  (ho r o hr v hv).mono (Nat.le_of_lt (Array.getElem?_eq_some_iff.mp hr).1)

theorem Ordered.below_of_itemsAt (ho : h.Ordered) {r : Ref} {i : Nat} {v : Option Value}
    (hv : (h.itemsAt r)[i]? = some v) : Value.Below h.objects.size v := by
  obtain ⟨o, hr, hmem⟩ := mem_of_itemsAt hv
  exact ho.below_of_mem hr hmem

theorem Ordered.below_itemsAt (ho : h.Ordered) (r : Ref) : ∀ v ∈ (h.itemsAt r).toList, Value.Below r v := by
  intro v hv
  obtain ⟨i, hi⟩ := List.mem_iff_getElem?.mp hv
  obtain ⟨o, hr, hmem⟩ := mem_of_itemsAt (by simpa using hi)
  exact ho r o hr v hmem

theorem Ordered.below_tableAt (ho : h.Ordered) (r : Ref) :
    ∀ e ∈ (h.tableAt r).toList, Value.Below r e.2 := by
  intro e he
  unfold tableAt at he
  split at he
  · rename_i t hr
    obtain ⟨entry, hentry, rfl⟩ := List.mem_map.mp he
    exact ho r _ hr entry.value (List.mem_flatMap.mpr ⟨entry, hentry, by simp⟩)
  · simp [Table.toList] at he

theorem Ordered.below_select (ho : h.Ordered) {c key v : Option Value}
    (hv : Builtin.select h c key = .inl v) : Value.Below h.objects.size v := by
  obtain hv | ⟨r, o, -, hr, hv⟩ := select_cases hv
  · exact hv.below _
  · exact ho.below_of_mem hr hv

/-! ## Views -/

theorem mapM_isSome {α β : Type} {f : α → Option β} {l : List α} (hf : ∀ a ∈ l, (f a).isSome) :
    (l.mapM f).isSome := by
  induction l with
  | nil => simp
  | cons a l ih =>
    rw [List.forall_mem_cons] at hf
    obtain ⟨b, hb⟩ := Option.isSome_iff_exists.mp hf.1
    obtain ⟨bs, hbs⟩ := Option.isSome_iff_exists.mp (ih hf.2)
    simp [List.mapM_cons, hb, hbs]

/-- The objects around a value lie behind it, so it is never inside itself. -/
theorem Ordered.viewWithin_isSome (ho : h.Ordered) {fuel n : Nat} {path : List Ref} {v : Option Value}
    (hv : Value.Below n v) (hfuel : n < fuel) (hpath : ∀ r ∈ path, n ≤ r) :
    (h.viewWithin fuel path v).isSome := by
  induction fuel generalizing n path v with
  | zero => omega
  | succ fuel ih =>
    -- going inside lowers the bound, and everything on the path stays above it
    have hinside {r : Nat} (hr : r < n) : ¬ path.contains r = true ∧
        ∀ x, Value.Below r x → (h.viewWithin fuel (r :: path) x).isSome := by
      constructor
      · intro hmem
        exact absurd (hpath r (by simpa using hmem)) (Nat.not_le.mpr hr)
      · intro x hx
        refine ih hx (by omega) ?_
        intro s hs
        rcases List.mem_cons.mp hs with rfl | hs
        · exact Nat.le_refl _
        · exact Nat.le_trans (Nat.le_of_lt hr) (hpath s hs)
    match v, hv with
    | none, _ | some (.bool _), _ | some (.int _), _ | some (.float _), _ | some (.str _ _), _ => rfl
    | some (.tuple r), hr | some (.list r), hr =>
      obtain ⟨hnot, hitem⟩ := hinside hr
      rw [viewWithin, if_neg hnot, Option.isSome_map]
      exact mapM_isSome fun x hx => hitem x (ho.below_itemsAt r x hx)
    | some (.table r), hr =>
      obtain ⟨hnot, hitem⟩ := hinside hr
      rw [viewWithin, if_neg hnot, Option.isSome_map]
      apply mapM_isSome
      intro e he
      rw [Option.isSome_map]
      exact hitem e.2 (ho.below_tableAt r e he)

theorem Ordered.render_isSome (ho : h.Ordered) {v : Option Value} (hv : Value.Below h.objects.size v) :
    (h.render v).isSome := by
  rw [render, Option.isSome_map]
  exact ho.viewWithin_isSome hv (Nat.lt_succ_self _) (by simp)

/-! ## Operations -/

theorem Ordered.leads_newStr (ho : h.Ordered) (text : String) : h.Leads (h.newStr text).2 :=
  ho.leads_alloc (o := .str) (by simp [Object.values])

theorem Ordered.leads_add (ho : h.Ordered) (l r : Option Value) :
    h.Leads (Builtin.add h l r).2 ∧ ∀ n, Value.Below n (Builtin.add h l r).1 := by
  unfold Builtin.add
  split
  · rename_i s _ t
    exact ⟨ho.leads_newStr (s ++ t), fun _ => trivial⟩
  · exact ⟨ho.leads rfl, (scalar_sum l r).below⟩

theorem Ordered.leads_getItem (ho : h.Ordered) (c key : Option Value) :
    h.Leads (Builtin.getItem h c key).2 ∧ Value.Below h.objects.size (Builtin.getItem h c key).1 := by
  unfold Builtin.getItem
  split
  · rename_i v hv
    exact ⟨ho.leads (objects_retain _ _), ho.below_select hv⟩
  · rename_i text _
    exact ⟨ho.leads_newStr text, trivial⟩

theorem Ordered.leads_toStr (ho : h.Ordered) {v : Option Value} (hv : Value.Below h.objects.size v) :
    h.Leads (Builtin.toStr h v).2 ∧ ∃ s, (Builtin.toStr h v).1 = some s ∧ ∀ n, Value.Below n (some s) := by
  obtain ⟨text, htext⟩ := Option.isSome_iff_exists.mp (ho.render_isSome hv)
  unfold Builtin.toStr
  split
  · exact ⟨ho.leads rfl, _, rfl, fun _ => trivial⟩
  · simp only [htext]
    exact ⟨ho.leads_newStr _, _, rfl, fun _ => trivial⟩

/-- An operation on as many operands as it takes has a value. -/
theorem Ordered.leads_applyOperation (ho : h.Ordered) {k : Keyword} (hk : k.isOperation = true)
    {vs : List (Option Value)} (hvs : ∀ v ∈ vs, Value.Below h.objects.size v)
    (hcount : ∀ a, k.arity? = some a → a.accepts vs.length = true) :
    h.Leads (applyOperation k vs h).2 ∧
      ∃ v, (applyOperation k vs h).1 = some v ∧ Value.Below (applyOperation k vs h).2.objects.size v := by
  have hscalar {v : Option Value} (hv : Scalar v) : h.Leads h ∧ ∃ x, some v = some x ∧
      Value.Below h.objects.size x := ⟨ho.leads rfl, v, rfl, hv.below _⟩
  match vs, hvs, hcount with
  | [], _, hcount => cases k <;> simp [Keyword.arity?, Arity.accepts] at hcount <;> cases hk
  | [v], hvs, hcount =>
    have hv : Value.Below h.objects.size v := hvs v (by simp)
    cases k with
    | sub => exact hscalar (scalar_neg v)
    | not => exact hscalar (scalar_negation v)
    | len => exact hscalar (scalar_length h v)
    | bool => exact hscalar rfl
    | int => exact hscalar (scalar_toInt v)
    | float => exact hscalar (scalar_toFloat v)
    | str =>
      obtain ⟨hleads, s, hs, hbelow⟩ := ho.leads_toStr hv
      exact ⟨hleads, some s, by simp [applyOperation, hs], hbelow _⟩
    | typeOf => exact ⟨ho.leads_newStr (Builtin.typeName v), _, rfl, trivial⟩
    | _ => simp_all [Keyword.arity?, Arity.accepts, Keyword.isOperation]
  | [l, r], hvs, hcount =>
    cases k with
    | add =>
      obtain ⟨hleads, hbelow⟩ := ho.leads_add l r
      exact ⟨hleads, _, rfl, hbelow _⟩
    | sub => exact hscalar (scalar_sub l r)
    | mul => exact hscalar (scalar_mul l r)
    | div => exact hscalar (scalar_div l r)
    | mod => exact hscalar (scalar_rem l r)
    | eq => exact hscalar rfl
    | lt => exact hscalar (scalar_less l r)
    | gt => exact hscalar (scalar_greater l r)
    | item =>
      obtain ⟨hleads, hbelow⟩ := ho.leads_getItem l r
      exact ⟨hleads, _, rfl, hbelow.mono hleads.size⟩
    | index => exact hscalar (scalar_indexOf h l r)
    | _ => simp_all [Keyword.arity?, Arity.accepts, Keyword.isOperation]
  | _ :: _ :: _ :: rest, _, hcount =>
    cases k <;> simp_all [Keyword.arity?, Arity.accepts, Keyword.isOperation]

end

end Heap

end Lisplet
