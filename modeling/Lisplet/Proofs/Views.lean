import Lisplet.Datum
import Mathlib.Data.Finset.Card
import Mathlib.Data.Finset.Range
import Mathlib.Data.Finset.SDiff

/-!
# Views of values

The view of a value looks for it inside every object on its way only once, so it
needs no more steps than there are objects, and more steps change nothing. A value
that is finite has the view that it should have: `view_of_plain` says so for values
made of scalars, strings and lists.
-/

namespace Lisplet

theorem mapM_congr {α β : Type} {f g : α → Option β} {l : List α} (h : ∀ a ∈ l, f a = g a) :
    l.mapM f = l.mapM g := by
  induction l with
  | nil => simp
  | cons a l ih =>
    simp only [List.forall_mem_cons] at h
    rw [List.mapM_cons, List.mapM_cons, h.1, ih h.2]

theorem mapM_eq_some {α β : Type} {f : α → Option β} {l : List α} {l' : List β}
    (hlen : l.length = l'.length)
    (h : ∀ (i : Nat) (a : α) (b : β), l[i]? = some a → l'[i]? = some b → f a = some b) :
    l.mapM f = some l' := by
  induction l generalizing l' with
  | nil =>
    obtain rfl : l' = [] := List.eq_nil_of_length_eq_zero hlen.symm
    simp
  | cons a l ih =>
    cases l' with
    | nil => simp at hlen
    | cons b l' =>
      have hrest := ih (by simpa using hlen) fun i c d hc hd =>
        h (i + 1) c d (by simpa using hc) (by simpa using hd)
      rw [List.mapM_cons, h 0 a b rfl rfl, hrest]
      rfl

theorem mapM_cons_inv {α β : Type} {f : α → Option β} {a : α} {l : List α} {l' : List β}
    (h : (a :: l).mapM f = some l') : ∃ b rest, f a = some b ∧ l.mapM f = some rest ∧ l' = b :: rest := by
  rw [List.mapM_cons] at h
  obtain ⟨b, hb, h⟩ := Option.bind_eq_some_iff.mp h
  obtain ⟨rest, hrest, h⟩ := Option.bind_eq_some_iff.mp h
  exact ⟨b, rest, hb, hrest, (Option.some.inj h).symm⟩

namespace Heap

variable {h : Heap}

/-! ## Enough steps -/

def off (h : Heap) (path : List Ref) : Finset Ref := Finset.range h.objects.size \ path.toFinset

theorem card_off_cons {path : List Ref} {r : Ref} (hr : r < h.objects.size) (hpath : r ∉ path) :
    (h.off (r :: path)).card < (h.off path).card := by
  apply Finset.card_lt_card
  refine Finset.ssubset_iff_of_subset ?_ |>.mpr ⟨r, ?_, ?_⟩
  · intro x hx
    simp only [off, Finset.mem_sdiff, List.mem_toFinset, List.mem_cons, not_or] at hx ⊢
    exact ⟨hx.1, hx.2.2⟩
  · simp [off, hr, hpath]
  · simp [off]

theorem itemsAt_of_size_le {r : Ref} (hr : h.objects.size ≤ r) : h.itemsAt r = #[] := by
  simp [itemsAt, hr]

theorem tableAt_of_size_le {r : Ref} (hr : h.objects.size ≤ r) : h.tableAt r = {} := by
  simp [tableAt, hr]

/-- A step more makes no difference to what lies inside the object at `r`. -/
theorem viewWithin_inside {fuel : Nat} {path : List Ref} {r : Ref} {vs : List (Option Value)}
    (ih : ∀ (path : List Ref) (v : Option Value), (h.off path).card < fuel →
      h.viewWithin (fuel + 1) path v = h.viewWithin fuel path v)
    (hfuel : (h.off path).card < fuel + 1) (hpath : r ∉ path)
    (hvs : h.objects.size ≤ r → vs = []) :
    ∀ v ∈ vs, h.viewWithin (fuel + 1) (r :: path) v = h.viewWithin fuel (r :: path) v := by
  intro v hv
  by_cases hr : r < h.objects.size
  · have := card_off_cons hr hpath
    exact ih (r :: path) v (by omega)
  · rw [hvs (Nat.le_of_not_lt hr)] at hv
    cases hv

theorem viewWithin_succ {fuel : Nat} {path : List Ref} {v : Option Value}
    (hfuel : (h.off path).card < fuel) :
    h.viewWithin (fuel + 1) path v = h.viewWithin fuel path v := by
  -- each step inside takes one object off those that are not on the path
  induction fuel generalizing path v with
  | zero => omega
  | succ fuel ih =>
    have inside (r : Ref) (vs : List (Option Value)) (hpath : ¬ path.contains r = true)
        (hvs : h.objects.size ≤ r → vs = []) :=
      viewWithin_inside (fun _ _ => ih) hfuel (by simpa using hpath) hvs
    match v with
    | none | some (.bool _) | some (.int _) | some (.float _) | some (.str _ _) => rfl
    | some (.tuple r) | some (.list r) =>
      rw [viewWithin, viewWithin]
      by_cases hpath : path.contains r = true
      · rw [if_pos hpath, if_pos hpath]
      · have hitems := inside r (h.itemsAt r).toList hpath fun hr => by simp [itemsAt_of_size_le hr]
        rw [if_neg hpath, if_neg hpath, mapM_congr hitems]
    | some (.table r) =>
      rw [viewWithin, viewWithin]
      by_cases hpath : path.contains r = true
      · rw [if_pos hpath, if_pos hpath]
      · have hvalues := inside r ((h.tableAt r).toList.map Prod.snd) hpath fun hr => by
          simp [tableAt_of_size_le hr, Table.toList]
        rw [if_neg hpath, if_neg hpath]
        congr 1
        apply mapM_congr
        intro e he
        rw [hvalues e.2 (List.mem_map_of_mem he)]

theorem viewWithin_eq_view {fuel : Nat} (hfuel : h.objects.size < fuel) (v : Option Value) :
    h.viewWithin fuel [] v = h.view v := by
  have hcard : (h.off []).card = h.objects.size := by simp [off]
  induction fuel with
  | zero => omega
  | succ fuel ih =>
    by_cases hlt : h.objects.size < fuel
    · rw [viewWithin_succ (by omega), ih hlt]
    · rw [view, show fuel = h.objects.size by omega]

/-! ## Plain values -/

/-- The value is made of absence, booleans, integers, strings and lists of such, and
looks like the datum. A list that contains itself is not made of anything. -/
inductive Plain (h : Heap) : Option Value → Datum → Prop
  | null : Plain h none .null
  | bool (b : Bool) : Plain h (some (.bool b)) (.bool b)
  | int (n : Int64) : Plain h (some (.int n)) (.int n)
  | str (r : Ref) (s : String) : Plain h (some (.str r s)) (.str s)
  | list {r : Ref} {items : Array (Option Value)} {ds : List Datum} :
      h.objects[r]? = some (.list items) → items.size = ds.length →
      (∀ (i : Nat) (v : Option Value) (d : Datum), items[i]? = some v → ds[i]? = some d → Plain h v d) →
      Plain h (some (.list r)) (.list ds)

theorem itemsAt_list {r : Ref} {items : Array (Option Value)} (hr : h.objects[r]? = some (.list items)) :
    h.itemsAt r = items := by
  simp [itemsAt, hr]

theorem Plain.unique {v : Option Value} {d d' : Datum} (hd : h.Plain v d) (hd' : h.Plain v d') :
    d = d' := by
  induction hd generalizing d' with
  | null => cases hd'; rfl
  | bool b => cases hd'; rfl
  | int n => cases hd'; rfl
  | str r s => cases hd'; rfl
  | @list r items ds hr hlen _ ih =>
    cases hd' with
    | @list _ items' ds' hr' hlen' hds' =>
      obtain rfl : items = items' := by rw [hr] at hr'; simpa using hr'
      congr 1
      apply List.ext_getElem (by omega)
      intro i hi hi'
      have hv : items[i]? = some items[i] := Array.getElem?_eq_getElem (by omega)
      exact ih i _ _ hv (List.getElem?_eq_getElem hi) (hds' i _ _ hv (List.getElem?_eq_getElem hi'))

theorem viewWithin_of_plain {v : Option Value} {d : Datum} (hd : h.Plain v d) {fuel : Nat}
    {path : List Ref} (hfuel : sizeOf d < fuel)
    (hpath : ∀ r ∈ path, ∃ d', h.Plain (some (.list r)) d' ∧ sizeOf d < sizeOf d') :
    h.viewWithin fuel path v = some d := by
  obtain ⟨fuel, rfl⟩ : ∃ k, fuel = k + 1 := ⟨fuel - 1, by omega⟩
  induction hd generalizing fuel path with
  | null => rfl
  | bool b => rfl
  | int n => rfl
  | str r s => rfl
  | @list r items ds hr hlen hds ih =>
    -- an object on the path looks like something larger, so the list is not among them
    have hnot : ¬ path.contains r = true := by
      intro hmem
      obtain ⟨d', hd', hlt⟩ := hpath r (by simpa using hmem)
      rw [hd'.unique (.list hr hlen hds)] at hlt
      omega
    rw [viewWithin, if_neg hnot, itemsAt_list hr]
    have hitems : ∀ (i : Nat) v d, items.toList[i]? = some v → ds[i]? = some d →
        h.viewWithin fuel (r :: path) v = some d := ?_
    · rw [mapM_eq_some (by simpa using hlen) hitems, Option.map_some]
    intro i v d hv hd
    have hlt : sizeOf d < sizeOf ds := List.sizeOf_lt_of_mem (List.mem_of_getElem? hd)
    have hlt' : sizeOf ds < sizeOf (Datum.list ds) := by simp
    obtain ⟨k, rfl⟩ : ∃ k, fuel = k + 1 := ⟨fuel - 1, by omega⟩
    refine ih i v d (by simpa using hv) hd ?_ k (by omega)
    intro x hx
    rcases List.mem_cons.mp hx with rfl | hx
    · exact ⟨_, .list hr hlen hds, by omega⟩
    · obtain ⟨d', hd', hlt⟩ := hpath x hx
      exact ⟨d', hd', by omega⟩

theorem view_of_plain {v : Option Value} {d : Datum} (hd : h.Plain v d) : h.view v = some d := by
  have henough : h.objects.size < h.objects.size + 1 + sizeOf d := by omega
  rw [← viewWithin_eq_view henough]
  exact viewWithin_of_plain hd (by omega) (by simp)

end Heap

end Lisplet
