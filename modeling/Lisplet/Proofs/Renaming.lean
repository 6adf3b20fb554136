import Lisplet.Piece
import Lisplet.Proofs.Handover
import Lisplet.Proofs.Views
import Mathlib.Data.List.Forall2

/-!
# Renamed places

Two heaps may hold the same things in different places. A `Renaming` says which
place stands for which; values, objects and heaps are the same up to it if they
differ in places only. Every operation on the heap gives the same result for the
same operands, and what is new on both sides gets places that stand for each other.
-/

namespace Lisplet

/-- Places of one heap and the places of another that stand for them, one for one. -/
structure Renaming where
  pairs : Ref → Ref → Prop
  unique : ∀ {a b a' b' : Ref}, pairs a a' → pairs b b' → (a = b ↔ a' = b')

/-! ## Rows of related things -/

section
variable {α β : Type} {R : α → β → Prop} {l : List α} {l' : List β}

theorem forall₂_getElem? (h : List.Forall₂ R l l') (i : Nat) : Option.Rel R l[i]? l'[i]? := by
  induction h generalizing i with
  | nil => simp
  | cons hab _ ih =>
    cases i with
    | zero => simpa using Option.Rel.some hab
    | succ i => simpa using ih i

theorem forall₂_set (h : List.Forall₂ R l l') (i : Nat) {a : α} {b : β} (hab : R a b) :
    List.Forall₂ R (l.set i a) (l'.set i b) := by
  induction h generalizing i with
  | nil => exact .nil
  | cons hcd hrest ih =>
    cases i with
    | zero => exact .cons hab hrest
    | succ i => exact .cons hcd (ih i)

theorem forall₂_modify (h : List.Forall₂ R l l') (i : Nat) {f : α → α} {g : β → β}
    (hfg : ∀ a b, R a b → R (f a) (g b)) : List.Forall₂ R (l.modify i f) (l'.modify i g) := by
  induction h generalizing i with
  | nil => simp
  | cons hab hrest ih =>
    cases i with
    | zero => exact .cons (hfg _ _ hab) hrest
    | succ i => exact .cons hab (ih i)

theorem forall₂_eraseIdx (h : List.Forall₂ R l l') (i : Nat) :
    List.Forall₂ R (l.eraseIdx i) (l'.eraseIdx i) := by
  induction h generalizing i with
  | nil => exact .nil
  | cons hcd hrest ih =>
    cases i with
    | zero => exact hrest
    | succ i => exact .cons hcd (ih i)

theorem forall₂_findIdx? (h : List.Forall₂ R l l') {p : α → Bool} {q : β → Bool}
    (hpq : ∀ a b, R a b → p a = q b) : l.findIdx? p = l'.findIdx? q := by
  induction h with
  | nil => rfl
  | cons hab _ ih => rw [List.findIdx?_cons, List.findIdx?_cons, hpq _ _ hab, ih]

theorem forall₂_mapM {γ : Type} (h : List.Forall₂ R l l') {f : α → Option γ} {g : β → Option γ}
    (hfg : ∀ a b, R a b → f a = g b) : l.mapM f = l'.mapM g := by
  induction h with
  | nil => simp
  | cons hab _ ih => rw [List.mapM_cons, List.mapM_cons, hfg _ _ hab, ih]

end

namespace Renaming

variable (ρ : Renaming)

/-! ## Values, objects and heaps -/

inductive SameValue : Option Value → Option Value → Prop
  | none : SameValue none none
  | bool (b : Bool) : SameValue (some (.bool b)) (some (.bool b))
  | int (n : Int64) : SameValue (some (.int n)) (some (.int n))
  | float (x : Float) : SameValue (some (.float x)) (some (.float x))
  | str {r r' : Ref} (s : String) : ρ.pairs r r' → SameValue (some (.str r s)) (some (.str r' s))
  | tuple {r r' : Ref} : ρ.pairs r r' → SameValue (some (.tuple r)) (some (.tuple r'))
  | list {r r' : Ref} : ρ.pairs r r' → SameValue (some (.list r)) (some (.list r'))
  | table {r r' : Ref} : ρ.pairs r r' → SameValue (some (.table r)) (some (.table r'))

abbrev SameValues (vs vs' : List (Option Value)) : Prop := List.Forall₂ ρ.SameValue vs vs'

structure SameKey (k k' : Key) : Prop where
  ref : ρ.pairs k.ref k'.ref
  text : k'.text = k.text

structure SameEntry (e e' : Entry) : Prop where
  key : ρ.SameKey e.key e'.key
  value : ρ.SameValue e.value e'.value

def SameTable (t t' : Table) : Prop := List.Forall₂ ρ.SameEntry t.entries.toList t'.entries.toList

inductive SameObject : Object → Object → Prop
  | str : SameObject .str .str
  | tuple {items items' : Array (Option Value)} : ρ.SameValues items.toList items'.toList →
      SameObject (.tuple items) (.tuple items')
  | list {items items' : Array (Option Value)} : ρ.SameValues items.toList items'.toList →
      SameObject (.list items) (.list items')
  | table {t t' : Table} : ρ.SameTable t t' → SameObject (.table t) (.table t')

/-- Places that stand for each other hold the same, or nothing yet; the places that
are still free stand for each other in their order. -/
structure SameObjects (os os' : Array Object) : Prop where
  at_pair : ∀ {r r' : Ref}, ρ.pairs r r' → Option.Rel ρ.SameObject os[r]? os'[r']?
  free : ∀ k, ρ.pairs (os.size + k) (os'.size + k)

variable {ρ}

theorem SameValue.of_scalar {v : Option Value} (h : Scalar v) : ρ.SameValue v v := by
  rcases v with _ | (_ | _ | _ | _ | _ | _ | _)
  · exact .none
  · exact .bool _
  · exact .int _
  · exact .float _
  all_goals cases h

theorem SameValue.join {x x' : Option (Option Value)} (h : Option.Rel ρ.SameValue x x') :
    ρ.SameValue x.join x'.join := by
  cases h with
  | none => exact .none
  | some h => exact h

/-! ## Scalar operations -/

section
variable {v v' l l' r r' : Option Value}

theorem equals_same (hl : ρ.SameValue l l') (hr : ρ.SameValue r r') :
    Builtin.equals l r = Builtin.equals l' r' := by
  cases hl <;> cases hr <;> rfl

theorem operands?_same (hl : ρ.SameValue l l') (hr : ρ.SameValue r r') :
    Builtin.operands? l r = Builtin.operands? l' r' := by
  cases hl <;> cases hr <;> rfl

theorem order?_same (hl : ρ.SameValue l l') (hr : ρ.SameValue r r') :
    Builtin.order? l r = Builtin.order? l' r' := by
  cases hl <;> cases hr <;> rfl

theorem position?_same (hv : ρ.SameValue v v') : Builtin.position? v = Builtin.position? v' := by
  cases hv <;> rfl

end

/-! ## Tables -/

section
variable {t t' : Table} (h : ρ.SameTable t t')
include h

theorem SameTable.position? (text : String) : t.position? text = t'.position? text := by
  obtain ⟨⟨es⟩⟩ := t
  obtain ⟨⟨es'⟩⟩ := t'
  simp only [Table.position?, List.findIdx?_toArray]
  exact forall₂_findIdx? h fun e e' he => by rw [he.key.text]

theorem SameTable.find? (text : String) : Option.Rel ρ.SameEntry (t.find? text) (t'.find? text) := by
  unfold Table.find?
  rw [h.position? text]
  cases t'.position? text with
  | none => exact .none
  | some i => simpa using forall₂_getElem? h i

theorem SameTable.get? (text : String) : Option.Rel ρ.SameValue (t.get? text) (t'.get? text) := by
  unfold Table.get?
  have he := h.find? text
  generalize t.find? text = e, t'.find? text = e' at he
  cases he with
  | none => exact .none
  | some he => exact .some he.value

theorem SameTable.size : t.size = t'.size := by
  simpa [Table.size] using List.Forall₂.length_eq h

theorem SameTable.set {k k' : Key} {v v' : Option Value} (hk : ρ.SameKey k k')
    (hv : ρ.SameValue v v') : ρ.SameTable (t.set k v) (t'.set k' v') := by
  unfold Table.set
  rw [hk.text, h.position? k.text]
  cases t'.position? k.text with
  | none => simpa [SameTable] using List.rel_append h (.cons ⟨hk, hv⟩ .nil)
  | some i =>
    have hset := forall₂_modify h i fun e e' he =>
      (⟨he.key, hv⟩ : ρ.SameEntry { e with value := v } { e' with value := v' })
    simpa [SameTable] using hset

theorem SameTable.erase (text : String) : ρ.SameTable (t.erase text) (t'.erase text) := by
  unfold Table.erase
  rw [h.position? text]
  cases t'.position? text with
  | none => exact h
  | some i => simpa [SameTable] using forall₂_eraseIdx h i

theorem SameTable.toList : List.Forall₂ (fun e e' : String × Option Value =>
    e.1 = e'.1 ∧ ρ.SameValue e.2 e'.2) t.toList t'.toList := by
  unfold Table.toList
  rw [List.forall₂_map_left_iff, List.forall₂_map_right_iff]
  exact List.Forall₂.imp (fun e e' he => ⟨he.key.text.symm, he.value⟩) h

end

/-! ## Reading -/

section
variable {h h' : Heap} (e : ρ.SameObjects h.objects h'.objects) {v v' : Option Value}
include e

theorem itemsAt_same {r r' : Ref} (hr : ρ.pairs r r') :
    ρ.SameValues (h.itemsAt r).toList (h'.itemsAt r').toList := by
  unfold Heap.itemsAt
  have ho := e.at_pair hr
  generalize h.objects[r]? = o, h'.objects[r']? = o' at ho
  cases ho with
  | none => exact .nil
  | some ho =>
    cases ho with
    | str => exact .nil
    | tuple hitems => exact hitems
    | list hitems => exact hitems
    | table _ => exact .nil

theorem tableAt_same {r r' : Ref} (hr : ρ.pairs r r') : ρ.SameTable (h.tableAt r) (h'.tableAt r') := by
  unfold Heap.tableAt
  have ho := e.at_pair hr
  generalize h.objects[r]? = o, h'.objects[r']? = o' at ho
  cases ho with
  | none => exact .nil
  | some ho =>
    cases ho with
    | str => exact .nil
    | tuple _ => exact .nil
    | list _ => exact .nil
    | table ht => exact ht

theorem itemAt_same {r r' : Ref} (hr : ρ.pairs r r') (i : Nat) :
    Option.Rel ρ.SameValue (h.itemsAt r)[i]? (h'.itemsAt r')[i]? := by
  simpa using forall₂_getElem? (itemsAt_same e hr) i

theorem itemCount_same {r r' : Ref} (hr : ρ.pairs r r') :
    (h.itemsAt r).size = (h'.itemsAt r').size := by
  simpa using (itemsAt_same e hr).length_eq

theorem truthy_same (hv : ρ.SameValue v v') : h.truthy v = h'.truthy v' := by
  have isEmpty_eq (a : Array (Option Value)) : a.isEmpty = decide (a.size = 0) := rfl
  cases hv with
  | tuple hr | list hr => simp only [Heap.truthy, isEmpty_eq, itemCount_same e hr]
  | table hr =>
    have hsize := (tableAt_same e hr).size
    have isEmpty_eq (t : Table) : t.isEmpty = decide (t.size = 0) := rfl
    simp only [Heap.truthy, isEmpty_eq, hsize]
  | _ => rfl

theorem length_same (hv : ρ.SameValue v v') : Builtin.length h v = Builtin.length h' v' := by
  cases hv with
  | tuple hr | list hr => simp only [Builtin.length, itemCount_same e hr]
  | table hr => simp only [Builtin.length, (tableAt_same e hr).size]
  | _ => rfl

theorem indexOf_same {c c' : Option Value} (hc : ρ.SameValue c c') (hv : ρ.SameValue v v') :
    Builtin.indexOf h c v = Builtin.indexOf h' c' v' := by
  cases hc with
  | @list r r' hr =>
    have hfind : (h.itemsAt r).findIdx? (Builtin.equals · v) =
        (h'.itemsAt r').findIdx? (Builtin.equals · v') := by
      have hitems := itemsAt_same e hr
      generalize h.itemsAt r = items, h'.itemsAt r' = items' at hitems
      obtain ⟨items⟩ := items
      obtain ⟨items'⟩ := items'
      simp only [List.findIdx?_toArray]
      exact forall₂_findIdx? hitems fun _ _ hx => equals_same hx hv
    cases hv <;> simp only [Builtin.indexOf, hfind]
  | str s hr => cases hv <;> rfl
  | _ => rfl

/-- What is selected is the same value, or the same text. -/
theorem select_same {c c' key key' : Option Value} (hc : ρ.SameValue c c')
    (hkey : ρ.SameValue key key') :
    (∃ x x', Builtin.select h c key = .inl x ∧ Builtin.select h' c' key' = .inl x' ∧
      ρ.SameValue x x') ∨
    ∃ text, Builtin.select h c key = .inr text ∧ Builtin.select h' c' key' = .inr text := by
  have hpos := position?_same hkey
  have hitem {r r' : Ref} (hr : ρ.pairs r r') :
      ρ.SameValue ((Builtin.position? key).bind fun i => (h.itemsAt r)[i]?.join)
        ((Builtin.position? key').bind fun i => (h'.itemsAt r')[i]?.join) := by
    rw [hpos]
    cases Builtin.position? key' with
    | none => exact .none
    | some i => exact (SameValue.join (itemAt_same e hr i))
  cases hc with
  | str s hr =>
    simp only [Builtin.select, hpos]
    cases (Builtin.position? key').bind (Text.charAt? s) with
    | none => exact .inl ⟨_, _, rfl, rfl, .none⟩
    | some ch => exact .inr ⟨_, rfl, rfl⟩
  | tuple hr => exact .inl ⟨_, _, rfl, rfl, hitem hr⟩
  | list hr => exact .inl ⟨_, _, rfl, rfl, hitem hr⟩
  | table hr =>
    cases hkey with
    | str text _ => exact .inl ⟨_, _, rfl, rfl, .join ((tableAt_same e hr).get? text)⟩
    | _ => exact .inl ⟨_, _, rfl, rfl, .none⟩
  | _ => exact .inl ⟨_, _, rfl, rfl, .none⟩

/-! Looking inside follows the same path in both heaps. -/

theorem viewWithin_same (fuel : Nat) {path path' : List Ref} (hpath : List.Forall₂ ρ.pairs path path')
    (hv : ρ.SameValue v v') : h.viewWithin fuel path v = h'.viewWithin fuel path' v' := by
  induction fuel generalizing path path' v v' with
  | zero => rfl
  | succ fuel ih =>
    -- places are paired one to one, so both paths close at the same time
    have hon {r r' : Ref} (hr : ρ.pairs r r') : path.contains r = path'.contains r' := by
      clear ih
      induction hpath with
      | nil => rfl
      | cons hq _ ih => rw [List.contains_cons, List.contains_cons, ih, Bool.beq_eq_decide_eq,
          Bool.beq_eq_decide_eq, decide_eq_decide.mpr (ρ.unique hr hq)]
    cases hv with
    | tuple hr | list hr =>
      simp only [Heap.viewWithin, hon hr,
        forall₂_mapM (itemsAt_same e hr) fun _ _ hx => ih (.cons hr hpath) hx]
    | table hr =>
      have hentries := forall₂_mapM (tableAt_same e hr).toList
        (f := fun x => (h.viewWithin fuel (_ :: path) x.2).map fun d => (x.1, d))
        (g := fun x => (h'.viewWithin fuel (_ :: path') x.2).map fun d => (x.1, d))
        fun x x' hx => by rw [hx.1, ih (.cons hr hpath) hx.2]
      simp only [Heap.viewWithin, hon hr, hentries]
    | _ => rfl

theorem render_same (hv : ρ.SameValue v v') : h.render v = h'.render v' := by
  have hlt : h.objects.size < max h.objects.size h'.objects.size + 1 := by omega
  have hlt' : h'.objects.size < max h.objects.size h'.objects.size + 1 := by omega
  unfold Heap.render
  rw [← Heap.viewWithin_eq_view hlt, ← Heap.viewWithin_eq_view hlt', viewWithin_same e _ .nil hv]

end

/-! ## Texts in pieces -/

variable (ρ) in
inductive SamePiece : Piece → Piece → Prop
  | text (s : String) : SamePiece (.text s) (.text s)
  | value {v v' : Option Value} : ρ.SameValue v v' → SamePiece (.value v) (.value v')

theorem ofItems_same {vs vs' : List (Option Value)} (h : ρ.SameValues vs vs') :
    List.Forall₂ ρ.SamePiece (Piece.ofItems vs) (Piece.ofItems vs') := by
  induction h with
  | nil => exact .nil
  | cons hv _ ih => exact .cons (.text _) (.cons (.value hv) ih)

theorem ofEntries_same {es es' : List (String × Option Value)}
    (h : List.Forall₂ (fun e e' => e.1 = e'.1 ∧ ρ.SameValue e.2 e'.2) es es') :
    List.Forall₂ ρ.SamePiece (Piece.ofEntries es) (Piece.ofEntries es') := by
  induction h with
  | nil => exact .nil
  | @cons e e' _ _ he _ ih =>
    obtain ⟨key, v⟩ := e
    obtain ⟨key', v'⟩ := e'
    obtain ⟨rfl, hv⟩ := he
    exact .cons (.text _) (.cons (.value hv) (.cons (.text _) ih))

theorem pieces_same {h h' : Heap} (e : ρ.SameObjects h.objects h'.objects) {v v' : Option Value}
    (hv : ρ.SameValue v v') : List.Forall₂ ρ.SamePiece (h.pieces v) (h'.pieces v') := by
  have close (s : String) : List.Forall₂ ρ.SamePiece [.text s] [.text s] := .cons (.text s) .nil
  cases hv with
  | tuple hr | list hr =>
    exact .cons (.text _) (List.rel_append (ofItems_same (itemsAt_same e hr)) (close _))
  | table hr =>
    exact .cons (.text _) (List.rel_append (ofEntries_same (tableAt_same e hr).toList) (close _))
  | _ => exact close _

/-! ## Making -/

variable (ρ) in
def SameAnswer {α β : Type} (A : α → β → Prop) (a : α × Heap) (b : β × Heap) : Prop :=
  A a.1 b.1 ∧ ρ.SameObjects a.2.objects b.2.objects

theorem SameObjects.push {os os' : Array Object} (e : ρ.SameObjects os os') {o o' : Object}
    (ho : ρ.SameObject o o') : ρ.SameObjects (os.push o) (os'.push o') := by
  refine ⟨?_, ?_⟩
  · intro r r' hr
    have hnew : r = os.size ↔ r' = os'.size := ρ.unique hr (e.free 0)
    rw [Array.getElem?_push, Array.getElem?_push]
    by_cases h : r = os.size
    · rw [if_pos h, if_pos (hnew.mp h)]
      exact .some ho
    · rw [if_neg h, if_neg (mt hnew.mpr h)]
      exact e.at_pair hr
  · intro k
    simpa [Nat.add_assoc, Nat.add_comm 1 k] using e.free (k + 1)

section
variable {h h' : Heap} (e : ρ.SameObjects h.objects h'.objects)
include e

theorem newStr_same (text : String) :
    ρ.SameAnswer (fun v v' => ρ.SameValue (some v) (some v')) (h.newStr text) (h'.newStr text) :=
  ⟨.str text (e.free 0), e.push .str⟩

theorem newList_same {items items' : Array (Option Value)} (hi : ρ.SameValues items.toList items'.toList) :
    ρ.SameAnswer (fun v v' => ρ.SameValue (some v) (some v')) (h.newList items) (h'.newList items') :=
  ⟨.list (e.free 0), e.push (.list hi)⟩

theorem newTable_same {t t' : Table} (ht : ρ.SameTable t t') :
    ρ.SameAnswer (fun v v' => ρ.SameValue (some v) (some v')) (h.newTable t) (h'.newTable t') :=
  ⟨.table (e.free 0), e.push (.table ht)⟩

theorem putEntry_same {t t' : Table} (ht : ρ.SameTable t t') {k k' : Key} (hk : ρ.SameKey k k')
    {v v' : Option Value} (hv : ρ.SameValue v v') :
    ρ.SameAnswer ρ.SameTable (h.putEntry t k v) (h'.putEntry t' k' v') := by
  refine ⟨?_, by simpa using e⟩
  rw [Heap.putEntry_fst, Heap.putEntry_fst]
  exact ht.set hk hv

/-! ## Operations -/

theorem add_same {l l' r r' : Option Value} (hl : ρ.SameValue l l') (hr : ρ.SameValue r r') :
    ρ.SameAnswer ρ.SameValue (Builtin.add h l r) (Builtin.add h' l' r') := by
  have hsum : ρ.SameAnswer ρ.SameValue (Builtin.sum l r, h) (Builtin.sum l' r', h') := by
    refine ⟨?_, e⟩
    unfold Builtin.sum
    rw [operands?_same hl hr]
    exact .of_scalar (scalar_sum l' r')
  cases hl with
  | str s _ =>
    cases hr with
    | str t _ => exact newStr_same e (s ++ t)
    | _ => exact hsum
  | _ => exact hsum

theorem getItem_same {c c' key key' : Option Value} (hc : ρ.SameValue c c')
    (hkey : ρ.SameValue key key') :
    ρ.SameAnswer ρ.SameValue (Builtin.getItem h c key) (Builtin.getItem h' c' key') := by
  unfold Builtin.getItem
  obtain ⟨x, x', hx, hx', hxx⟩ | ⟨text, hx, hx'⟩ := select_same e hc hkey
  · rw [hx, hx']
    exact ⟨hxx, by simpa using e⟩
  · rw [hx, hx']
    exact newStr_same e text

theorem toStr_same {v v' : Option Value} (hv : ρ.SameValue v v') :
    ρ.SameAnswer (Option.Rel fun x x' => ρ.SameValue (some x) (some x')) (Builtin.toStr h v)
      (Builtin.toStr h' v') := by
  have hrender := render_same e hv
  cases hv with
  | str s hr => exact ⟨.some (.str s hr), e⟩
  | _ =>
    simp only [Builtin.toStr, hrender]
    generalize h'.render _ = text
    cases text with
    | none => exact ⟨.none, e⟩
    | some text => exact ⟨.some (newStr_same e text).1, (newStr_same e text).2⟩

/-- A result that is computed from the operands alone. -/
theorem scalar_same {x x' : Option Value} (hx : Scalar x) (heq : x = x') :
    ρ.SameAnswer (Option.Rel ρ.SameValue) (some x, h) (some x', h') := by
  subst heq
  exact ⟨.some (.of_scalar hx), e⟩

theorem applyUnary_same (k : Keyword) {v v' : Option Value} (hv : ρ.SameValue v v') :
    ρ.SameAnswer (Option.Rel ρ.SameValue) (applyOperation k [v] h) (applyOperation k [v'] h') := by
  cases k with
  | sub => exact scalar_same e (scalar_neg v) (by cases hv <;> rfl)
  | not => exact scalar_same e (scalar_negation v) (by cases hv <;> rfl)
  | len => exact scalar_same e (scalar_length h v) (length_same e hv)
  | bool => exact scalar_same e rfl (by rw [truthy_same e hv])
  | int => exact scalar_same e (scalar_toInt v) (by cases hv <;> rfl)
  | float => exact scalar_same e (scalar_toFloat v) (by cases hv <;> rfl)
  | str =>
    have hstr := toStr_same e hv
    refine ⟨?_, hstr.2⟩
    show Option.Rel _ ((Builtin.toStr h v).1.map some) ((Builtin.toStr h' v').1.map some)
    have htext := hstr.1
    generalize (Builtin.toStr h v).1 = x, (Builtin.toStr h' v').1 = x' at htext
    cases htext with
    | none => exact .none
    | some hx => exact .some hx
  | typeOf =>
    have hname : Builtin.typeName v = Builtin.typeName v' := by cases hv <;> rfl
    have hstr := newStr_same e (Builtin.typeName v)
    show ρ.SameAnswer _ (_, (h.newStr (Builtin.typeName v)).2) (_, (h'.newStr (Builtin.typeName v')).2)
    rw [← hname]
    exact ⟨.some hstr.1, hstr.2⟩
  | _ => exact ⟨.none, e⟩

theorem applyBinary_same (k : Keyword) {l l' r r' : Option Value} (hl : ρ.SameValue l l')
    (hr : ρ.SameValue r r') :
    ρ.SameAnswer (Option.Rel ρ.SameValue) (applyOperation k [l, r] h)
      (applyOperation k [l', r'] h') := by
  have hoperands := operands?_same hl hr
  have horder := order?_same hl hr
  cases k with
  | add => exact ⟨.some (add_same e hl hr).1, (add_same e hl hr).2⟩
  | sub => exact scalar_same e (scalar_sub l r) (by simp only [Builtin.sub, hoperands])
  | mul => exact scalar_same e (scalar_mul l r) (by simp only [Builtin.mul, hoperands])
  | div => exact scalar_same e (scalar_div l r) (by simp only [Builtin.div, hoperands])
  | mod => exact scalar_same e (scalar_rem l r) (by simp only [Builtin.rem, hoperands])
  | eq => exact scalar_same e rfl (by rw [equals_same hl hr])
  | lt => exact scalar_same e (scalar_less l r) (by simp only [Builtin.less, horder])
  | gt => exact scalar_same e (scalar_greater l r) (by simp only [Builtin.greater, horder])
  | item => exact ⟨.some (getItem_same e hl hr).1, (getItem_same e hl hr).2⟩
  | index => exact scalar_same e (scalar_indexOf h l r) (indexOf_same e hl hr)
  | _ => exact ⟨.none, e⟩

theorem applyOperation_same (k : Keyword) {vs vs' : List (Option Value)} (hvs : ρ.SameValues vs vs') :
    ρ.SameAnswer (Option.Rel ρ.SameValue) (applyOperation k vs h) (applyOperation k vs' h') := by
  rcases hvs with _ | ⟨hl, _ | ⟨hr, _ | _⟩⟩
  · cases k <;> exact ⟨.none, e⟩
  · exact applyUnary_same e k hl
  · exact applyBinary_same e k hl hr
  · cases k <;> exact ⟨.none, e⟩

end

/-! ## Writing -/

/-- What stands in one place is changed alike on both sides. -/
theorem SameObjects.modify {os os' : Array Object} (e : ρ.SameObjects os os') {r r' : Ref}
    (hr : ρ.pairs r r') {f f' : Object → Object}
    (hf : ∀ o o', ρ.SameObject o o' → ρ.SameObject (f o) (f' o')) :
    ρ.SameObjects (os.modify r f) (os'.modify r' f') := by
  refine ⟨?_, by simpa using e.free⟩
  intro q q' hq
  have hsame : r = q ↔ r' = q' := ρ.unique hr hq
  have ho := e.at_pair hq
  rw [Array.getElem?_modify, Array.getElem?_modify]
  by_cases h : r = q
  · rw [if_pos h, if_pos (hsame.mp h)]
    generalize os[q]? = o, os'[q']? = o' at ho
    cases ho with
    | none => exact .none
    | some ho => exact .some (hf _ _ ho)
  · rw [if_neg h, if_neg (mt hsame.mpr h)]
    exact ho

section
variable {h h' : Heap} (e : ρ.SameObjects h.objects h'.objects) {r r' : Ref} (hr : ρ.pairs r r')
include e hr

theorem modifyList_same {f f' : Array (Option Value) → Array (Option Value)}
    (hf : ∀ items items', ρ.SameValues items.toList items'.toList →
      ρ.SameValues (f items).toList (f' items').toList) :
    ρ.SameObjects (h.modifyList r f).objects (h'.modifyList r' f').objects := by
  simp only [Heap.modifyList]
  apply e.modify hr
  intro o o' ho
  cases ho with
  | list hitems => exact .list (hf _ _ hitems)
  | str => exact .str
  | tuple hitems => exact .tuple hitems
  | table ht => exact .table ht

theorem modifyTable_same {f f' : Table → Table}
    (hf : ∀ t t', ρ.SameTable t t' → ρ.SameTable (f t) (f' t')) :
    ρ.SameObjects (h.modifyTable r f).objects (h'.modifyTable r' f').objects := by
  simp only [Heap.modifyTable]
  apply e.modify hr
  intro o o' ho
  cases ho with
  | table ht => exact .table (hf _ _ ht)
  | str => exact .str
  | tuple hitems => exact .tuple hitems
  | list hitems => exact .list hitems

theorem setElement_same (i : Nat) {v v' : Option Value} (hv : ρ.SameValue v v') :
    ρ.SameObjects (Builtin.setElement h r i v).objects (Builtin.setElement h' r' i v').objects := by
  unfold Builtin.setElement
  have hold := itemAt_same e hr i
  generalize (h.itemsAt r)[i]? = old, (h'.itemsAt r')[i]? = old' at hold
  cases hold with
  | none => simpa using e
  | some _ =>
    simp only [Heap.objects_release]
    refine modifyList_same e hr fun items items' hitems => ?_
    simpa using forall₂_set hitems i hv

theorem setEntry_same {k k' : Key} (hk : ρ.SameKey k k') {v v' : Option Value}
    (hv : ρ.SameValue v v') :
    ρ.SameObjects (Builtin.setEntry h r k v).objects (Builtin.setEntry h' r' k' v').objects := by
  have hset := modifyTable_same e hr fun t t' ht => ht.set hk hv
  have hold := (tableAt_same e hr).get? k.text
  unfold Builtin.setEntry
  rw [hk.text]
  generalize (h.tableAt r).get? k.text = old, (h'.tableAt r').get? k.text = old' at hold
  cases hold with
  | none => exact hset
  | some _ => exact hset

theorem removeElement_same (i : Nat) :
    ρ.SameObjects (Builtin.removeElement h r i).objects (Builtin.removeElement h' r' i).objects := by
  unfold Builtin.removeElement
  have hold := itemAt_same e hr i
  generalize (h.itemsAt r)[i]? = old, (h'.itemsAt r')[i]? = old' at hold
  cases hold with
  | none => exact e
  | some _ =>
    simp only [Heap.objects_release]
    refine modifyList_same e hr fun items items' hitems => ?_
    simpa using forall₂_eraseIdx hitems i

theorem removeEntry_same (text : String) :
    ρ.SameObjects (Builtin.removeEntry h r text).objects (Builtin.removeEntry h' r' text).objects := by
  unfold Builtin.removeEntry
  have hold := (tableAt_same e hr).find? text
  generalize (h.tableAt r).find? text = old, (h'.tableAt r').find? text = old' at hold
  cases hold with
  | none => exact e
  | some _ => exact modifyTable_same e hr fun t t' ht => ht.erase text

end

section
variable {h h' : Heap} (e : ρ.SameObjects h.objects h'.objects) {c c' key key' v v' : Option Value}
  (hc : ρ.SameValue c c')
include e hc

theorem setItem_same (hkey : ρ.SameValue key key') (hv : ρ.SameValue v v') :
    ρ.SameObjects (Builtin.setItem h c key v).objects (Builtin.setItem h' c' key' v').objects := by
  have hkeep : ρ.SameObjects (h.release v).objects (h'.release v').objects := by simpa using e
  cases hc with
  | list hr =>
    simp only [Builtin.setItem, position?_same hkey]
    cases Builtin.position? key' with
    | none => exact hkeep
    | some i => exact setElement_same e hr i hv
  | table hr =>
    cases hkey with
    | @str k k' text hk =>
      have hkey : ρ.SameKey ⟨k, text⟩ ⟨k', text⟩ := ⟨hk, rfl⟩
      exact setEntry_same (by simpa using e) hr hkey hv
    | _ => exact hkeep
  | _ => exact hkeep

theorem push_same (hv : ρ.SameValue v v') :
    ρ.SameObjects (Builtin.push h c v).objects (Builtin.push h' c' v').objects := by
  cases hc with
  | list hr =>
    refine modifyList_same e hr fun items items' hitems => ?_
    simpa using List.rel_append hitems (.cons hv .nil)
  | _ => simpa [Builtin.push] using e

theorem remove_same (hkey : ρ.SameValue key key') :
    ρ.SameObjects (Builtin.remove h c key).objects (Builtin.remove h' c' key').objects := by
  cases hc with
  | list hr =>
    simp only [Builtin.remove, position?_same hkey]
    cases Builtin.position? key' with
    | none => exact e
    | some i => exact removeElement_same e hr i
  | table hr =>
    cases hkey with
    | str text _ => exact removeEntry_same e hr text
    | _ => exact e
  | _ => exact e

end

theorem store_same (k : Keyword) {vs vs' : List (Option Value)} (hvs : ρ.SameValues vs vs')
    {h h' : Heap} (e : ρ.SameObjects h.objects h'.objects) :
    ρ.SameObjects (store k vs h).objects (store k vs' h').objects := by
  rcases hvs with _ | ⟨hc, _ | ⟨hx, _ | ⟨hv, _ | _⟩⟩⟩
  · cases k <;> exact e
  · cases k <;> exact e
  · cases k with
    | push => exact push_same e hc hx
    | remove => exact remove_same e hc hx
    | _ => exact e
  · cases k with
    | setItem => exact setItem_same e hc hx hv
    | _ => exact e
  · cases k <;> exact e

end Renaming

end Lisplet
