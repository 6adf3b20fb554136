import Lisplet.Eval.Step

/-!
# Contents without owners

What operations compute and what they write depends on the objects of a heap
alone, never on the counts of their owners; and counting changes no object.
-/

namespace Lisplet

namespace Heap

/-! ## Counting changes no object -/

@[simp] theorem objects_retainRef (h : Heap) (r : Ref) : (h.retainRef r).objects = h.objects := rfl

@[simp] theorem objects_retain (h : Heap) (v : Option Value) : (h.retain v).objects = h.objects := by
  unfold retain
  split <;> rfl

@[simp] theorem objects_releaseRefs (h : Heap) (refs : List Ref) :
    (h.releaseRefs refs).objects = h.objects := rfl

@[simp] theorem objects_release (h : Heap) (v : Option Value) :
    (h.release v).objects = h.objects := by
  unfold release
  split <;> rfl

@[simp] theorem objects_releaseAll (h : Heap) (vs : List (Option Value)) :
    (h.releaseAll vs).objects = h.objects := rfl

theorem putEntry_fst (h : Heap) (t : Table) (key : Key) (v : Option Value) :
    (h.putEntry t key v).1 = t.set key v := by
  unfold putEntry
  split <;> rfl

@[simp] theorem objects_putEntry (h : Heap) (t : Table) (key : Key) (v : Option Value) :
    (h.putEntry t key v).2.objects = h.objects := by
  unfold putEntry
  split <;> rfl

/-! ## Reading looks at objects only -/

variable {h h' : Heap}

theorem itemsAt_congr (e : h.objects = h'.objects) (r : Ref) : h.itemsAt r = h'.itemsAt r := by
  unfold itemsAt
  rw [e]

theorem tableAt_congr (e : h.objects = h'.objects) (r : Ref) : h.tableAt r = h'.tableAt r := by
  unfold tableAt
  rw [e]

theorem truthy_congr (e : h.objects = h'.objects) (v : Option Value) : h.truthy v = h'.truthy v := by
  unfold truthy
  split <;> simp only [itemsAt_congr e, tableAt_congr e]

theorem pieces_congr (e : h.objects = h'.objects) (v : Option Value) : h.pieces v = h'.pieces v := by
  unfold pieces
  split <;> simp only [itemsAt_congr e, tableAt_congr e]

theorem viewWithin_congr (e : h.objects = h'.objects) (fuel : Nat) :
    h.viewWithin fuel = h'.viewWithin fuel := by
  induction fuel with
  | zero => rfl
  | succ fuel ih =>
    funext path v
    rcases v with _ | (_ | _ | _ | _ | r | r | r) <;>
      simp only [viewWithin, ih, itemsAt_congr e, tableAt_congr e]

theorem render_congr (e : h.objects = h'.objects) (v : Option Value) : h.render v = h'.render v := by
  unfold render view
  rw [viewWithin_congr e, e]

end Heap

/-! ## Operations -/

def SameAnswer (a b : α × Heap) : Prop := a.1 = b.1 ∧ a.2.objects = b.2.objects

theorem SameAnswer.map {α β : Type} {a b : α × Heap} (h : SameAnswer a b) (f : α → β) :
    SameAnswer (f a.1, a.2) (f b.1, b.2) :=
  ⟨congrArg f h.1, h.2⟩

section
variable {h h' : Heap} (e : h.objects = h'.objects)
include e

theorem newStr_congr (text : String) : SameAnswer (h.newStr text) (h'.newStr text) := by
  simp [SameAnswer, Heap.newStr, Heap.alloc, e]

theorem newList_congr (items : Array (Option Value)) :
    SameAnswer (h.newList items) (h'.newList items) := by
  simp [SameAnswer, Heap.newList, Heap.alloc, e]

theorem newTable_congr (t : Table) : SameAnswer (h.newTable t) (h'.newTable t) := by
  simp [SameAnswer, Heap.newTable, Heap.alloc, e]

theorem add_congr (l r : Option Value) : SameAnswer (Builtin.add h l r) (Builtin.add h' l r) := by
  unfold Builtin.add
  split
  · exact (newStr_congr e _).map some
  · exact ⟨rfl, e⟩

theorem select_congr (c key : Option Value) : Builtin.select h c key = Builtin.select h' c key := by
  unfold Builtin.select
  split <;> simp only [Heap.itemsAt_congr e, Heap.tableAt_congr e]

theorem getItem_congr (c key : Option Value) :
    SameAnswer (Builtin.getItem h c key) (Builtin.getItem h' c key) := by
  unfold Builtin.getItem
  rw [select_congr e]
  cases Builtin.select h' c key with
  | inl v => exact ⟨rfl, by simp [e]⟩
  | inr text => exact (newStr_congr e text).map some

theorem length_congr (c : Option Value) : Builtin.length h c = Builtin.length h' c := by
  unfold Builtin.length
  split <;> simp only [Heap.itemsAt_congr e, Heap.tableAt_congr e]

theorem indexOf_congr (c v : Option Value) : Builtin.indexOf h c v = Builtin.indexOf h' c v := by
  unfold Builtin.indexOf
  split <;> simp only [Heap.itemsAt_congr e]

theorem toStr_congr (v : Option Value) : SameAnswer (Builtin.toStr h v) (Builtin.toStr h' v) := by
  unfold Builtin.toStr
  split
  · exact ⟨rfl, e⟩
  · rw [Heap.render_congr e]
    cases h'.render _ with
    | none => exact ⟨rfl, e⟩
    | some text => exact (newStr_congr e text).map some

theorem applyOperation_congr (k : Keyword) (vs : List (Option Value)) :
    SameAnswer (applyOperation k vs h) (applyOperation k vs h') := by
  have same (v : Option (Option Value)) : SameAnswer (v, h) (v, h') := ⟨rfl, e⟩
  unfold applyOperation
  split
  · exact (add_congr e _ _).map some
  any_goals exact same _
  · exact (getItem_congr e _ _).map some
  · rw [length_congr e]; exact same _
  · rw [indexOf_congr e]; exact same _
  · rw [Heap.truthy_congr e]; exact same _
  · exact (toStr_congr e _).map (Option.map some)
  · exact (newStr_congr e _).map fun s => some (some s)

/-! ## Writing -/

theorem modifyList_congr (r : Ref) (f : Array (Option Value) → Array (Option Value)) :
    (h.modifyList r f).objects = (h'.modifyList r f).objects := by
  unfold Heap.modifyList
  rw [e]

theorem modifyTable_congr (r : Ref) (f : Table → Table) :
    (h.modifyTable r f).objects = (h'.modifyTable r f).objects := by
  unfold Heap.modifyTable
  rw [e]

theorem setElement_congr (r : Ref) (i : Nat) (v : Option Value) :
    (Builtin.setElement h r i v).objects = (Builtin.setElement h' r i v).objects := by
  unfold Builtin.setElement
  rw [Heap.itemsAt_congr e]
  split
  · simpa using modifyList_congr e r _
  · simpa using e

theorem setEntry_congr (r : Ref) (key : Key) (v : Option Value) :
    (Builtin.setEntry h r key v).objects = (Builtin.setEntry h' r key v).objects := by
  unfold Builtin.setEntry
  rw [Heap.tableAt_congr e]
  split
  · simpa using modifyTable_congr e r _
  · exact modifyTable_congr e r _

theorem setItem_congr (c key v : Option Value) :
    (Builtin.setItem h c key v).objects = (Builtin.setItem h' c key v).objects := by
  unfold Builtin.setItem
  split
  · split
    · exact setElement_congr e _ _ _
    · simpa using e
  · exact setEntry_congr (by simpa using e) _ _ _
  · simpa using e

theorem push_congr (c v : Option Value) :
    (Builtin.push h c v).objects = (Builtin.push h' c v).objects := by
  unfold Builtin.push
  split
  · exact modifyList_congr e _ _
  · simpa using e

theorem remove_congr (c key : Option Value) :
    (Builtin.remove h c key).objects = (Builtin.remove h' c key).objects := by
  unfold Builtin.remove
  split
  · split
    · unfold Builtin.removeElement
      rw [Heap.itemsAt_congr e]
      split
      · simpa using modifyList_congr e _ _
      · exact e
    · exact e
  · unfold Builtin.removeEntry
    rw [Heap.tableAt_congr e]
    split
    · simpa using modifyTable_congr e _ _
    · exact e
  · exact e

theorem store_congr (k : Keyword) (vs : List (Option Value)) :
    (store k vs h).objects = (store k vs h').objects := by
  unfold store
  split
  · simpa using setItem_congr e _ _ _
  · simpa using push_congr e _ _
  · simpa using remove_congr e _ _
  · simpa using e

end

/-! ## Output -/

namespace Eval

def ended (stop : Option Stop) (m : Machine) : EStateM.Result Stop Machine Unit :=
  match stop with
  | none => .ok () m
  | some e => .error e m

/-- What is written and how that ends depends on the objects and on the sink, and
nothing but the sink changes. -/
def Writes (act : Eval Unit) : Prop :=
  ∀ m m' : Machine, m.heap.objects = m'.heap.objects → m.sink = m'.sink →
    ∃ stop sink, act m = ended stop { m with sink := sink } ∧
      act m' = ended stop { m' with sink := sink }

theorem writes_write (text : String) (span : Span) : Writes (write text span) := by
  rintro ⟨heap, stack, sink, log⟩ ⟨heap', stack', sink', log'⟩ - hsink
  obtain rfl : sink = sink' := hsink
  unfold write
  dsimp only
  cases hw : sink.write text.toUTF8 with
  | mk complete after =>
    cases complete with
    | true => exact ⟨none, after, rfl, rfl⟩
    | false => exact ⟨some (.error (.output Sink.refusal span)), after, rfl, rfl⟩

theorem writes_writePieces (span : Span) (fuel : Nat) (pieces : List Piece) :
    Writes (writePieces span fuel pieces) := by
  -- on the fuel, since a container gives way to the pieces of what is in it
  induction fuel generalizing pieces with
  | zero =>
    intro m m' _ hsink
    cases pieces with
    | nil => exact ⟨none, m.sink, rfl, by rw [hsink]; rfl⟩
    | cons _ _ => exact ⟨some .exhausted, m.sink, rfl, by rw [hsink]; rfl⟩
  | succ fuel ih =>
    intro m m' hobjects hsink
    cases pieces with
    | nil => exact ⟨none, m.sink, rfl, by rw [hsink]; rfl⟩
    | cons p rest =>
      cases p with
      | text s =>
        obtain ⟨stop, sink, hm, hm'⟩ := writes_write s span m m' hobjects hsink
        simp only [writePieces, hm, hm']
        cases stop with
        | none => exact ih rest { m with sink := sink } { m' with sink := sink } hobjects rfl
        | some e => exact ⟨some e, sink, rfl, rfl⟩
      | value v =>
        simp only [writePieces, Heap.pieces_congr hobjects v]
        exact ih _ m m' hobjects hsink

theorem writes_print (fuel : Nat) (v : Option Value) (span : Span) :
    Writes (print fuel v span) := by
  unfold print
  split
  · exact writes_write _ span
  · exact writes_writePieces span fuel _

end Eval

end Lisplet
