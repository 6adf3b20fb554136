import Lisplet.Proofs.StackDiscipline

/-!
# Slots that are overlooked

Evaluation sees no slots of its frame but those that are bound in it, and owners of objects
are only counted. So it goes the same way on two machines that differ in how owners are
counted and in slots that do not occur: `walk_overlooks`.
-/

namespace Lisplet

/-! ## Stacks and machines that differ in hidden slots -/

structure CallStack.AlikeBut (hidden : Nat → Prop) (s s' : CallStack) : Prop where
  size : s.size = s'.size
  base : s.base = s'.base
  depth : s.depth = s'.depth
  slots : ∀ j, ¬ hidden j → s.slots[j]? = s'.slots[j]?

structure Machine.AlikeBut (hidden : Nat → Prop) (m m' : Machine) : Prop where
  objects : m.heap.objects = m'.heap.objects
  stack : m.stack.AlikeBut hidden m'.stack
  sink : m.sink = m'.sink
  log : m.log = m'.log

/-- The hidden slots are on the stack, and no variable in `touched` is among them. -/
structure CallStack.Hides (touched hidden : Nat → Prop) (s : CallStack) : Prop where
  untouched : ∀ k, touched k → ¬ hidden (s.base + k)
  inside : ∀ j, hidden j → j < s.size

namespace CallStack

variable {hidden touched : Nat → Prop} {s s' t : CallStack}

theorem AlikeBut.get (h : s.AlikeBut hidden s') {k : Nat} (hk : ¬ hidden (s.base + k)) :
    s.get k = s'.get k := by
  simp only [CallStack.get, ← h.base, h.slots _ hk]

theorem AlikeBut.push (h : s.AlikeBut hidden s') (v : Option Value) :
    (s.push v).AlikeBut hidden (s'.push v) := by
  have hsize : s.slots.size = s'.slots.size := h.size
  refine ⟨by rw [size_push, size_push, h.size], h.base, h.depth, fun j hj => ?_⟩
  simp only [CallStack.push, Array.getElem?_push, hsize, h.slots j hj]

theorem size_set (s : CallStack) (k : Nat) (v : Option Value) : (s.set k v).2.size = s.size := by
  unfold set
  split
  · simp [size]
  · rfl

theorem base_set (s : CallStack) (k : Nat) (v : Option Value) : (s.set k v).2.base = s.base := by
  unfold set
  split <;> rfl

theorem depth_set (s : CallStack) (k : Nat) (v : Option Value) : (s.set k v).2.depth = s.depth := by
  unfold set
  split <;> rfl

theorem slots_set (s : CallStack) (k : Nat) (v : Option Value) (j : Nat) :
    (s.set k v).2.slots[j]? = if s.base + k = j ∧ j < s.size then some v else s.slots[j]? := by
  unfold set
  cases hold : s.slots[s.base + k]? with
  | some old =>
    have hlt : s.base + k < s.slots.size := (Array.getElem?_eq_some_iff.mp hold).1
    simp only [Array.getElem?_setIfInBounds, size]
    by_cases hj : s.base + k = j
    · subst hj
      simp [hlt]
    · simp [hj]
  | none =>
    have hle : s.slots.size ≤ s.base + k := Array.getElem?_eq_none_iff.mp hold
    rw [if_neg]
    simp only [size]
    omega

theorem AlikeBut.set (h : s.AlikeBut hidden s') (k : Nat) (v : Option Value) :
    (s.set k v).2.AlikeBut hidden (s'.set k v).2 := by
  refine ⟨by rw [size_set, size_set, h.size], by rw [base_set, base_set, h.base],
    by rw [depth_set, depth_set, h.depth], fun j hj => ?_⟩
  rw [slots_set, slots_set, h.base, h.size, h.slots j hj]

theorem AlikeBut.truncate (h : s.AlikeBut hidden s') (n : Nat) :
    (s.truncate n).2.AlikeBut hidden (s'.truncate n).2 := by
  refine ⟨by rw [size_truncate, size_truncate, h.size], h.base, h.depth, fun j hj => ?_⟩
  rw [slots_truncate, slots_truncate, h.slots j hj]

theorem AlikeBut.enter (h : s.AlikeBut hidden s') (args locals : Nat) :
    (s.enter args locals).1 = (s'.enter args locals).1 ∧
      (s.enter args locals).2.2.AlikeBut hidden (s'.enter args locals).2.2 := by
  have htop := h.truncate (s'.size - args + locals)
  have hsize : (s.truncate (s'.size - args + locals)).2.slots.size =
      (s'.truncate (s'.size - args + locals)).2.slots.size := htop.size
  refine ⟨?_, ?_, ?_, ?_, fun j hj => ?_⟩
  · simp only [CallStack.enter, h.size, h.base]
  · rw [size_enter, size_enter, h.size]
  · simp only [CallStack.enter, h.size]
  · simp only [CallStack.enter, h.depth]
  · have hslot := htop.slots j hj
    simp only [CallStack.enter, h.size, Array.getElem?_append, hsize, hslot, htop.size]

theorem AlikeBut.leave (h : s.AlikeBut hidden s') (frame : Frame) :
    (s.leave frame).2.AlikeBut hidden (s'.leave frame).2 := by
  have hbelow := h.truncate frame.base
  exact ⟨hbelow.size, rfl, congrArg (· - 1) hbelow.depth, hbelow.slots⟩

theorem Hides.kept (h : s.Hides touched hidden) (hbase : t.base = s.base) (hsize : s.size ≤ t.size) :
    t.Hides touched hidden := by
  refine ⟨fun k hk => ?_, fun j hj => Nat.lt_of_lt_of_le (h.inside j hj) hsize⟩
  rw [hbase]
  exact h.untouched k hk

/-- In the frame of a call nothing is hidden. -/
theorem Hides.enter (h : s.Hides touched hidden) {args locals : Nat} (ht : t.size = s.size + args) :
    (t.enter args locals).2.2.Hides (fun _ => True) hidden := by
  have hbase : (t.enter args locals).2.2.base = s.size := by
    show t.size - args = s.size
    omega
  refine ⟨fun k _ hk => ?_, fun j hj => ?_⟩
  · have := h.inside _ hk
    omega
  · have := h.inside j hj
    rw [size_enter]
    omega

end CallStack

namespace Machine.AlikeBut

variable {hidden : Nat → Prop} {m m' : Machine}

theorem refl (hidden : Nat → Prop) (m : Machine) : m.AlikeBut hidden m :=
  ⟨rfl, ⟨rfl, rfl, rfl, fun _ _ => rfl⟩, rfl, rfl⟩

/-- Changes of the heap that give the same objects for the same objects. -/
theorem onHeap (h : m.AlikeBut hidden m') {f g : Heap → Heap}
    (hfg : (f m.heap).objects = (g m'.heap).objects) : (m.onHeap f).AlikeBut hidden (m'.onHeap g) :=
  ⟨hfg, h.stack, h.sink, h.log⟩

theorem recounted (h : m.AlikeBut hidden m') {f g : Heap → Heap} (hf : (f m.heap).objects = m.heap.objects)
    (hg : (g m'.heap).objects = m'.heap.objects) : (m.onHeap f).AlikeBut hidden (m'.onHeap g) :=
  h.onHeap (by rw [hf, hg, h.objects])

theorem release (h : m.AlikeBut hidden m') (v : Option Value) :
    (m.release v).AlikeBut hidden (m'.release v) :=
  h.recounted (Heap.objects_release _ v) (Heap.objects_release _ v)

theorem releaseTable (h : m.AlikeBut hidden m') (t : Table) :
    (m.releaseTable t).AlikeBut hidden (m'.releaseTable t) :=
  h.recounted (Heap.objects_releaseRefs _ _) (Heap.objects_releaseRefs _ _)

theorem setSlot (h : m.AlikeBut hidden m') (k : Nat) (v : Option Value) :
    (m.setSlot k v).AlikeBut hidden (m'.setSlot k v) :=
  ⟨by simpa [Machine.setSlot] using h.objects, h.stack.set k v, h.sink, h.log⟩

theorem push (h : m.AlikeBut hidden m') (v : Option Value) : (m.push v).AlikeBut hidden (m'.push v) :=
  ⟨h.objects, h.stack.push v, h.sink, h.log⟩

theorem truncate (h : m.AlikeBut hidden m') (size : Nat) :
    (m.truncate size).AlikeBut hidden (m'.truncate size) :=
  ⟨h.objects, h.stack.truncate size, h.sink, h.log⟩

theorem leave (h : m.AlikeBut hidden m') (frame : Frame) :
    (m.leave frame).AlikeBut hidden (m'.leave frame) := by
  have hstack := h.stack.leave frame
  refine ⟨h.objects, hstack, h.sink, ?_⟩
  simp only [Machine.leave, h.log, hstack.base, hstack.depth]

theorem frameOf (h : m.AlikeBut hidden m') (f : Function) (count : Nat) :
    (Code.frameOf f count m).1 = (Code.frameOf f count m').1 ∧
      (Code.frameOf f count m).2.AlikeBut hidden (Code.frameOf f count m').2 := by
  obtain ⟨hframe, hstack⟩ := h.stack.enter count f.locals
  refine ⟨hframe, h.objects, hstack, h.sink, ?_⟩
  simp only [Code.frameOf, Machine.note, Machine.enter, h.log, hstack.base, hstack.depth]

end Machine.AlikeBut

/-! ## Computations that overlook slots -/

namespace Eval

inductive EndsAlike (hidden : Nat → Prop) (s : CallStack) :
    EStateM.Result Stop Machine α → EStateM.Result Stop Machine α → Prop
  | ok (a : α) {m m' : Machine} : m.AlikeBut hidden m' → m.stack.base = s.base →
      s.size ≤ m.stack.size → EndsAlike hidden s (.ok a m) (.ok a m')
  | stopped (e : Stop) {m m' : Machine} : m.AlikeBut hidden m' →
      EndsAlike hidden s (.error e m) (.error e m')

/-- Of the slots of its frame the computation sees only those in `touched`, and it does not
see owners. -/
def Overlooks (touched : Nat → Prop) (act : Eval α) : Prop :=
  ∀ (hidden : Nat → Prop) (m m' : Machine), m.stack.Hides touched hidden → m.AlikeBut hidden m' →
    EndsAlike hidden m.stack (act m) (act m')

variable {touched : Nat → Prop} {α β : Type}

theorem Overlooks.pure (a : α) : (Pure.pure a : Eval α).Overlooks touched :=
  fun _ _ _ _ hm => .ok a hm rfl (Nat.le_refl _)

theorem Overlooks.fail (e : RuntimeError) : (Eval.fail e : Eval α).Overlooks touched :=
  fun _ _ _ _ hm => .stopped _ hm

theorem Overlooks.exhausted : (Eval.exhausted : Eval α).Overlooks touched :=
  fun _ _ _ _ hm => .stopped _ hm

theorem Overlooks.make {f : Heap → α × Heap}
    (hf : ∀ h h' : Heap, h.objects = h'.objects → SameAnswer (f h) (f h')) :
    (Eval.make f).Overlooks touched := by
  intro hidden m m' _ hm
  obtain ⟨hvalue, hobjects⟩ := hf m.heap m'.heap hm.objects
  show EndsAlike hidden m.stack (.ok (f m.heap).1 _) (.ok (f m'.heap).1 _)
  rw [← hvalue]
  exact .ok _ ⟨hobjects, hm.stack, hm.sink, hm.log⟩ rfl (Nat.le_refl _)

theorem Overlooks.onHeap {f : Heap → Heap}
    (hf : ∀ h h' : Heap, h.objects = h'.objects → (f h).objects = (f h').objects) :
    (Eval.onHeap f).Overlooks touched :=
  .make (f := fun h => ((), f h)) fun h h' e => ⟨rfl, hf h h' e⟩

theorem Overlooks.inspect {f : Heap → α} (hf : ∀ h h' : Heap, h.objects = h'.objects → f h = f h') :
    (Eval.inspect f).Overlooks touched :=
  .make (f := fun h => (f h, h)) fun h h' e => ⟨hf h h' e, e⟩

theorem Overlooks.release (v : Option Value) : (Eval.release v).Overlooks touched :=
  .onHeap (f := fun h => h.release v) fun _ _ e => by simpa using e

theorem Overlooks.retain (v : Option Value) : (Eval.onHeap fun h => h.retain v).Overlooks touched :=
  .onHeap fun _ _ e => by simpa using e

theorem Overlooks.getSlot {k : Nat} (hk : touched k) : (Eval.getSlot k).Overlooks touched := by
  intro hidden m m' hs hm
  have hget : m.stack.get k = m'.stack.get k := hm.stack.get (hs.untouched k hk)
  unfold Eval.getSlot
  dsimp only
  rw [← hget]
  exact .ok _ (hm.recounted (Heap.objects_retain _ _) (Heap.objects_retain _ _)) rfl (Nat.le_refl _)

theorem Overlooks.setSlot (k : Nat) (v : Option Value) : (Eval.setSlot k v).Overlooks touched :=
  fun _ m _ _ hm => .ok () (hm.setSlot k v) (CallStack.base_set m.stack k v)
    (Nat.le_of_eq (CallStack.size_set m.stack k v).symm)

theorem Overlooks.push (v : Option Value) : (Eval.push v).Overlooks touched := by
  intro hidden m m' _ hm
  have hsize : (m.push v).stack.size = m.stack.size + 1 := CallStack.size_push m.stack v
  exact .ok () (hm.push v) rfl (by omega)

theorem Overlooks.operation (k : Keyword) (vs : List (Option Value)) :
    (operation k vs).Overlooks touched := by
  intro hidden m m' _ hm
  obtain ⟨hresult, hobjects⟩ := applyOperation_congr hm.objects k vs
  unfold Lisplet.operation
  dsimp only
  rw [← hresult]
  cases (applyOperation k vs m.heap).1 with
  | none => exact .stopped _ ⟨hobjects, hm.stack, hm.sink, hm.log⟩
  | some v => exact .ok v ⟨hobjects, hm.stack, hm.sink, hm.log⟩ rfl (Nat.le_refl _)

theorem Overlooks.print (fuel : Nat) (v : Option Value) (span : Span) :
    (Eval.print fuel v span).Overlooks touched := by
  intro hidden m m' _ hm
  obtain ⟨stop, sink, h, h'⟩ := writes_print fuel v span m m' hm.objects hm.sink
  rw [h, h']
  cases stop with
  | none => exact .ok () ⟨hm.objects, hm.stack, rfl, hm.log⟩ rfl (Nat.le_refl _)
  | some e => exact .stopped e ⟨hm.objects, hm.stack, rfl, hm.log⟩

theorem Overlooks.bind {x : Eval α} {f : α → Eval β} (hx : x.Overlooks touched)
    (hf : ∀ a, (f a).Overlooks touched) : (x >>= f).Overlooks touched := by
  intro hidden m m' hs hm
  show EndsAlike hidden m.stack (EStateM.bind x f m) (EStateM.bind x f m')
  unfold EStateM.bind
  have hend := hx hidden m m' hs hm
  generalize x m = r, x m' = r' at hend
  cases hend with
  | stopped e hm => exact .stopped e hm
  | @ok a m₁ m₁' hm hbase hsize =>
    have hrest := hf a hidden m₁ m₁' (hs.kept hbase hsize) hm
    dsimp only
    generalize f a m₁ = r, f a m₁' = r' at hrest
    cases hrest with
    | stopped e hm => exact .stopped e hm
    | ok b hm hbase' hsize' => exact .ok b hm (hbase'.trans hbase) (Nat.le_trans hsize hsize')

theorem Overlooks.checked_bind {r : Except RuntimeError α} {f : α → Eval β}
    (h : ∀ a, r = .ok a → (f a).Overlooks touched) : (Eval.checked r >>= f).Overlooks touched := by
  cases r with
  | ok a => exact h a rfl
  | error e => exact .fail e

theorem Overlooks.orUndo {act : Eval α} {undo : Machine → Machine} (h : act.Overlooks touched)
    (hu : ∀ {hidden : Nat → Prop} {m m' : Machine}, m.AlikeBut hidden m' →
      (undo m).AlikeBut hidden (undo m')) : (act.orUndo undo).Overlooks touched := by
  intro hidden m m' hs hm
  have hend := h hidden m m' hs hm
  unfold Eval.orUndo
  generalize act m = r, act m' = r' at hend
  cases hend with
  | ok a hm hbase hsize => exact .ok a hm hbase hsize
  | stopped e hm => exact .stopped e (hu hm)

theorem Overlooks.thenRelease {act : Eval α} (h : act.Overlooks touched) (v : Option Value) :
    (act.thenClose (Machine.release v)).Overlooks touched := by
  intro hidden m m' hs hm
  have hend := h hidden m m' hs hm
  unfold Eval.thenClose
  generalize act m = r, act m' = r' at hend
  cases hend with
  | ok a hm hbase hsize => exact .ok a (hm.release v) hbase hsize
  | stopped e hm => exact .stopped e (hm.release v)

end Eval

/-! ## One step down the tree -/

structure Walk.Overlooks (w : Walk) : Prop where
  eval : ∀ {touched : Nat → Prop} {n : Node}, n.All (Leaf.SlotIn touched) → (w.eval n).Overlooks touched
  block : ∀ {touched : Nat → Prop} {n : Node}, n.All (Leaf.SlotIn touched) → (w.block n).Overlooks touched

open Node Eval

theorem evalLeaf_overlooks {touched : Nat → Prop} {l : Leaf} (h : l.SlotIn touched) :
    (evalLeaf l).Overlooks touched := by
  unfold evalLeaf
  split
  · split
    · exact .bind (.onHeap fun _ _ e => by simpa using e) fun _ => .pure _
    · exact .bind (.make fun _ _ e => newStr_congr e _) fun _ => .pure _
  · exact .pure _
  · exact .pure _
  · exact .pure _
  · exact .pure _
  · exact .fail _
  · split
    · rename_i hslot
      exact .getSlot (h _ hslot)
    · exact .fail _
    · exact .fail _

theorem whileLoop_overlooks {touched : Nat → Prop} {test : Eval Bool} {body : Eval Flow}
    (ht : test.Overlooks touched) (hb : body.Overlooks touched) (fuel : Nat) :
    (Code.whileLoop test body fuel).Overlooks touched := by
  induction fuel with
  | zero => exact .exhausted
  | succ fuel ih =>
    rw [Code.whileLoop_succ]
    refine .bind ht ?_
    intro b
    cases b with
    | false => exact .pure _
    | true =>
      refine .bind hb ?_
      intro flow
      cases flow with
      | normal => exact ih
      | returned v => exact .pure _

theorem forLoop_overlooks {touched : Nat → Prop} {body : Eval Flow} (hb : body.Overlooks touched)
    (slot : Nat) (r : Ref) (fuel i : Nat) : (Code.forLoop slot r body fuel i).Overlooks touched := by
  induction fuel generalizing i with
  | zero => exact .exhausted
  | succ fuel ih =>
    rw [Code.forLoop_succ]
    refine .bind (.inspect fun _ _ e => by rw [Heap.itemsAt_congr e]) ?_
    intro item
    cases item with
    | none => exact .pure _
    | some v =>
      refine .bind (.retain v) fun _ => .bind (.setSlot slot v) fun _ => .bind hb ?_
      intro flow
      cases flow with
      | normal => exact ih (i + 1)
      | returned v => exact .pure _

section
variable {w : Walk} (hw : w.Overlooks) {touched : Nat → Prop}
include hw

theorem evalAll_overlooks : ∀ {ns : List Node}, AllIn (Leaf.SlotIn touched) ns →
    (w.evalAll ns).Overlooks touched
  | [], _ => .pure _
  | _ :: _, h => .bind (hw.eval h.1) fun v =>
      .bind ((evalAll_overlooks h.2).orUndo fun hm => hm.release v) fun _ => .pure _

theorem pushAll_overlooks : ∀ {ns : List Node}, AllIn (Leaf.SlotIn touched) ns →
    (w.pushAll ns).Overlooks touched
  | [], _ => .pure _
  | _ :: _, h => .bind (hw.eval h.1) fun v => .bind (.push v) fun _ => pushAll_overlooks h.2

theorem sequence_overlooks : ∀ {ns : List Node}, AllIn (Leaf.SlotIn touched) ns →
    (w.sequence ns).Overlooks touched
  | [], _ => .pure _
  | n :: ns, h => by
    refine .bind (hw.block h.1) ?_
    intro flow
    cases flow with
    | normal => exact sequence_overlooks h.2
    | returned v => exact .pure _

theorem addEntries_overlooks (t : Table) (ns : List Node) (h : AllIn (Leaf.SlotIn touched) ns) :
    (w.addEntries t ns).Overlooks touched := by
  fun_induction Walk.addEntries w t ns with
  | case1 t k e rest ih1 ih2 =>
    refine .bind ((hw.eval h.1).orUndo fun hm => hm.releaseTable t) ?_
    intro key
    split
    · refine .bind ((hw.eval h.2.1).orUndo fun hm => (hm.release _).releaseTable t) ?_
      intro v
      refine .bind (.make fun _ _ e => ⟨by rw [Heap.putEntry_fst, Heap.putEntry_fst], by simpa using e⟩) ?_
      intro t
      exact ih1 t h.2.2
    · exact .bind (.release _) fun _ => ih2 h.2.2
  | case2 ns t => exact .pure t

theorem test_overlooks {n : Node} (h : n.All (Leaf.SlotIn touched)) : (w.test n).Overlooks touched :=
  .bind (hw.eval h) fun _ => .bind (.inspect fun _ _ e => Heap.truthy_congr e _) fun _ =>
    .bind (.release _) fun _ => .pure _

theorem assign_overlooks (target : Node) {e : Node} (he : e.All (Leaf.SlotIn touched)) :
    (w.assign target e).Overlooks touched :=
  .checked_bind fun slot _ => .bind (hw.eval he) fun v => .bind (.retain v) fun _ =>
    .bind (.setSlot slot v) fun _ => .pure v

/-! ## Calls -/

theorem call_overlooks (hk : w.Keeps) (c : Code) (index : Nat) {args : List Node} (span : Span)
    (h : AllIn (Leaf.SlotIn touched) args) : (c.call w index args span).Overlooks touched := by
  intro hidden m m' hs hm
  have hkeeps := call_keeps hk c index span h m
  cases hf : c.program.function? index with
  | none =>
    rw [c.call_unknown w args span m hf, c.call_unknown w args span m' hf]
    exact .stopped _ hm
  | some f =>
    have hdepth := hm.stack.depth
    by_cases hfull : c.isFull m.stack.depth = true
    · rw [c.call_full w args span hf hfull, c.call_full w args span hf (hdepth ▸ hfull)]
      exact .stopped _ hm
    by_cases hcount : args.length = f.arity
    · unfold Eval.after at hkeeps
      rw [c.call_accepted w span hf hfull hcount] at hkeeps ⊢
      rw [c.call_accepted w span hf (hdepth ▸ hfull) hcount]
      have hargs := pushAll_overlooks hw h hidden m m' hs hm
      have hsize : ∀ m₁, w.pushAll args m = .ok () m₁ → m₁.stack.size = m.stack.size + args.length :=
        fun _ => size_pushAll hk
      generalize w.pushAll args m = r, w.pushAll args m' = r' at hargs hkeeps hsize
      cases hargs with
      | stopped e hm₁ =>
        rw [← hm.stack.size]
        exact .stopped e (hm₁.truncate _)
      | @ok _ m₁ m₁' hm₁ _ _ =>
        dsimp only at hkeeps ⊢
        obtain ⟨hframe, hentered⟩ := hm₁.frameOf f args.length
        -- the new frame lies above all that is hidden, so the body may touch any of it
        have hhides : (Code.frameOf f args.length m₁).2.stack.Hides (fun _ => True) hidden :=
          hs.enter (hsize m₁ rfl)
        have hbody := sequence_overlooks hw (allIn_of_forall slotIn_true (c.program.body index)) hidden _ _
          hhides hentered
        rw [← hframe]
        generalize w.sequence (c.program.body index) (Code.frameOf f args.length m₁).2 = r,
          w.sequence (c.program.body index) (Code.frameOf f args.length m₁').2 = r' at hbody hkeeps
        cases hbody with
        | stopped e hm₂ => exact .stopped e (hm₂.leave _)
        | ok flow hm₂ _ _ =>
          cases flow with
          | normal => exact .ok none (hm₂.leave _) hkeeps.base (Nat.le_of_eq hkeeps.size.symm)
          | returned v => exact .ok v (hm₂.leave _) hkeeps.base (Nat.le_of_eq hkeeps.size.symm)
    · rw [c.call_miscounted w span hf hfull hcount, c.call_miscounted w span hf (hdepth ▸ hfull) hcount]
      exact .stopped _ hm

/-! ## Expressions -/

theorem evalKeyword_overlooks (k : Keyword) {args : List Node} (span : Span)
    (h : AllIn (Leaf.SlotIn touched) args) : (Code.evalKeyword w k args span).Overlooks touched := by
  have truthy (v : Option Value) : (Eval.inspect fun h => h.truthy v).Overlooks touched :=
    .inspect fun _ _ e => Heap.truthy_congr e v
  refine .checked_bind ?_
  intro _ _
  split
  · refine .bind (hw.eval h.1) fun v => .bind (truthy v) fun b => ?_
    cases b with
    | true => exact .bind (.release v) fun _ => hw.eval h.2.1
    | false => exact .pure v
  · refine .bind (hw.eval h.1) fun v => .bind (truthy v) fun b => ?_
    cases b with
    | true => exact .pure v
    | false => exact .bind (.release v) fun _ => hw.eval h.2.1
  · refine .bind (test_overlooks hw h.1) fun b => ?_
    cases b with
    | true => exact hw.eval h.2.1
    | false => exact hw.eval h.2.2.1
  · exact .bind (evalAll_overlooks hw h) fun _ => .bind (.make fun _ _ e => newList_congr e _) fun _ => .pure _
  · exact .bind (addEntries_overlooks hw {} _ h) fun t =>
      .bind (.make fun _ _ e => newTable_congr e t) fun _ => .pure _
  · exact assign_overlooks hw _ h.2.1
  any_goals exact .fail _
  exact .bind (evalAll_overlooks hw h) fun vs => .operation _ vs

theorem evalNode_overlooks (hk : w.Keeps) (c : Code) {n : Node} (h : n.All (Leaf.SlotIn touched)) :
    (c.evalNode w n).Overlooks touched := by
  unfold Code.evalNode
  split
  · exact evalLeaf_overlooks h
  · exact .fail _
  · exact .fail _
  · split
    · exact evalKeyword_overlooks hw _ _ h.2
    · exact .checked_bind fun index _ => call_overlooks hw hk c index _ h.2
    · exact .fail _

/-! ## Statements -/

theorem runKeyword_overlooks (fuel : Nat) (k : Keyword) {args : List Node} (span : Span)
    (h : AllIn (Leaf.SlotIn touched) args) : (Code.runKeyword w fuel k args span).Overlooks touched := by
  refine .checked_bind ?_
  intro _ _
  split
  · exact .bind (assign_overlooks hw _ h.2.1) fun _ => .bind (.release _) fun _ => .pure _
  · refine .bind (hw.eval h.1) fun v => ?_
    exact .bind ((Overlooks.print fuel v span).thenRelease v) fun _ => .pure _
  · exact .bind (evalAll_overlooks hw h) fun _ => .bind (.onHeap fun _ _ e => store_congr e _ _) fun _ => .pure _
  · exact .bind (evalAll_overlooks hw h) fun _ => .bind (.onHeap fun _ _ e => store_congr e _ _) fun _ => .pure _
  · exact .bind (evalAll_overlooks hw h) fun _ => .bind (.onHeap fun _ _ e => store_congr e _ _) fun _ => .pure _
  · split
    · exact .fail _
    · rename_i cond a b hparts
      obtain ⟨hcond, ha, hb⟩ := mem_of_ifParts hparts
      rw [allIn_iff] at h
      refine .bind (test_overlooks hw (h cond hcond)) ?_
      intro t
      cases t with
      | true => exact hw.block (h a ha)
      | false =>
        cases b with
        | none => exact .pure _
        | some b => exact hw.block (h b (hb b rfl))
  · exact whileLoop_overlooks (test_overlooks hw h.1) (sequence_overlooks hw h.2) fuel
  · refine .checked_bind ?_
    intro slot _
    refine .bind (hw.eval h.2.1) ?_
    intro v
    split
    · exact (forLoop_overlooks (sequence_overlooks hw h.2.2) slot _ fuel 0).thenRelease _
    · exact .bind (.release _) fun _ => .pure _
  · exact .fail _
  · exact .fail _
  · exact .pure _
  · exact .bind (hw.eval h.1) fun _ => .pure _
  · exact .fail _

theorem runBlock_overlooks (hk : w.Keeps) (c : Code) (fuel : Nat) {n : Node}
    (h : n.All (Leaf.SlotIn touched)) : (c.runBlock w fuel n).Overlooks touched := by
  match n, h with
  | .leaf l, _ => exact .fail _
  | .branch [] _ _, _ => exact .pure _
  | .branch (.branch _ _ _ :: _) _ _, h => exact sequence_overlooks hw h
  | .branch (.leaf head :: args) span _, h =>
    simp only [Code.runBlock, Code.runForm]
    split
    · exact runKeyword_overlooks hw fuel _ span h.2
    · exact .checked_bind fun index _ =>
        .bind (call_overlooks hw hk c index span h.2) fun _ => .bind (.release _) fun _ => .pure _
    · exact .fail _

end

theorem walk_overlooks (c : Code) (fuel : Nat) : (c.walk fuel).Overlooks := by
  induction fuel with
  | zero => exact ⟨fun _ => .exhausted, fun _ => .exhausted⟩
  | succ fuel ih =>
    have hk := walk_keeps c fuel
    exact ⟨fun h => evalNode_overlooks ih hk c h, fun h => runBlock_overlooks ih hk c fuel h⟩

end Lisplet
