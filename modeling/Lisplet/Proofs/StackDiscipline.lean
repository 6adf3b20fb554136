import Lisplet.Proofs.Contents
import Lisplet.Proofs.Equations
import Lisplet.Proofs.Leaves

/-!
# Stack discipline

Whatever is evaluated or run leaves the call stack as high as it was, with the
same base and depth, and touches only slots of the frame that are bound in it.
This holds also when evaluation stops halfway: arguments already pushed are
dropped and frames already entered are left. `stack_restored` says so for every
way into a program.
-/

namespace Lisplet

namespace CallStack

/-- `t` differs from `s` at most in those slots of the frame whose numbers are in
`touched`. -/
structure SameOutside (touched : Nat → Prop) (s t : CallStack) : Prop where
  size : t.size = s.size
  base : t.base = s.base
  depth : t.depth = s.depth
  slots : ∀ i, (∀ k, touched k → i ≠ s.base + k) → t.slots[i]? = s.slots[i]?

/-- `t` has grown out of `s`: there may be arguments on top. -/
structure Grown (touched : Nat → Prop) (s t : CallStack) : Prop where
  size : s.size ≤ t.size
  base : t.base = s.base
  depth : t.depth = s.depth
  slots : ∀ i < s.size, (∀ k, touched k → i ≠ s.base + k) → t.slots[i]? = s.slots[i]?

variable {touched : Nat → Prop} {s t u : CallStack}

theorem SameOutside.refl (touched : Nat → Prop) (s : CallStack) : s.SameOutside touched s :=
  ⟨rfl, rfl, rfl, fun _ _ => rfl⟩

theorem SameOutside.trans (h : s.SameOutside touched t) (h' : t.SameOutside touched u) :
    s.SameOutside touched u := by
  refine ⟨h'.size.trans h.size, h'.base.trans h.base, h'.depth.trans h.depth, ?_⟩
  intro i hi
  rw [h'.slots i (by rw [h.base]; exact hi), h.slots i hi]

theorem SameOutside.grown (h : s.SameOutside touched t) : s.Grown touched t :=
  ⟨Nat.le_of_eq h.size.symm, h.base, h.depth, fun i _ hi => h.slots i hi⟩

theorem Grown.trans (h : s.Grown touched t) (h' : t.Grown touched u) : s.Grown touched u := by
  refine ⟨Nat.le_trans h.size h'.size, h'.base.trans h.base, h'.depth.trans h.depth, ?_⟩
  intro i his hi
  rw [h'.slots i (Nat.lt_of_lt_of_le his h.size) (by rw [h.base]; exact hi), h.slots i his hi]

theorem grown_push (touched : Nat → Prop) (s : CallStack) (v : Option Value) :
    s.Grown touched (s.push v) := by
  refine ⟨by simp [push, size], rfl, rfl, ?_⟩
  intro i hi _
  have hne : i ≠ s.slots.size := Nat.ne_of_lt hi
  simp [push, Array.getElem?_push, hne]

theorem size_push (s : CallStack) (v : Option Value) : (s.push v).size = s.size + 1 := by
  simp [push, size]

theorem sameOutside_set {k : Nat} (hk : touched k) (s : CallStack) (v : Option Value) :
    s.SameOutside touched (s.set k v).2 := by
  unfold set
  split
  · refine ⟨by simp [size], rfl, rfl, ?_⟩
    intro i hi
    exact Array.getElem?_setIfInBounds_ne (Ne.symm (hi k hk))
  · exact .refl touched s

theorem slots_truncate (s : CallStack) (n i : Nat) :
    (s.truncate n).2.slots[i]? = if i < n then s.slots[i]? else none := by
  simp only [truncate, Array.shrink_eq_take, Array.take_eq_extract, Array.getElem?_extract,
    Nat.zero_add, Nat.sub_zero]
  by_cases hi : i < n
  · rw [if_pos hi]
    by_cases hs : i < s.slots.size
    · rw [if_pos (by omega)]
    · rw [if_neg (by omega), Array.getElem?_eq_none (Nat.le_of_not_lt hs)]
  · rw [if_neg hi, if_neg (by omega)]

theorem size_truncate (s : CallStack) (n : Nat) : (s.truncate n).2.size = min n s.size := by
  simp [truncate, size]

/-- Dropping what has grown on top gives the former height back. -/
theorem Grown.truncate (h : s.Grown touched t) :
    s.SameOutside touched (t.truncate s.size).2 := by
  refine ⟨by rw [size_truncate, Nat.min_eq_left h.size], h.base, h.depth, ?_⟩
  intro i hi
  rw [slots_truncate]
  by_cases his : i < s.size
  · rw [if_pos his, h.slots i his hi]
  · rw [if_neg his, Array.getElem?_eq_none (Nat.le_of_not_lt his)]

/-! ## Frames -/

/-- Everything below the arguments stays in its place when a frame is entered. -/
theorem slots_enter_below (s : CallStack) (args locals : Nat) {i : Nat} (hi : i < s.size - args) :
    (s.enter args locals).2.2.slots[i]? = s.slots[i]? := by
  have ht := slots_truncate s (s.size - args + locals) i
  rw [if_pos (by omega)] at ht
  have his : i < (s.truncate (s.size - args + locals)).2.slots.size := by
    have := size_truncate s (s.size - args + locals)
    simp only [size] at this hi ⊢
    omega
  rw [enter, ← ht]
  exact Array.getElem?_append_left his

theorem size_enter (s : CallStack) (args locals : Nat) :
    (s.enter args locals).2.2.size = s.size - args + locals := by
  have := size_truncate s (s.size - args + locals)
  simp only [enter, size, Array.size_append, Array.size_replicate] at this ⊢
  omega

/-- A new frame holds the arguments, and behind them absent values. -/
theorem slots_enter (s : CallStack) {args locals k : Nat} (hargs : args ≤ s.size)
    (hfits : args ≤ locals) (hk : k < locals) :
    (s.enter args locals).2.2.slots[(s.enter args locals).2.2.base + k]? =
      if k < args then s.slots[s.size - args + k]? else some none := by
  have hsize : (s.truncate (s.size - args + locals)).2.slots.size = s.size := by
    have := size_truncate s (s.size - args + locals)
    simp only [size] at this hargs ⊢
    omega
  change ((s.truncate (s.size - args + locals)).2.slots ++ Array.replicate
    (s.size - args + locals - (s.truncate (s.size - args + locals)).2.slots.size) none)[
      s.size - args + k]? = _
  rw [Array.getElem?_append, hsize]
  by_cases hka : k < args
  · rw [if_pos (by omega), if_pos hka, slots_truncate, if_pos (by omega)]
  · rw [if_neg (by omega), if_neg hka, Array.getElem?_replicate, if_pos (by omega)]

/-- A call that runs in its own frame leaves its caller's frame alone. -/
theorem Grown.leave {args locals : Nat} (h : s.Grown touched t) (hsize : t.size = s.size + args)
    (hu : (t.enter args locals).2.2.SameOutside (fun _ => True) u) :
    s.SameOutside touched (u.leave (t.enter args locals).1).2 := by
  have hbase : t.size - args = s.size := by omega
  have husize : s.size ≤ u.size := by rw [hu.size, size_enter]; omega
  refine ⟨?_, h.base, ?_, ?_⟩
  · change (u.truncate (t.size - args)).2.size = s.size
    rw [size_truncate, hbase, Nat.min_eq_left husize]
  · change u.depth - 1 = s.depth
    rw [hu.depth, ← h.depth]
    rfl
  · intro i hi
    change (u.truncate (t.size - args)).2.slots[i]? = s.slots[i]?
    rw [slots_truncate, hbase]
    -- what the callee could reach starts at `s.size`, and above it nothing is left
    by_cases his : i < s.size
    · have hbelow : ∀ k, True → i ≠ (t.enter args locals).2.2.base + k := by
        intro k _
        change i ≠ t.size - args + k
        omega
      rw [if_pos his, hu.slots i hbelow, slots_enter_below t args locals (by omega),
        h.slots i his hi]
    · rw [if_neg his, Array.getElem?_eq_none (Nat.le_of_not_lt his)]

end CallStack

def Leaf.SlotIn (touched : Nat → Prop) (l : Leaf) : Prop :=
  ∀ k, l.binding = some (.slot k) → touched k

theorem slotIn_true (l : Leaf) : l.SlotIn fun _ => True := fun _ _ => trivial

/-! ## Computations that keep the stack -/

namespace Eval

def after (act : Eval α) (m : Machine) : Machine :=
  match act m with
  | .ok _ m => m
  | .error _ m => m

/-- The stack differs afterwards at most in the slots of the frame in `touched`. -/
def Keeps (touched : Nat → Prop) (act : Eval α) : Prop :=
  ∀ m : Machine, m.stack.SameOutside touched (act.after m).stack

variable {touched : Nat → Prop} {α β : Type}

/-- Computations that leave the stack itself alone. -/
theorem Keeps.of_stack_eq {act : Eval α} (h : ∀ m, (act.after m).stack = m.stack) :
    act.Keeps touched := by
  intro m
  rw [h m]
  exact .refl touched m.stack

theorem Keeps.pure (a : α) : (Pure.pure a : Eval α).Keeps touched := .of_stack_eq fun _ => rfl

theorem Keeps.fail (e : RuntimeError) : (Eval.fail e : Eval α).Keeps touched :=
  .of_stack_eq fun _ => rfl

theorem Keeps.exhausted : (Eval.exhausted : Eval α).Keeps touched := .of_stack_eq fun _ => rfl

theorem Keeps.release (v : Option Value) : (Eval.release v).Keeps touched :=
  .of_stack_eq fun _ => rfl

theorem Keeps.onHeap (f : Heap → Heap) : (Eval.onHeap f).Keeps touched := .of_stack_eq fun _ => rfl

theorem Keeps.make (f : Heap → α × Heap) : (Eval.make f).Keeps touched := .of_stack_eq fun _ => rfl

theorem Keeps.inspect (f : Heap → α) : (Eval.inspect f).Keeps touched := .of_stack_eq fun _ => rfl

theorem Keeps.getSlot (k : Nat) : (Eval.getSlot k).Keeps touched := .of_stack_eq fun _ => rfl

theorem Keeps.setSlot {k : Nat} (hk : touched k) (v : Option Value) :
    (Eval.setSlot k v).Keeps touched :=
  fun m => CallStack.sameOutside_set hk m.stack v

theorem Keeps.bind {x : Eval α} {f : α → Eval β} (hx : x.Keeps touched)
    (hf : ∀ a, (f a).Keeps touched) : (x >>= f).Keeps touched := by
  intro m
  have h := hx m
  unfold after at h ⊢
  change CallStack.SameOutside touched _ (match EStateM.bind x f m with
    | .ok _ m => m
    | .error _ m => m).stack
  unfold EStateM.bind
  cases hm : x m with
  | ok a m' => rw [hm] at h; exact h.trans (hf a m')
  | error e m' => rw [hm] at h; exact h

/-- What follows a check needs to keep the stack only if the check succeeds. -/
theorem Keeps.checked_bind {r : Except RuntimeError α} {f : α → Eval β}
    (h : ∀ a, r = .ok a → (f a).Keeps touched) : (Eval.checked r >>= f).Keeps touched := by
  cases r with
  | ok a => exact h a rfl
  | error e => exact .of_stack_eq fun _ => rfl

theorem Keeps.orUndo {act : Eval α} {undo : Machine → Machine} (h : act.Keeps touched)
    (hu : ∀ m, (undo m).stack = m.stack) : (act.orUndo undo).Keeps touched := by
  intro m
  have h := h m
  unfold after at h ⊢
  unfold Eval.orUndo
  cases hm : act m with
  | ok a m' => rw [hm] at h; exact h
  | error e m' => rw [hm] at h; simpa [hu] using h

theorem Keeps.thenClose {act : Eval α} {close : Machine → Machine} (h : act.Keeps touched)
    (hc : ∀ m, (close m).stack = m.stack) : (act.thenClose close).Keeps touched := by
  intro m
  have h := h m
  unfold after at h ⊢
  unfold Eval.thenClose
  cases hm : act m with
  | ok a m' => rw [hm] at h; simpa [hc] using h
  | error e m' => rw [hm] at h; simpa [hc] using h

theorem Keeps.print (fuel : Nat) (v : Option Value) (span : Span) :
    (Eval.print fuel v span).Keeps touched := by
  apply Keeps.of_stack_eq
  intro m
  obtain ⟨stop, sink, hm, -⟩ := writes_print fuel v span m m rfl rfl
  unfold after
  rw [hm]
  cases stop <;> rfl

end Eval

/-! ## One step down the tree -/

structure Walk.Keeps (w : Walk) : Prop where
  eval : ∀ {touched : Nat → Prop} {n : Node}, n.All (Leaf.SlotIn touched) → (w.eval n).Keeps touched
  block : ∀ {touched : Nat → Prop} {n : Node}, n.All (Leaf.SlotIn touched) → (w.block n).Keeps touched

open Node Eval

theorem evalLeaf_keeps {touched : Nat → Prop} (l : Leaf) : (evalLeaf l).Keeps touched := by
  unfold evalLeaf
  split
  · split
    · exact .bind (.onHeap _) fun _ => .pure _
    · exact .bind (.make _) fun _ => .pure _
  · exact .pure _
  · exact .pure _
  · exact .pure _
  · exact .pure _
  · exact .fail _
  · split
    · exact .getSlot _
    · exact .fail _
    · exact .fail _

theorem Eval.Keeps.operation {touched : Nat → Prop} (k : Keyword) (vs : List (Option Value)) :
    (operation k vs).Keeps touched := by
  apply Keeps.of_stack_eq
  rintro ⟨heap, stack, sink, log⟩
  unfold after Lisplet.operation
  dsimp only
  cases applyOperation k vs heap with
  | mk result heap => cases result <;> rfl

theorem mem_of_ifParts {args : List Node} {cond a : Node} {b : Option Node}
    (h : ifParts args = some (cond, a, b)) :
    cond ∈ args ∧ a ∈ args ∧ ∀ x, b = some x → x ∈ args := by
  unfold ifParts at h
  split at h
  · cases h; simp
  · split at h
    · cases h
    · cases h; simp
  · split at h
    · cases h; simp
    · cases h
  · cases h

theorem whileLoop_keeps {touched : Nat → Prop} {test : Eval Bool} {body : Eval Flow}
    (ht : test.Keeps touched) (hb : body.Keeps touched) (fuel : Nat) :
    (Code.whileLoop test body fuel).Keeps touched := by
  induction fuel with
  | zero => exact .exhausted
  | succ fuel ih =>
    rw [Code.whileLoop_succ]
    refine .bind ht ?_
    intro b
    cases b with
    | false => exact .pure _
    | true =>
      refine .bind hb ?_
      intro flow
      cases flow with
      | normal => exact ih
      | returned v => exact .pure _

theorem forLoop_keeps {touched : Nat → Prop} {slot : Nat} {body : Eval Flow} (hs : touched slot)
    (hb : body.Keeps touched) (r : Ref) (fuel i : Nat) :
    (Code.forLoop slot r body fuel i).Keeps touched := by
  induction fuel generalizing i with
  | zero => exact .exhausted
  | succ fuel ih =>
    rw [Code.forLoop_succ]
    refine .bind (.inspect _) ?_
    intro item
    cases item with
    | none => exact .pure _
    | some v =>
      refine .bind (.onHeap _) fun _ => .bind (.setSlot hs v) fun _ => .bind hb ?_
      intro flow
      cases flow with
      | normal => exact ih (i + 1)
      | returned v => exact .pure _

theorem touched_of_slotOf {touched : Nat → Prop} {target : Node} {k : Nat}
    (ht : target.All (Leaf.SlotIn touched)) (hk : slotOf target = .ok k) : touched k := by
  unfold slotOf at hk
  split at hk
  · cases hk
  · split at hk
    · rename_i l _ hl
      cases hk
      exact ht _ hl
    · cases hk

section
variable {w : Walk} (hw : w.Keeps) {touched : Nat → Prop}
include hw

theorem evalAll_keeps : ∀ {ns : List Node}, AllIn (Leaf.SlotIn touched) ns → (w.evalAll ns).Keeps touched
  | [], _ => .pure _
  | _ :: _, h => .bind (hw.eval h.1) fun _ =>
      .bind ((evalAll_keeps h.2).orUndo fun _ => rfl) fun _ => .pure _

theorem sequence_keeps : ∀ {ns : List Node}, AllIn (Leaf.SlotIn touched) ns → (w.sequence ns).Keeps touched
  | [], _ => .pure _
  | n :: ns, h => by
    refine .bind (hw.block h.1) ?_
    intro flow
    cases flow with
    | normal => exact sequence_keeps h.2
    | returned v => exact .pure _

theorem addEntries_keeps (t : Table) (ns : List Node) (h : AllIn (Leaf.SlotIn touched) ns) :
    (w.addEntries t ns).Keeps touched := by
  fun_induction Walk.addEntries w t ns with
  | case1 t k e rest ih1 ih2 =>
    refine .bind ((hw.eval h.1).orUndo fun _ => rfl) ?_
    intro key
    split
    · refine .bind ((hw.eval h.2.1).orUndo fun _ => rfl) ?_
      intro v
      refine .bind (.make _) ?_
      intro t
      exact ih1 t h.2.2
    · exact .bind (.release _) fun _ => ih2 h.2.2
  | case2 t ns => exact .pure t

theorem test_keeps {n : Node} (h : n.All (Leaf.SlotIn touched)) : (w.test n).Keeps touched :=
  .bind (hw.eval h) fun _ => .bind (.inspect _) fun _ => .bind (.release _) fun _ => .pure _

theorem assign_keeps {target e : Node} (ht : target.All (Leaf.SlotIn touched)) (he : e.All (Leaf.SlotIn touched)) :
    (w.assign target e).Keeps touched := by
  refine .checked_bind ?_
  intro k hk
  exact .bind (hw.eval he) fun _ => .bind (.onHeap _) fun _ =>
    .bind (.setSlot (touched_of_slotOf ht hk) _) fun _ => .pure _

/-! ## Calls -/

/-- Arguments are pushed on top of a stack that is otherwise kept. -/
theorem pushAll_grown {ns : List Node} (h : AllIn (Leaf.SlotIn touched) ns) (m : Machine) :
    m.stack.Grown touched ((w.pushAll ns).after m).stack := by
  induction ns generalizing m with
  | nil => exact (CallStack.SameOutside.refl touched m.stack).grown
  | cons n ns ih =>
    have hn := hw.eval h.1 m
    unfold Eval.after at hn ⊢
    simp only [Walk.pushAll, bind, EStateM.bind]
    cases hm : w.eval n m with
    | error e m' => rw [hm] at hn; exact hn.grown
    | ok v m' =>
      rw [hm] at hn
      exact (hn.grown.trans (CallStack.grown_push touched m'.stack v)).trans (ih h.2 (m'.push v))

theorem size_pushAll {ns : List Node} {m m' : Machine} (h : w.pushAll ns m = .ok () m') :
    m'.stack.size = m.stack.size + ns.length := by
  induction ns generalizing m with
  | nil => cases h; rfl
  | cons n ns ih =>
    have hn := hw.eval (all_of_forall slotIn_true n) m
    unfold Eval.after at hn
    simp only [Walk.pushAll, bind, EStateM.bind] at h
    cases hm : w.eval n m with
    | error e m₁ => rw [hm] at h; cases h
    | ok v m₁ =>
      rw [hm] at h hn
      have hrest : m'.stack.size = (m₁.stack.push v).size + ns.length := ih h
      rw [hrest, CallStack.size_push, hn.size, List.length_cons]
      omega

theorem call_keeps (c : Code) (index : Nat) {args : List Node} (span : Span)
    (h : AllIn (Leaf.SlotIn touched) args) : (c.call w index args span).Keeps touched := by
  intro m
  cases hf : c.program.function? index with
  | none => simp [Eval.after, c.call_unknown w args span m hf, Eval.fail, CallStack.SameOutside.refl]
  | some f =>
    by_cases hfull : c.isFull m.stack.depth = true
    · simp [Eval.after, c.call_full w args span hf hfull, Eval.fail, CallStack.SameOutside.refl]
    by_cases hcount : args.length = f.arity
    · have hgrown := pushAll_grown hw h m
      unfold Eval.after at hgrown ⊢
      rw [c.call_accepted w span hf hfull hcount]
      cases hp : w.pushAll args m with
      | error e m₁ => rw [hp] at hgrown; exact hgrown.truncate
      | ok u m₁ =>
        rw [hp] at hgrown
        dsimp only
        have hbody := sequence_keeps hw (allIn_of_forall slotIn_true (c.program.body index))
          (Code.frameOf f args.length m₁).2
        have hleave : m.stack.SameOutside touched (((w.sequence (c.program.body index)).after
            (Code.frameOf f args.length m₁).2).leave
              (Code.frameOf f args.length m₁).1).stack :=
          hgrown.leave (size_pushAll hw hp) hbody
        unfold Eval.after at hleave
        cases hs : w.sequence (c.program.body index)
            (Code.frameOf f args.length m₁).2 with
        | error e m₂ => rw [hs] at hleave; exact hleave
        | ok flow m₂ =>
          rw [hs] at hleave
          cases flow with
          | normal => exact hleave
          | returned v => exact hleave
    · simp [Eval.after, c.call_miscounted w span hf hfull hcount, Eval.fail, CallStack.SameOutside.refl]

/-! ## Expressions -/

theorem evalKeyword_keeps (k : Keyword) {args : List Node} (span : Span)
    (h : AllIn (Leaf.SlotIn touched) args) : (Code.evalKeyword w k args span).Keeps touched := by
  refine .checked_bind ?_
  intro _ _
  split
  · refine .bind (hw.eval h.1) fun v => .bind (.inspect _) fun b => ?_
    cases b with
    | true => exact .bind (.release v) fun _ => hw.eval h.2.1
    | false => exact .pure v
  · refine .bind (hw.eval h.1) fun v => .bind (.inspect _) fun b => ?_
    cases b with
    | true => exact .pure v
    | false => exact .bind (.release v) fun _ => hw.eval h.2.1
  · refine .bind (test_keeps hw h.1) fun b => ?_
    cases b with
    | true => exact hw.eval h.2.1
    | false => exact hw.eval h.2.2.1
  · exact .bind (evalAll_keeps hw h) fun _ => .bind (.make _) fun _ => .pure _
  · exact .bind (addEntries_keeps hw {} _ h) fun _ => .bind (.make _) fun _ => .pure _
  · exact assign_keeps hw h.1 h.2.1
  any_goals exact .fail _
  exact .bind (evalAll_keeps hw h) fun vs => .operation _ vs

theorem evalNode_keeps (c : Code) {n : Node} (h : n.All (Leaf.SlotIn touched)) :
    (c.evalNode w n).Keeps touched := by
  unfold Code.evalNode
  split
  · exact evalLeaf_keeps _
  · exact .fail _
  · exact .fail _
  · split
    · exact evalKeyword_keeps hw _ _ h.2
    · exact .checked_bind fun index _ => call_keeps hw c index _ h.2
    · exact .fail _

/-! ## Statements -/

theorem runKeyword_keeps (fuel : Nat) (k : Keyword) {args : List Node} (span : Span)
    (h : AllIn (Leaf.SlotIn touched) args) : (Code.runKeyword w fuel k args span).Keeps touched := by
  refine .checked_bind ?_
  intro _ _
  split
  · exact .bind (assign_keeps hw h.1 h.2.1) fun _ => .bind (.release _) fun _ => .pure _
  · refine .bind (hw.eval h.1) fun v => ?_
    exact .bind ((Keeps.print fuel v span).thenClose fun _ => rfl) fun _ => .pure _
  · exact .bind (evalAll_keeps hw h) fun _ => .bind (.onHeap _) fun _ => .pure _
  · exact .bind (evalAll_keeps hw h) fun _ => .bind (.onHeap _) fun _ => .pure _
  · exact .bind (evalAll_keeps hw h) fun _ => .bind (.onHeap _) fun _ => .pure _
  · split
    · exact .fail _
    · rename_i cond a b hparts
      obtain ⟨hcond, ha, hb⟩ := mem_of_ifParts hparts
      rw [allIn_iff] at h
      refine .bind (test_keeps hw (h cond hcond)) ?_
      intro t
      cases t with
      | true => exact hw.block (h a ha)
      | false =>
        cases b with
        | none => exact .pure _
        | some b => exact hw.block (h b (hb b rfl))
  · exact whileLoop_keeps (test_keeps hw h.1) (sequence_keeps hw h.2) fuel
  · refine .checked_bind ?_
    intro slot hslot
    refine .bind (hw.eval h.2.1) ?_
    intro v
    split
    · exact (forLoop_keeps (touched_of_slotOf h.1 hslot) (sequence_keeps hw h.2.2) _ fuel 0).thenClose
        fun _ => rfl
    · exact .bind (.release _) fun _ => .pure _
  · exact .fail _
  · exact .fail _
  · exact .pure _
  · exact .bind (hw.eval h.1) fun _ => .pure _
  · exact .fail _

theorem runForm_keeps (c : Code) (fuel : Nat) {children : List Node} (span : Span)
    (h : AllIn (Leaf.SlotIn touched) children) : (c.runForm w fuel children span).Keeps touched := by
  unfold Code.runForm
  split
  · exact .pure _
  · exact .fail _
  · split
    · exact runKeyword_keeps hw fuel _ span h.2
    · exact .checked_bind fun index _ =>
        .bind (call_keeps hw c index span h.2) fun _ => .bind (.release _) fun _ => .pure _
    · exact .fail _

theorem runBlock_keeps (c : Code) (fuel : Nat) {n : Node} (h : n.All (Leaf.SlotIn touched)) :
    (c.runBlock w fuel n).Keeps touched := by
  unfold Code.runBlock
  split
  · exact .fail _
  · exact sequence_keeps hw h
  · exact runForm_keeps hw c fuel _ h

end

/-! ## Whole runs -/

theorem walk_keeps (c : Code) (fuel : Nat) : (c.walk fuel).Keeps := by
  induction fuel with
  | zero => exact ⟨fun _ => .exhausted, fun _ => .exhausted⟩
  | succ fuel ih => exact ⟨fun h => evalNode_keeps ih c h, fun h => runBlock_keeps ih c fuel h⟩

structure CallStack.Restored (s t : CallStack) : Prop where
  size : t.size = s.size
  base : t.base = s.base
  depth : t.depth = s.depth
  below : ∀ i < s.base, t.slots[i]? = s.slots[i]?

theorem Eval.Keeps.restored {α : Type} {act : Eval α} (h : act.Keeps fun _ => True) (m : Machine) :
    m.stack.Restored (act.after m).stack :=
  ⟨(h m).size, (h m).base, (h m).depth, fun i hi => (h m).slots i fun k _ => by omega⟩

theorem CallStack.Restored.eq_empty {t : CallStack} (h : CallStack.Restored {} t) : t = {} := by
  obtain ⟨slots, base, depth⟩ := t
  obtain ⟨hsize, rfl, rfl, -⟩ := h
  have hslots : slots = #[] := Array.eq_empty_of_size_eq_zero hsize
  rw [hslots]

theorem run_keeps (touched : Nat → Prop) (c : Code) (fuel : Nat) : (c.run fuel).Keeps touched := by
  have hmain (span : Span) : (c.call (c.walk fuel) 0 [] span).Keeps touched :=
    call_keeps (walk_keeps c fuel) c 0 span trivial
  have hnoted (span : Span) : ((c.call (c.walk fuel) 0 [] span).thenClose
      fun m => m.note (.mainFinished m.stack.size)).Keeps touched :=
    (hmain span).thenClose fun _ => rfl
  exact fun m => hnoted _ (m.note .mainStarted)

def Code.runs (c : Code) (fuels : List Nat) (m : Machine) : Machine :=
  fuels.foldl (fun m fuel => (c.run fuel).after m) m

theorem stack_runs {c : Code} {m : Machine} (fuels : List Nat) (h : m.stack = {}) :
    (c.runs fuels m).stack = {} := by
  induction fuels generalizing m with
  | nil => exact h
  | cons fuel fuels ih =>
    apply ih
    have hm := (run_keeps _ c fuel).restored m
    rw [h] at hm
    exact hm.eq_empty

/-- The stack is restored by everything that can be evaluated or run, whether it
ends well or not; so a program that starts on an empty stack leaves it empty,
as often as it is run. -/
theorem stack_restored (c : Code) (fuel : Nat) (m : Machine) :
    (∀ n, m.stack.Restored ((c.eval fuel n).after m).stack) ∧
    (∀ n, m.stack.Restored ((c.block fuel n).after m).stack) ∧
    (∀ children span, m.stack.Restored ((c.exec fuel children span).after m).stack) ∧
    m.stack.Restored ((c.run fuel).after m).stack ∧
    ∀ (p : Program) (limit : Option Nat) (sink : Sink) (log : Log) (fuels : List Nat),
      let i := Interpreter.start p limit sink log
      (i.code.runs fuels i.machine).stack = {} := by
  have hw := walk_keeps c fuel
  refine ⟨?_, ?_, ?_, ?_, ?_⟩
  · exact fun n => (hw.eval (all_of_forall slotIn_true n)).restored m
  · exact fun n => (hw.block (all_of_forall slotIn_true n)).restored m
  · exact fun children span => (runForm_keeps hw c fuel span (allIn_of_forall slotIn_true children)).restored m
  · exact (run_keeps _ c fuel).restored m
  · intro p limit sink log fuels
    exact stack_runs fuels rfl

end Lisplet
