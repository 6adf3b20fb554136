import Lisplet.Proofs.Endings
import Lisplet.Proofs.Reordering

/-!
# Runs that end

A limit on nested calls does not make programs end: a `while` loop may go on forever, a
`for` loop may add to its own list, and a value that contains itself has no end when it
is printed. Without `while`, `push` and `setitem` nothing of the kind can happen. With
every call the limit comes nearer, inside a call nodes get smaller, lists that are gone
through do not get longer, and references lead back. So from some fuel on a run does not
depend on fuel any more.
-/

namespace Lisplet

open Node

/-! ## Several nodes -/

/-- With `depth` calls open the node can be evaluated and run to its end. -/
structure Node.EndsAt (w : Nat → Walk) (depth : Nat) (n : Node) : Prop where
  eval : ∀ m : Machine, m.Tidy → m.stack.depth = depth → Ends Value.Below m fun k => (w k).eval n m
  block : ∀ m : Machine, m.Tidy → m.stack.depth = depth → Ends Flow.Below m fun k => (w k).block n m

theorem addEntries_ends {w : Nat → Walk} {depth : Nat} : ∀ {ns : List Node},
    (∀ n ∈ ns, n.EndsAt w depth) → ∀ {t : Table} {m : Machine}, m.Tidy → m.stack.depth = depth →
      t.Below m.heap.objects.size → Ends (fun n t => t.Below n) m fun k => (w k).addEntries t ns m
  | [], _, _, _, hm, _, ht => .pure hm ht
  | [_], _, _, _, hm, _, ht => .pure hm ht
  | key :: e :: rest, h, t, m, hm, hd, ht => by
    simp only [List.forall_mem_cons] at h
    have hgrown {m' : Machine} (hm' : m.Leads m') : t.Below m'.heap.objects.size :=
      fun x hx => (ht x hx).mono hm'.heap.size
    refine ((h.1.eval m hm hd).orUndo (Machine.objects_releaseTable t)).bind fun v m₁ h₁ _ => ?_
    rcases v with _ | (_ | _ | _ | ⟨r, text⟩ | _ | _ | _)
    case some.str =>
      have hundo (m' : Machine) : ((m'.release (some (.str r text))).releaseTable t).heap.objects =
          m'.heap.objects := (Machine.objects_releaseTable t _).trans (Machine.objects_release _ m')
      refine ((h.2.1.eval m₁ h₁.tidy (h₁.depth.trans hd)).orUndo hundo).bind fun v m₂ h₂ hv => ?_
      have hmade : Ends (fun n t => t.Below n) m₂ fun _ =>
          Eval.make (fun h => h.putEntry t ⟨r, text⟩ v) m₂ := by
        refine .make h₂.tidy (h₂.tidy.ordered.leads (Heap.objects_putEntry _ _ _ _)) ?_
        rw [Heap.objects_putEntry, Heap.putEntry_fst]
        exact (hgrown (h₁.trans h₂)).set _ hv
      refine hmade.bind fun t' m₃ h₃ ht' => ?_
      exact addEntries_ends h.2.2 h₃.tidy (((h₁.trans h₂).trans h₃).depth.trans hd) ht'
    all_goals
      refine .release_bind h₁.tidy fun m₂ h₂ => ?_
      exact addEntries_ends h.2.2 h₂.tidy ((h₁.trans h₂).depth.trans hd) (hgrown (h₁.trans h₂))

section
variable {w : Nat → Walk} {depth : Nat} {m : Machine} (hm : m.Tidy) (hd : m.stack.depth = depth)
include hm hd

theorem evalAll_ends {ns : List Node} (h : ∀ n ∈ ns, n.EndsAt w depth) :
    Ends (Value.AllBelow ns.length) m fun k => (w k).evalAll ns m := by
  induction ns generalizing m with
  | nil => exact .pure hm ⟨rfl, by simp⟩
  | cons n ns ih =>
    rw [List.forall_mem_cons] at h
    refine (h.1.eval m hm hd).bind fun v m₁ h₁ hv => ?_
    have hrest := (ih h₁.tidy (h₁.depth.trans hd) h.2).orUndo (Machine.objects_release v)
    refine hrest.bind fun vs m₂ h₂ hvs => ?_
    exact .pure h₂.tidy ⟨by simp [hvs.length],
      List.forall_mem_cons.mpr ⟨hv.mono h₂.heap.size, hvs.below⟩⟩

theorem sequence_ends {ns : List Node} (h : ∀ n ∈ ns, n.EndsAt w depth) :
    Ends Flow.Below m fun k => (w k).sequence ns m := by
  induction ns generalizing m with
  | nil => exact .pure hm trivial
  | cons n ns ih =>
    rw [List.forall_mem_cons] at h
    refine (h.1.block m hm hd).bind fun flow m₁ h₁ hflow => ?_
    cases flow with
    | normal => exact ih h₁.tidy (h₁.depth.trans hd) h.2
    | returned v => exact .pure h₁.tidy hflow

theorem pushAll_ends {ns : List Node} (h : ∀ n ∈ ns, n.EndsAt w depth) :
    Ends (fun _ _ => True) m fun k => (w k).pushAll ns m := by
  induction ns generalizing m with
  | nil => exact .pure hm trivial
  | cons n ns ih =>
    rw [List.forall_mem_cons] at h
    refine (h.1.eval m hm hd).bind fun v m₁ h₁ hv => ?_
    refine .bind (Ends.step (h₁.tidy.push hv) rfl) fun _ m₂ h₂ _ => ?_
    exact ih h₂.tidy ((h₁.trans h₂).depth.trans hd) h.2

theorem test_ends {n : Node} (h : n.EndsAt w depth) : Ends (fun _ _ => True) m fun k => (w k).test n m := by
  refine (h.eval m hm hd).bind fun v m₁ h₁ _ => Ends.inspect_bind (.release_bind h₁.tidy fun m₂ h₂ => ?_)
  exact .pure h₂.tidy trivial

theorem assign_ends {target e : Node} (h : e.EndsAt w depth) :
    Ends Value.Below m fun k => (w k).assign target e m := by
  refine .checked_bind hm fun slot _ => (h.eval m hm hd).bind fun v m₁ h₁ hv => ?_
  have hshare : m₁.heap.Leads (m₁.heap.retain v) := h₁.tidy.ordered.leads (Heap.objects_retain _ _)
  refine (Ends.onHeap h₁.tidy hshare).bind fun _ m₂ h₂ _ => ?_
  have hv₂ := hv.mono h₂.heap.size
  refine .bind (Ends.step (h₂.tidy.setSlot slot hv₂) rfl) fun _ m₃ h₃ _ => ?_
  exact .pure h₃.tidy (hv₂.mono h₃.heap.size)

end

/-! ## Loops -/

/-- The list has at most `left` elements from number `i` on, and it does not get longer. -/
theorem forLoop_ends (slot : Nat) (r : Ref) (left : Nat) {body : Nat → Eval Flow} {depth : Nat}
    (hbody : ∀ m : Machine, m.Tidy → m.stack.depth = depth → Ends Flow.Below m fun k => body k m)
    {i : Nat} {m : Machine} (hm : m.Tidy) (hd : m.stack.depth = depth) (hr : r < m.heap.objects.size)
    (hleft : (m.heap.itemsAt r).size ≤ i + left) :
    Ends Flow.Below m fun k => Code.forLoop slot r (body k) k i m := by
  -- A round takes one unit of the loop's fuel but none of the body's: the body is shifted.
  induction left generalizing body i m with
  | zero =>
    have hnone : (m.heap.itemsAt r)[i]? = none := by simpa using hleft
    apply Ends.later
    simp only [Code.forLoop_succ]
    apply Ends.inspect_bind
    rw [hnone]
    exact .pure hm trivial
  | succ left ih =>
    apply Ends.later
    simp only [Code.forLoop_succ]
    apply Ends.inspect_bind
    cases hitem : (m.heap.itemsAt r)[i]? with
    | none => exact .pure hm trivial
    | some v =>
      have hv : Value.Below m.heap.objects.size v := hm.ordered.below_of_itemsAt hitem
      have hshare : m.heap.Leads (m.heap.retain v) := hm.ordered.leads (Heap.objects_retain _ _)
      refine (Ends.onHeap hm hshare).bind fun _ m₁ h₁ _ => ?_
      refine .bind (Ends.step (h₁.tidy.setSlot slot (hv.mono h₁.heap.size)) rfl) fun _ m₂ h₂ _ => ?_
      have h₂ := h₁.trans h₂
      refine (hbody m₂ h₂.tidy (h₂.depth.trans hd)).shift.bind fun flow m₃ h₃ hflow => ?_
      have h₃ := h₂.trans h₃
      cases flow with
      | returned v => exact .pure h₃.tidy hflow
      | normal =>
        have hitems := h₃.heap.items r hr
        exact ih (fun m hm hd => (hbody m hm hd).shift) h₃.tidy (h₃.depth.trans hd)
          (Nat.lt_of_lt_of_le hr h₃.heap.size) (by omega)

/-! ## Calls -/

theorem CallStack.mem_truncate {s : CallStack} {size : Nat} {v : Option Value}
    (h : v ∈ (s.truncate size).2.slots.toList) : v ∈ s.slots.toList := by
  simp only [truncate, Array.shrink_eq_take, Array.take_eq_extract, Array.toList_extract] at h
  exact List.mem_of_mem_drop (List.mem_of_mem_take h)

theorem CallStack.mem_enter {s : CallStack} {args locals : Nat} {v : Option Value}
    (h : v ∈ (s.enter args locals).2.2.slots.toList) : v ∈ s.slots.toList ∨ v = none := by
  simp only [enter, Array.toList_append, List.mem_append, Array.toList_replicate] at h
  rcases h with h | h
  · exact .inl (mem_truncate h)
  · exact .inr (List.eq_of_mem_replicate h)

theorem frameOf_tidy {m : Machine} (hm : m.Tidy) (f : Function) (count : Nat) :
    (Code.frameOf f count m).2.Tidy := by
  refine ⟨(hm.ordered.leads (Machine.objects_frameOf f count m)).ordered, ?_⟩
  intro v hv
  rw [Machine.objects_frameOf]
  rcases CallStack.mem_enter hv with hv | rfl
  · exact hm.slots v hv
  · trivial

theorem leave_leads {m m' : Machine} {f : Function} {count : Nat}
    (h : (Code.frameOf f count m).2.Leads m') : m.Leads (m'.leave (Code.frameOf f count m).1) := by
  have hleft : m'.heap.Leads (m'.leave (Code.frameOf f count m).1).heap :=
    h.heap.ordered.leads (Machine.objects_leave _ _)
  refine ⟨(h.heap.trans hleft).of_objects (Machine.objects_frameOf f count m), ?_, ?_⟩
  · intro v hv
    rw [Machine.objects_leave]
    exact h.slots v (CallStack.mem_truncate hv)
  · have hback : (m'.leave (Code.frameOf f count m).1).stack.depth = m'.stack.depth - 1 := rfl
    rw [hback, h.depth]
    rfl

/-- With `depth` calls open, further calls end, unless the limit is reached. -/
def Code.CallsEnd (c : Code) (w : Nat → Walk) (depth : Nat) : Prop :=
  ¬ c.isFull depth = true → ∀ i, ∀ n ∈ c.program.body i, n.EndsAt w (depth + 1)

section
variable {c : Code} {w : Nat → Walk} {depth : Nat} {m : Machine} (hm : m.Tidy) (hd : m.stack.depth = depth)
include hm hd

theorem enterAndRun_ends (f : Function) (index : Nat) {args : List Node} (mark : Nat)
    (hargs : ∀ n ∈ args, n.EndsAt w depth)
    (hbody : ∀ n ∈ c.program.body index, n.EndsAt w (depth + 1)) :
    Ends Value.Below m fun k => c.enterAndRun (w k) f index args mark m := by
  refine ((pushAll_ends hm hd hargs).orUndo (Machine.objects_truncate mark)).bind fun _ m₁ h₁ _ => ?_
  have hdepth : (Code.frameOf f args.length m₁).2.stack.depth = depth + 1 := by
    rw [← hd, ← h₁.depth]
    rfl
  have hclosed := (sequence_ends (frameOf_tidy h₁.tidy f args.length) hdepth hbody).thenClose
    (Machine.objects_frameOf f args.length m₁) (Machine.objects_leave (Code.frameOf f args.length m₁).1)
    fun m' hm' => leave_leads hm'
  refine hclosed.bind fun flow m₂ h₂ hflow => ?_
  cases flow with
  | normal => exact .pure h₂.tidy trivial
  | returned v => exact .pure h₂.tidy hflow

theorem call_ends (index : Nat) {args : List Node} (span : Span) (hargs : ∀ n ∈ args, n.EndsAt w depth)
    (hcalls : c.CallsEnd w depth) :
    Ends Value.Below m fun k => c.call (w k) index args span m := by
  simp only [c.call_eq]
  cases c.program.function? index with
  | none => exact .fail hm _
  | some f =>
    have htop (F : Nat → Nat × Nat → Eval (Option Value))
        (h : Ends Value.Below m fun k => F k (m.stack.depth, m.stack.size) m) :
        Ends Value.Below m fun k => (Eval.inspectStack (fun s => (s.depth, s.size)) >>= F k) m := h
    apply htop
    dsimp only
    by_cases hfull : c.isFull m.stack.depth = true
    · simp only [if_pos hfull]
      exact .fail hm _
    · by_cases hcount : args.length ≠ f.arity
      · simp only [if_neg hfull, if_pos hcount]
        exact .fail hm _
      · simp only [if_neg hfull, if_neg hcount]
        exact enterAndRun_ends hm hd f index _ hargs (hcalls (hd ▸ hfull) index)

/-! ## Expressions -/

theorem evalKeyword_ends (k : Keyword) {args : List Node} (span : Span)
    (hargs : ∀ n ∈ args, n.EndsAt w depth) :
    Ends Value.Below m fun j => Code.evalKeyword (w j) k args span m := by
  unfold Code.evalKeyword
  refine .checked_bind hm fun _ hcheck => ?_
  cases k with
  | and =>
    obtain ⟨a, b, rfl⟩ := two_operands hcheck rfl
    simp only [List.forall_mem_cons] at hargs
    refine (hargs.1.eval m hm hd).bind fun v m₁ h₁ hv => .inspect_bind ?_
    cases m₁.heap.truthy v with
    | true => exact .release_bind h₁.tidy fun m₂ h₂ =>
        hargs.2.1.eval m₂ h₂.tidy ((h₁.trans h₂).depth.trans hd)
    | false => exact .pure h₁.tidy hv
  | or =>
    obtain ⟨a, b, rfl⟩ := two_operands hcheck rfl
    simp only [List.forall_mem_cons] at hargs
    refine (hargs.1.eval m hm hd).bind fun v m₁ h₁ hv => .inspect_bind ?_
    cases m₁.heap.truthy v with
    | true => exact .pure h₁.tidy hv
    | false => exact .release_bind h₁.tidy fun m₂ h₂ =>
        hargs.2.1.eval m₂ h₂.tidy ((h₁.trans h₂).depth.trans hd)
  | ternary =>
    obtain ⟨cond, a, b, rfl⟩ := three_operands hcheck rfl
    simp only [List.forall_mem_cons] at hargs
    refine (test_ends hm hd hargs.1).bind fun t m₁ h₁ _ => ?_
    cases t with
    | true => exact hargs.2.1.eval m₁ h₁.tidy (h₁.depth.trans hd)
    | false => exact hargs.2.2.1.eval m₁ h₁.tidy (h₁.depth.trans hd)
  | list =>
    refine (evalAll_ends hm hd hargs).bind fun vs m₁ h₁ hvs => ?_
    have hmade : Ends (fun n v => Value.Below n (some v)) m₁ fun _ =>
        Eval.make (fun h => h.newList vs.toArray) m₁ :=
      .make h₁.tidy (h₁.tidy.ordered.leads_alloc hvs.below) (by simp [Heap.newList, Heap.alloc, Value.Below])
    exact hmade.bind fun v m₂ h₂ hv => .pure h₂.tidy hv
  | table =>
    refine (addEntries_ends hargs hm hd (by simp [Table.Below, Table.values])).bind fun t m₁ h₁ ht => ?_
    have hmade : Ends (fun n v => Value.Below n (some v)) m₁ fun _ =>
        Eval.make (fun h => h.newTable t) m₁ :=
      .make h₁.tidy (h₁.tidy.ordered.leads_alloc ht) (by simp [Heap.newTable, Heap.alloc, Value.Below])
    exact hmade.bind fun v m₂ h₂ hv => .pure h₂.tidy hv
  | set =>
    obtain ⟨target, e, rfl⟩ := two_operands hcheck rfl
    simp only [List.forall_mem_cons] at hargs
    exact assign_ends hm hd hargs.2.1
  | defun | ifThen | otherwise | whileLoop | forEach | ret | print | setItem | push | remove =>
    exact .fail hm _
  | _ => exact (evalAll_ends hm hd hargs).bind fun vs m₁ h₁ hvs => operation_ends rfl hcheck h₁.tidy hvs

theorem evalNode_ends {n : Node} (hn : ∀ n' ∈ n.children, n'.EndsAt w depth)
    (hcalls : c.CallsEnd w depth) :
    Ends Value.Below m fun j => c.evalNode (w j) n m := by
  match n, hn with
  | .leaf l, _ => exact evalLeaf_ends l hm
  | .branch [] _ _, _ => exact .fail hm _
  | .branch (.branch _ _ _ :: _) _ _, _ => exact .fail hm _
  | .branch (.leaf head :: args) span _, hn =>
    have hargs : ∀ n' ∈ args, n'.EndsAt w depth := fun n' hn' => hn n' (List.mem_cons_of_mem _ hn')
    unfold Code.evalNode
    dsimp only
    cases head.kind with
    | keyword k => exact evalKeyword_ends hm hd k span hargs
    | identifier =>
      exact .checked_bind hm fun index _ => call_ends hm hd index span hargs hcalls
    | _ => exact .fail hm _

/-! ## Statements -/

theorem runKeyword_ends {k : Keyword} (hk : k ≠ .whileLoop ∧ k ≠ .push ∧ k ≠ .setItem) {args : List Node}
    (span : Span) (hargs : ∀ n ∈ args, n.EndsAt w depth) :
    Ends Flow.Below m fun j => Code.runKeyword (w j) j k args span m := by
  unfold Code.runKeyword
  refine .checked_bind hm fun _ hcheck => ?_
  cases k with
  | whileLoop => exact absurd rfl hk.1
  | push => exact absurd rfl hk.2.1
  | setItem => exact absurd rfl hk.2.2
  | set =>
    obtain ⟨target, e, rfl⟩ := two_operands hcheck rfl
    simp only [List.forall_mem_cons] at hargs
    exact (assign_ends hm hd hargs.2.1).bind fun v m₁ h₁ _ =>
      .release_bind h₁.tidy fun m₂ h₂ => .pure h₂.tidy trivial
  | print =>
    obtain ⟨e, rfl⟩ := one_operand hcheck rfl
    simp only [List.forall_mem_cons] at hargs
    refine (hargs.1.eval m hm hd).bind fun v m₁ h₁ hv => ?_
    exact ((print_ends span h₁.tidy hv).thenRelease v).bind fun _ m₂ h₂ _ => .pure h₂.tidy trivial
  | remove =>
    obtain ⟨list, key, rfl⟩ := two_operands hcheck rfl
    refine (evalAll_ends hm hd hargs).bind fun vs m₁ h₁ hvs => ?_
    have hstore : m₁.heap.Leads (store .remove vs m₁.heap) := by
      match vs, hvs.length with
      | [container, key], _ =>
        have hremove := h₁.tidy.ordered.leads_remove container key
        exact hremove.trans (hremove.ordered.leads (Heap.objects_releaseAll _ _))
    exact (Ends.onHeap h₁.tidy hstore).bind fun _ m₂ h₂ _ => .pure h₂.tidy trivial
  | ifThen =>
    dsimp only
    cases hparts : ifParts args with
    | none => exact .fail hm _
    | some parts =>
      obtain ⟨cond, a, b⟩ := parts
      obtain ⟨hcond, ha, hb⟩ := mem_of_ifParts hparts
      refine (test_ends hm hd (hargs cond hcond)).bind fun t m₁ h₁ _ => ?_
      cases t with
      | true => exact (hargs a ha).block m₁ h₁.tidy (h₁.depth.trans hd)
      | false =>
        cases b with
        | none => exact .pure h₁.tidy trivial
        | some b => exact (hargs b (hb b rfl)).block m₁ h₁.tidy (h₁.depth.trans hd)
  | forEach =>
    match args, hargs with
    | [], _ => exact .fail hm _
    | [_], _ => exact .fail hm _
    | var :: list :: body, hargs =>
      simp only [List.forall_mem_cons] at hargs
      refine .checked_bind hm fun slot _ => (hargs.2.1.eval m hm hd).bind fun v m₁ h₁ hv => ?_
      match v, hv with
      | some (.list r), hr =>
        have hloop : Ends Flow.Below m₁ fun j => Code.forLoop slot r ((w j).sequence body) j 0 m₁ :=
          forLoop_ends slot r _ (fun m hm hd => sequence_ends hm hd hargs.2.2) h₁.tidy (h₁.depth.trans hd)
            hr (Nat.le_add_left _ _)
        exact hloop.thenRelease _
      | none, _ | some (.bool _), _ | some (.int _), _ | some (.float _), _ | some (.str _ _), _
      | some (.tuple _), _ | some (.table _), _ =>
        exact .release_bind h₁.tidy fun m₂ h₂ => .pure h₂.tidy trivial
  | ret =>
    obtain rfl | ⟨e, rfl⟩ := return_operands hcheck rfl
    · exact .pure hm trivial
    · simp only [List.forall_mem_cons] at hargs
      exact (hargs.1.eval m hm hd).bind fun v m₁ h₁ hv => .pure h₁.tidy hv
  | _ => exact .fail hm _

theorem runBlock_ends {n : Node} (hn : ∀ n' ∈ n.children, n'.EndsAt w depth)
    (hk : ∀ k, n.headKeyword? = some k → k ≠ .whileLoop ∧ k ≠ .push ∧ k ≠ .setItem)
    (hcalls : c.CallsEnd w depth) :
    Ends Flow.Below m fun j => c.runBlock (w j) j n m := by
  match n, hn, hk with
  | .leaf l, _, _ => exact .fail hm _
  | .branch [] _ _, _, _ => exact .pure hm trivial
  | .branch (.branch _ _ _ :: _) _ _, hn, _ => exact sequence_ends hm hd hn
  | .branch (.leaf head :: args) span _, hn, hk =>
    have hargs : ∀ n' ∈ args, n'.EndsAt w depth := fun n' hn' => hn n' (List.mem_cons_of_mem _ hn')
    unfold Code.runBlock Code.runForm
    dsimp only
    cases hkind : head.kind with
    | keyword k =>
      refine runKeyword_ends hm hd (hk k ?_) span hargs
      simp [headKeyword?, children, keyword?, Leaf.keyword?, hkind]
    | identifier =>
      refine .checked_bind hm fun index _ => ?_
      refine (call_ends hm hd index span hargs hcalls).bind fun v m₁ h₁ _ => ?_
      exact .release_bind h₁.tidy fun m₂ h₂ => .pure h₂.tidy trivial
    | _ => exact .fail hm _

end

/-! ## Whole runs -/

/-- No form in the node goes on forever by itself, makes a list longer or closes a circle. -/
def Node.Mild (n : Node) : Prop :=
  ∀ form : Node, form.OccursIn n → form.headKeyword? ≠ some .whileLoop ∧
    form.headKeyword? ≠ some .push ∧ form.headKeyword? ≠ some .setItem

theorem Node.Mild.children {n : Node} (h : n.Mild) : ∀ n' ∈ n.children, n'.Mild := by
  intro n' hn' form hform
  cases n with
  | leaf l => cases hn'
  | branch cs span tag => exact h form (.inside hn' hform)

def Leaf.isMild (l : Leaf) : Bool := !l.keyword?.any [.whileLoop, .push, .setItem].contains

theorem mild_of_leaves {n : Node} (h : n.All fun l => l.isMild = true) : n.Mild := by
  intro form hform
  have hall := hform.all h
  match form, hall with
  | leaf _, _ | branch [] _ _, _ | branch (branch _ _ _ :: _) _ _, _ => simp [headKeyword?, children, keyword?]
  | branch (leaf l :: _) _ _, hall =>
    have hl : l.isMild = true := hall.1
    simp only [headKeyword?, children, List.head?_cons, Option.bind_some, keyword?]
    cases hk : l.keyword? with
    | none => simp
    | some k => simpa [Leaf.isMild, hk] using hl

theorem endsAt_of_children {c : Code} {depth : Nat} (hcalls : c.CallsEnd c.walk depth) {n : Node} (hn : n.Mild)
    (h : ∀ n' ∈ n.children, n'.EndsAt c.walk depth) : n.EndsAt c.walk depth := by
  constructor
  · intro m hm hd
    apply Ends.later
    simp only [Code.walk_succ]
    exact evalNode_ends hm hd h hcalls
  · intro m hm hd
    apply Ends.later
    simp only [Code.walk_succ]
    refine runBlock_ends hm hd h ?_ hcalls
    intro k hk
    simpa [hk] using hn n .here

mutual

theorem mild_endsAt {c : Code} {depth : Nat} (hcalls : c.CallsEnd c.walk depth) :
    ∀ {n : Node}, n.Mild → n.EndsAt c.walk depth
  | leaf l, hn => endsAt_of_children hcalls hn (by simp [children])
  | branch cs span tag, hn => endsAt_of_children hcalls hn (mild_allEndAt hcalls hn.children)

theorem mild_allEndAt {c : Code} {depth : Nat} (hcalls : c.CallsEnd c.walk depth) :
    ∀ {ns : List Node}, (∀ n ∈ ns, n.Mild) → ∀ n ∈ ns, n.EndsAt c.walk depth
  | [], _ => by simp
  | n :: ns, h => by
    rw [List.forall_mem_cons] at h ⊢
    exact ⟨mild_endsAt hcalls h.1, mild_allEndAt hcalls h.2⟩

end

theorem mild_ends {c : Code} {limit : Nat} (hlimit : c.limit = some limit)
    (hbody : ∀ i, ∀ n ∈ c.program.body i, n.Mild) (depth : Nat) {n : Node} (hn : n.Mild) :
    n.EndsAt c.walk depth := by
  -- Every call leads towards the limit; inside a call, `mild_endsAt` goes down the tree.
  induction hroom : limit - depth generalizing depth n with
  | zero =>
    have hfull : c.isFull depth = true := by
      simp only [Code.isFull, hlimit, decide_eq_true_eq]
      omega
    exact mild_endsAt (fun hopen => absurd hfull hopen) hn
  | succ room ih => exact mild_endsAt (fun _ i n hn => ih (depth + 1) (hbody i n hn) (by omega)) hn

theorem run_ends {c : Code} {limit : Nat} (hlimit : c.limit = some limit)
    (hbody : ∀ i, ∀ n ∈ c.program.body i, n.Mild) {m : Machine} (hm : m.Tidy) :
    Ends Value.Below m fun k => c.run k m := by
  simp only [Code.run_eq]
  have hnote {m : Machine} (hm : m.Tidy) (e : Event) : m.Leads (m.note e) :=
    hm.leads_objects rfl hm.slots rfl
  refine .bind (Ends.step (hnote hm .mainStarted) rfl) fun _ m₁ h₁ _ => ?_
  have hmain : Ends Value.Below m₁ fun k => c.call (c.walk k) 0 [] c.mainSpan m₁ :=
    call_ends h₁.tidy rfl 0 c.mainSpan (by simp) fun _ i n hn => mild_ends hlimit hbody _ (hbody i n hn)
  exact hmain.thenClose rfl (fun _ => rfl) fun m' hm' => hm'.trans (hnote hm'.tidy _)

theorem start_tidy (p : Program) (limit : Option Nat) (sink : Sink) (log : Log) :
    (Interpreter.start p limit sink log).machine.Tidy := by
  refine ⟨?_, by simp [Interpreter.start]⟩
  intro r o hr
  have hobjects : (loadNode {} p.root).2.objects = Array.replicate p.root.cells .str := by
    simp [objects_loadNode]
  change (loadNode {} p.root).2.objects[r]? = some o at hr
  rw [hobjects, Array.getElem?_replicate] at hr
  split at hr
  · cases hr
    simp [Object.values]
  · cases hr

/-- With a limit on nested calls a program ends, if no form in its functions starts with `while`,
`push` or `setitem`: from some fuel on every run has the same result, a value or an error. In the
heap that it leaves containers hold only what was there before them. -/
theorem limited_runs_end (p : Program) (limit : Nat) (sink : Sink) (log : Log)
    (h : ∀ i, ∀ statement ∈ p.body i, statement.Mild) :
    let i := Interpreter.start p (some limit) sink log
    ∃ (enough : Nat) (m : Machine), m.heap.Ordered ∧
      ((∃ v, ∀ fuel ≥ enough, i.code.run fuel i.machine = .ok v m) ∨
        ∃ e, ∀ fuel ≥ enough, i.code.run fuel i.machine = .error (.error e) m) := by
  intro i
  have hbody : ∀ j, ∀ n ∈ i.code.program.body j, n.Mild := by
    intro j n hn form hform
    obtain ⟨statement, hstatement, hloaded⟩ := (reloaded_body p j).exists_of_mem hn
    obtain ⟨form', hform', hsame⟩ := hform.exists_related hloaded
    rw [hsame.headKeyword?_eq Leaf.Reloaded.kind]
    exact h j statement hstatement form' hform'
  obtain ⟨enough, result, hresult, hending⟩ := run_ends rfl hbody (start_tidy p (some limit) sink log)
  cases hending with
  | ok v m hm _ => exact ⟨enough, m, hm.heap.ordered, .inl ⟨v, hresult⟩⟩
  | stopped e m hm => exact ⟨enough, m, hm.ordered, .inr ⟨e, hresult⟩⟩

def growingNest : List Char :=
  ("(defun (main) (nest (list 1 2))) " ++
    "(defun (nest l) (for x l (remove l 0) (print (str l)) (nest (list x l))))").toList

theorem limited_runs_end_growingNest :
    ∃ (r : Reading) (p : Program), readTree growingNest = .ok r ∧ resolve r.root = .ok p ∧
      (∀ i, ∀ statement ∈ p.body i, statement.Mild) ∧
      (let i := Interpreter.start p (some 9) {} {}
      ∃ (enough : Nat) (m : Machine), m.heap.Ordered ∧
        ((∃ v, ∀ fuel ≥ enough, i.code.run fuel i.machine = .ok v m) ∨
          ∃ e, ∀ fuel ≥ enough, i.code.run fuel i.machine = .error (.error e) m)) := by
  have hmild : ((readTree growingNest).toOption.bind fun r => (resolve r.root).toOption.map fun p =>
      p.root.leaves.all Leaf.isMild) = some true := by
    decide +kernel
  cases hr : readTree growingNest with
  | error e => rw [hr] at hmild; cases hmild
  | ok r =>
    cases hp : resolve r.root with
    | error f => simp [hr, hp, Except.toOption] at hmild
    | ok p =>
      simp only [hr, hp, Except.toOption, Option.bind_some, Option.map_some, Option.some.injEq,
        List.all_eq_true] at hmild
      have hbody : ∀ i, ∀ statement ∈ p.body i, statement.Mild := fun i statement hstatement =>
        mild_of_leaves (allIn_iff.mp (body_all (all_of_leaves hmild) i) statement hstatement)
      exact ⟨r, p, rfl, hp, hbody, limited_runs_end p 9 {} {} hbody⟩

end Lisplet
