import Lisplet.Proofs.StackDiscipline

/-!
# How evaluation is put together

Evaluation is made of few things: single steps, one computation after another,
undoing and closing. A relation between computations that respects these relates
whole evaluations, if it relates the two ways down the tree. The errors on the way
are those that the nodes of the tree raise, so a relation has to respect only
these. Printing is left to whoever uses this.
-/

namespace Lisplet

/-! ## Errors and the nodes that raise them -/

inductive RuntimeError.OfCall (c : Code) (index count : Nat) (span : Span) : RuntimeError → Prop
  | unknown : OfCall c index count span (.unresolved ("#" ++ toString index) span)
  | tooDeep {limit : Nat} : c.limit = some limit → OfCall c index count span (.callDepthExceeded limit span)
  | miscounted {f : Function} : c.program.function? index = some f →
      OfCall c index count span (.argumentCount f.name f.arity count span)

/-- The errors that a node raises by itself, not through the nodes in it. -/
inductive RuntimeError.RaisedAt (c : Code) : Node → RuntimeError → Prop
  | malformed (n : Node) (k : Keyword) : RaisedAt c n (.malformed k n.span)
  | arity (n : Node) (k : Keyword) (a : Arity) (found : Nat) : RaisedAt c n (.arity k a found n.span)
  | notAnExpression (n : Node) (k : Keyword) : RaisedAt c n (.notAnExpression k n.span)
  | notAStatement (n : Node) (k : Keyword) : RaisedAt c n (.notAStatement k n.span)
  | keywordInLeaf (n : Node) (k : Keyword) : RaisedAt c n (.keywordInLeaf k n.span)
  | expectedStatement (n : Node) : RaisedAt c n (.expectedStatement n.span)
  | emptyForm (n : Node) : RaisedAt c n (.emptyForm n.span)
  | notCallable (n : Node) : RaisedAt c n (.notCallable n.span)
  | expectedVariable (n : Node) : RaisedAt c n (.expectedVariable n.span)
  | output (n : Node) : RaisedAt c n (.output Sink.refusal n.span)
  | functionAsValue {l : Leaf} : l.kind = .identifier →
      RaisedAt c (.leaf l) (.functionAsValue l.text l.span)
  | notAFunction {l : Leaf} : l.kind = .identifier → RaisedAt c (.leaf l) (.notAFunction l.text l.span)
  | unresolved {l : Leaf} : l.kind = .identifier → RaisedAt c (.leaf l) (.unresolved l.text l.span)
  | call {e : RuntimeError} {index : Nat} {head : Node} {args : List Node} {span : Span}
      {tag : Option Nat} : e.OfCall c index args.length span → RaisedAt c (.branch (head :: args) span tag) e

inductive Node.IsCall (index : Nat) (args : List Node) : Node → Prop
  | mk {head : Leaf} (span : Span) (tag : Option Nat) : head.kind = .identifier →
      functionOf head = .ok index → IsCall index args (.branch (.leaf head :: args) span tag)

def Code.Permits (c : Code) (E : RuntimeError → Prop) (n : Node) : Prop :=
  ∀ n' e, n'.OccursIn n → e.RaisedAt c n' → E e

namespace Code.Permits

variable {c : Code} {E : RuntimeError → Prop}

theorem of_forall (h : ∀ e, E e) (n : Node) : c.Permits E n := fun _ e _ _ => h e

theorem raised {n : Node} {e : RuntimeError} (h : c.Permits E n) (he : e.RaisedAt c n) : E e :=
  h n e .here he

theorem child {n : Node} {ns : List Node} {span : Span} {tag : Option Nat}
    (h : c.Permits E (.branch ns span tag)) (hn : n ∈ ns) : c.Permits E n :=
  fun n' e hn' => h n' e (.inside hn hn')

theorem args {head : Node} {ns : List Node} {span : Span} {tag : Option Nat}
    (h : c.Permits E (.branch (head :: ns) span tag)) : ∀ n ∈ ns, c.Permits E n :=
  fun _ hn => h.child (List.mem_cons_of_mem head hn)

theorem call {n : Node} {index : Nat} {ns : List Node} (h : c.Permits E n) (hn : n.IsCall index ns) :
    (∀ n' ∈ ns, c.Permits E n') ∧ ∀ e, e.OfCall c index ns.length n.span → E e := by
  cases hn with
  | mk span tag hkind hindex => exact ⟨h.args, fun e he => h.raised (.call he)⟩

end Code.Permits

/-! ## Steps -/

namespace Eval

/-- The single steps of evaluation inside one call, with errors in `E` only. -/
inductive Step (E : RuntimeError → Prop) : ∀ {α : Type}, Eval α → Prop
  | pure {α : Type} (a : α) : Step E (Pure.pure a : Eval α)
  | fail {α : Type} {e : RuntimeError} : E e → Step E (Eval.fail e : Eval α)
  | exhausted {α : Type} : Step E (Eval.exhausted : Eval α)
  | make {α : Type} (f : Heap → α × Heap) : Step E (Eval.make f)
  | getSlot (k : Nat) : Step E (Eval.getSlot k)
  | setSlot (k : Nat) (v : Option Value) : Step E (Eval.setSlot k v)
  | operation (k : Keyword) (vs : List (Option Value)) : Step E (operation k vs)

def inspectStack (f : CallStack → α) : Eval α := fun m => .ok (f m.stack) m

def enterFrame (f : Function) (count : Nat) : Eval Frame := fun m =>
  .ok (Code.frameOf f count m).1 (Code.frameOf f count m).2

end Eval

/-! ## Calls put together from steps -/

namespace Code

/-- A call that has passed all checks, with `mark` slots below its arguments. -/
def enterAndRun (c : Code) (w : Walk) (f : Function) (index : Nat) (args : List Node) (mark : Nat) :
    Eval (Option Value) := do
  (w.pushAll args).orUndo (Machine.truncate mark)
  let frame ← Eval.enterFrame f args.length
  match ← (w.sequence (c.program.body index)).thenClose (Machine.leave frame) with
  | .returned v => pure v
  | .normal => pure none

theorem call_eq (c : Code) (w : Walk) (index : Nat) (args : List Node) (span : Span) :
    c.call w index args span = (match c.program.function? index with
      | none => Eval.fail (.unresolved ("#" ++ toString index) span)
      | some f => do
        let top ← Eval.inspectStack fun s => (s.depth, s.size)
        if c.isFull top.1 then Eval.fail (.callDepthExceeded (c.limit.getD 0) span)
        else if args.length ≠ f.arity then
          Eval.fail (.argumentCount f.name f.arity args.length span)
        else c.enterAndRun w f index args top.2) := by
  funext m
  cases hf : c.program.function? index with
  | none => exact c.call_unknown w args span m hf
  | some f =>
    simp only [Eval.inspectStack, bind, EStateM.bind]
    by_cases hfull : c.isFull m.stack.depth = true
    · rw [c.call_full w args span hf hfull, if_pos hfull]
    rw [if_neg hfull]
    by_cases hcount : args.length = f.arity
    · rw [c.call_accepted w span hf hfull hcount, if_neg (by simp [hcount])]
      simp only [enterAndRun, bind, EStateM.bind, Eval.orUndo, Eval.thenClose, Eval.enterFrame]
      cases w.pushAll args m with
      | error e m₁ => rfl
      | ok u m₁ =>
        dsimp only
        cases w.sequence (c.program.body index) (frameOf f args.length m₁).2 with
        | error e m₂ => rfl
        | ok flow m₂ => cases flow <;> rfl
    · rw [c.call_miscounted w span hf hfull hcount, if_pos hcount]

theorem walk_succ (c : Code) (fuel : Nat) :
    c.walk (fuel + 1) = ⟨c.evalNode (c.walk fuel), c.runBlock (c.walk fuel) fuel⟩ := by
  simp only [walk, Walk.mk.injEq]
  exact ⟨funext fun _ => by rw [eval], funext fun _ => by rw [block]⟩

/-- Where a run as a whole is blamed: the name of the main function. -/
def mainSpan (c : Code) : Span :=
  match c.program.function? 0 with
  | some f => f.span
  | none => default

theorem run_eq (c : Code) (fuel : Nat) : c.run fuel = (do
    Eval.note .mainStarted
    (c.call (c.walk fuel) 0 [] c.mainSpan).thenClose fun m => m.note (.mainFinished m.stack.size)) := rfl

end Code

/-! ## Relations that evaluation respects -/

structure Respects (E : RuntimeError → Prop) (R : ∀ {α : Type}, Eval α → Eval α → Prop) : Prop where
  step : ∀ {α : Type} {act : Eval α}, act.Step E → R act act
  bind : ∀ {α β : Type} {x y : Eval α} {f g : α → Eval β}, R x y → (∀ a, R (f a) (g a)) →
    R (x >>= f) (y >>= g)
  orUndo : ∀ {α : Type} {x y : Eval α} (f : Heap → Heap), R x y →
    R (x.orUndo (·.onHeap f)) (y.orUndo (·.onHeap f))
  thenClose : ∀ {α : Type} {x y : Eval α} (f : Heap → Heap), R x y →
    R (x.thenClose (·.onHeap f)) (y.thenClose (·.onHeap f))

structure RespectsCalls (E : RuntimeError → Prop) (R : ∀ {α : Type}, Eval α → Eval α → Prop) : Prop
    extends Respects E R where
  push : ∀ v, R (Eval.push v) (Eval.push v)
  inspectStack : ∀ {α : Type} (f : CallStack → α), R (Eval.inspectStack f) (Eval.inspectStack f)
  enterFrame : ∀ f count, R (Eval.enterFrame f count) (Eval.enterFrame f count)
  truncate : ∀ {α : Type} {x y : Eval α} (mark : Nat), R x y →
    R (x.orUndo (Machine.truncate mark)) (y.orUndo (Machine.truncate mark))
  leave : ∀ {α : Type} {x y : Eval α} (frame : Frame), R x y →
    R (x.thenClose (Machine.leave frame)) (y.thenClose (Machine.leave frame))

structure RespectsRuns (E : RuntimeError → Prop) (R : ∀ {α : Type}, Eval α → Eval α → Prop) : Prop
    extends RespectsCalls E R where
  print : ∀ fuel v span, E (.output Sink.refusal span) →
    R (Eval.print fuel v span) (Eval.print fuel v span)
  started : R (Eval.note .mainStarted) (Eval.note .mainStarted)
  finished : ∀ {α : Type} {x y : Eval α}, R x y →
    R (x.thenClose fun m => m.note (.mainFinished m.stack.size))
      (y.thenClose fun m => m.note (.mainFinished m.stack.size))

/-- Two ways down the tree, related at the nodes in `N`. -/
structure Walk.PairsAt (N : Node → Prop) (R : ∀ {α : Type}, Eval α → Eval α → Prop) (w w' : Walk) :
    Prop where
  eval : ∀ {n}, N n → R (w.eval n) (w'.eval n)
  block : ∀ {n}, N n → R (w.block n) (w'.block n)

namespace Respects

open Eval

variable {E : RuntimeError → Prop} {R : ∀ {α : Type}, Eval α → Eval α → Prop} (hR : Respects E R)
include hR

theorem pure {α : Type} (a : α) : R (Pure.pure a : Eval α) (Pure.pure a) := hR.step (.pure a)

theorem fail {α : Type} {e : RuntimeError} (he : E e) : R (Eval.fail e : Eval α) (Eval.fail e) :=
  hR.step (.fail he)

theorem onHeap (f : Heap → Heap) : R (Eval.onHeap f) (Eval.onHeap f) :=
  hR.step (.make fun h => ((), f h))

theorem inspect {α : Type} (f : Heap → α) : R (Eval.inspect f) (Eval.inspect f) :=
  hR.step (.make fun h => (f h, h))

theorem release_then {α : Type} {v : Option Value} {x y : Eval α} (h : R x y) :
    R (Eval.release v >>= fun _ => x) (Eval.release v >>= fun _ => y) :=
  hR.bind (hR.onHeap fun h => h.release v) fun _ => h

theorem checked_bind {α β : Type} {r : Except RuntimeError α} {f g : α → Eval β}
    (he : ∀ e, r = .error e → E e) (h : ∀ a, r = .ok a → R (f a) (g a)) :
    R (Eval.checked r >>= f) (Eval.checked r >>= g) := by
  cases r with
  | ok a => exact h a rfl
  | error e => exact hR.fail (he e rfl)

/-! ## Checks and leaves -/

section
variable {c : Code}
omit hR

theorem checkArity_raises {k : Keyword} {head : Node} {args : List Node} {span : Span}
    {tag : Option Nat} (h : c.Permits E (.branch (head :: args) span tag)) :
    ∀ e, checkArity k args span = .error e → E e := by
  intro e he
  unfold checkArity at he
  split at he
  · cases he
  · split at he
    · cases he
    · split at he <;> cases he
      · exact h.raised (.malformed _ k)
      · exact h.raised (.arity _ k _ _)

theorem slotOf_raises {target : Node} (h : c.Permits E target) :
    ∀ e, slotOf target = .error e → E e := by
  intro e he
  unfold slotOf at he
  split at he
  · cases he
    exact h.raised (.expectedVariable _)
  · split at he <;> cases he
    exact h.raised (.expectedVariable _)

theorem functionOf_raises {l : Leaf} (hl : l.kind = .identifier) (h : c.Permits E (.leaf l)) :
    ∀ e, functionOf l = .error e → E e := by
  intro e he
  unfold functionOf at he
  split at he <;> cases he
  · exact h.raised (.notAFunction hl)
  · exact h.raised (.unresolved hl)

theorem statementLeaf_raises {l : Leaf} (h : c.Permits E (.leaf l)) : E (statementLeaf l) := by
  unfold statementLeaf
  split
  · exact h.raised (.keywordInLeaf (.leaf l) _)
  · exact h.raised (.expectedStatement (.leaf l))

end

theorem evalLeaf {c : Code} {l : Leaf} (h : c.Permits E (.leaf l)) : R (evalLeaf l) (evalLeaf l) := by
  unfold Lisplet.evalLeaf
  split
  · split
    · exact hR.bind (hR.onHeap _) fun _ => hR.pure _
    · exact hR.bind (hR.step (.make _)) fun _ => hR.pure _
  · exact hR.pure _
  · exact hR.pure _
  · exact hR.pure _
  · exact hR.pure _
  · exact hR.fail (h.raised (.keywordInLeaf (.leaf l) _))
  · rename_i hkind
    split
    · exact hR.step (.getSlot _)
    · exact hR.fail (h.raised (.functionAsValue hkind))
    · exact hR.fail (h.raised (.unresolved hkind))

/-! ## Loops -/

theorem whileLoop {test test' : Eval Bool} {body body' : Eval Flow} (ht : R test test')
    (hb : R body body') (fuel : Nat) :
    R (Code.whileLoop test body fuel) (Code.whileLoop test' body' fuel) := by
  induction fuel with
  | zero => exact hR.step .exhausted
  | succ fuel ih =>
    rw [Code.whileLoop_succ, Code.whileLoop_succ]
    refine hR.bind ht ?_
    intro b
    cases b with
    | false => exact hR.pure _
    | true =>
      refine hR.bind hb ?_
      intro flow
      cases flow with
      | normal => exact ih
      | returned v => exact hR.pure _

theorem forLoop {body body' : Eval Flow} (hb : R body body') (slot : Nat) (r : Ref) (fuel i : Nat) :
    R (Code.forLoop slot r body fuel i) (Code.forLoop slot r body' fuel i) := by
  induction fuel generalizing i with
  | zero => exact hR.step .exhausted
  | succ fuel ih =>
    rw [Code.forLoop_succ, Code.forLoop_succ]
    refine hR.bind (hR.inspect _) ?_
    intro item
    cases item with
    | none => exact hR.pure _
    | some v =>
      refine hR.bind (hR.onHeap _) fun _ => hR.bind (hR.step (.setSlot slot v)) fun _ => hR.bind hb ?_
      intro flow
      cases flow with
      | normal => exact ih (i + 1)
      | returned v => exact hR.pure _

section
variable {c c' : Code} {w w' : Walk} (hw : Walk.PairsAt (c.Permits E) R w w')
include hw

/-! ## Several nodes -/

theorem evalAll {ns : List Node} (h : ∀ n ∈ ns, c.Permits E n) : R (w.evalAll ns) (w'.evalAll ns) := by
  induction ns with
  | nil => exact hR.pure _
  | cons n ns ih =>
    rw [List.forall_mem_cons] at h
    exact hR.bind (hw.eval h.1) fun v => hR.bind (hR.orUndo _ (ih h.2)) fun _ => hR.pure _

theorem pushAll (hpush : ∀ v, R (Eval.push v) (Eval.push v)) {ns : List Node}
    (h : ∀ n ∈ ns, c.Permits E n) : R (w.pushAll ns) (w'.pushAll ns) := by
  induction ns with
  | nil => exact hR.pure _
  | cons n ns ih =>
    rw [List.forall_mem_cons] at h
    exact hR.bind (hw.eval h.1) fun v => hR.bind (hpush v) fun _ => ih h.2

theorem sequence {ns : List Node} (h : ∀ n ∈ ns, c.Permits E n) :
    R (w.sequence ns) (w'.sequence ns) := by
  induction ns with
  | nil => exact hR.pure _
  | cons n ns ih =>
    rw [List.forall_mem_cons] at h
    refine hR.bind (hw.block h.1) ?_
    intro flow
    cases flow with
    | normal => exact ih h.2
    | returned v => exact hR.pure _

theorem addEntries (t : Table) (ns : List Node) (h : ∀ n ∈ ns, c.Permits E n) :
    R (w.addEntries t ns) (w'.addEntries t ns) := by
  fun_induction Walk.addEntries w t ns with
  | case1 t k e rest ih1 ih2 =>
    simp only [List.forall_mem_cons] at h
    refine hR.bind (hR.orUndo _ (hw.eval h.1)) ?_
    intro key
    rcases key with _ | (_ | _ | _ | ⟨r, text⟩ | _ | _ | _)
    case some.str =>
      refine hR.bind (hR.orUndo (fun heap => (heap.release _).releaseRefs t.refs) (hw.eval h.2.1)) ?_
      intro v
      exact hR.bind (hR.step (.make _)) fun t => ih1 t h.2.2
    all_goals exact hR.release_then (ih2 h.2.2)
  | case2 ns t hns =>
    rcases ns with _ | ⟨k, _ | ⟨e, rest⟩⟩
    · exact hR.pure t
    · exact hR.pure t
    · exact (hns k e rest rfl).elim

theorem test {n : Node} (h : c.Permits E n) : R (w.test n) (w'.test n) :=
  hR.bind (hw.eval h) fun _ => hR.bind (hR.inspect _) fun _ => hR.release_then (hR.pure _)

theorem assign {target e : Node} (ht : c.Permits E target) (he : c.Permits E e) :
    R (w.assign target e) (w'.assign target e) := by
  refine hR.checked_bind (slotOf_raises ht) fun slot _ => hR.bind (hw.eval he) fun v => ?_
  exact hR.bind (hR.onHeap _) fun _ => hR.bind (hR.step (.setSlot slot v)) fun _ => hR.pure v

/-! ## Expressions -/

theorem evalKeyword (k : Keyword) {head : Node} {args : List Node} {span : Span} {tag : Option Nat}
    (h : c.Permits E (.branch (head :: args) span tag)) :
    R (Code.evalKeyword w k args span) (Code.evalKeyword w' k args span) := by
  have hargs := h.args
  unfold Code.evalKeyword
  refine hR.checked_bind (checkArity_raises h) ?_
  intro _ hcheck
  cases k with
  | and =>
    obtain ⟨a, b, rfl⟩ := two_operands hcheck rfl
    simp only [List.forall_mem_cons] at hargs
    refine hR.bind (hw.eval hargs.1) fun v => hR.bind (hR.inspect _) fun t => ?_
    cases t with
    | true => exact hR.release_then (hw.eval hargs.2.1)
    | false => exact hR.pure v
  | or =>
    obtain ⟨a, b, rfl⟩ := two_operands hcheck rfl
    simp only [List.forall_mem_cons] at hargs
    refine hR.bind (hw.eval hargs.1) fun v => hR.bind (hR.inspect _) fun t => ?_
    cases t with
    | true => exact hR.pure v
    | false => exact hR.release_then (hw.eval hargs.2.1)
  | ternary =>
    obtain ⟨cond, a, b, rfl⟩ := three_operands hcheck rfl
    simp only [List.forall_mem_cons] at hargs
    refine hR.bind (hR.test hw hargs.1) fun t => ?_
    cases t with
    | true => exact hw.eval hargs.2.1
    | false => exact hw.eval hargs.2.2.1
  | list =>
    exact hR.bind (hR.evalAll hw hargs) fun _ => hR.bind (hR.step (.make _)) fun _ => hR.pure _
  | table =>
    exact hR.bind (hR.addEntries hw {} args hargs) fun _ =>
      hR.bind (hR.step (.make _)) fun _ => hR.pure _
  | set =>
    obtain ⟨target, e, rfl⟩ := two_operands hcheck rfl
    simp only [List.forall_mem_cons] at hargs
    exact hR.assign hw hargs.1 hargs.2.1
  | defun | ifThen | otherwise | whileLoop | forEach | ret | print | setItem | push | remove =>
    exact hR.fail (h.raised (.notAnExpression _ _))
  -- the rest are operations on values, all of one form
  | _ => exact hR.bind (hR.evalAll hw hargs) fun vs => hR.step (.operation _ vs)

theorem evalNode {n : Node} (h : c.Permits E n)
    (hcall : ∀ index args, n.IsCall index args →
      R (c.call w index args n.span) (c'.call w' index args n.span)) :
    R (c.evalNode w n) (c'.evalNode w' n) := by
  match n, h, hcall with
  | .leaf l, h, _ => exact hR.evalLeaf h
  | .branch [] span tag, h, _ => exact hR.fail (h.raised (.emptyForm _))
  | .branch (.branch cs s t :: _) _ _, h, _ =>
    exact hR.fail ((h.child List.mem_cons_self).raised (.notCallable (.branch cs s t)))
  | .branch (.leaf head :: args) span tag, h, hcall =>
    have hhead : c.Permits E (.leaf head) := h.child List.mem_cons_self
    unfold Code.evalNode
    dsimp only
    cases hk : head.kind with
    | keyword k => exact hR.evalKeyword hw k h
    | identifier =>
      exact hR.checked_bind (functionOf_raises hk hhead) fun index hindex =>
        hcall index args (.mk span tag hk hindex)
    | _ => exact hR.fail (hhead.raised (.notCallable (.leaf head)))

/-! ## Statements -/

theorem runKeyword (fuel : Nat) (k : Keyword) {head : Node} {args : List Node} {span : Span}
    {tag : Option Nat} (h : c.Permits E (.branch (head :: args) span tag))
    (hprint : k = .print → ∀ v, R (Eval.print fuel v span) (Eval.print fuel v span)) :
    R (Code.runKeyword w fuel k args span) (Code.runKeyword w' fuel k args span) := by
  have hargs := h.args
  unfold Code.runKeyword
  refine hR.checked_bind (checkArity_raises h) ?_
  intro _ hcheck
  have hstore (k : Keyword) : R
      (do let vs ← w.evalAll args; Eval.onHeap (store k vs); Pure.pure Flow.normal)
      (do let vs ← w'.evalAll args; Eval.onHeap (store k vs); Pure.pure Flow.normal) :=
    hR.bind (hR.evalAll hw hargs) fun _ => hR.bind (hR.onHeap _) fun _ => hR.pure _
  cases k with
  | set =>
    obtain ⟨target, e, rfl⟩ := two_operands hcheck rfl
    simp only [List.forall_mem_cons] at hargs
    exact hR.bind (hR.assign hw hargs.1 hargs.2.1) fun _ => hR.release_then (hR.pure _)
  | print =>
    obtain ⟨e, rfl⟩ := one_operand hcheck rfl
    simp only [List.forall_mem_cons] at hargs
    exact hR.bind (hw.eval hargs.1) fun v =>
      hR.bind (hR.thenClose (fun heap => heap.release v) (hprint rfl v)) fun _ => hR.pure _
  | setItem => exact hstore _
  | push => exact hstore _
  | remove => exact hstore _
  | ifThen =>
    dsimp only
    cases hparts : ifParts args with
    | none => exact hR.fail (h.raised (.malformed _ _))
    | some parts =>
      obtain ⟨cond, a, b⟩ := parts
      obtain ⟨hcond, ha, hb⟩ := mem_of_ifParts hparts
      refine hR.bind (hR.test hw (hargs cond hcond)) fun t => ?_
      cases t with
      | true => exact hw.block (hargs a ha)
      | false =>
        cases b with
        | none => exact hR.pure _
        | some b => exact hw.block (hargs b (hb b rfl))
  | whileLoop =>
    match args, hargs with
    | [], _ => exact hR.fail (h.raised (.malformed _ _))
    | cond :: body, hargs =>
      rw [List.forall_mem_cons] at hargs
      exact hR.whileLoop (hR.test hw hargs.1) (hR.sequence hw hargs.2) fuel
  | forEach =>
    match args, hargs with
    | [], _ => exact hR.fail (h.raised (.malformed _ _))
    | [_], _ => exact hR.fail (h.raised (.malformed _ _))
    | var :: list :: body, hargs =>
      simp only [List.forall_mem_cons] at hargs
      refine hR.checked_bind (slotOf_raises hargs.1) fun slot _ => hR.bind (hw.eval hargs.2.1) ?_
      intro v
      match v with
      | some (.list r) =>
        exact hR.thenClose (fun heap => heap.release (some (.list r)))
          (hR.forLoop (hR.sequence hw hargs.2.2) slot r fuel 0)
      | none | some (.bool _) | some (.int _) | some (.float _) | some (.str _ _) | some (.tuple _)
      | some (.table _) => exact hR.release_then (hR.pure _)
  | ret =>
    obtain rfl | ⟨e, rfl⟩ := return_operands hcheck rfl
    · exact hR.pure _
    · simp only [List.forall_mem_cons] at hargs
      exact hR.bind (hw.eval hargs.1) fun _ => hR.pure _
  | _ => exact hR.fail (h.raised (.notAStatement _ _))

theorem runForm (fuel : Nat) {children : List Node} {span : Span} {tag : Option Nat}
    (h : c.Permits E (.branch children span tag))
    (hcall : ∀ index args, (Node.branch children span tag).IsCall index args →
      R (c.call w index args span) (c'.call w' index args span))
    (hprint : children.head?.bind Node.keyword? = some .print →
      ∀ v, R (Eval.print fuel v span) (Eval.print fuel v span)) :
    R (c.runForm w fuel children span) (c'.runForm w' fuel children span) := by
  match children, h with
  | [], _ => exact hR.pure _
  | .branch cs s t :: _, h =>
    exact hR.fail ((h.child List.mem_cons_self).raised (.notCallable (.branch cs s t)))
  | .leaf head :: args, h =>
    have hhead : c.Permits E (.leaf head) := h.child List.mem_cons_self
    unfold Code.runForm
    dsimp only
    cases hk : head.kind with
    | keyword k =>
      refine hR.runKeyword hw fuel k h ?_
      rintro rfl
      exact hprint (by simp [Node.keyword?, Leaf.keyword?, hk])
    | identifier =>
      exact hR.checked_bind (functionOf_raises hk hhead) fun index hindex =>
        hR.bind (hcall index args (.mk span tag hk hindex)) fun _ => hR.release_then (hR.pure _)
    | _ => exact hR.fail (hhead.raised (.notCallable (.leaf head)))

theorem runBlock (fuel : Nat) {n : Node} (h : c.Permits E n)
    (hcall : ∀ index args, n.IsCall index args →
      R (c.call w index args n.span) (c'.call w' index args n.span))
    (hprint : n.headKeyword? = some .print →
      ∀ v, R (Eval.print fuel v n.span) (Eval.print fuel v n.span)) :
    R (c.runBlock w fuel n) (c'.runBlock w' fuel n) := by
  match n, h with
  | .leaf l, h => exact hR.fail (statementLeaf_raises h)
  | .branch [] span _, h => exact hR.pure _
  | .branch (.branch cs s tag :: rest) _ _, h => exact hR.sequence hw fun n hn => h.child hn
  | .branch (.leaf head :: args) span tag, h => exact hR.runForm hw fuel h hcall hprint

end

end Respects

/-! ## Calls -/

namespace RespectsCalls

variable {E : RuntimeError → Prop} {R : ∀ {α : Type}, Eval α → Eval α → Prop}
  (hR : RespectsCalls E R) {c : Code} {w w' : Walk} (hw : Walk.PairsAt (c.Permits E) R w w')
include hR hw

theorem enterAndRun (f : Function) (index : Nat) {args : List Node} (mark : Nat)
    (hbody : ∀ n ∈ c.program.body index, c.Permits E n) (hargs : ∀ n ∈ args, c.Permits E n) :
    R (c.enterAndRun w f index args mark) (c.enterAndRun w' f index args mark) := by
  refine hR.bind (hR.truncate mark (hR.pushAll hw hR.push hargs)) fun _ => ?_
  refine hR.bind (hR.enterFrame f args.length) fun frame => ?_
  refine hR.bind (hR.leave frame (hR.sequence hw hbody)) ?_
  intro flow
  cases flow <;> exact hR.pure _

theorem call (hbody : ∀ i, ∀ n ∈ c.program.body i, c.Permits E n) (index : Nat) (args : List Node)
    (span : Span) (hargs : ∀ n ∈ args, c.Permits E n)
    (he : ∀ e, e.OfCall c index args.length span → E e) :
    R (c.call w index args span) (c.call w' index args span) := by
  rw [c.call_eq, c.call_eq]
  cases hf : c.program.function? index with
  | none => exact hR.fail (he _ .unknown)
  | some f =>
    refine hR.bind (hR.inspectStack _) ?_
    intro top
    by_cases hfull : c.isFull top.1 = true
    · rw [if_pos hfull, if_pos hfull]
      cases hlimit : c.limit with
      | none => simp [Code.isFull, hlimit] at hfull
      | some limit => exact hR.fail (he _ (.tooDeep hlimit))
    rw [if_neg hfull, if_neg hfull]
    by_cases hcount : args.length ≠ f.arity
    · rw [if_pos hcount, if_pos hcount]
      exact hR.fail (he _ (.miscounted hf))
    · rw [if_neg hcount, if_neg hcount]
      exact hR.enterAndRun hw f index top.2 (hbody index) hargs

end RespectsCalls

/-! ## Whole runs -/

namespace RespectsRuns

variable {E : RuntimeError → Prop} {R : ∀ {α : Type}, Eval α → Eval α → Prop} (hR : RespectsRuns E R)
  {c : Code} (hbody : ∀ i, ∀ n ∈ c.program.body i, c.Permits E n)
include hR hbody

theorem walk (fuel : Nat) : Walk.PairsAt (c.Permits E) R (c.walk fuel) (c.walk fuel) := by
  induction fuel with
  | zero => exact ⟨fun _ => hR.step .exhausted, fun _ => hR.step .exhausted⟩
  | succ fuel ih =>
    rw [Code.walk_succ]
    have hcall {n : Node} (h : c.Permits E n) (index : Nat) (args : List Node) (hn : n.IsCall index args) :=
      hR.call ih hbody index args n.span (h.call hn).1 (h.call hn).2
    refine ⟨fun h => hR.evalNode ih h (hcall h), fun {n} h => ?_⟩
    exact hR.runBlock ih fuel h (hcall h) fun _ v => hR.print fuel v n.span (h.raised (.output n))

theorem exec (fuel : Nat) {children : List Node} {span : Span}
    (h : c.Permits E (.branch children span none)) :
    R (c.exec fuel children span) (c.exec fuel children span) :=
  have hw := hR.walk hbody fuel
  hR.runForm hw fuel h (fun index args hn => hR.call hw hbody index args span (h.call hn).1 (h.call hn).2)
    fun _ v => hR.print fuel v span (h.raised (.output _))

theorem run (fuel : Nat) (he : ∀ e, e.OfCall c 0 0 c.mainSpan → E e) : R (c.run fuel) (c.run fuel) := by
  rw [Code.run_eq]
  refine hR.bind hR.started fun _ => hR.finished ?_
  exact hR.call (hR.walk hbody fuel) hbody 0 [] c.mainSpan (by simp) he

end RespectsRuns

end Lisplet
