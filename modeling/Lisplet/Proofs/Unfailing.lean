import Lisplet.Program.Resolve
import Lisplet.Proofs.Contents
import Lisplet.Proofs.Equations
import Lisplet.Proofs.Shape

/-!
# Programs that cannot fail

Nodes of the right shape are evaluated and run without an error, whatever values
turn up. `wellShaped_never_fails` says that a program which passes the check of
its shape never stops with an error, as long as neither the depth of calls nor
the room for output is limited.
-/

namespace Lisplet

/-! ## Computations without errors -/

/-- A result that is no error. The sink still has room for everything. -/
def Fine : EStateM.Result Stop Machine α → Prop
  | .ok _ m => m.sink.room = none
  | .error .exhausted _ => True
  | .error (.error _) _ => False

def Eval.Safe (act : Eval α) : Prop := ∀ m : Machine, m.sink.room = none → Fine (act m)

namespace Eval

section
variable {α β : Type}

/-- Computations that cannot stop and leave the sink alone. -/
theorem Safe.of_ok {act : Eval α} (h : ∀ m, ∃ a m', act m = .ok a m' ∧ m'.sink = m.sink) :
    act.Safe := by
  intro m hm
  obtain ⟨a, m', hact, hsink⟩ := h m
  rw [hact]
  show m'.sink.room = none
  rw [hsink, hm]

theorem Safe.pure (a : α) : (Pure.pure a : Eval α).Safe := .of_ok fun m => ⟨a, m, rfl, rfl⟩

theorem Safe.exhausted : (Eval.exhausted : Eval α).Safe := fun _ _ => trivial

theorem Safe.release (v : Option Value) : (Eval.release v).Safe := .of_ok fun _ => ⟨_, _, rfl, rfl⟩

theorem Safe.onHeap (f : Heap → Heap) : (Eval.onHeap f).Safe := .of_ok fun _ => ⟨_, _, rfl, rfl⟩

theorem Safe.make (f : Heap → α × Heap) : (Eval.make f).Safe := .of_ok fun _ => ⟨_, _, rfl, rfl⟩

theorem Safe.inspect (f : Heap → α) : (Eval.inspect f).Safe := .of_ok fun _ => ⟨_, _, rfl, rfl⟩

theorem Safe.getSlot (k : Nat) : (Eval.getSlot k).Safe := .of_ok fun _ => ⟨_, _, rfl, rfl⟩

theorem Safe.setSlot (k : Nat) (v : Option Value) : (Eval.setSlot k v).Safe :=
  .of_ok fun _ => ⟨_, _, rfl, rfl⟩

theorem Safe.push (v : Option Value) : (Eval.push v).Safe := .of_ok fun _ => ⟨_, _, rfl, rfl⟩

theorem Safe.bind {x : Eval α} {f : α → Eval β} (hx : x.Safe) (hf : ∀ a, (f a).Safe) :
    (x >>= f).Safe := by
  intro m hm
  have h := hx m hm
  show Fine (EStateM.bind x f m)
  unfold EStateM.bind
  cases hxm : x m with
  | ok a m' => rw [hxm] at h; exact hf a m' h
  | error e m' => rw [hxm] at h; cases e <;> exact h

theorem Safe.checked_bind {r : Except RuntimeError α} {f : α → Eval β} {a : α} (hr : r = .ok a)
    (hf : (f a).Safe) : (Eval.checked r >>= f).Safe := by
  rw [hr]
  exact hf

theorem Safe.orUndo {act : Eval α} (h : act.Safe) (undo : Machine → Machine) :
    (act.orUndo undo).Safe := by
  intro m hm
  have hact := h m hm
  unfold Eval.orUndo
  cases hr : act m with
  | ok a m' => rw [hr] at hact; exact hact
  | error e m' => rw [hr] at hact; cases e <;> exact hact

theorem Safe.thenClose {act : Eval α} {close : Machine → Machine} (h : act.Safe)
    (hc : ∀ m, (close m).sink = m.sink) : (act.thenClose close).Safe := by
  intro m hm
  have hact := h m hm
  unfold Eval.thenClose
  cases hr : act m with
  | ok a m' =>
    rw [hr] at hact
    show (close m').sink.room = none
    rw [hc]
    exact hact
  | error e m' => rw [hr] at hact; cases e <;> exact hact

end

/-! ## Output and operations -/

theorem Safe.write (text : String) (span : Span) : (Eval.write text span).Safe := by
  rintro ⟨heap, stack, ⟨bytes, room⟩, log⟩ hm
  obtain rfl : room = none := hm
  exact rfl

theorem Safe.writePieces (span : Span) (fuel : Nat) (pieces : List Piece) :
    (Eval.writePieces span fuel pieces).Safe := by
  induction fuel generalizing pieces with
  | zero =>
    cases pieces with
    | nil => exact .pure ()
    | cons _ _ => exact .exhausted
  | succ fuel ih =>
    cases pieces with
    | nil => exact .pure ()
    | cons p rest =>
      cases p with
      | text s =>
        intro m hm
        have hw := Safe.write s span m hm
        simp only [Eval.writePieces]
        cases hr : Eval.write s span m with
        | ok u m' => rw [hr] at hw; exact ih rest m' hw
        | error e m' => rw [hr] at hw; cases e <;> exact hw
      | value v => exact fun m hm => ih _ m hm

theorem Safe.print (fuel : Nat) (v : Option Value) (span : Span) :
    (Eval.print fuel v span).Safe := by
  unfold Eval.print
  split
  · exact .write _ span
  · exact .writePieces span fuel _

theorem Safe.operation (k : Keyword) (vs : List (Option Value)) : (operation k vs).Safe := by
  rintro ⟨heap, stack, sink, log⟩ hm
  unfold Lisplet.operation
  dsimp only
  cases applyOperation k vs heap with
  | mk result heap' =>
    cases result with
    | some v => exact hm
    | none => trivial

end Eval

/-! ## One step down the tree -/

structure Code.Unfailing (c : Code) : Prop where
  limit : c.limit = none
  bodies : ∀ i f, c.program.function? i = some f →
    Node.areBlocks c.program.functions (c.program.body i) = true

structure Walk.Safe (fs : List Function) (w : Walk) : Prop where
  eval : ∀ {n : Node}, n.isExpression fs = true → (w.eval n).Safe
  block : ∀ {n : Node}, n.isBlock fs = true → (w.block n).Safe

open Node Eval

theorem checkArity_of_takes {k : Keyword} {args : List Node} (h : k.takes args.length = true)
    (span : Span) : checkArity k args span = .ok () := by
  unfold Keyword.takes at h
  unfold checkArity
  cases hk : k.arity? with
  | none => rfl
  | some arity =>
    rw [hk] at h
    have hacc : arity.accepts args.length = true := h
    simp only [hacc, if_true]

theorem slotOf_of_isVariable {n : Node} (h : n.isVariable = true) : ∃ k, slotOf n = .ok k := by
  cases n with
  | branch _ _ _ => cases h
  | leaf l =>
    simp only [Node.isVariable, Leaf.isVariable] at h
    split at h
    · rename_i k _ hb
      exact ⟨k, by simp only [slotOf, hb]⟩
    · cases h

theorem set_operands {fs : List Function} {args : List Node} {span : Span}
    (hcheck : checkArity .set args span = .ok ()) (ht : targetsVariable .set args = true)
    (h : areExpressions fs args = true) :
    ∃ target e, args = [target, e] ∧ target.isVariable = true ∧ e.isExpression fs = true := by
  obtain ⟨target, e, rfl⟩ := two_operands hcheck rfl
  simp only [areExpressions, Bool.and_eq_true] at h
  exact ⟨target, e, rfl, ht, h.2.1⟩

theorem evalLeaf_safe {l : Leaf} (h : l.isOperand = true) : (evalLeaf l).Safe := by
  unfold Leaf.isOperand at h
  unfold evalLeaf
  cases hk : l.kind with
  | str text =>
    cases l.cell with
    | some r => exact .bind (.onHeap _) fun _ => .pure _
    | none => exact .bind (.make _) fun _ => .pure _
  | bool b => exact .pure _
  | null => exact .pure _
  | int i => exact .pure _
  | float x => exact .pure _
  | keyword k => rw [hk] at h; cases h
  | identifier =>
    rw [hk] at h
    simp only [Leaf.isVariable, hk] at h
    split at h
    · rename_i k _ hb
      rw [hb]
      exact .getSlot k
    · cases h

theorem whileLoop_safe {test : Eval Bool} {body : Eval Flow} (ht : test.Safe) (hb : body.Safe)
    (fuel : Nat) : (Code.whileLoop test body fuel).Safe := by
  induction fuel with
  | zero => exact .exhausted
  | succ fuel ih =>
    rw [Code.whileLoop_succ]
    refine .bind ht ?_
    intro b
    cases b with
    | false => exact .pure _
    | true =>
      refine .bind hb ?_
      intro flow
      cases flow with
      | normal => exact ih
      | returned v => exact .pure _

theorem forLoop_safe (slot : Nat) (r : Ref) {body : Eval Flow} (hb : body.Safe) (fuel i : Nat) :
    (Code.forLoop slot r body fuel i).Safe := by
  induction fuel generalizing i with
  | zero => exact .exhausted
  | succ fuel ih =>
    rw [Code.forLoop_succ]
    refine .bind (.inspect _) ?_
    intro item
    cases item with
    | none => exact .pure _
    | some v =>
      refine .bind (.onHeap _) fun _ => .bind (.setSlot slot v) fun _ => .bind hb ?_
      intro flow
      cases flow with
      | normal => exact ih (i + 1)
      | returned v => exact .pure _

section
variable {fs : List Function} {w : Walk} (hw : w.Safe fs)
include hw

theorem evalAll_safe {ns : List Node} (h : areExpressions fs ns = true) : (w.evalAll ns).Safe := by
  induction ns with
  | nil => exact .pure _
  | cons n ns ih =>
    rw [areExpressions, Bool.and_eq_true] at h
    exact .bind (hw.eval h.1) fun _ => .bind ((ih h.2).orUndo _) fun _ => .pure _

theorem pushAll_safe {ns : List Node} (h : areExpressions fs ns = true) : (w.pushAll ns).Safe := by
  induction ns with
  | nil => exact .pure _
  | cons n ns ih =>
    rw [areExpressions, Bool.and_eq_true] at h
    exact .bind (hw.eval h.1) fun v => .bind (.push v) fun _ => ih h.2

theorem sequence_safe {ns : List Node} (h : areBlocks fs ns = true) : (w.sequence ns).Safe := by
  induction ns with
  | nil => exact .pure _
  | cons n ns ih =>
    rw [areBlocks, Bool.and_eq_true] at h
    refine .bind (hw.block h.1) ?_
    intro flow
    cases flow with
    | normal => exact ih h.2
    | returned v => exact .pure _

theorem addEntries_safe : ∀ (t : Table) {ns : List Node}, areExpressions fs ns = true →
    (w.addEntries t ns).Safe
  | t, [], _ => .pure t
  | t, [_], _ => .pure t
  | t, k :: e :: rest, h => by
    simp only [areExpressions, Bool.and_eq_true] at h
    have hother (key : Option Value) : (Eval.release key >>= fun _ => w.addEntries t rest).Safe :=
      .bind (.release key) fun _ => addEntries_safe t h.2.2
    refine .bind ((hw.eval h.1).orUndo _) ?_
    intro key
    cases key with
    | none => exact hother none
    | some value =>
      cases value with
      | str r text =>
        refine .bind ((hw.eval h.2.1).orUndo _) fun v => .bind (.make _) ?_
        intro t
        exact addEntries_safe t h.2.2
      | _ => exact hother _

theorem test_safe {n : Node} (h : n.isExpression fs = true) : (w.test n).Safe :=
  .bind (hw.eval h) fun _ => .bind (.inspect _) fun _ => .bind (.release _) fun _ => .pure _

theorem assign_safe {target e : Node} (ht : target.isVariable = true)
    (he : e.isExpression fs = true) : (w.assign target e).Safe := by
  obtain ⟨k, hk⟩ := slotOf_of_isVariable ht
  refine .checked_bind hk ?_
  exact .bind (hw.eval he) fun v => .bind (.onHeap _) fun _ => .bind (.setSlot k v) fun _ => .pure _

theorem valued_safe {k : Keyword} {args : List Node} (span : Span) (h : (k.isValued &&
      k.takes args.length && targetsVariable k args && areExpressions fs args) = true) :
    (Code.evalKeyword w k args span).Safe := by
  simp only [Bool.and_eq_true] at h
  obtain ⟨⟨⟨hvalued, htakes⟩, htarget⟩, hargs⟩ := h
  have hcheck := checkArity_of_takes htakes span
  refine .checked_bind hcheck ?_
  cases k with
  | and =>
    obtain ⟨a, b, rfl⟩ := two_operands hcheck rfl
    simp only [areExpressions, Bool.and_eq_true] at hargs
    refine .bind (hw.eval hargs.1) fun v => .bind (.inspect _) fun t => ?_
    cases t with
    | true => exact .bind (.release v) fun _ => hw.eval hargs.2.1
    | false => exact .pure v
  | or =>
    obtain ⟨a, b, rfl⟩ := two_operands hcheck rfl
    simp only [areExpressions, Bool.and_eq_true] at hargs
    refine .bind (hw.eval hargs.1) fun v => .bind (.inspect _) fun t => ?_
    cases t with
    | true => exact .pure v
    | false => exact .bind (.release v) fun _ => hw.eval hargs.2.1
  | ternary =>
    obtain ⟨cond, a, b, rfl⟩ := three_operands hcheck rfl
    simp only [areExpressions, Bool.and_eq_true] at hargs
    refine .bind (test_safe hw hargs.1) fun t => ?_
    cases t with
    | true => exact hw.eval hargs.2.1
    | false => exact hw.eval hargs.2.2.1
  | list => exact .bind (evalAll_safe hw hargs) fun _ => .bind (.make _) fun _ => .pure _
  | table => exact .bind (addEntries_safe hw {} hargs) fun _ => .bind (.make _) fun _ => .pure _
  | set =>
    obtain ⟨target, e, rfl, ht, he⟩ := set_operands hcheck htarget hargs
    exact assign_safe hw ht he
  | defun | ifThen | otherwise | whileLoop | forEach | ret => cases hvalued
  | print | setItem | push | remove => cases hvalued
  | _ => exact .bind (evalAll_safe hw hargs) fun vs => .operation _ vs

end

/-! ## Calls and forms -/

theorem function_of_calls {p : Program} {l : Leaf} {count : Nat}
    (h : l.calls p.functions count = true) :
    ∃ i f, functionOf l = .ok i ∧ p.function? i = some f ∧ f.arity = count := by
  unfold Leaf.calls at h
  split at h
  · rename_i i hb
    obtain ⟨f, hf, ha⟩ := (Option.any_eq_true ..).mp h
    exact ⟨i, f, by simp only [functionOf, hb], hf, by simpa using ha⟩
  · cases h

section
variable {c : Code} (hc : c.Unfailing) {w : Walk} (hw : w.Safe c.program.functions)
include hc hw

theorem call_safe {i : Nat} {f : Function} (hf : c.program.function? i = some f) {args : List Node}
    (hcount : args.length = f.arity) (hargs : areExpressions c.program.functions args = true)
    (span : Span) : (c.call w i args span).Safe := by
  intro m hm
  have hfull : ¬ c.isFull m.stack.depth = true := by simp [Code.isFull, hc.limit]
  rw [c.call_accepted w span hf hfull hcount]
  have hpush := pushAll_safe hw hargs m hm
  cases hp : w.pushAll args m with
  | error e m₁ => rw [hp] at hpush; cases e <;> exact hpush
  | ok u m₁ =>
    rw [hp] at hpush
    dsimp only
    have hroom : (Code.frameOf f args.length m₁).2.sink.room = none := hpush
    have hbody := sequence_safe hw (hc.bodies i f hf) _ hroom
    cases hs : w.sequence (c.program.body i) (Code.frameOf f args.length m₁).2 with
    | error e m₂ => rw [hs] at hbody; cases e <;> exact hbody
    | ok flow m₂ =>
      rw [hs] at hbody
      cases flow <;> exact hbody

theorem callHead_safe {l : Leaf} {args : List Node}
    (hl : l.calls c.program.functions args.length = true)
    (hargs : areExpressions c.program.functions args = true) (span : Span) :
    (do
      let index ← Eval.checked (functionOf l)
      c.call w index args span).Safe := by
  obtain ⟨i, f, hi, hf, harity⟩ := function_of_calls hl
  exact .checked_bind hi (call_safe hc hw hf harity.symm hargs span)

theorem evalNode_safe {n : Node} (h : n.isExpression c.program.functions = true) :
    (c.evalNode w n).Safe := by
  match n with
  | .leaf l => exact evalLeaf_safe h
  | .branch [] _ _ => cases h
  | .branch (.branch _ _ _ :: _) _ _ => cases h
  | .branch (.leaf head :: args) span tag =>
    unfold Code.evalNode
    dsimp only
    cases hk : head.kind with
    | keyword k =>
      unfold isExpression at h
      rw [hk] at h
      exact valued_safe hw span h
    | identifier =>
      unfold isExpression at h
      rw [hk, Bool.and_eq_true] at h
      exact callHead_safe hc hw h.1 h.2 span
    | _ => unfold isExpression at h; rw [hk] at h; cases h

end

/-! ## Statements -/

theorem keyword?_of_isBlock {fs : List Function} {n : Node} (h : n.isBlock fs = true) : n.keyword? = none := by
  cases n with
  | leaf _ => cases h
  | branch _ _ _ => rfl

section
variable {fs : List Function} {w : Walk} (hw : w.Safe fs)
include hw

theorem action_safe {k : Keyword} {args : List Node} (span : Span) (fuel : Nat)
    (h : (k.isAction && k.takes args.length && targetsVariable k args &&
      areExpressions fs args) = true) : (Code.runKeyword w fuel k args span).Safe := by
  simp only [Bool.and_eq_true] at h
  obtain ⟨⟨⟨haction, htakes⟩, htarget⟩, hargs⟩ := h
  have hcheck := checkArity_of_takes htakes span
  have hstore (k : Keyword) :
      (do let vs ← w.evalAll args; Eval.onHeap (store k vs); Pure.pure Flow.normal).Safe :=
    .bind (evalAll_safe hw hargs) fun _ => .bind (.onHeap _) fun _ => .pure _
  refine .checked_bind hcheck ?_
  cases k with
  | set =>
    obtain ⟨target, e, rfl, ht, he⟩ := set_operands hcheck htarget hargs
    exact .bind (assign_safe hw ht he) fun _ => .bind (.release _) fun _ => .pure _
  | print =>
    obtain ⟨e, rfl⟩ := one_operand hcheck rfl
    rw [areExpressions, Bool.and_eq_true] at hargs
    refine .bind (hw.eval hargs.1) fun v => ?_
    exact .bind ((Safe.print fuel v span).thenClose fun _ => rfl) fun _ => .pure _
  | setItem => exact hstore _
  | push => exact hstore _
  | remove => exact hstore _
  | ret =>
    obtain rfl | ⟨e, rfl⟩ := return_operands hcheck rfl
    · exact .pure _
    · rw [areExpressions, Bool.and_eq_true] at hargs
      exact .bind (hw.eval hargs.1) fun _ => .pure _
  | _ => cases haction

theorem if_safe {args : List Node} {cond a : Node} {b : Option Node} (span : Span) (fuel : Nat)
    (hparts : ifParts args = some (cond, a, b)) (hcond : cond.isExpression fs = true)
    (ha : a.isBlock fs = true) (hb : ∀ x, b = some x → x.isBlock fs = true) :
    (Code.runKeyword w fuel .ifThen args span).Safe := by
  refine .checked_bind rfl ?_
  dsimp only
  rw [hparts]
  refine .bind (test_safe hw hcond) ?_
  intro t
  cases t with
  | true => exact hw.block ha
  | false =>
    cases b with
    | none => exact .pure _
    | some b => exact hw.block (hb b rfl)

theorem conditional_safe {args : List Node} (span : Span) (fuel : Nat)
    (h : isConditional fs args = true) : (Code.runKeyword w fuel .ifThen args span).Safe := by
  unfold isConditional at h
  split at h
  · simp only [Bool.and_eq_true] at h
    exact if_safe hw span fuel rfl h.1 h.2 (by simp)
  · rename_i cond a b
    simp only [Bool.and_eq_true] at h
    have hparts : ifParts [cond, a, b] = some (cond, a, some b) := by
      simp [ifParts, keyword?_of_isBlock h.2]
    exact if_safe hw span fuel hparts h.1.1 h.1.2 (by simpa using h.2)
  · rename_i cond a mark b
    simp only [Bool.and_eq_true, beq_iff_eq] at h
    have hparts : ifParts [cond, a, mark, b] = some (cond, a, some b) := by
      simp [ifParts, h.1.2]
    exact if_safe hw span fuel hparts h.1.1.1 h.1.1.2 (by simpa using h.2)
  · cases h

theorem repetition_safe {args : List Node} (span : Span) (fuel : Nat)
    (h : isRepetition fs args = true) : (Code.runKeyword w fuel .whileLoop args span).Safe := by
  cases args with
  | nil => cases h
  | cons cond body =>
    rw [isRepetition, Bool.and_eq_true] at h
    exact .checked_bind rfl (whileLoop_safe (test_safe hw h.1) (sequence_safe hw h.2) fuel)

theorem iteration_safe {args : List Node} (span : Span) (fuel : Nat)
    (h : isIteration fs args = true) : (Code.runKeyword w fuel .forEach args span).Safe := by
  unfold isIteration at h
  split at h
  · simp only [Bool.and_eq_true] at h
    obtain ⟨slot, hslot⟩ := slotOf_of_isVariable h.1.1
    refine .checked_bind rfl (.checked_bind hslot (.bind (hw.eval h.1.2) ?_))
    intro v
    split
    · exact (forLoop_safe slot _ (sequence_safe hw h.2) fuel 0).thenClose fun _ => rfl
    · exact .bind (.release _) fun _ => .pure _
  · cases h

theorem statement_safe {head : Leaf} {k : Keyword} {args : List Node} {s : Span}
    {tag : Option Nat} (span : Span) (fuel : Nat) (hk : head.kind = .keyword k)
    (h : (branch (leaf head :: args) s tag).isBlock fs = true) :
    (Code.runKeyword w fuel k args span).Safe := by
  unfold isBlock at h
  rw [hk] at h
  cases k with
  | ifThen => exact conditional_safe hw span fuel h
  | whileLoop => exact repetition_safe hw span fuel h
  | forEach => exact iteration_safe hw span fuel h
  | _ => exact action_safe hw span fuel h

end

section
variable {c : Code} (hc : c.Unfailing) {w : Walk} (hw : w.Safe c.program.functions)
include hc hw

theorem runBlock_safe (fuel : Nat) {n : Node} (h : n.isBlock c.program.functions = true) :
    (c.runBlock w fuel n).Safe := by
  match n with
  | .leaf _ => cases h
  | .branch [] _ _ => exact .pure _
  | .branch (.branch cs s t :: rest) _ _ =>
    unfold isBlock at h
    have hall : areBlocks c.program.functions (.branch cs s t :: rest) = true := h
    exact sequence_safe hw hall
  | .branch (.leaf head :: args) span tag =>
    unfold Code.runBlock Code.runForm
    dsimp only
    cases hk : head.kind with
    | keyword k => exact statement_safe hw span fuel hk h
    | identifier =>
      unfold isBlock at h
      rw [hk, Bool.and_eq_true] at h
      dsimp only
      rw [← bind_assoc]
      exact .bind (callHead_safe hc hw h.1 h.2 span) fun _ => .bind (.release _) fun _ => .pure _
    | _ => unfold isBlock at h; rw [hk] at h; cases h

end

theorem walk_safe {c : Code} (hc : c.Unfailing) (fuel : Nat) :
    (c.walk fuel).Safe c.program.functions := by
  induction fuel with
  | zero => exact ⟨fun _ => .exhausted, fun _ => .exhausted⟩
  | succ fuel ih => exact ⟨fun h => evalNode_safe hc ih h, fun h => runBlock_safe hc ih fuel h⟩

/-! ## Whole runs -/

theorem unfailing_of_wellShaped {p : Program} (h : p.wellShaped = true) :
    Code.Unfailing ⟨p.load.1, none⟩ := by
  refine ⟨rfl, ?_⟩
  intro i f hf
  have hi : i < p.functions.length := (List.getElem?_eq_some_iff.mp hf).1
  exact (areBlocks_reloaded _ (reloaded_body p i)).trans ((Program.wellShaped_iff.mp h).2 i hi)

theorem run_safe {p : Program} (h : p.wellShaped = true) (fuel : Nat) :
    (Code.run ⟨p.load.1, none⟩ fuel).Safe := by
  have hc := unfailing_of_wellShaped h
  obtain ⟨⟨f, hf, harity⟩, -⟩ := Program.wellShaped_iff.mp h
  have hnone : ([] : List Node).length = f.arity := harity.symm
  have hmain (span : Span) :
      (Code.call ⟨p.load.1, none⟩ (Code.walk ⟨p.load.1, none⟩ fuel) 0 [] span).Safe :=
    call_safe hc (walk_safe hc fuel) hf hnone rfl span
  have hnoted (span : Span) :
      ((Code.call ⟨p.load.1, none⟩ (Code.walk ⟨p.load.1, none⟩ fuel) 0 [] span).thenClose
        fun m => m.note (.mainFinished m.stack.size)).Safe :=
    (hmain span).thenClose fun _ => rfl
  exact fun m hm => hnoted _ (m.note .mainStarted) hm

/-- A program of the right shape never stops with an error: on every machine whose sink
has room for everything, and however long it runs, it ends well unless it does not end. -/
theorem wellShaped_never_fails {p : Program} (h : p.wellShaped = true) (sink : Sink) (log : Log)
    (m : Machine) (hm : m.sink.room = none) (fuel : Nat) :
    let result := (Interpreter.start p none sink log).code.run fuel m
    (∃ v m', result = .ok v m') ∨ ∃ m', result = .error .exhausted m' := by
  intro result
  have hfine : Fine result := run_safe h fuel m hm
  cases hr : result with
  | ok v m' => exact .inl ⟨v, m', rfl⟩
  | error e m' =>
    rw [hr] at hfine
    cases e with
    | exhausted => exact .inr ⟨m', rfl⟩
    | error e => exact hfine.elim

def mixedOperands : List Char :=
  "(defun (main) (set x (list 1 (+ \"a\" 2)))
    (for y x (if (< y x) (print y) else (push y (f x)))) (return (/ x 0)))
   (defun (f a) (return (- a)))".toList

theorem wellShaped_never_fails_mixedOperands :
    ∃ (r : Reading) (p : Program), readTree mixedOperands = .ok r ∧ resolve r.root = .ok p ∧
      p.wellShaped = true ∧
      ∀ fuel, let i := Interpreter.start p none {} {}
        (∃ v m', i.code.run fuel i.machine = .ok v m') ∨
          ∃ m', i.code.run fuel i.machine = .error .exhausted m' := by
  have hsome : ((readTree mixedOperands).toOption.bind fun r =>
      (resolve r.root).toOption).any Program.wellShaped = true := by decide +kernel
  cases hr : readTree mixedOperands with
  | error e => rw [hr] at hsome; cases hsome
  | ok r =>
    cases hp : resolve r.root with
    | error e => rw [hr] at hsome; simp [Except.toOption, hp] at hsome
    | ok p =>
      have hshape : p.wellShaped = true := by
        rw [hr] at hsome
        simpa [Except.toOption, hp] using hsome
      exact ⟨r, p, rfl, hp, hshape, fun fuel => wellShaped_never_fails hshape {} {} _ rfl fuel⟩

end Lisplet
