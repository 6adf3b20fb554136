import Lisplet.Proofs.Composition

/-!
# Congruences

All single steps of evaluation see only the heap and the stack, and so do the
changes that undo or close something. A relation that respects every such step
relates whole evaluations if it relates the two ways down the tree. Only `print`
touches the output, so it is left to whoever uses this.
-/

namespace Lisplet

/-! ## Silent steps -/

def Event.Detail (e : Event) : Prop := e.level = .debug ∨ e.level = .trace

structure Effect (α : Type) where
  ending : Except Stop α
  heap : Heap
  stack : CallStack
  events : List Event

def Effect.on (e : Effect α) (sink : Sink) (log : Log) : EStateM.Result Stop Machine α :=
  match e.ending with
  | .ok a => .ok a ⟨e.heap, e.stack, sink, log.addAll e.events⟩
  | .error stop => .error stop ⟨e.heap, e.stack, sink, log.addAll e.events⟩

namespace Eval

/-- The step neither sees nor changes the output, and does not see the log. It tells
nothing but details. -/
def Silent (act : Eval α) : Prop :=
  ∃ f : Heap → CallStack → Effect α, (∀ heap stack, ∀ e ∈ (f heap stack).events, e.Detail) ∧
    ∀ m : Machine, act m = (f m.heap m.stack).on m.sink m.log

def update (change : Machine → Machine) : Eval Unit := fun m => .ok () (change m)

section
variable {α : Type}

theorem silent_pure (a : α) : Silent (Pure.pure a : Eval α) :=
  ⟨fun heap stack => ⟨.ok a, heap, stack, []⟩, by simp, fun _ => rfl⟩

theorem silent_fail (e : RuntimeError) : Silent (fail e : Eval α) :=
  ⟨fun heap stack => ⟨.error (.error e), heap, stack, []⟩, by simp, fun _ => rfl⟩

theorem silent_exhausted : Silent (exhausted : Eval α) :=
  ⟨fun heap stack => ⟨.error .exhausted, heap, stack, []⟩, by simp, fun _ => rfl⟩

theorem silent_make (f : Heap → α × Heap) : Silent (make f) :=
  ⟨fun heap stack => ⟨.ok (f heap).1, (f heap).2, stack, []⟩, by simp, fun _ => rfl⟩

theorem silent_onHeap (f : Heap → Heap) : Silent (onHeap f) := silent_make fun h => ((), f h)

theorem silent_inspectStack (f : CallStack → α) : Silent (inspectStack f) :=
  ⟨fun heap stack => ⟨.ok (f stack), heap, stack, []⟩, by simp, fun _ => rfl⟩

theorem silent_getSlot (k : Nat) : Silent (getSlot k) :=
  ⟨fun heap stack => ⟨.ok (stack.get k), heap.retain (stack.get k), stack, []⟩, by simp, fun _ => rfl⟩

theorem silent_setSlot (k : Nat) (v : Option Value) : Silent (setSlot k v) :=
  ⟨fun heap stack => ⟨.ok (), heap.release (stack.set k v).1, (stack.set k v).2, []⟩, by simp, fun _ => rfl⟩

theorem silent_push (v : Option Value) : Silent (push v) :=
  ⟨fun heap stack => ⟨.ok (), heap, stack.push v, []⟩, by simp, fun _ => rfl⟩

theorem silent_enterFrame (f : Function) (count : Nat) : Silent (enterFrame f count) :=
  ⟨fun heap stack =>
    let entered := stack.enter count f.locals
    ⟨.ok entered.1, heap.releaseAll entered.2.1, entered.2.2,
      [.called f.name count, .frameEntered entered.2.2.base f.locals entered.2.2.depth]⟩,
    by simp [Event.Detail, Event.level], fun _ => rfl⟩

theorem silent_operation (k : Keyword) (vs : List (Option Value)) : Silent (operation k vs) := by
  refine ⟨fun heap stack => ⟨(applyOperation k vs heap).1.elim (.error .exhausted) .ok,
    (applyOperation k vs heap).2.releaseAll vs, stack, []⟩, by simp, ?_⟩
  rintro ⟨heap, stack, sink, log⟩
  unfold operation
  dsimp only
  cases applyOperation k vs heap with
  | mk result heap => cases result <;> rfl

theorem Step.silent {E : RuntimeError → Prop} {act : Eval α} (h : act.Step E) : Silent act := by
  cases h with
  | pure a => exact silent_pure a
  | fail _ => exact silent_fail _
  | exhausted => exact silent_exhausted
  | make f => exact silent_make f
  | getSlot k => exact silent_getSlot k
  | setSlot k v => exact silent_setSlot k v
  | operation k vs => exact silent_operation k vs

/-! Changes that undo or close something. -/

theorem silent_update_truncate (mark : Nat) : Silent (update (Machine.truncate mark)) :=
  ⟨fun heap stack => ⟨.ok (), heap.releaseAll (stack.truncate mark).1, (stack.truncate mark).2, []⟩,
    by simp, fun _ => rfl⟩

theorem silent_update_leave (frame : Frame) : Silent (update (Machine.leave frame)) :=
  ⟨fun heap stack =>
    let left := stack.leave frame
    ⟨.ok (), heap.releaseAll left.1, left.2, [.frameLeft left.2.base left.2.depth]⟩,
    by simp [Event.Detail, Event.level], fun _ => rfl⟩

theorem silent_update_note (e : CallStack → Event) (he : ∀ stack, (e stack).Detail) :
    Silent (update fun m => m.note (e m.stack)) :=
  ⟨fun heap stack => ⟨.ok (), heap, stack, [e stack]⟩, by simp [he], fun _ => rfl⟩

end

end Eval

/-! ## Relations that evaluation respects -/

structure Congruence (R : ∀ {α : Type}, Eval α → Eval α → Prop) : Prop where
  silent : ∀ {α : Type} {act : Eval α}, act.Silent → R act act
  bind : ∀ {α β : Type} {x y : Eval α} {f g : α → Eval β}, R x y → (∀ a, R (f a) (g a)) →
    R (x >>= f) (y >>= g)
  orUndo : ∀ {α : Type} {x y : Eval α} {undo : Machine → Machine}, R x y →
    (Eval.update undo).Silent → R (x.orUndo undo) (y.orUndo undo)
  thenClose : ∀ {α : Type} {x y : Eval α} {close : Machine → Machine}, R x y →
    (Eval.update close).Silent → R (x.thenClose close) (y.thenClose close)

structure Walk.Pairs (R : ∀ {α : Type}, Eval α → Eval α → Prop) (w w' : Walk) : Prop where
  eval : ∀ n, R (w.eval n) (w'.eval n)
  block : ∀ n, R (w.block n) (w'.block n)

theorem Walk.Pairs.everywhere {R : ∀ {α : Type}, Eval α → Eval α → Prop} {w w' : Walk} {N : Node → Prop}
    (h : Walk.Pairs R w w') : Walk.PairsAt N R w w' := ⟨fun _ => h.eval _, fun _ => h.block _⟩

namespace Congruence

open Eval

variable {R : ∀ {α : Type}, Eval α → Eval α → Prop} (hR : Congruence R)
include hR

theorem respectsCalls : RespectsCalls (fun _ => True) R where
  step h := hR.silent h.silent
  bind := hR.bind
  orUndo f h := hR.orUndo h (silent_onHeap f)
  thenClose f h := hR.thenClose h (silent_onHeap f)
  push v := hR.silent (silent_push v)
  inspectStack f := hR.silent (silent_inspectStack f)
  enterFrame f count := hR.silent (silent_enterFrame f count)
  truncate mark h := hR.orUndo h (silent_update_truncate mark)
  leave frame h := hR.thenClose h (silent_update_leave frame)

section
variable {w w' : Walk} (hw : Walk.Pairs R w w') (c : Code)
include hw

theorem call (index : Nat) (args : List Node) (span : Span) :
    R (c.call w index args span) (c.call w' index args span) :=
  hR.respectsCalls.call hw.everywhere (fun _ n _ => .of_forall (fun _ => trivial) n) index args span
    (fun n _ => .of_forall (fun _ => trivial) n) fun _ _ => trivial

theorem evalNode (n : Node) : R (c.evalNode w n) (c.evalNode w' n) :=
  hR.respectsCalls.evalNode hw.everywhere (.of_forall (fun _ => trivial) n) fun index args _ =>
    hR.call hw c index args n.span

/-- Whatever is run as a block and is no `print` form. -/
theorem runBlock (fuel : Nat) {n : Node} (hn : n.headKeyword? ≠ some .print) :
    R (c.runBlock w fuel n) (c.runBlock w' fuel n) :=
  hR.respectsCalls.runBlock hw.everywhere fuel (.of_forall (fun _ => trivial) n)
    (fun index args _ => hR.call hw c index args n.span) fun h => absurd h hn

end

end Congruence

end Lisplet
