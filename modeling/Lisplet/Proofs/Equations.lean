import Lisplet.Eval.Interpreter
import Lisplet.Proofs.Leaves

/-!
# Loops and calls, case by case

The operands that a checked form has, one round of a loop, the ways in which a call
can go, and one piece of text that is printed.
-/

namespace Lisplet

/-! ## Operands -/

section
variable {k : Keyword} {args : List Node} {span : Span} {u : Unit}
  (h : checkArity k args span = .ok u)
include h

theorem accepts_of_checkArity {arity : Arity} (hk : k.arity? = some arity) :
    arity.accepts args.length = true := by
  unfold checkArity at h
  rw [hk] at h
  by_cases hacc : arity.accepts args.length = true
  · exact hacc
  · simp only [hacc] at h
    by_cases ht : k = .table
    · simp [ht] at h
    · simp [ht] at h

theorem length_of_checkArity {count : Nat} (hk : k.arity? = some (.exact count)) :
    args.length = count := by
  simpa [Arity.accepts] using accepts_of_checkArity h hk

theorem one_operand (hk : k.arity? = some (.exact 1)) : ∃ a, args = [a] := by
  match args, length_of_checkArity h hk with
  | [a], _ => exact ⟨a, rfl⟩

theorem two_operands (hk : k.arity? = some (.exact 2)) : ∃ a b, args = [a, b] := by
  match args, length_of_checkArity h hk with
  | [a, b], _ => exact ⟨a, b, rfl⟩

theorem three_operands (hk : k.arity? = some (.exact 3)) : ∃ a b d, args = [a, b, d] := by
  match args, length_of_checkArity h hk with
  | [a, b, d], _ => exact ⟨a, b, d, rfl⟩

theorem return_operands (hk : k.arity? = some (.range 0 1)) : args = [] ∨ ∃ a, args = [a] := by
  have hlen := accepts_of_checkArity h hk
  match args, hlen with
  | [], _ => exact .inl rfl
  | [a], _ => exact .inr ⟨a, rfl⟩
  | _ :: _ :: _, hlen => simp [Arity.accepts] at hlen

end

open Node in
theorem checkArity_related {r : Leaf → Leaf → Prop} {ns ns' : List Node} (h : RelatedAll r ns ns')
    (k : Keyword) (span : Span) : checkArity k ns' span = checkArity k ns span := by
  unfold checkArity
  rw [h.length_eq]

open Node in
theorem ifParts_related {r : Leaf → Leaf → Prop} (hr : ∀ {l l' : Leaf}, r l l' → l'.kind = l.kind)
    {ns ns' : List Node} (h : RelatedAll r ns ns') :
    (ifParts ns = none ∧ ifParts ns' = none) ∨
    ∃ cond a cond' a', Related r cond cond' ∧ Related r a a' ∧
      ((ifParts ns = some (cond, a, none) ∧ ifParts ns' = some (cond', a', none)) ∨
        ∃ b b', Related r b b' ∧
          ifParts ns = some (cond, a, some b) ∧ ifParts ns' = some (cond', a', some b')) := by
  have hword {n n' : Node} (hn : Related r n n') : n'.keyword? = n.keyword? := hn.keyword?_eq hr
  match ns, ns', h with
  | [], [], _ => exact .inl ⟨rfl, rfl⟩
  | [_], [_], _ => exact .inl ⟨rfl, rfl⟩
  | [c, a], [c', a'], ⟨hc, ha, _⟩ =>
    exact .inr ⟨c, a, c', a', hc, ha, .inl ⟨rfl, rfl⟩⟩
  | [c, a, b], [c', a', b'], ⟨hc, ha, hb, _⟩ =>
    by_cases hk : b.keyword? = some .otherwise
    · exact .inl ⟨by simp [ifParts, hk], by simp [ifParts, hword hb, hk]⟩
    · exact .inr ⟨c, a, c', a', hc, ha, .inr ⟨b, b', hb, by simp [ifParts, hk],
        by simp [ifParts, hword hb, hk]⟩⟩
  | [c, a, e, b], [c', a', e', b'], ⟨hc, ha, he, hb, _⟩ =>
    by_cases hk : e.keyword? = some .otherwise
    · exact .inr ⟨c, a, c', a', hc, ha, .inr ⟨b, b', hb, by simp [ifParts, hk],
        by simp [ifParts, hword he, hk]⟩⟩
    · exact .inl ⟨by simp [ifParts, hk], by simp [ifParts, hword he, hk]⟩
  | _ :: _ :: _ :: _ :: _ :: _, _ :: _ :: _ :: _ :: _ :: _, _ => exact .inl ⟨rfl, rfl⟩

namespace Code

/-! ## Loops -/

theorem whileLoop_succ (test : Eval Bool) (body : Eval Flow) (fuel : Nat) :
    whileLoop test body (fuel + 1) = (do
      if ← test then
        match ← body with
        | .normal => whileLoop test body fuel
        | flow => pure flow
      else pure .normal) := by
  funext m
  simp only [whileLoop, bind, EStateM.bind]
  cases test m with
  | error e m₁ => rfl
  | ok b m₁ =>
    cases b with
    | false => rfl
    | true =>
      simp only [if_true, EStateM.bind]
      cases body m₁ with
      | error e m₂ => rfl
      | ok flow m₂ => cases flow <;> rfl

theorem forLoop_succ (slot : Nat) (r : Ref) (body : Eval Flow) (fuel i : Nat) :
    forLoop slot r body (fuel + 1) i = (do
      match ← Eval.inspect fun h => (h.itemsAt r)[i]? with
      | none => pure .normal
      | some v =>
        Eval.onHeap fun h => h.retain v
        Eval.setSlot slot v
        match ← body with
        | .normal => forLoop slot r body fuel (i + 1)
        | flow => pure flow) := by
  funext m
  simp only [forLoop, bind, EStateM.bind, Eval.inspect]
  cases (m.heap.itemsAt r)[i]? with
  | none => rfl
  | some v =>
    simp only [EStateM.bind, Eval.onHeap, Eval.setSlot]
    cases body ((m.onHeap fun h => h.retain v).setSlot slot v) with
    | error e m₁ => rfl
    | ok flow m₁ => cases flow <;> rfl

/-! ## Calls -/

variable (c : Code) (w : Walk) {index : Nat} {f : Function} {args : List Node} {span : Span}
  {m : Machine}

theorem call_unknown (args : List Node) (span : Span) (m : Machine)
    (hf : c.program.function? index = none) :
    c.call w index args span m = Eval.fail (.unresolved ("#" ++ toString index) span) m := by
  unfold call
  rw [hf]

theorem call_full (args : List Node) (span : Span) (hf : c.program.function? index = some f)
    (hfull : c.isFull m.stack.depth = true) :
    c.call w index args span m = Eval.fail (.callDepthExceeded (c.limit.getD 0) span) m := by
  unfold call
  simp only [hf, hfull, if_true]

theorem call_miscounted (span : Span) (hf : c.program.function? index = some f)
    (hfull : ¬ c.isFull m.stack.depth = true) (hcount : args.length ≠ f.arity) :
    c.call w index args span m =
      Eval.fail (.argumentCount f.name f.arity args.length span) m := by
  unfold call
  simp only [hf, hfull, if_false, hcount, ne_eq, not_false_eq_true, if_true, Bool.false_eq_true]

/-- The frame of a call whose arguments lie on top of the stack of `m`. -/
def frameOf (f : Function) (count : Nat) (m : Machine) : Frame × Machine :=
  (m.note (.called f.name count)).enter count f.locals

/-- A call that passes all checks: arguments, frame, body, and the frame is left
however the body ends. -/
theorem call_accepted (span : Span) (hf : c.program.function? index = some f)
    (hfull : ¬ c.isFull m.stack.depth = true) (hcount : args.length = f.arity) :
    c.call w index args span m =
      match w.pushAll args m with
      | .error e m' => .error e (m'.truncate m.stack.size)
      | .ok () m' =>
        match w.sequence (c.program.body index) (frameOf f args.length m').2 with
        | .error e m'' => .error e (m''.leave (frameOf f args.length m').1)
        | .ok (.returned v) m'' => .ok v (m''.leave (frameOf f args.length m').1)
        | .ok .normal m'' => .ok none (m''.leave (frameOf f args.length m').1) := by
  unfold call
  simp only [hf, hfull, if_false, hcount, ne_eq, not_true_eq_false, Bool.false_eq_true]
  unfold Eval.orUndo Eval.thenClose frameOf
  cases hp : w.pushAll args m with
  | error e m' => rfl
  | ok u m' =>
    dsimp only
    rw [← hcount]
    cases hs : w.sequence (c.program.body index)
        ((m'.note (.called f.name args.length)).enter args.length f.locals).2 with
    | error e m'' => rfl
    | ok flow m'' => cases flow <;> rfl

end Code

/-! ## Printing -/

theorem Eval.writePieces_text (span : Span) (k : Nat) (s : String) (rest : List Piece) :
    Eval.writePieces span (k + 1) (.text s :: rest) =
      (Eval.write s span >>= fun _ => Eval.writePieces span k rest) := by
  funext m
  simp only [Eval.writePieces, bind, EStateM.bind]
  cases Eval.write s span m <;> rfl

end Lisplet
