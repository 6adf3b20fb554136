import Lisplet.Proofs.Leaves

/-!
# Shapes of programs

Which errors a program can stop with is decided by the shape of its tree, never
by the values that it computes with. `Program.wellShaped` checks the shape.
Loading a program does not change it.
-/

namespace Lisplet

/-! ## The check -/

def Keyword.isValued : Keyword → Bool
  | .defun | .ifThen | .otherwise | .whileLoop | .forEach | .ret => false
  | .print | .setItem | .push | .remove => false
  | _ => true

def Keyword.isAction : Keyword → Bool
  | .set | .print | .setItem | .push | .remove | .ret => true
  | _ => false

def Keyword.takes (k : Keyword) (count : Nat) : Bool := k.arity?.all (·.accepts count)

namespace Leaf

def isVariable (l : Leaf) : Bool :=
  match l.kind, l.binding with
  | .identifier, some (.slot _) => true
  | _, _ => false

def isOperand (l : Leaf) : Bool :=
  match l.kind with
  | .keyword _ => false
  | .identifier => l.isVariable
  | _ => true

def calls (fs : List Function) (l : Leaf) (count : Nat) : Bool :=
  match l.binding with
  | some (.function i) => fs[i]?.any (·.arity == count)
  | _ => false

end Leaf

namespace Node

def isVariable : Node → Bool
  | leaf l => l.isVariable
  | branch _ _ _ => false

def targetsVariable (k : Keyword) (args : List Node) : Bool :=
  k != .set || args.head?.any isVariable

mutual

def isExpression (fs : List Function) : Node → Bool
  | leaf l => l.isOperand
  | branch [] _ _ => false
  | branch (branch _ _ _ :: _) _ _ => false
  | branch (leaf head :: args) _ _ =>
    match head.kind with
    | .keyword k =>
      k.isValued && k.takes args.length && targetsVariable k args && areExpressions fs args
    | .identifier => head.calls fs args.length && areExpressions fs args
    | _ => false

def areExpressions (fs : List Function) : List Node → Bool
  | [] => true
  | n :: ns => n.isExpression fs && areExpressions fs ns

end

mutual

/-- Whether a node can be run: an empty form, a sequence of blocks, or a statement. -/
def isBlock (fs : List Function) : Node → Bool
  | leaf _ => false
  | branch [] _ _ => true
  | branch (branch cs s t :: rest) _ _ => isBlock fs (branch cs s t) && areBlocks fs rest
  | branch (leaf head :: args) _ _ =>
    match head.kind with
    | .keyword .ifThen => isConditional fs args
    | .keyword .whileLoop => isRepetition fs args
    | .keyword .forEach => isIteration fs args
    | .keyword k =>
      k.isAction && k.takes args.length && targetsVariable k args && areExpressions fs args
    | .identifier => head.calls fs args.length && areExpressions fs args
    | _ => false

def areBlocks (fs : List Function) : List Node → Bool
  | [] => true
  | n :: ns => isBlock fs n && areBlocks fs ns

def isConditional (fs : List Function) : List Node → Bool
  | [cond, a] => cond.isExpression fs && isBlock fs a
  | [cond, a, b] => cond.isExpression fs && isBlock fs a && isBlock fs b
  | [cond, a, mark, b] =>
    cond.isExpression fs && isBlock fs a && mark.keyword? == some .otherwise && isBlock fs b
  | _ => false

def isRepetition (fs : List Function) : List Node → Bool
  | cond :: body => cond.isExpression fs && areBlocks fs body
  | [] => false

def isIteration (fs : List Function) : List Node → Bool
  | var :: list :: body => var.isVariable && list.isExpression fs && areBlocks fs body
  | _ => false

end

end Node

/-- Whether a program has a function `main` without parameters, and bodies that consist
of blocks. -/
def Program.wellShaped (p : Program) : Bool :=
  (p.function? 0).any (·.arity == 0) &&
    (List.range p.functions.length).all fun i => Node.areBlocks p.functions (p.body i)

open Node

theorem Program.wellShaped_iff {p : Program} : p.wellShaped = true ↔
    (∃ f, p.function? 0 = some f ∧ f.arity = 0) ∧
      ∀ i < p.functions.length, areBlocks p.functions (p.body i) = true := by
  simp only [wellShaped, Bool.and_eq_true, Option.any_eq_true, beq_iff_eq, List.all_eq_true,
    List.mem_range]

/-! ## Loading -/

theorem Leaf.Reloaded.isVariable_eq {l l' : Leaf} (h : l.Reloaded l') :
    l'.isVariable = l.isVariable := by
  unfold Leaf.isVariable
  rw [h.kind, h.binding]

theorem Leaf.Reloaded.isOperand_eq {l l' : Leaf} (h : l.Reloaded l') :
    l'.isOperand = l.isOperand := by
  unfold Leaf.isOperand
  rw [h.kind, h.isVariable_eq]

theorem isVariable_reloaded {n n' : Node} (h : Related Leaf.Reloaded n n') :
    n'.isVariable = n.isVariable := by
  cases n with
  | leaf l =>
    obtain ⟨l', rfl, hl⟩ := related_leaf_inv h
    exact hl.isVariable_eq
  | branch _ _ _ =>
    obtain ⟨_, _, rfl, -⟩ := related_branch_inv h
    rfl

theorem targetsVariable_reloaded {args args' : List Node} (h : RelatedAll Leaf.Reloaded args args')
    (k : Keyword) : targetsVariable k args' = targetsVariable k args := by
  cases args with
  | nil => rw [relatedAll_nil_inv h]
  | cons n ns =>
    obtain ⟨m, ms, rfl, hn, -⟩ := relatedAll_cons_inv h
    simp only [targetsVariable, List.head?_cons, Option.any_some, isVariable_reloaded hn]

theorem calls_reloaded {l l' : Leaf} (h : l.Reloaded l') (fs : List Function) (count : Nat) :
    l'.calls fs count = l.calls fs count := by
  unfold Leaf.calls
  rw [h.binding]

mutual

theorem isExpression_reloaded {fs : List Function} :
    ∀ {n n' : Node}, Related Leaf.Reloaded n n' → n'.isExpression fs = n.isExpression fs
  | leaf _, _, h => by
    obtain ⟨l', rfl, hl⟩ := related_leaf_inv h
    exact hl.isOperand_eq
  | branch [] _ _, _, h => by
    obtain ⟨_, _, rfl, hcs⟩ := related_branch_inv h
    rw [relatedAll_nil_inv hcs]
    rfl
  | branch (branch _ _ _ :: _) _ _, _, h => by
    obtain ⟨_, _, _, rfl, hhead, -⟩ := related_cons_inv h
    obtain ⟨_, _, rfl, -⟩ := related_branch_inv hhead
    rfl
  | branch (leaf head :: args) _ _, _, h => by
    obtain ⟨_, args', _, rfl, hhead, hargs⟩ := related_cons_inv h
    obtain ⟨head', rfl, hl⟩ := related_leaf_inv hhead
    have hes : areExpressions fs args' = areExpressions fs args := areExpressions_reloaded hargs
    unfold isExpression
    rw [hl.kind]
    cases head.kind with
    | keyword k => dsimp only; rw [hargs.length_eq, targetsVariable_reloaded hargs, hes]
    | identifier => dsimp only; rw [hargs.length_eq, calls_reloaded hl, hes]
    | _ => rfl

theorem areExpressions_reloaded {fs : List Function} :
    ∀ {ns ns' : List Node}, RelatedAll Leaf.Reloaded ns ns' →
      areExpressions fs ns' = areExpressions fs ns
  | [], _, h => by rw [relatedAll_nil_inv h]
  | n :: ns, _, h => by
    obtain ⟨m, ms, rfl, hn, hns⟩ := relatedAll_cons_inv h
    rw [areExpressions, areExpressions, isExpression_reloaded hn, areExpressions_reloaded hns]

end

mutual

theorem isBlock_reloaded (fs : List Function) :
    ∀ {n n' : Node}, Related Leaf.Reloaded n n' → n'.isBlock fs = n.isBlock fs
  | leaf _, _, h => by
    obtain ⟨_, rfl, -⟩ := related_leaf_inv h
    rfl
  | branch [] _ _, _, h => by
    obtain ⟨_, _, rfl, hcs⟩ := related_branch_inv h
    rw [relatedAll_nil_inv hcs]
    rfl
  | branch (branch _ _ _ :: _) _ _, _, h => by
    obtain ⟨head', _, _, rfl, hhead, hrest⟩ := related_cons_inv h
    have hfirst := isBlock_reloaded fs hhead
    have hothers := areBlocks_reloaded fs hrest
    obtain ⟨_, _, rfl, -⟩ := related_branch_inv hhead
    rw [isBlock, hfirst, hothers, isBlock]
  | branch (leaf head :: args) _ _, _, h => by
    obtain ⟨_, args', _, rfl, hhead, hargs⟩ := related_cons_inv h
    obtain ⟨head', rfl, hl⟩ := related_leaf_inv hhead
    have hif := isConditional_reloaded fs hargs
    have hwhile := isRepetition_reloaded fs hargs
    have hfor := isIteration_reloaded fs hargs
    have hes : areExpressions fs args' = areExpressions fs args := areExpressions_reloaded hargs
    unfold isBlock
    rw [hl.kind]
    cases head.kind with
    | keyword k =>
      have haction : (k.isAction && k.takes args'.length && targetsVariable k args' &&
          areExpressions fs args') = (k.isAction && k.takes args.length && targetsVariable k args &&
          areExpressions fs args) := by
        rw [hargs.length_eq, targetsVariable_reloaded hargs, hes]
      cases k with
      | ifThen => exact hif
      | whileLoop => exact hwhile
      | forEach => exact hfor
      | _ => exact haction
    | identifier => dsimp only; rw [hargs.length_eq, calls_reloaded hl, hes]
    | _ => rfl

theorem areBlocks_reloaded (fs : List Function) :
    ∀ {ns ns' : List Node}, RelatedAll Leaf.Reloaded ns ns' → areBlocks fs ns' = areBlocks fs ns
  | [], _, h => by rw [relatedAll_nil_inv h]
  | n :: ns, _, h => by
    obtain ⟨m, ms, rfl, hn, hns⟩ := relatedAll_cons_inv h
    rw [areBlocks, areBlocks, isBlock_reloaded fs hn, areBlocks_reloaded fs hns]

theorem isConditional_reloaded (fs : List Function) :
    ∀ {ns ns' : List Node}, RelatedAll Leaf.Reloaded ns ns' →
      isConditional fs ns' = isConditional fs ns
  | [], [], _ => rfl
  | [_], [_], _ => rfl
  | [_, _], [_, _], ⟨hc, ha, _⟩ => by
    rw [isConditional, isConditional, isExpression_reloaded hc, isBlock_reloaded fs ha]
  | [_, _, _], [_, _, _], ⟨hc, ha, hb, _⟩ => by
    rw [isConditional, isConditional, isExpression_reloaded hc, isBlock_reloaded fs ha,
      isBlock_reloaded fs hb]
  | [_, _, _, _], [_, _, _, _], ⟨hc, ha, hm, hb, _⟩ => by
    rw [isConditional, isConditional, isExpression_reloaded hc, isBlock_reloaded fs ha,
      hm.keyword?_eq Leaf.Reloaded.kind, isBlock_reloaded fs hb]
  | _ :: _ :: _ :: _ :: _ :: _, _ :: _ :: _ :: _ :: _ :: _, _ => rfl

theorem isRepetition_reloaded (fs : List Function) :
    ∀ {ns ns' : List Node}, RelatedAll Leaf.Reloaded ns ns' →
      isRepetition fs ns' = isRepetition fs ns
  | [], _, h => by rw [relatedAll_nil_inv h]
  | _ :: _, _ :: _, ⟨hc, hbody⟩ => by
    rw [isRepetition, isRepetition, isExpression_reloaded hc, areBlocks_reloaded fs hbody]

theorem isIteration_reloaded (fs : List Function) :
    ∀ {ns ns' : List Node}, RelatedAll Leaf.Reloaded ns ns' →
      isIteration fs ns' = isIteration fs ns
  | [], [], _ => rfl
  | [_], [_], _ => rfl
  | _ :: _ :: _, _ :: _ :: _, ⟨hv, hl, hbody⟩ => by
    rw [isIteration, isIteration, isVariable_reloaded hv, isExpression_reloaded hl,
      areBlocks_reloaded fs hbody]

end

end Lisplet
