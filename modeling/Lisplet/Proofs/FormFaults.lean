import Lisplet.Proofs.Raising
import Lisplet.Proofs.Unfailing

/-!
# Faults of forms

A form can be at fault by itself: what stands at its head, how many operands it has,
what shape they have. These faults are told from the tree, the table of functions and
the number of running calls. `ExpressionFault`, `StatementFault` and `BlockFault` list
them, without a word about evaluation. A form at fault stops with its fault before
anything in it is evaluated, and no other error comes about that way.
-/

namespace Lisplet

open Node

/-! ## The faults -/

/-- A call that cannot start while `depth` calls are running. -/
inductive CallFault (c : Code) (depth index count : Nat) (span : Span) : RuntimeError → Prop
  | unknown : c.program.function? index = none →
      CallFault c depth index count span (.unresolved ("#" ++ toString index) span)
  | tooDeep {f : Function} {limit : Nat} : c.program.function? index = some f →
      c.limit = some limit → limit ≤ depth →
      CallFault c depth index count span (.callDepthExceeded limit span)
  | miscounted {f : Function} : c.program.function? index = some f →
      (∀ limit, c.limit = some limit → depth < limit) → count ≠ f.arity →
      CallFault c depth index count span (.argumentCount f.name f.arity count span)

inductive HeadFault (c : Code) (depth : Nat) (head : Leaf) (count : Nat) (span : Span) :
    RuntimeError → Prop
  | notCallable : (∀ k, head.kind ≠ .keyword k) → head.kind ≠ .identifier →
      HeadFault c depth head count span (.notCallable head.span)
  | unbound : head.kind = .identifier → head.binding = none →
      HeadFault c depth head count span (.unresolved head.text head.span)
  | slot {i : Nat} : head.kind = .identifier → head.binding = some (.slot i) →
      HeadFault c depth head count span (.notAFunction head.text head.span)
  | call {i : Nat} {e : RuntimeError} : head.kind = .identifier → head.binding = some (.function i) →
      CallFault c depth i count span e → HeadFault c depth head count span e

inductive CountFault (k : Keyword) (count : Nat) (span : Span) : RuntimeError → Prop
  | table : k = .table → count % 2 = 1 → CountFault k count span (.malformed .table span)
  | other {a : Arity} : k ≠ .table → k.arity? = some a → a.accepts count = false →
      CountFault k count span (.arity k a count span)

def Node.slot? : Node → Option Nat
  | leaf l => match l.binding with
    | some (.slot i) => some i
    | _ => none
  | branch _ _ _ => none

/-- The operands of `if`: condition and branch, and maybe an alternative with or
without `else` before it. -/
inductive Conditional : List Node → Prop
  | plain {cond a : Node} : Conditional [cond, a]
  | either {cond a b : Node} : b.keyword? ≠ some .otherwise → Conditional [cond, a, b]
  | marked {cond a mark b : Node} : mark.keyword? = some .otherwise → Conditional [cond, a, mark, b]

inductive OperationFault (k : Keyword) (args : List Node) (span : Span) : RuntimeError → Prop
  | count {e : RuntimeError} : CountFault k args.length span e → OperationFault k args span e
  | position : k.takes args.length = true → k.isValued = false →
      OperationFault k args span (.notAnExpression k span)
  | target {target value : Node} : k = .set → args = [target, value] → target.slot? = none →
      OperationFault k args span (.expectedVariable target.span)

def Keyword.isStatement (k : Keyword) : Bool :=
  k.isAction || k == .ifThen || k == .whileLoop || k == .forEach

inductive ActionFault (k : Keyword) (args : List Node) (span : Span) : RuntimeError → Prop
  | count {e : RuntimeError} : CountFault k args.length span e → ActionFault k args span e
  | position : k.takes args.length = true → k.isStatement = false →
      ActionFault k args span (.notAStatement k span)
  | target {target value : Node} : k = .set → args = [target, value] → target.slot? = none →
      ActionFault k args span (.expectedVariable target.span)
  | conditional : k = .ifThen → ¬ Conditional args → ActionFault k args span (.malformed k span)
  | repetition : k = .whileLoop → args = [] → ActionFault k args span (.malformed k span)
  | iteration : k = .forEach → args.length < 2 → ActionFault k args span (.malformed k span)
  | loopTarget {var list : Node} {body : List Node} : k = .forEach → args = var :: list :: body →
      var.slot? = none → ActionFault k args span (.expectedVariable var.span)

inductive ExpressionFault (c : Code) (depth : Nat) : Node → RuntimeError → Prop
  | keyword {l : Leaf} {k : Keyword} : l.kind = .keyword k →
      ExpressionFault c depth (.leaf l) (.keywordInLeaf k l.span)
  | function {l : Leaf} {i : Nat} : l.kind = .identifier → l.binding = some (.function i) →
      ExpressionFault c depth (.leaf l) (.functionAsValue l.text l.span)
  | unbound {l : Leaf} : l.kind = .identifier → l.binding = none →
      ExpressionFault c depth (.leaf l) (.unresolved l.text l.span)
  | empty (span : Span) (tag : Option Nat) :
      ExpressionFault c depth (.branch [] span tag) (.emptyForm span)
  | form {cs args : List Node} {s span : Span} {t tag : Option Nat} :
      ExpressionFault c depth (.branch (.branch cs s t :: args) span tag) (.notCallable s)
  | head {head : Leaf} {args : List Node} {span : Span} {tag : Option Nat} {e : RuntimeError} :
      HeadFault c depth head args.length span e →
      ExpressionFault c depth (.branch (.leaf head :: args) span tag) e
  | operation {head : Leaf} {k : Keyword} {args : List Node} {span : Span} {tag : Option Nat}
      {e : RuntimeError} : head.kind = .keyword k → OperationFault k args span e →
      ExpressionFault c depth (.branch (.leaf head :: args) span tag) e

/-- What is wrong with a form that is run, given its children and its place. -/
inductive StatementFault (c : Code) (depth : Nat) : List Node → Span → RuntimeError → Prop
  | form {cs args : List Node} {s span : Span} {t : Option Nat} :
      StatementFault c depth (.branch cs s t :: args) span (.notCallable s)
  | head {head : Leaf} {args : List Node} {span : Span} {e : RuntimeError} :
      HeadFault c depth head args.length span e → StatementFault c depth (.leaf head :: args) span e
  | action {head : Leaf} {k : Keyword} {args : List Node} {span : Span} {e : RuntimeError} :
      head.kind = .keyword k → ActionFault k args span e →
      StatementFault c depth (.leaf head :: args) span e

/-- A form that starts with a form is a sequence of blocks, and none of them is looked at here. -/
inductive BlockFault (c : Code) (depth : Nat) : Node → RuntimeError → Prop
  | keyword {l : Leaf} {k : Keyword} : l.kind = .keyword k →
      BlockFault c depth (.leaf l) (.keywordInLeaf k l.span)
  | leaf {l : Leaf} : (∀ k, l.kind ≠ .keyword k) → BlockFault c depth (.leaf l) (.expectedStatement l.span)
  | statement {head : Leaf} {args : List Node} {span : Span} {tag : Option Nat} {e : RuntimeError} :
      StatementFault c depth (.leaf head :: args) span e →
      BlockFault c depth (.branch (.leaf head :: args) span tag) e

/-! ## Checks -/

theorem checkArity_error_iff {k : Keyword} {args : List Node} {span : Span} {e : RuntimeError} :
    checkArity k args span = .error e ↔ CountFault k args.length span e := by
  constructor
  · intro h
    unfold checkArity at h
    split at h
    · cases h
    · rename_i a ha
      split at h
      · cases h
      · rename_i hacc
        split at h
        · rename_i hk
          cases h
          subst hk
          cases ha
          exact .table rfl (by simpa [Arity.accepts] using hacc)
        · rename_i hk
          cases h
          exact .other hk ha (by simpa using hacc)
  · rintro (⟨rfl, hodd⟩ | ⟨hk, ha, hacc⟩)
    · simp [checkArity, Keyword.arity?, Arity.accepts, hodd]
    · simp [checkArity, ha, hacc, hk]

theorem takes_of_checkArity {k : Keyword} {args : List Node} {span : Span} {u : Unit}
    (h : checkArity k args span = .ok u) : k.takes args.length = true := by
  unfold Keyword.takes
  cases hk : k.arity? with
  | none => rfl
  | some a => exact accepts_of_checkArity h hk

theorem slotOf_error_iff {n : Node} {e : RuntimeError} :
    slotOf n = .error e ↔ n.slot? = none ∧ e = .expectedVariable n.span := by
  cases n with
  | branch cs span tag =>
    simp only [slotOf, Node.slot?, Node.span, Except.error.injEq, true_and]
    exact eq_comm
  | leaf l =>
    simp only [slotOf, Node.slot?, Node.span]
    rcases l.binding with _ | (_ | _) <;> simp [eq_comm]

theorem ifParts_eq_none_iff {args : List Node} : ifParts args = none ↔ ¬ Conditional args := by
  constructor
  · rintro h (_ | hb | hmark)
    · cases h
    · simp [ifParts, hb] at h
    · simp [ifParts, hmark] at h
  · intro h
    rcases args with _ | ⟨_, _ | ⟨_, _ | ⟨x, _ | ⟨_, _ | _⟩⟩⟩⟩
    · rfl
    · rfl
    · exact absurd .plain h
    · by_cases hx : x.keyword? = some .otherwise
      · simp [ifParts, hx]
      · exact absurd (.either hx) h
    · by_cases hx : x.keyword? = some .otherwise
      · exact absurd (.marked hx) h
      · simp [ifParts, hx]
    · rfl

/-! ## A form at fault stops at once -/

section
variable {k : Keyword} {args : List Node} {span : Span} {e : RuntimeError}

theorem assign_of_fault {target : Node} (h : target.slot? = none) (w : Walk) (value : Node) :
    w.assign target value = Eval.fail (.expectedVariable target.span) := by
  unfold Walk.assign
  rw [slotOf_error_iff.mpr ⟨h, rfl⟩]
  rfl

theorem evalKeyword_of_fault (h : OperationFault k args span e) (w : Walk) :
    Code.evalKeyword w k args span = Eval.fail e := by
  unfold Code.evalKeyword
  cases h with
  | count h =>
    rw [checkArity_error_iff.mpr h]
    rfl
  | position htakes hvalued =>
    rw [checkArity_of_takes htakes]
    cases k with
    | defun | ifThen | otherwise | whileLoop | forEach | ret | print | setItem | push | remove => rfl
    | _ => cases hvalued
  | target hk hargs hslot =>
    subst hk hargs
    exact assign_of_fault hslot w _

theorem runKeyword_of_fault (h : ActionFault k args span e) (w : Walk) (fuel : Nat) :
    Code.runKeyword w fuel k args span = Eval.fail e := by
  unfold Code.runKeyword
  cases h with
  | count h =>
    rw [checkArity_error_iff.mpr h]
    rfl
  | position htakes hstatement =>
    rw [checkArity_of_takes htakes]
    cases k with
    | set | print | setItem | push | remove | ret | ifThen | whileLoop | forEach => cases hstatement
    | _ => rfl
  | target hk hargs hslot =>
    subst hk hargs
    dsimp only
    rw [assign_of_fault hslot w]
    rfl
  | conditional hk h =>
    subst hk
    dsimp only
    rw [ifParts_eq_none_iff.mpr h]
    rfl
  | repetition hk hargs =>
    subst hk hargs
    rfl
  | iteration hk hargs =>
    subst hk
    match args, hargs with
    | [], _ => rfl
    | [_], _ => rfl
  | loopTarget hk hargs hslot =>
    subst hk hargs
    dsimp only
    rw [slotOf_error_iff.mpr ⟨hslot, rfl⟩]
    rfl

end

section
variable {c : Code} {m : Machine} {e : RuntimeError}

theorem isFull_iff {depth : Nat} : c.isFull depth = true ↔ ∃ limit, c.limit = some limit ∧ limit ≤ depth := by
  unfold Code.isFull
  cases c.limit <;> simp

theorem call_of_fault {index : Nat} {args : List Node} {span : Span}
    (h : CallFault c m.stack.depth index args.length span e) (w : Walk) :
    c.call w index args span m = Eval.fail e m := by
  cases h with
  | unknown hf => exact c.call_unknown w args span m hf
  | tooDeep hf hlimit hdeep =>
    rw [c.call_full w args span hf (isFull_iff.mpr ⟨_, hlimit, hdeep⟩), hlimit]
    rfl
  | miscounted hf hroom hcount =>
    refine c.call_miscounted w span hf ?_ hcount
    rw [isFull_iff]
    rintro ⟨limit, hlimit, hdeep⟩
    exact absurd (hroom limit hlimit) (Nat.not_lt.mpr hdeep)

def Code.callHead (c : Code) (w : Walk) (head : Leaf) (args : List Node) (span : Span) :
    Eval (Option Value) :=
  match head.kind with
  | .identifier => do
    let index ← Eval.checked (functionOf head)
    c.call w index args span
  | _ => .fail (.notCallable head.span)

section
variable {head : Leaf} (hkind : ∀ k, head.kind ≠ .keyword k) (w : Walk) (args : List Node) (span : Span)
include hkind

theorem evalNode_callHead (tag : Option Nat) :
    c.evalNode w (.branch (.leaf head :: args) span tag) = c.callHead w head args span := by
  unfold Code.evalNode Code.callHead
  cases hk : head.kind with
  | keyword k => exact absurd hk (hkind k)
  | _ => simp only [hk]

theorem runForm_callHead (fuel : Nat) : c.runForm w fuel (.leaf head :: args) span = (do
    let v ← c.callHead w head args span
    Eval.release v
    pure .normal) := by
  unfold Code.runForm Code.callHead
  cases hk : head.kind with
  | keyword k => exact absurd hk (hkind k)
  | identifier => simp only [hk, bind_assoc]
  | _ =>
    simp only [hk]
    rfl

end

theorem HeadFault.kind_ne {depth count : Nat} {head : Leaf} {span : Span}
    (h : HeadFault c depth head count span e) (k : Keyword) : head.kind ≠ .keyword k := by
  cases h with
  | notCallable hk _ => exact hk k
  | unbound hk _ | slot hk _ | call hk _ _ => simp [hk]

theorem callHead_of_fault {head : Leaf} {args : List Node} {span : Span}
    (h : HeadFault c m.stack.depth head args.length span e) (w : Walk) :
    c.callHead w head args span m = .error (.error e) m := by
  unfold Code.callHead
  cases h with
  | notCallable hk hid =>
    cases hkind : head.kind with
    | keyword k => exact absurd hkind (hk k)
    | identifier => exact absurd hkind hid
    | _ => rfl
  | unbound hkind hb =>
    simp only [hkind, functionOf, hb]
    rfl
  | slot hkind hb =>
    simp only [hkind, functionOf, hb]
    rfl
  | call hkind hb hcall =>
    simp only [hkind, functionOf, hb]
    exact call_of_fault hcall w

theorem evalNode_of_fault {n : Node} (h : ExpressionFault c m.stack.depth n e) (w : Walk) :
    c.evalNode w n m = .error (.error e) m := by
  cases h with
  | keyword hkind => simp only [Code.evalNode, evalLeaf, hkind]; rfl
  | function hkind hb => simp only [Code.evalNode, evalLeaf, hkind, hb]; rfl
  | unbound hkind hb => simp only [Code.evalNode, evalLeaf, hkind, hb]; rfl
  | empty span tag => rfl
  | form => rfl
  | head h =>
    rw [evalNode_callHead h.kind_ne]
    exact callHead_of_fault h w
  | operation hkind h =>
    unfold Code.evalNode
    simp only [hkind]
    rw [evalKeyword_of_fault h]
    rfl

theorem runForm_of_fault {children : List Node} {span : Span}
    (h : StatementFault c m.stack.depth children span e) (w : Walk) (fuel : Nat) :
    c.runForm w fuel children span m = .error (.error e) m := by
  cases h with
  | form => rfl
  | head h =>
    rw [runForm_callHead h.kind_ne]
    show EStateM.bind _ _ m = _
    unfold EStateM.bind
    rw [callHead_of_fault h w]
  | action hkind h =>
    unfold Code.runForm
    simp only [hkind]
    rw [runKeyword_of_fault h]
    rfl

theorem runBlock_of_fault {n : Node} (h : BlockFault c m.stack.depth n e) (w : Walk) (fuel : Nat) :
    c.runBlock w fuel n m = .error (.error e) m := by
  cases h with
  | keyword hkind => simp only [Code.runBlock, statementLeaf, Leaf.keyword?, hkind]; rfl
  | @leaf l hkind =>
    have hnone : l.keyword? = none := by
      unfold Leaf.keyword?
      cases hk : l.kind with
      | keyword k => exact absurd hk (hkind k)
      | _ => rfl
    simp only [Code.runBlock, statementLeaf, hnone]
    rfl
  | statement h => exact runForm_of_fault h w fuel

end

/-! ## Nothing else stops at once -/

/-- Goes nowhere: whoever evaluates or runs a node stops there. -/
def Walk.blind : Walk := ⟨fun _ => .exhausted, fun _ => .exhausted⟩

namespace Eval

variable {E : RuntimeError → Prop} {α β : Type}

theorem Raises.exhausted : (Eval.exhausted : Eval α).Raises E := Step.exhausted.raises

theorem Raises.fail {e : RuntimeError} (h : E e) : (Eval.fail e : Eval α).Raises E := (Step.fail h).raises

theorem Raises.pure (a : α) : (Pure.pure a : Eval α).Raises E := (Step.pure a).raises

theorem Raises.checked_bind {r : Except RuntimeError α} {f : α → Eval β}
    (he : ∀ e, r = .error e → E e) (hf : ∀ a, r = .ok a → (f a).Raises E) :
    (Eval.checked r >>= f).Raises E := by
  cases r with
  | ok a => exact hf a rfl
  | error e => exact .fail (he e rfl)

end Eval

section
variable {k : Keyword} {args : List Node} {span : Span}

theorem evalAll_blind {α : Type} {E : RuntimeError → Prop} {f : List (Option Value) → Eval α}
    (h : args = [] → (f []).Raises E) : (Walk.blind.evalAll args >>= f).Raises E := by
  cases args with
  | nil => exact h rfl
  | cons n ns => exact .exhausted

theorem evalKeyword_blind : (Code.evalKeyword .blind k args span).Raises (OperationFault k args span) := by
  unfold Code.evalKeyword
  refine .checked_bind (fun e he => .count (checkArity_error_iff.mp he)) fun _ hcheck => ?_
  have htakes := takes_of_checkArity hcheck
  cases k with
  | and | or =>
    obtain ⟨a, b, rfl⟩ := two_operands hcheck rfl
    exact .exhausted
  | ternary =>
    obtain ⟨cond, a, b, rfl⟩ := three_operands hcheck rfl
    exact .exhausted
  | list => exact evalAll_blind fun _ => .of_ok fun _ => ⟨_, _, rfl⟩
  | table =>
    match args with
    | [] => exact .of_ok fun _ => ⟨_, _, rfl⟩
    | [_] => cases htakes
    | key :: value :: rest =>
      dsimp only
      rw [Walk.addEntries]
      rintro m e m' ⟨⟩
  | set =>
    obtain ⟨target, e, rfl⟩ := two_operands hcheck rfl
    refine .checked_bind (fun e he => ?_) fun slot _ => .exhausted
    obtain ⟨hslot, rfl⟩ := slotOf_error_iff.mp he
    exact .target rfl rfl hslot
  | defun | ifThen | otherwise | whileLoop | forEach | ret | print | setItem | push | remove =>
    exact .fail (.position htakes rfl)
  | _ => exact evalAll_blind fun _ => (Eval.Step.operation _ _).raises

theorem runKeyword_blind (fuel : Nat) :
    (Code.runKeyword .blind fuel k args span).Raises (ActionFault k args span) := by
  unfold Code.runKeyword
  refine .checked_bind (fun e he => .count (checkArity_error_iff.mp he)) fun _ hcheck => ?_
  have htakes := takes_of_checkArity hcheck
  cases k with
  | set =>
    obtain ⟨target, e, rfl⟩ := two_operands hcheck rfl
    refine .bind (.checked_bind (fun e he => ?_) fun slot _ => .exhausted) fun _ => .of_ok fun _ => ⟨_, _, rfl⟩
    obtain ⟨hslot, rfl⟩ := slotOf_error_iff.mp he
    exact .target rfl rfl hslot
  | print =>
    obtain ⟨e, rfl⟩ := one_operand hcheck rfl
    exact .exhausted
  | setItem | push | remove => exact evalAll_blind fun _ => .of_ok fun _ => ⟨_, _, rfl⟩
  | ifThen =>
    dsimp only
    split
    · rename_i hparts
      exact .fail (.conditional rfl (ifParts_eq_none_iff.mp hparts))
    · exact .exhausted
  | whileLoop =>
    cases args with
    | nil => exact .fail (.repetition rfl rfl)
    | cons cond body =>
      cases fuel with
      | zero => exact .exhausted
      | succ fuel =>
        -- the condition is the first thing to be evaluated, and a blind walk stops there
        dsimp only
        rw [Code.whileLoop_succ]
        exact .exhausted
  | forEach =>
    match args with
    | [] => exact .fail (.iteration rfl (by simp))
    | [_] => exact .fail (.iteration rfl (by simp))
    | var :: list :: body =>
      refine .checked_bind (fun e he => ?_) fun slot _ => .exhausted
      obtain ⟨hslot, rfl⟩ := slotOf_error_iff.mp he
      exact .loopTarget rfl rfl hslot
  | ret =>
    obtain rfl | ⟨e, rfl⟩ := return_operands hcheck rfl
    · exact .pure _
    · exact .exhausted
  | _ => exact .fail (.position htakes rfl)

end

section
variable {c : Code} {m m' : Machine} {e : RuntimeError}

theorem call_blind {index : Nat} {args : List Node} {span : Span}
    (h : c.call .blind index args span m = .error (.error e) m') :
    CallFault c m.stack.depth index args.length span e := by
  cases hf : c.program.function? index with
  | none =>
    rw [c.call_unknown _ args span m hf] at h
    cases h
    exact .unknown hf
  | some f =>
    by_cases hfull : c.isFull m.stack.depth = true
    · rw [c.call_full _ args span hf hfull] at h
      obtain ⟨limit, hlimit, hdeep⟩ := isFull_iff.mp hfull
      rw [hlimit] at h
      cases h
      exact .tooDeep hf hlimit hdeep
    by_cases hcount : args.length = f.arity
    · -- what is left of the call stops for want of a way down, or ends well
      rw [c.call_accepted _ span hf hfull hcount] at h
      cases args with
      | cons n ns => cases h
      | nil =>
        dsimp only [Walk.pushAll] at h
        cases hbody : c.program.body index with
        | nil => rw [hbody] at h; cases h
        | cons n ns => rw [hbody] at h; cases h
    · rw [c.call_miscounted _ span hf hfull hcount] at h
      cases h
      refine .miscounted hf (fun limit hlimit => Nat.lt_of_not_le fun hdeep => ?_) hcount
      exact hfull (isFull_iff.mpr ⟨limit, hlimit, hdeep⟩)

theorem callHead_blind {head : Leaf} {args : List Node} {span : Span}
    (hkind : ∀ k, head.kind ≠ .keyword k)
    (h : c.callHead .blind head args span m = .error (.error e) m') :
    HeadFault c m.stack.depth head args.length span e := by
  unfold Code.callHead at h
  cases hk : head.kind with
  | keyword k => exact absurd hk (hkind k)
  | identifier =>
    simp only [hk, functionOf] at h
    rcases hb : head.binding with _ | (i | i) <;> rw [hb] at h
    · cases h
      exact .unbound hk hb
    · exact .call hk hb (call_blind h)
    · cases h
      exact .slot hk hb
  | str _ | bool _ | null | int _ | float _ =>
    simp only [hk] at h
    cases h
    exact .notCallable hkind (by simp [hk])

theorem evalNode_blind {n : Node} (h : c.evalNode .blind n m = .error (.error e) m') :
    ExpressionFault c m.stack.depth n e := by
  rcases n with l | ⟨_ | ⟨first, args⟩, span, tag⟩
  · unfold Code.evalNode evalLeaf at h
    cases hk : l.kind with
    | keyword k =>
      simp only [hk] at h
      cases h
      exact .keyword hk
    | identifier =>
      simp only [hk] at h
      rcases hb : l.binding with _ | (i | i) <;> rw [hb] at h <;> cases h
      · exact .unbound hk hb
      · exact .function hk hb
    | str text =>
      simp only [hk] at h
      cases hcell : l.cell <;> rw [hcell] at h <;> cases h
    | _ =>
      simp only [hk] at h
      cases h
  · cases h
    exact .empty span tag
  · cases first with
    | branch cs s t =>
      cases h
      exact .form
    | leaf head =>
      by_cases hkey : ∃ k, head.kind = .keyword k
      · obtain ⟨k, hk⟩ := hkey
        unfold Code.evalNode at h
        simp only [hk] at h
        exact .operation hk (evalKeyword_blind m e m' h)
      · have hkind : ∀ k, head.kind ≠ .keyword k := fun k hk => hkey ⟨k, hk⟩
        rw [evalNode_callHead hkind] at h
        exact .head (callHead_blind hkind h)

theorem runForm_blind {fuel : Nat} {children : List Node} {span : Span}
    (h : c.runForm .blind fuel children span m = .error (.error e) m') :
    StatementFault c m.stack.depth children span e := by
  rcases children with _ | ⟨_ | ⟨cs, s, t⟩, args⟩
  · cases h
  · rename_i head
    by_cases hkey : ∃ k, head.kind = .keyword k
    · obtain ⟨k, hk⟩ := hkey
      unfold Code.runForm at h
      simp only [hk] at h
      exact .action hk (runKeyword_blind fuel m e m' h)
    · have hkind : ∀ k, head.kind ≠ .keyword k := fun k hk => hkey ⟨k, hk⟩
      rw [runForm_callHead hkind] at h
      change EStateM.bind _ _ m = _ at h
      unfold EStateM.bind at h
      cases hcall : c.callHead .blind head args span m with
      | ok v m₁ => rw [hcall] at h; cases h
      | error stop m₁ =>
        rw [hcall] at h
        cases h
        exact .head (callHead_blind hkind hcall)
  · cases h
    exact .form

theorem runBlock_blind {fuel : Nat} {n : Node} (h : c.runBlock .blind fuel n m = .error (.error e) m') :
    BlockFault c m.stack.depth n e := by
  rcases n with l | ⟨_ | ⟨_ | ⟨cs, s, t⟩, args⟩, span, tag⟩
  · unfold Code.runBlock statementLeaf at h
    cases hk : l.kind with
    | keyword k =>
      simp only [Leaf.keyword?, hk] at h
      cases h
      exact .keyword hk
    | _ =>
      simp only [Leaf.keyword?, hk] at h
      cases h
      exact .leaf (by simp [hk])
  · cases h
  · exact .statement (runForm_blind h)
  · cases h

end

/-! ## Faults before effects -/

/-- A form at fault stops with its fault and leaves the machine as it is, however the nodes
in it would be evaluated or run; and whatever stops a form in this way is one of the faults. -/
theorem faults_before_effects (c : Code) (m : Machine) (e : RuntimeError) :
    (∀ n : Node,
      (ExpressionFault c m.stack.depth n e ↔ ∀ w, c.evalNode w n m = .error (.error e) m) ∧
      (ExpressionFault c m.stack.depth n e → ∀ fuel, c.eval (fuel + 1) n m = .error (.error e) m)) ∧
    (∀ (children : List Node) (span : Span),
      (StatementFault c m.stack.depth children span e ↔
        ∀ w fuel, c.runForm w fuel children span m = .error (.error e) m) ∧
      (StatementFault c m.stack.depth children span e →
        ∀ fuel, c.exec fuel children span m = .error (.error e) m)) ∧
    ∀ n : Node,
      (BlockFault c m.stack.depth n e ↔ ∀ w fuel, c.runBlock w fuel n m = .error (.error e) m) ∧
      (BlockFault c m.stack.depth n e → ∀ fuel, c.block (fuel + 1) n m = .error (.error e) m) := by
  refine ⟨fun n => ⟨⟨evalNode_of_fault, fun h => evalNode_blind (h .blind)⟩, ?_⟩,
    fun children span => ⟨⟨runForm_of_fault, fun h => runForm_blind (h .blind 0)⟩, ?_⟩,
    fun n => ⟨⟨runBlock_of_fault, fun h => runBlock_blind (h .blind 0)⟩, ?_⟩⟩
  · intro h fuel
    rw [Code.eval]
    exact evalNode_of_fault h _
  · intro h fuel
    exact runForm_of_fault h _ fuel
  · intro h fuel
    rw [Code.block]
    exact runBlock_of_fault h _ fuel

def callForm (i : Nat) (args : List Node) : Node :=
  .branch (.leaf ⟨⟨.atom, "say", default⟩, .identifier, some (.function i), none⟩ :: args) default none

def sayingCode : Code :=
  let print : Node := .leaf ⟨⟨.atom, "print", default⟩, .keyword .print, none, none⟩
  let form : Node := .branch [print, .leaf ⟨⟨.str, "\"hi\"", default⟩, .str "hi", none, none⟩] default none
  ⟨⟨.branch [.branch [print, print, form] default none] default none, [⟨"say", 0, 0, 0, default⟩]⟩, none⟩

/-- A call with an argument too many does not print what its argument would print. -/
theorem faults_before_effects_sayingArgument :
    (match sayingCode.eval 5 (callForm 0 []) {} with
      | .ok _ m => m.sink.bytes.size
      | .error _ _ => 0) = 2 ∧
    ExpressionFault sayingCode 0 (callForm 0 [callForm 0 []]) (.argumentCount "say" 0 1 default) ∧
    sayingCode.eval 5 (callForm 0 [callForm 0 []]) {} =
      .error (.error (.argumentCount "say" 0 1 default)) {} := by
  have hfault : ExpressionFault sayingCode 0 (callForm 0 [callForm 0 []])
      (.argumentCount "say" 0 1 default) :=
    .head (.call rfl rfl (.miscounted (f := ⟨"say", 0, 0, 0, default⟩) rfl nofun (by decide)))
  exact ⟨by decide +kernel, hfault, ((faults_before_effects sayingCode {} _).1 _).2 hfault 4⟩

end Lisplet
