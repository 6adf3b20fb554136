import Lisplet.Proofs.Composition
import Lisplet.Proofs.Relocation
import Lisplet.Session

/-!
# Moved programs

A program runs the same wherever its nodes stand, and stops with the same errors at
moved places. `MovesTo` says so for computations, and `runSource_moved` for the whole
way from the tokens of a source on.
-/

namespace Lisplet

variable (g : Position → Position)

/-! ## Computations -/

namespace RuntimeError

def moved : RuntimeError → RuntimeError
  | malformed k s => malformed k (s.moved g)
  | arity k expected found s => arity k expected found (s.moved g)
  | notAnExpression k s => notAnExpression k (s.moved g)
  | notAStatement k s => notAStatement k (s.moved g)
  | keywordInLeaf k s => keywordInLeaf k (s.moved g)
  | expectedStatement s => expectedStatement (s.moved g)
  | emptyForm s => emptyForm (s.moved g)
  | notCallable s => notCallable (s.moved g)
  | expectedVariable s => expectedVariable (s.moved g)
  | functionAsValue name s => functionAsValue name (s.moved g)
  | notAFunction name s => notAFunction name (s.moved g)
  | unresolved name s => unresolved name (s.moved g)
  | argumentCount name expected found s => argumentCount name expected found (s.moved g)
  | callDepthExceeded limit s => callDepthExceeded limit (s.moved g)
  | output reason s => output reason (s.moved g)

theorem message_moved (e : RuntimeError) : (e.moved g).message = e.message := by cases e <;> rfl

theorem span_moved (e : RuntimeError) : (e.moved g).span = e.span.moved g := by cases e <;> rfl

end RuntimeError

def Stop.moved : Stop → Stop
  | .error e => .error (e.moved g)
  | .exhausted => .exhausted

def Eval.movedEnding {α : Type} : EStateM.Result Stop Machine α → EStateM.Result Stop Machine α
  | .ok a m => .ok a m
  | .error stop m => .error (stop.moved g) m

def Eval.MovesTo {α : Type} (x y : Eval α) : Prop := ∀ m, y m = movedEnding g (x m)

structure Walk.MovesTo (w w' : Walk) : Prop where
  eval : ∀ n, Eval.MovesTo g (w.eval n) (w'.eval (n.moved g))
  block : ∀ n, Eval.MovesTo g (w.block n) (w'.block (n.moved g))

variable {g}

namespace Eval.MovesTo

variable {α β : Type} {x y : Eval α}

theorem of_ok (h : ∀ m, ∃ a m', x m = .ok a m') : MovesTo g x x := by
  intro m
  obtain ⟨a, m', hx⟩ := h m
  rw [hx]
  rfl

theorem pure (a : α) : MovesTo g (Pure.pure a : Eval α) (Pure.pure a) := fun _ => rfl

theorem fail (e : RuntimeError) : MovesTo g (Eval.fail e : Eval α) (Eval.fail (e.moved g)) := fun _ => rfl

theorem exhausted : MovesTo g (Eval.exhausted : Eval α) Eval.exhausted := fun _ => rfl

theorem bind {f f' : α → Eval β} (hx : MovesTo g x y) (hf : ∀ a, MovesTo g (f a) (f' a)) :
    MovesTo g (x >>= f) (y >>= f') := by
  intro m
  show EStateM.bind y f' m = movedEnding g (EStateM.bind x f m)
  unfold EStateM.bind
  rw [hx m]
  cases x m with
  | ok a m' => exact hf a m'
  | error stop m' => rfl

theorem orUndo (hx : MovesTo g x y) (undo : Machine → Machine) : MovesTo g (x.orUndo undo) (y.orUndo undo) := by
  intro m
  unfold Eval.orUndo
  rw [hx m]
  cases x m <;> rfl

theorem thenClose (hx : MovesTo g x y) (close : Machine → Machine) :
    MovesTo g (x.thenClose close) (y.thenClose close) := by
  intro m
  unfold Eval.thenClose
  rw [hx m]
  cases x m <;> rfl

theorem checked_bind {r : Except RuntimeError α} {f f' : α → Eval β}
    (hf : ∀ a, r = .ok a → MovesTo g (f a) (f' a)) :
    MovesTo g (Eval.checked r >>= f) (Eval.checked (mapBoth (.moved g) id r) >>= f') := by
  cases r with
  | ok a => exact hf a rfl
  | error e => exact .fail e

theorem release_bind {v : Option Value} {z z' : Eval β} (h : MovesTo g z z') :
    MovesTo g (Eval.release v >>= fun _ => z) (Eval.release v >>= fun _ => z') :=
  .bind (.of_ok fun _ => ⟨_, _, rfl⟩) fun _ => h

theorem make (f : Heap → α × Heap) : MovesTo g (Eval.make f) (Eval.make f) := .of_ok fun _ => ⟨_, _, rfl⟩

theorem onHeap (f : Heap → Heap) : MovesTo g (Eval.onHeap f) (Eval.onHeap f) := .of_ok fun _ => ⟨_, _, rfl⟩

theorem inspect (f : Heap → α) : MovesTo g (Eval.inspect f) (Eval.inspect f) := .of_ok fun _ => ⟨_, _, rfl⟩

theorem setSlot (k : Nat) (v : Option Value) : MovesTo g (Eval.setSlot k v) (Eval.setSlot k v) :=
  .of_ok fun _ => ⟨_, _, rfl⟩

theorem operation (k : Keyword) (vs : List (Option Value)) :
    MovesTo g (Lisplet.operation k vs) (Lisplet.operation k vs) := by
  intro m
  unfold Lisplet.operation
  dsimp only
  cases (applyOperation k vs m.heap).1 <;> rfl

theorem write (text : String) (span : Span) : MovesTo g (Eval.write text span) (Eval.write text (span.moved g)) := by
  intro m
  unfold Eval.write
  dsimp only
  cases (m.sink.write text.toUTF8).1 <;> rfl

theorem writePieces (span : Span) (fuel : Nat) (pieces : List Piece) :
    MovesTo g (Eval.writePieces span fuel pieces) (Eval.writePieces (span.moved g) fuel pieces) := by
  induction fuel generalizing pieces with
  | zero => cases pieces <;> exact fun _ => rfl
  | succ fuel ih =>
    intro m
    rcases pieces with _ | ⟨s | v, rest⟩
    · rfl
    · simp only [Eval.writePieces, MovesTo.write s span m]
      cases Eval.write s span m with
      | ok _ m' => exact ih rest m'
      | error stop m' => rfl
    · exact ih (m.heap.pieces v ++ rest) m

theorem print (fuel : Nat) (v : Option Value) (span : Span) :
    MovesTo g (Eval.print fuel v span) (Eval.print fuel v (span.moved g)) := by
  unfold Eval.print
  split
  · exact .write _ span
  · exact .writePieces span fuel _

end Eval.MovesTo

/-! ## Checks and leaves -/

theorem checkArity_moved (k : Keyword) (args : List Node) (span : Span) :
    checkArity k (args.map (.moved g)) (span.moved g) = mapBoth (.moved g) id (checkArity k args span) := by
  unfold checkArity
  rw [List.length_map]
  cases k.arity? with
  | none => rfl
  | some arity =>
    dsimp only
    split
    · rfl
    · split <;> rfl

theorem slotOf_moved (n : Node) : slotOf (n.moved g) = mapBoth (.moved g) id (slotOf n) := by
  cases n with
  | branch cs span tag => rw [Node.moved_branch]; rfl
  | leaf l =>
    rw [Node.moved_leaf, slotOf, slotOf, Leaf.binding_moved]
    rcases l.binding with _ | (i | i) <;> rfl

theorem functionOf_moved (l : Leaf) : functionOf (l.moved g) = mapBoth (.moved g) id (functionOf l) := by
  rw [functionOf, functionOf, Leaf.binding_moved]
  rcases l.binding with _ | (i | i) <;> rfl

theorem statementLeaf_moved (l : Leaf) : statementLeaf (l.moved g) = (statementLeaf l).moved g := by
  unfold statementLeaf
  rw [Leaf.keyword?_moved]
  cases l.keyword? <;> rfl

theorem ifParts_moved (args : List Node) : ifParts (args.map (.moved g)) =
    (ifParts args).map fun r => (r.1.moved g, r.2.1.moved g, r.2.2.map (.moved g)) := by
  rcases args with _ | ⟨c, _ | ⟨a, _ | ⟨b, _ | ⟨d, _ | _⟩⟩⟩⟩
  · rfl
  · rfl
  · rfl
  · simp only [List.map_cons, List.map_nil, ifParts, keyword?_moved]
    split <;> rfl
  · simp only [List.map_cons, List.map_nil, ifParts, keyword?_moved]
    split <;> rfl
  · rfl

theorem evalLeaf_movesTo (l : Leaf) : Eval.MovesTo g (evalLeaf l) (evalLeaf (l.moved g)) := by
  unfold evalLeaf
  rw [Leaf.kind_moved, Leaf.cell_moved, Leaf.binding_moved]
  cases l.kind with
  | str text =>
    cases l.cell with
    | some r => exact .bind (.onHeap _) fun _ => .pure _
    | none => exact .bind (.make _) fun _ => .pure _
  | identifier =>
    rcases l.binding with _ | (i | i)
    · exact .fail _
    · exact .fail _
    · exact .of_ok fun _ => ⟨_, _, rfl⟩
  | keyword k => exact .fail _
  | bool b => exact .pure _
  | null => exact .pure _
  | int n => exact .pure _
  | float x => exact .pure _

/-! ## Several nodes -/

namespace Walk.MovesTo

open Eval

variable {w w' : Walk} (hw : Walk.MovesTo g w w')
include hw

theorem evalAll (ns : List Node) : Eval.MovesTo g (w.evalAll ns) (w'.evalAll (ns.map (.moved g))) := by
  induction ns with
  | nil => exact .pure []
  | cons n ns ih => exact .bind (hw.eval n) fun v => .bind (ih.orUndo _) fun vs => .pure _

theorem pushAll (ns : List Node) : Eval.MovesTo g (w.pushAll ns) (w'.pushAll (ns.map (.moved g))) := by
  induction ns with
  | nil => exact .pure ()
  | cons n ns ih => exact .bind (hw.eval n) fun v => .bind (.of_ok fun _ => ⟨_, _, rfl⟩) fun _ => ih

theorem sequence (ns : List Node) : Eval.MovesTo g (w.sequence ns) (w'.sequence (ns.map (.moved g))) := by
  induction ns with
  | nil => exact .pure Flow.normal
  | cons n ns ih =>
    refine .bind (hw.block n) fun flow => ?_
    cases flow with
    | normal => exact ih
    | returned v => exact .pure _

theorem addEntries (t : Table) (ns : List Node) :
    Eval.MovesTo g (w.addEntries t ns) (w'.addEntries t (ns.map (.moved g))) := by
  fun_induction Walk.addEntries w t ns with
  | case1 t k e rest ih1 ih2 =>
    refine .bind ((hw.eval k).orUndo _) fun key => ?_
    split
    · exact .bind ((hw.eval e).orUndo _) fun v => .bind (.make _) fun t => ih1 t
    · exact .release_bind ih2
  | case2 ns t hns =>
    rcases ns with _ | ⟨k, _ | ⟨e, rest⟩⟩
    · exact .pure t
    · exact .pure t
    · exact (hns k e rest rfl).elim

theorem test (n : Node) : Eval.MovesTo g (w.test n) (w'.test (n.moved g)) :=
  .bind (hw.eval n) fun _ => .bind (.inspect _) fun _ => .release_bind (.pure _)

theorem assign (target e : Node) :
    Eval.MovesTo g (w.assign target e) (w'.assign (target.moved g) (e.moved g)) := by
  unfold Walk.assign
  rw [slotOf_moved]
  refine .checked_bind fun slot _ => .bind (hw.eval e) fun v => ?_
  exact .bind (.onHeap _) fun _ => .bind (.setSlot slot v) fun _ => .pure v

/-! ## Loops -/

theorem whileLoop (n : Node) (ns : List Node) (fuel : Nat) :
    Eval.MovesTo g (Code.whileLoop (w.test n) (w.sequence ns) fuel)
      (Code.whileLoop (w'.test (n.moved g)) (w'.sequence (ns.map (.moved g))) fuel) := by
  induction fuel with
  | zero => exact .exhausted
  | succ fuel ih =>
    rw [Code.whileLoop_succ, Code.whileLoop_succ]
    refine .bind (hw.test n) fun b => ?_
    cases b with
    | false => exact .pure Flow.normal
    | true =>
      refine .bind (hw.sequence ns) fun flow => ?_
      cases flow with
      | normal => exact ih
      | returned v => exact .pure _

theorem forLoop (slot : Nat) (r : Ref) (ns : List Node) (fuel i : Nat) :
    Eval.MovesTo g (Code.forLoop slot r (w.sequence ns) fuel i)
      (Code.forLoop slot r (w'.sequence (ns.map (.moved g))) fuel i) := by
  induction fuel generalizing i with
  | zero => exact .exhausted
  | succ fuel ih =>
    rw [Code.forLoop_succ, Code.forLoop_succ]
    refine .bind (.inspect _) fun item => ?_
    cases item with
    | none => exact .pure Flow.normal
    | some v =>
      refine .bind (.onHeap _) fun _ => .bind (.setSlot slot v) fun _ => .bind (hw.sequence ns) fun flow => ?_
      cases flow with
      | normal => exact ih (i + 1)
      | returned v => exact .pure _

end Walk.MovesTo

/-! ## Calls -/

theorem function?_moved (p : Program) (i : Nat) : (p.moved g).function? i = (p.function? i).map (.moved g) :=
  List.getElem?_map ..

theorem children_moved (n : Node) : (n.moved g).children = n.children.map (.moved g) := by
  cases n with
  | leaf l => rw [Node.moved_leaf]; rfl
  | branch cs span tag => rw [Node.moved_branch]; rfl

theorem body_moved (p : Program) (i : Nat) : (p.moved g).body i = (p.body i).map (.moved g) := by
  unfold Program.body
  rw [function?_moved]
  cases p.function? i with
  | none => rfl
  | some f =>
    have hform : (p.moved g).root.children[(f.moved g).form]? = (p.root.children[f.form]?).map (.moved g) := by
      rw [show (p.moved g).root = p.root.moved g from rfl, children_moved, List.getElem?_map]
      rfl
    simp only [Option.map_some, hform]
    cases p.root.children[f.form]? with
    | none => rfl
    | some form => simp [children_moved, List.map_drop]

variable (g) in
def Code.moved (c : Code) : Code := ⟨c.program.moved g, c.limit⟩

namespace Walk.MovesTo

open Eval

variable {w w' : Walk} (hw : Walk.MovesTo g w w') (c : Code)
include hw

theorem call (index : Nat) (args : List Node) (span : Span) :
    Eval.MovesTo g (c.call w index args span) ((c.moved g).call w' index (args.map (.moved g)) (span.moved g)) := by
  have hfull (depth : Nat) : (c.moved g).isFull depth = c.isFull depth := rfl
  have hbody : (c.moved g).program.body index = (c.program.body index).map (.moved g) := body_moved _ _
  rw [c.call_eq, (c.moved g).call_eq, show (c.moved g).program = c.program.moved g from rfl, function?_moved]
  cases c.program.function? index with
  | none => exact .fail _
  | some f =>
    refine .bind (.of_ok fun _ => ⟨_, _, rfl⟩) fun top => ?_
    simp only [hfull, List.length_map]
    by_cases hdeep : c.isFull top.1 = true
    · rw [if_pos hdeep, if_pos hdeep]
      exact .fail _
    rw [if_neg hdeep, if_neg hdeep]
    by_cases hcount : args.length ≠ f.arity
    · rw [if_pos hcount, if_pos (show args.length ≠ (f.moved g).arity from hcount)]
      exact .fail _
    rw [if_neg hcount, if_neg (show ¬ args.length ≠ (f.moved g).arity from hcount)]
    unfold Code.enterAndRun
    rw [List.length_map, hbody]
    refine .bind ((hw.pushAll args).orUndo _) fun _ => .bind (.of_ok fun _ => ⟨_, _, rfl⟩) fun frame => ?_
    refine .bind ((hw.sequence _).thenClose _) fun flow => ?_
    cases flow <;> exact .pure _

/-! ## One step down the tree -/

omit c in
theorem evalKeyword (k : Keyword) (args : List Node) (span : Span) :
    Eval.MovesTo g (Code.evalKeyword w k args span)
      (Code.evalKeyword w' k (args.map (.moved g)) (span.moved g)) := by
  unfold Code.evalKeyword
  rw [checkArity_moved]
  refine .checked_bind fun _ hcheck => ?_
  cases k with
  | and =>
    obtain ⟨a, b, rfl⟩ := two_operands hcheck rfl
    refine .bind (hw.eval a) fun v => .bind (.inspect _) fun t => ?_
    cases t with
    | true => exact .release_bind (hw.eval b)
    | false => exact .pure v
  | or =>
    obtain ⟨a, b, rfl⟩ := two_operands hcheck rfl
    refine .bind (hw.eval a) fun v => .bind (.inspect _) fun t => ?_
    cases t with
    | true => exact .pure v
    | false => exact .release_bind (hw.eval b)
  | ternary =>
    obtain ⟨cond, a, b, rfl⟩ := three_operands hcheck rfl
    refine .bind (hw.test cond) fun t => ?_
    cases t with
    | true => exact hw.eval a
    | false => exact hw.eval b
  | list => exact .bind (hw.evalAll args) fun _ => .bind (.make _) fun _ => .pure _
  | table => exact .bind (hw.addEntries {} args) fun _ => .bind (.make _) fun _ => .pure _
  | set =>
    obtain ⟨target, e, rfl⟩ := two_operands hcheck rfl
    exact hw.assign target e
  | defun | ifThen | otherwise | whileLoop | forEach | ret | print | setItem | push | remove =>
    exact .fail _
  | _ => exact .bind (hw.evalAll args) fun vs => .operation _ vs

omit c in
theorem runKeyword (fuel : Nat) (k : Keyword) (args : List Node) (span : Span) :
    Eval.MovesTo g (Code.runKeyword w fuel k args span)
      (Code.runKeyword w' fuel k (args.map (.moved g)) (span.moved g)) := by
  unfold Code.runKeyword
  rw [checkArity_moved]
  refine .checked_bind fun _ hcheck => ?_
  cases k with
  | set =>
    obtain ⟨target, e, rfl⟩ := two_operands hcheck rfl
    exact .bind (hw.assign target e) fun _ => .release_bind (.pure _)
  | print =>
    obtain ⟨e, rfl⟩ := one_operand hcheck rfl
    exact .bind (hw.eval e) fun v => .bind ((MovesTo.print fuel v span).thenClose _) fun _ => .pure _
  | setItem | push | remove =>
    exact .bind (hw.evalAll args) fun vs => .bind (.onHeap _) fun _ => .pure _
  | ifThen =>
    dsimp only
    rw [ifParts_moved]
    rcases ifParts args with _ | ⟨cond, a, b⟩
    · exact .fail _
    refine .bind (hw.test cond) fun t => ?_
    cases t with
    | true => exact hw.block a
    | false =>
      cases b with
      | none => exact .pure Flow.normal
      | some b => exact hw.block b
  | whileLoop =>
    cases args with
    | nil => exact .fail _
    | cons cond body => exact hw.whileLoop cond body fuel
  | forEach =>
    rcases args with _ | ⟨var, _ | ⟨list, body⟩⟩
    · exact .fail _
    · exact .fail _
    · simp only [List.map_cons]
      rw [slotOf_moved]
      refine .checked_bind fun slot _ => .bind (hw.eval list) fun v => ?_
      split
      · exact (hw.forLoop slot _ body fuel 0).thenClose _
      · exact .release_bind (.pure _)
  | ret =>
    obtain rfl | ⟨e, rfl⟩ := return_operands hcheck rfl
    · exact .pure _
    · exact .bind (hw.eval e) fun _ => .pure _
  | _ => exact .fail _

theorem evalNode (n : Node) : Eval.MovesTo g (c.evalNode w n) ((c.moved g).evalNode w' (n.moved g)) := by
  rcases n with l | ⟨_ | ⟨head | ⟨cs, s, t⟩, args⟩, span, tag⟩
  · rw [Node.moved_leaf]
    exact evalLeaf_movesTo l
  · rw [Node.moved_branch]
    exact .fail _
  · rw [Node.moved_branch, List.map_cons, Node.moved_leaf]
    unfold Code.evalNode
    dsimp only
    rw [Leaf.kind_moved]
    cases head.kind with
    | keyword k => exact hw.evalKeyword k args span
    | identifier =>
      dsimp only
      rw [functionOf_moved]
      exact .checked_bind fun index _ => hw.call c index args span
    | _ => exact .fail _
  · rw [Node.moved_branch, List.map_cons, Node.moved_branch]
    exact .fail _

theorem runBlock (fuel : Nat) (n : Node) :
    Eval.MovesTo g (c.runBlock w fuel n) ((c.moved g).runBlock w' fuel (n.moved g)) := by
  rcases n with l | ⟨_ | ⟨head | ⟨cs, s, t⟩, args⟩, span, tag⟩
  · rw [Node.moved_leaf, Code.runBlock, Code.runBlock, statementLeaf_moved]
    exact .fail _
  · rw [Node.moved_branch]
    exact .pure Flow.normal
  · rw [Node.moved_branch, List.map_cons, Node.moved_leaf]
    unfold Code.runBlock Code.runForm
    dsimp only
    rw [Leaf.kind_moved]
    cases head.kind with
    | keyword k => exact hw.runKeyword fuel k args span
    | identifier =>
      dsimp only
      rw [functionOf_moved]
      exact .checked_bind fun index _ =>
        .bind (hw.call c index args span) fun _ => .release_bind (.pure _)
    | _ => exact .fail _
  · have hsequence := hw.sequence (.branch cs s t :: args)
    rw [List.map_cons, Node.moved_branch] at hsequence
    rw [Node.moved_branch, List.map_cons, Node.moved_branch]
    exact hsequence

end Walk.MovesTo

/-! ## Whole programs -/

theorem walk_movesTo (c : Code) (fuel : Nat) : Walk.MovesTo g (c.walk fuel) ((c.moved g).walk fuel) := by
  induction fuel with
  | zero =>
    refine ⟨fun _ => ?_, fun _ => ?_⟩
    · simp only [Code.walk, Code.eval]
      exact .exhausted
    · simp only [Code.walk, Code.block]
      exact .exhausted
  | succ fuel ih =>
    rw [c.walk_succ, (c.moved g).walk_succ]
    exact ⟨ih.evalNode c, ih.runBlock c fuel⟩

theorem run_movesTo {c : Code} {f : Function} (hf : c.program.function? 0 = some f) (fuel : Nat) :
    Eval.MovesTo g (c.run fuel) ((c.moved g).run fuel) := by
  have hmain : (c.moved g).mainSpan = c.mainSpan.moved g := by
    unfold Code.mainSpan
    rw [show (c.moved g).program = c.program.moved g from rfl, function?_moved, hf]
    rfl
  rw [c.run_eq, (c.moved g).run_eq, hmain]
  refine .bind (.of_ok fun _ => ⟨_, _, rfl⟩) fun _ => ?_
  exact ((walk_movesTo c fuel).call c 0 [] c.mainSpan).thenClose _

variable (g)

def Failure.moved : Failure → Failure
  | .read e => .read (e.moved g)
  | .resolve f => .resolve (f.moved g)
  | .run e => .run (e.moved g)

theorem Failure.message_moved (f : Failure) : (f.moved g).message = f.message := by
  cases f with
  | read e => exact e.message_moved g
  | resolve f => exact f.message_moved g
  | run e => exact e.message_moved g

theorem Failure.span_moved (f : Failure) : (f.moved g).span = f.span.moved g := by
  cases f with
  | read e => exact e.span_moved g
  | resolve f => exact f.span_moved g
  | run e => exact e.span_moved g

def Outcome.moved : Outcome → Outcome
  | .finished => .finished
  | .failed failure => .failed (failure.moved g)
  | .exhausted => .exhausted

theorem execute_moved {p : Program} {f : Function} (hf : p.function? 0 = some f) (limit : Option Nat)
    (sink : Sink) (log : Log) (fuel : Nat) : (p.moved g).execute limit sink log fuel =
      ((p.execute limit sink log fuel).1.moved g, (p.execute limit sink log fuel).2) := by
  have hcode : (Interpreter.start p limit sink log).code.program.function? 0 = some f := hf
  have hstart : Interpreter.start (p.moved g) limit sink log =
      ⟨(Interpreter.start p limit sink log).code.moved g, (Interpreter.start p limit sink log).machine⟩ := by
    simp only [Interpreter.start, load_moved]
    rfl
  unfold Program.execute
  rw [hstart]
  generalize Interpreter.start p limit sink log = i at hcode
  dsimp only
  rw [run_movesTo hcode fuel i.machine]
  rcases i.code.run fuel i.machine with ⟨v, m⟩ | ⟨e | _, m⟩ <;> rfl

/-- A source whose tokens are those of another one, moved, runs like it. -/
theorem runSource_moved (hg : g .origin = .origin) {source source' : List Char}
    (h : scan source' = (scan source).moved g) (limit : Option Nat) (sink : Sink) (fuel : Nat) :
    runSource source' limit sink fuel =
      ((runSource source limit sink fuel).1.moved g, (runSource source limit sink fuel).2) := by
  have hread : readTree source' = mapBoth (.moved g) (fun r => ⟨r.root.moved g, r.cut.map (.moved g)⟩)
      (readTree source) := by
    unfold readTree
    rw [h, read_moved g hg]
  unfold runSource
  rw [hread]
  cases readTree source with
  | error e => rfl
  | ok r =>
    simp only [mapBoth, resolve_moved]
    cases hp : resolve r.root with
    | error f => rfl
    | ok p =>
      obtain ⟨f, hf⟩ := main_of_resolve hp
      simp only [execute_moved g hf]

end Lisplet
