import Lisplet.Proofs.Bare.Interpreter
import Lisplet.Proofs.Bare.Resolver
import Lisplet.Proofs.StackDiscipline
import Lisplet.Session

/-!
# Nothing is undefined

A bare computation that always has a result is the lift of one on the machine.
The checks that the interpreter makes are what its partial steps need: the operand
counts agree with the operands that are taken, the arguments of a call lie on the
stack when its frame is entered, and a frame is left at the depth at which it was
entered. So the bare interpreter is the lift of the interpreter, and
`nothing_undefined` says this of every way from the bytes of a source on.
-/

namespace Lisplet.Bare

open Act

/-! ## Lifts -/

namespace Act

theorem bind_lift {x : Eval α} {f : α → Act β} {g : α → Eval β} (h : ∀ a, f a = lift (g a)) :
    (lift x >>= f) = lift (x >>= g) := by
  funext m
  simp only [bind, lift, EStateM.bind]
  cases x m with
  | error e m => rfl
  | ok a m => exact congrFun (h a) m

theorem checked_bind_lift {r : Except RuntimeError α} {f : α → Act β} {g : α → Eval β}
    (h : ∀ a, r = .ok a → f a = lift (g a)) :
    (lift (Eval.checked r) >>= f) = lift (Eval.checked r >>= g) := by
  cases r with
  | error e => rfl
  | ok a => exact h a rfl

theorem orUndo_lift (act : Eval α) (undo : Machine → Machine) :
    (lift act).orUndo undo = lift (act.orUndo undo) := by
  funext m
  cases h : act m <;> simp [orUndo, lift, Eval.orUndo, h]

theorem thenClose_lift (act : Eval α) (close : Machine → Machine) :
    (lift act).thenClose close = lift (act.thenClose close) := by
  funext m
  cases h : act m <;> simp [thenClose, lift, Eval.thenClose, h]

theorem make_lift {f : Heap → Option (α × Heap)} {g : Heap → α × Heap} (h : ∀ x, f x = some (g x)) :
    make f = lift (Eval.make g) := by
  funext m
  simp only [make, h]
  rfl

theorem onHeap_lift {f : Heap → Option Heap} {g : Heap → Heap} (h : ∀ x, f x = some (g x)) :
    onHeap f = lift (Eval.onHeap g) := by
  funext m
  simp only [onHeap, h]
  rfl

end Act

theorem operand_bind {args : List Node} {i : Nat} {n : Node} (h : args[i]? = some n)
    (f : Node → Act β) : (operand args i >>= f) = f n := by
  rw [operand, h]
  rfl

theorem operation_lift (k : Keyword) (vs : List (Option Value)) :
    operation k vs = lift (Lisplet.operation k vs) := by
  funext m
  cases h : (Lisplet.applyOperation k vs m.heap).1 <;>
    simp [operation, applyOperation_eq, lift, Lisplet.operation, h]

def liftWalk (w : Lisplet.Walk) : Walk := ⟨fun n => lift (w.eval n), fun n => lift (w.block n)⟩

section
variable (w : Lisplet.Walk)

theorem evalAll_lift (ns : List Node) : (liftWalk w).evalAll ns = lift (w.evalAll ns) := by
  induction ns with
  | nil => rfl
  | cons n ns ih =>
    apply bind_lift
    intro v
    rw [ih, orUndo_lift]
    exact bind_lift fun vs => rfl

theorem evalAt_lift (args : List Node) {is : List Nat} {ns : List Node}
    (h : is.map (fun i => args[i]?) = ns.map some) :
    (liftWalk w).evalAt args is = lift (w.evalAll ns) := by
  induction is generalizing ns with
  | nil =>
    cases ns with
    | nil => rfl
    | cons n ns => cases h
  | cons i is ih =>
    cases ns with
    | nil => cases h
    | cons n ns =>
      obtain ⟨hn, hns⟩ := List.cons.inj h
      rw [Walk.evalAt, operand_bind hn]
      apply bind_lift
      intro v
      rw [ih hns, orUndo_lift]
      exact bind_lift fun vs => rfl

theorem pushAll_lift (ns : List Node) : (liftWalk w).pushAll ns = lift (w.pushAll ns) := by
  induction ns with
  | nil => rfl
  | cons n ns ih =>
    apply bind_lift
    intro v
    rw [ih]
    exact bind_lift fun _ => rfl

theorem sequence_lift (ns : List Node) : (liftWalk w).sequence ns = lift (w.sequence ns) := by
  induction ns with
  | nil => rfl
  | cons n ns ih =>
    apply bind_lift
    intro flow
    cases flow with
    | normal => exact ih
    | returned v => rfl

theorem test_lift (n : Node) : (liftWalk w).test n = lift (w.test n) := by
  apply bind_lift
  intro v
  apply bind_lift
  intro b
  exact bind_lift fun _ => rfl

theorem assign_lift (target e : Node) : (liftWalk w).assign target e = lift (w.assign target e) := by
  apply bind_lift
  intro slot
  apply bind_lift
  intro v
  apply bind_lift
  intro _
  exact bind_lift fun _ => rfl

/-- The operands of a table come in pairs if their number is even. -/
theorem addEntries_lift : ∀ (t : Table) (args : List Node), args.length % 2 = 0 →
    (liftWalk w).addEntries t (pairs args) = lift (w.addEntries t args)
  | _, [], _ => rfl
  | _, [_], h => nomatch h
  | t, k :: e :: rest, h => by
    have hrest : rest.length % 2 = 0 := by
      simp only [List.length_cons] at h
      omega
    have hkey : (liftWalk w).eval k = lift (w.eval k) := rfl
    have hvalue : (liftWalk w).eval e = lift (w.eval e) := rfl
    rw [pairs, Walk.addEntries, operand_bind (n := k) rfl, hkey, orUndo_lift]
    apply bind_lift
    intro v
    -- whatever is no string is let go as a key, and its entry is left out
    have hother : (do lift (Eval.release v); (liftWalk w).addEntries t (pairs rest)) =
        lift (do Eval.release v; w.addEntries t rest) :=
      bind_lift fun _ => addEntries_lift t rest hrest
    match v with
    | some (.str r text) =>
      dsimp only
      rw [operand_bind (n := e) rfl, hvalue, orUndo_lift]
      apply bind_lift
      intro v
      rw [make_lift fun h => putEntry_eq h t ⟨r, text⟩ v]
      exact bind_lift fun t => addEntries_lift t rest hrest
    | none => exact hother
    | some (.bool _) => exact hother
    | some (.int _) => exact hother
    | some (.float _) => exact hother
    | some (.tuple _) => exact hother
    | some (.list _) => exact hother
    | some (.table _) => exact hother

/-! ## Calls -/

theorem enter_pushed (hw : w.Keeps) {args : List Node} {m m₁ : Machine} {u : Unit}
    (hp : w.pushAll args m = .ok u m₁) {f : Function} (hroom : args.length ≤ f.locals) :
    enter (m₁.note (.called f.name args.length)) args.length f.locals =
      some (Code.frameOf f args.length m₁) := by
  have hsize := size_pushAll hw hp
  have hargs : args.length ≤ (m₁.note (.called f.name args.length)).stack.size := by
    show args.length ≤ m₁.stack.size
    omega
  rw [enter, if_pos ⟨hargs, hroom⟩]
  rfl

theorem leave_entered {f : Function} {count : Nat} {m₁ m₂ : Machine}
    (h : (Code.frameOf f count m₁).2.stack.SameOutside (fun _ => True) m₂.stack) (frame : Frame) :
    leave m₂ frame = some (m₂.leave frame) := by
  have hdepth : m₂.stack.depth = m₁.stack.depth + 1 := h.depth
  rw [leave, if_pos (by omega)]

/-- A call enters its frame around arguments that are there, and leaves it at the
depth at which it was entered. -/
theorem call_lift (hw : w.Keeps) {c : Code} (hfits : ∀ f ∈ c.program.functions, f.arity ≤ f.locals)
    (index : Nat) (args : List Node) (span : Span) :
    call c (liftWalk w) index args span = lift (c.call w index args span) := by
  funext m
  rw [lift, call]
  cases hf : c.program.function? index with
  | none => rw [Code.call_unknown c w args span m hf]; rfl
  | some f =>
    dsimp only
    by_cases hfull : c.isFull m.stack.depth = true
    · rw [if_pos hfull, Code.call_full c w args span hf hfull]
      rfl
    by_cases hcount : args.length = f.arity
    · rw [if_neg hfull, if_neg (by simpa using hcount), Code.call_accepted c w span hf hfull hcount,
        pushAll_lift, orUndo_lift]
      show Option.bind (some _) _ = _
      rw [Option.bind_some, Eval.orUndo]
      cases hp : w.pushAll args m with
      | error e m₁ => rfl
      | ok u m₁ =>
        have hroom : args.length ≤ f.locals := by
          rw [hcount]
          exact hfits f (List.mem_of_getElem? hf)
        have hbody := sequence_keeps hw (Node.allIn_of_forall slotIn_true (c.program.body index))
          (Code.frameOf f args.length m₁).2
        unfold Eval.after at hbody
        dsimp only
        rw [enter_pushed w hw hp hroom, Option.bind_some, sequence_lift]
        dsimp only [lift]
        rw [Option.bind_some]
        -- however the body ends, its frame is the innermost one again
        cases hs : w.sequence (c.program.body index) (Code.frameOf f args.length m₁).2 with
        | error e m₂ =>
          rw [hs] at hbody
          dsimp only
          rw [leave_entered hbody]
          rfl
        | ok flow m₂ =>
          rw [hs] at hbody
          cases flow <;>
          · dsimp only
            rw [leave_entered hbody]
            rfl
    · rw [if_neg hfull, if_pos hcount, Code.call_miscounted c w span hf hfull hcount]
      rfl

/-! ## Expressions -/

theorem operation_evalAt {args : List Node} {is : List Nat}
    (h : is.map (fun i => args[i]?) = args.map some) (k : Keyword) :
    ((liftWalk w).evalAt args is >>= operation k) = lift (w.evalAll args >>= Lisplet.operation k) := by
  rw [evalAt_lift w args h]
  exact bind_lift fun vs => operation_lift k vs

section
variable {k : Keyword} {args : List Node} {span : Span} {u : Unit}
  (h : checkArity k args span = .ok u)
include h

theorem binary_lift (hk : k.arity? = some (.exact 2)) :
    ((liftWalk w).evalAt args [0, 1] >>= operation k) =
      lift (w.evalAll args >>= Lisplet.operation k) := by
  obtain ⟨a, b, rfl⟩ := two_operands h hk
  exact operation_evalAt w rfl k

theorem unary_lift (hk : k.arity? = some (.exact 1)) :
    ((liftWalk w).evalAt args [0] >>= operation k) =
      lift (w.evalAll args >>= Lisplet.operation k) := by
  obtain ⟨a, rfl⟩ := one_operand h hk
  exact operation_evalAt w rfl k

end

theorem minus_lift {args : List Node} {span : Span} {u : Unit}
    (h : checkArity .sub args span = .ok u) :
    ((liftWalk w).evalAt args (if args.length = 1 then [0] else [0, 1]) >>= operation .sub) =
      lift (w.evalAll args >>= Lisplet.operation .sub) := by
  have hcount := accepts_of_checkArity h rfl
  match args, hcount with
  | [a], _ => exact operation_evalAt w rfl .sub
  | [a, b], _ => exact operation_evalAt w rfl .sub
  | _ :: _ :: _ :: _, hcount => simp [Arity.accepts] at hcount

theorem evalKeyword_lift (k : Keyword) (args : List Node) (span : Span) :
    evalKeyword (liftWalk w) k args span = lift (Code.evalKeyword w k args span) := by
  apply checked_bind_lift
  intro u harity
  cases k with
  | and =>
    obtain ⟨a, b, rfl⟩ := two_operands harity rfl
    dsimp only
    rw [operand_bind (n := a) rfl]
    apply bind_lift
    intro v
    apply bind_lift
    intro truth
    cases truth with
    | false => rfl
    | true =>
      apply bind_lift
      intro _
      exact operand_bind (n := b) rfl _
  | or =>
    obtain ⟨a, b, rfl⟩ := two_operands harity rfl
    dsimp only
    rw [operand_bind (n := a) rfl]
    apply bind_lift
    intro v
    apply bind_lift
    intro truth
    cases truth with
    | true => rfl
    | false =>
      apply bind_lift
      intro _
      exact operand_bind (n := b) rfl _
  | ternary =>
    obtain ⟨a, b, d, rfl⟩ := three_operands harity rfl
    dsimp only
    rw [operand_bind (n := a) rfl, test_lift]
    apply bind_lift
    intro truth
    cases truth with
    | true => exact operand_bind (n := b) rfl _
    | false => exact operand_bind (n := d) rfl _
  | list =>
    dsimp only
    rw [evalAll_lift]
    exact bind_lift fun vs => bind_lift fun v => rfl
  | table =>
    have heven : args.length % 2 = 0 := by
      simpa [Arity.accepts] using accepts_of_checkArity harity rfl
    dsimp only
    rw [addEntries_lift w {} args heven]
    exact bind_lift fun t => bind_lift fun v => rfl
  | set =>
    obtain ⟨target, e, rfl⟩ := two_operands harity rfl
    dsimp only
    rw [operand_bind (n := target) rfl, operand_bind (n := e) rfl]
    exact assign_lift w target e
  | add | mul | div | mod | eq | lt | gt | item | index => exact binary_lift w harity rfl
  | sub => exact minus_lift w harity
  | not | len | bool | int | float | str | typeOf => exact unary_lift w harity rfl
  | defun | ifThen | otherwise | whileLoop | forEach | ret | print | setItem | push | remove => rfl

theorem evalNode_lift (hw : w.Keeps) {c : Code}
    (hfits : ∀ f ∈ c.program.functions, f.arity ≤ f.locals) (n : Node) :
    evalNode c (liftWalk w) n = lift (c.evalNode w n) := by
  match n with
  | .leaf l => rfl
  | .branch [] span tag => rfl
  | .branch (.branch _ _ _ :: _) span tag => rfl
  | .branch (.leaf head :: args) span tag =>
    unfold evalNode Code.evalNode
    dsimp only
    cases head.kind with
    | keyword k => exact evalKeyword_lift w k args span
    | identifier => exact bind_lift fun index => call_lift w hw hfits index args span
    | _ => rfl

/-! ## Statements -/

theorem whileLoop_lift (test : Eval Bool) (body : Eval Flow) (fuel : Nat) :
    whileLoop (lift test) (lift body) fuel = lift (Code.whileLoop test body fuel) := by
  induction fuel with
  | zero => rfl
  | succ fuel ih =>
    rw [whileLoop, Code.whileLoop_succ]
    apply bind_lift
    intro truth
    cases truth with
    | false => rfl
    | true =>
      apply bind_lift
      intro flow
      cases flow with
      | normal => exact ih
      | returned v => rfl

theorem forLoop_lift (slot : Nat) (r : Ref) (body : Eval Flow) (fuel i : Nat) :
    forLoop slot r (lift body) fuel i = lift (Code.forLoop slot r body fuel i) := by
  induction fuel generalizing i with
  | zero => rfl
  | succ fuel ih =>
    rw [forLoop, Code.forLoop_succ]
    apply bind_lift
    intro element
    cases element with
    | none => rfl
    | some v =>
      apply bind_lift
      intro _
      apply bind_lift
      intro _
      apply bind_lift
      intro flow
      cases flow with
      | normal => exact ih (i + 1)
      | returned v => rfl

theorem store_evalAt {args : List Node} {is : List Nat}
    (h : is.map (fun i => args[i]?) = args.map some) (k : Keyword) :
    (do
      let vs ← (liftWalk w).evalAt args is
      onHeap (store k vs)
      pure Flow.normal) = lift (do
      let vs ← w.evalAll args
      Eval.onHeap (Lisplet.store k vs)
      pure Flow.normal) := by
  rw [evalAt_lift w args h]
  apply bind_lift
  intro vs
  rw [onHeap_lift (store_eq k vs)]
  exact bind_lift fun _ => rfl

theorem runKeyword_lift (fuel : Nat) (k : Keyword) (args : List Node) (span : Span) :
    runKeyword (liftWalk w) fuel k args span = lift (Code.runKeyword w fuel k args span) := by
  apply checked_bind_lift
  intro u harity
  cases k with
  | set =>
    obtain ⟨target, e, rfl⟩ := two_operands harity rfl
    dsimp only
    rw [operand_bind (n := target) rfl, operand_bind (n := e) rfl, assign_lift]
    exact bind_lift fun v => bind_lift fun _ => rfl
  | print =>
    obtain ⟨e, rfl⟩ := one_operand harity rfl
    dsimp only
    rw [operand_bind (n := e) rfl]
    exact bind_lift fun v => bind_lift fun _ => rfl
  | setItem =>
    obtain ⟨a, b, d, rfl⟩ := three_operands harity rfl
    exact store_evalAt w rfl .setItem
  | push =>
    obtain ⟨a, b, rfl⟩ := two_operands harity rfl
    exact store_evalAt w rfl .push
  | remove =>
    obtain ⟨a, b, rfl⟩ := two_operands harity rfl
    exact store_evalAt w rfl .remove
  | ifThen =>
    dsimp only
    cases ifParts args with
    | none => rfl
    | some parts =>
      obtain ⟨cond, a, b⟩ := parts
      dsimp only
      rw [test_lift]
      apply bind_lift
      intro truth
      cases truth with
      | true => rfl
      | false => cases b <;> rfl
  | whileLoop =>
    cases args with
    | nil => rfl
    | cons cond body =>
      dsimp only
      rw [test_lift, sequence_lift]
      exact whileLoop_lift _ _ fuel
  | forEach =>
    match args with
    | [] => rfl
    | [_] => rfl
    | var :: list :: body =>
      dsimp only
      apply bind_lift
      intro slot
      apply bind_lift
      intro v
      match v with
      | some (.list r) =>
        dsimp only
        rw [sequence_lift, forLoop_lift, thenClose_lift]
      | none => rfl
      | some (.bool _) => rfl
      | some (.int _) => rfl
      | some (.float _) => rfl
      | some (.str _ _) => rfl
      | some (.tuple _) => rfl
      | some (.table _) => rfl
  | ret =>
    rcases return_operands harity rfl with rfl | ⟨e, rfl⟩
    · rfl
    · exact bind_lift fun v => rfl
  | _ => rfl

theorem runForm_lift (hw : w.Keeps) {c : Code}
    (hfits : ∀ f ∈ c.program.functions, f.arity ≤ f.locals) (fuel : Nat) (children : List Node)
    (span : Span) : runForm c (liftWalk w) fuel children span = lift (c.runForm w fuel children span) := by
  match children with
  | [] => rfl
  | .branch _ _ _ :: _ => rfl
  | .leaf head :: args =>
    unfold runForm Code.runForm
    dsimp only
    cases head.kind with
    | keyword k => exact runKeyword_lift w fuel k args span
    | identifier =>
      apply bind_lift
      intro index
      rw [call_lift w hw hfits]
      exact bind_lift fun v => bind_lift fun _ => rfl
    | _ => rfl

theorem runBlock_lift (hw : w.Keeps) {c : Code}
    (hfits : ∀ f ∈ c.program.functions, f.arity ≤ f.locals) (fuel : Nat) (n : Node) :
    runBlock c (liftWalk w) fuel n = lift (c.runBlock w fuel n) := by
  match n with
  | .leaf l => rfl
  | .branch [] span tag => rfl
  | .branch (.branch _ _ _ :: _) span tag => exact sequence_lift w _
  | .branch (.leaf head :: args) span tag => exact runForm_lift w hw hfits fuel (.leaf head :: args) span

end

/-! ## The interpreter -/

section
variable {c : Code} (hfits : ∀ f ∈ c.program.functions, f.arity ≤ f.locals)
include hfits

theorem walk_lift (fuel : Nat) : (⟨eval c fuel, block c fuel⟩ : Walk) = liftWalk (c.walk fuel) := by
  induction fuel with
  | zero => rfl
  | succ fuel ih =>
    have heval : eval c (fuel + 1) = fun n => lift (c.eval (fuel + 1) n) := by
      funext n
      rw [eval, ih]
      exact evalNode_lift _ (walk_keeps c fuel) hfits n
    have hblock : block c (fuel + 1) = fun n => lift (c.block (fuel + 1) n) := by
      funext n
      rw [block, ih]
      exact runBlock_lift _ (walk_keeps c fuel) hfits fuel n
    rw [heval, hblock]
    rfl

theorem eval_lift (fuel : Nat) (n : Node) : eval c fuel n = lift (c.eval fuel n) :=
  congrFun (congrArg Walk.eval (walk_lift hfits fuel)) n

theorem block_lift (fuel : Nat) (n : Node) : block c fuel n = lift (c.block fuel n) :=
  congrFun (congrArg Walk.block (walk_lift hfits fuel)) n

theorem exec_lift (fuel : Nat) (children : List Node) (span : Span) :
    exec c fuel children span = lift (c.exec fuel children span) := by
  rw [exec, walk_lift hfits]
  exact runForm_lift _ (walk_keeps c fuel) hfits fuel children span

theorem run_lift (fuel : Nat) : run c fuel = lift (c.run fuel) := by
  funext m
  rw [run, walk_lift hfits, call_lift _ (walk_keeps c fuel) hfits, thenClose_lift]
  rfl

end

/-! ## From the bytes of a source on -/

def execute (p : Program) (limit : Option Nat) (sink : Sink) (log : Log) (fuel : Nat) :
    Option (Outcome × Machine) :=
  let i := Interpreter.start p limit sink log
  (run i.code fuel i.machine).map fun
    | .ok v m => (.finished, m.release v)
    | .error (.error e) m => (.failed (.run e), m)
    | .error .exhausted m => (.exhausted, m)

def runBytes (bytes : ByteArray) (limit : Option Nat) (sink : Sink) (fuel : Nat) :
    Option (Outcome × Sink) :=
  (decodeSource bytes).bind fun
    | .error e => some (.failed (.read e), sink)
    | .ok source =>
      (readTree source).bind fun
        | .error e => some (.failed (.read e), sink)
        | .ok reading =>
          (resolve reading.root).bind fun
            | .error f => some (.failed (.resolve f), sink)
            | .ok p => (execute p limit sink {} fuel).map fun (outcome, m) => (outcome, m.sink)

/-- A resolved program has room for the arguments of its functions when it is
loaded, too. -/
theorem start_fits {root : Node} {p : Program} (h : Lisplet.resolve root = .ok p)
    (limit : Option Nat) (sink : Sink) (log : Log) :
    ∀ f ∈ (Interpreter.start p limit sink log).code.program.functions, f.arity ≤ f.locals := by
  have hcode : (Interpreter.start p limit sink log).code.program.functions = p.functions := rfl
  rw [hcode]
  exact arity_le_locals h

theorem execute_eq {root : Node} {p : Program} (h : Lisplet.resolve root = .ok p)
    (limit : Option Nat) (sink : Sink) (log : Log) (fuel : Nat) :
    execute p limit sink log fuel = some (p.execute limit sink log fuel) := by
  unfold execute Program.execute
  dsimp only
  rw [run_lift (start_fits h limit sink log)]
  show Option.map _ (some _) = _
  cases (Interpreter.start p limit sink log).code.run fuel (Interpreter.start p limit sink log).machine with
  | ok v m => rfl
  | error stop m => cases stop <;> rfl

theorem runBytes_eq (bytes : ByteArray) (limit : Option Nat) (sink : Sink) (fuel : Nat) :
    runBytes bytes limit sink fuel = some (match Lisplet.decodeSource bytes with
      | .error e => (.failed (.read e), sink)
      | .ok source => runSource source limit sink fuel) := by
  rw [runBytes, decodeSource_eq, Option.bind_some]
  cases Lisplet.decodeSource bytes with
  | error e => rfl
  | ok source =>
    dsimp only
    rw [readTree_eq, Option.bind_some, runSource]
    cases Lisplet.readTree source with
    | error e => rfl
    | ok reading =>
      dsimp only
      rw [resolve_eq, Option.bind_some]
      cases hp : Lisplet.resolve reading.root with
      | error f => rfl
      | ok p =>
        dsimp only
        rw [execute_eq hp]
        rfl

end Lisplet.Bare

namespace Lisplet

/-- No partial step is made outside its domain: a run has its result from the bytes
of the source on, a program takes every node from every machine to one, and so does
a table that changes have built for each key. -/
theorem nothing_undefined (limit : Option Nat) (sink : Sink) (fuel : Nat) :
    (∀ bytes : ByteArray,
      Bare.runBytes bytes limit sink fuel = some (match decodeSource bytes with
        | .error e => (.failed (.read e), sink)
        | .ok source => runSource source limit sink fuel)) ∧
    (∀ (root : Node) (p : Program), resolve root = .ok p → ∀ (log : Log) (m : Machine),
      let c := (Interpreter.start p limit sink log).code
      (∀ n, Bare.eval c fuel n m = some (c.eval fuel n m)) ∧
      (∀ n, Bare.block c fuel n m = some (c.block fuel n m)) ∧
      (∀ children span, Bare.exec c fuel children span m = some (c.exec fuel children span m)) ∧
      Bare.run c fuel m = some (c.run fuel m)) ∧
    (∀ t : Bare.Columns, t.Built → ∀ (key : Key) (value : Option Value),
      (t.get key.text).isSome ∧ (t.set key value).isSome ∧ (t.erase key.text).isSome) := by
  refine ⟨fun bytes => Bare.runBytes_eq bytes limit sink fuel, ?_, fun t built => built.isSome⟩
  intro root p hp log m
  have hfits := Bare.start_fits hp limit sink log
  refine ⟨fun n => ?_, fun n => ?_, fun children span => ?_, ?_⟩
  · rw [Bare.eval_lift hfits]; rfl
  · rw [Bare.block_lift hfits]; rfl
  · rw [Bare.exec_lift hfits]; rfl
  · rw [Bare.run_lift hfits]; rfl

def accentedKeys : List Char :=
  "(defun (main) (set t (table \"é\" (/ 7 0))) (return (f t (index \"né\" \"é\"))))
  (defun (f a b) (set c (item a \"é\")) (return (- b)))".toList

theorem nothing_undefined_accentedKeys :
    (∃ (r : Reading) (p : Program), readTree accentedKeys = .ok r ∧ resolve r.root = .ok p ∧
      Bare.run (Interpreter.start p none {} {}).code 20 (Interpreter.start p none {} {}).machine =
        some ((Interpreter.start p none {} {}).code.run 20 (Interpreter.start p none {} {}).machine)) ∧
    (∃ t : Bare.Columns, Bare.Columns.set {} ⟨0, "é"⟩ none = some t ∧ t.Built ∧
      (t.get "é").isSome) := by
  have hsome : ((readTree accentedKeys).toOption.bind fun r =>
      (resolve r.root).toOption).isSome = true := by decide +kernel
  obtain ⟨-, hprogram, htable⟩ := nothing_undefined none {} 20
  constructor
  · cases hr : readTree accentedKeys with
    | error e => rw [hr] at hsome; cases hsome
    | ok r =>
      cases hp : resolve r.root with
      | error e => rw [hr] at hsome; simp [Except.toOption, hp] at hsome
      | ok p => exact ⟨r, p, rfl, hp, (hprogram r.root p hp {} _).2.2.2⟩
  · have hset : Bare.Columns.set {} ⟨0, "é"⟩ none = some ⟨#[⟨0, "é"⟩], #[none]⟩ := by
      simp [Bare.Columns.set, Bare.Columns.position?]
    have hbuilt : Bare.Columns.Built ⟨#[⟨0, "é"⟩], #[none]⟩ := .set ⟨0, "é"⟩ none .empty hset
    exact ⟨_, hset, hbuilt, (htable _ hbuilt ⟨0, "é"⟩ none).1⟩

end Lisplet
