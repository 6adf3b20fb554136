import Lisplet.Proofs.Composition
import Lisplet.Proofs.Resolution

/-!
# Where errors come from

Every fault that resolution finds is the fault of some node of the tree, and every
error of evaluation is raised at some node of what is evaluated or of a function's
body. An error carries nothing but that node's place, keywords, numbers, and the
texts of names.
-/

namespace Lisplet

open Node

/-! ## Faults of definitions -/

inductive Fault.RaisedAt : Node → Fault → Prop
  | malformedDefun (n : Node) : RaisedAt n (.malformedDefun n.span)
  | expectedPrototype (n : Node) : RaisedAt n (.expectedPrototype n.span)
  | expectedFunctionName (n : Node) : RaisedAt n (.expectedFunctionName n.span)
  | expectedParameter (n : Node) : RaisedAt n (.expectedParameter n.span)
  | missingMain (n : Node) : RaisedAt n (.missingMain n.span)
  | duplicateMain (n : Node) : RaisedAt n (.duplicateMain n.span)
  | parameterShadowsFunction {l : Leaf} {x : String} : l.name? = some x →
      RaisedAt (.leaf l) (.parameterShadowsFunction x l.span)
  | duplicateParameter {l : Leaf} {x : String} : l.name? = some x →
      RaisedAt (.leaf l) (.duplicateParameter x l.span)
  | duplicateFunction {l : Leaf} {x : String} : l.name? = some x →
      RaisedAt (.leaf l) (.duplicateFunction x l.span)

def Fault.RaisedIn (n : Node) (f : Fault) : Prop := ∃ n' : Node, n'.OccursIn n ∧ f.RaisedAt n'

namespace Fault

variable {n : Node} {ns : List Node} {f : Fault}

theorem RaisedAt.span_eq (h : f.RaisedAt n) : f.span = n.span := by
  cases h <;> rfl

theorem RaisedAt.here (h : f.RaisedAt n) : f.RaisedIn n := ⟨n, .here, h⟩

theorem RaisedIn.inside (h : f.RaisedIn n) (hn : n ∈ ns) (span : Span) (tag : Option Nat) :
    f.RaisedIn (.branch ns span tag) := by
  obtain ⟨n', hn', hf⟩ := h
  exact ⟨n', .inside hn hn', hf⟩

theorem ofNode?_raises (h : Definition.ofNode? n = some (.error f)) : f.RaisedIn n := by
  unfold Definition.ofNode? at h
  split at h
  · cases h
  · cases h
  · rename_i head rest span tag
    split at h
    · rw [Option.some.injEq] at h
      split at h
      · cases h
        exact (RaisedAt.malformedDefun (.branch [head] span tag)).here
      · rename_i l _
        cases h
        exact (RaisedAt.expectedPrototype (.leaf l)).here.inside (by simp) span tag
      · rename_i name params prototype ptag _
        split at h
        · cases h
        · cases h
          exact (RaisedAt.expectedFunctionName (.branch (.leaf name :: params) prototype ptag)).here.inside
            (by simp) span tag
      · rename_i cs prototype ptag _ _
        cases h
        exact (RaisedAt.expectedFunctionName (.branch cs prototype ptag)).here.inside (by simp) span tag
    · cases h

theorem add_raises {d : Declared} {new : Declaration} (hnew : new.definition.name.name? = some new.name)
    (h : d.add new = .error f) : f.RaisedAt (.leaf new.definition.name) := by
  unfold Declared.add at h
  dsimp only at h
  split at h
  · split at h
    · cases h
      exact .duplicateMain (.leaf new.definition.name)
    · cases h
  · split at h
    · cases h
      exact .duplicateFunction hnew
    · cases h

/-- The name and the parameters of a definition stand in its prototype. -/
theorem raisedIn_of_prototype {d : Definition} (hd : Definition.ofNode? n = some (.ok d))
    {m : Node} (hm : m = .leaf d.name ∨ m ∈ d.params) (h : f.RaisedIn m) : f.RaisedIn n := by
  obtain ⟨⟨ptag, tag, rfl⟩, -, -⟩ := ofNode?_inv hd
  have hproto : f.RaisedIn (.branch (.leaf d.name :: d.params) d.prototype ptag) :=
    h.inside (by simpa using hm) _ _
  exact hproto.inside (by simp) _ _

theorem declareFrom_raises {form : Nat} {d : Declared} (h : declareFrom form d ns = .error f) :
    ∃ n ∈ ns, f.RaisedIn n := by
  induction ns generalizing form d with
  | nil => cases h
  | cons n ns ih =>
    have hrest {form : Nat} {d : Declared} (h : declareFrom form d ns = .error f) :
        ∃ n' ∈ n :: ns, f.RaisedIn n' := by
      obtain ⟨n', hn', hf⟩ := ih h
      exact ⟨n', List.mem_cons_of_mem _ hn', hf⟩
    rw [declareFrom] at h
    split at h
    · exact hrest h
    · rename_i hfault
      cases h
      exact ⟨n, List.mem_cons_self, ofNode?_raises hfault⟩
    · rename_i definition hd
      split at h
      · rename_i hadd
        cases h
        obtain ⟨-, -, hname⟩ := ofNode?_inv hd
        exact ⟨n, List.mem_cons_self, raisedIn_of_prototype hd (.inl rfl) (add_raises hname hadd).here⟩
      · exact hrest h

theorem bindParam_raises {functions locals : Names} (h : bindParam functions locals n = .error f) :
    f.RaisedAt n := by
  unfold bindParam at h
  split at h
  · cases h
    exact .expectedParameter _
  · rename_i l
    split at h
    · cases h
      exact .expectedParameter (.leaf l)
    · rename_i x hx
      split at h
      · cases h
        exact .parameterShadowsFunction hx
      · split at h
        · cases h
          exact .duplicateParameter hx
        · cases h

theorem bindParams_raises {functions locals : Names} (h : bindParams functions locals ns = .error f) :
    ∃ n ∈ ns, f.RaisedAt n := by
  induction ns generalizing locals with
  | nil => cases h
  | cons n ns ih =>
    rw [bindParams] at h
    split at h
    · rename_i hparam
      cases h
      exact ⟨n, List.mem_cons_self, bindParam_raises hparam⟩
    · split at h
      · rename_i hparams
        cases h
        obtain ⟨n', hn', hf⟩ := ih hparams
        exact ⟨n', List.mem_cons_of_mem _ hn', hf⟩
      · cases h

theorem bindFunctions_raises {names : Names} {index : Nat} {ds : List Declaration}
    (h : bindFunctions names index ns ds = .error f) : ∃ d ∈ ds, ∃ n ∈ d.definition.params, f.RaisedAt n := by
  induction ds generalizing index ns with
  | nil => cases h
  | cons d ds ih =>
    rw [bindFunctions] at h
    split at h
    · rename_i hbind
      cases h
      unfold Definition.bind at hbind
      dsimp only at hbind
      split at hbind
      · rename_i hparams
        cases hbind
        exact ⟨d, List.mem_cons_self, bindParams_raises hparams⟩
      · cases hbind
    · split at h
      · rename_i hrest
        cases h
        obtain ⟨d', hd', hf⟩ := ih hrest
        exact ⟨d', List.mem_cons_of_mem _ hd', hf⟩
      · cases h

/-- Resolution finds fault with a node of the tree, if with anything. -/
theorem resolve_raises {root : Node} (h : resolve root = .error f) : f.RaisedIn root := by
  unfold resolve at h
  split at h
  · rename_i l
    cases h
    exact (RaisedAt.missingMain (.leaf l)).here
  · rename_i ns span tag
    split at h
    · rename_i hdecl
      cases h
      unfold declare at hdecl
      split at hdecl
      · rename_i hfrom
        cases hdecl
        obtain ⟨n, hn, hf⟩ := declareFrom_raises hfrom
        exact hf.inside hn span tag
      · split at hdecl
        · cases hdecl
          exact (RaisedAt.missingMain (.branch ns span tag)).here
        · cases hdecl
    · rename_i ds hdecl
      split at h
      · rename_i hbind
        cases h
        obtain ⟨d, hd, n, hn, hf⟩ := bindFunctions_raises hbind
        obtain ⟨-, -, hmem⟩ := declare_spec hdecl
        obtain ⟨j, form, hform, hof, -⟩ := mem_declarationsFrom.mp ((hmem d).mp hd)
        exact (raisedIn_of_prototype hof (.inr hn) hf.here).inside (List.mem_of_getElem? hform) span tag
      · cases h

end Fault

/-! ## Errors of evaluation -/

def Eval.Raises (E : RuntimeError → Prop) (act : Eval α) : Prop :=
  ∀ m e m', act m = .error (.error e) m' → E e

namespace Eval

variable {E : RuntimeError → Prop} {α β : Type}

theorem Raises.of_ok {act : Eval α} (h : ∀ m, ∃ a m', act m = .ok a m') : act.Raises E := by
  intro m e m' hm
  obtain ⟨a, m₁, hok⟩ := h m
  rw [hok] at hm
  cases hm

theorem Raises.bind {x : Eval α} {f : α → Eval β} (hx : x.Raises E) (hf : ∀ a, (f a).Raises E) :
    (x >>= f).Raises E := by
  intro m e m' hm
  change EStateM.bind x f m = _ at hm
  unfold EStateM.bind at hm
  cases hxm : x m with
  | ok a m₁ => rw [hxm] at hm; exact hf a m₁ e m' hm
  | error stop m₁ =>
    rw [hxm] at hm
    cases hm
    exact hx m e m' hxm

theorem Raises.orUndo {act : Eval α} (h : act.Raises E) (undo : Machine → Machine) :
    (act.orUndo undo).Raises E := by
  intro m e m' hm
  unfold Eval.orUndo at hm
  cases hr : act m with
  | ok a m₁ => rw [hr] at hm; cases hm
  | error stop m₁ => rw [hr] at hm; cases hm; exact h m e m₁ hr

theorem Raises.thenClose {act : Eval α} (h : act.Raises E) (close : Machine → Machine) :
    (act.thenClose close).Raises E := by
  intro m e m' hm
  unfold Eval.thenClose at hm
  cases hr : act m with
  | ok a m₁ => rw [hr] at hm; cases hm
  | error stop m₁ => rw [hr] at hm; cases hm; exact h m e m₁ hr

theorem Step.raises {act : Eval α} (h : act.Step E) : act.Raises E := by
  cases h with
  | pure a => exact .of_ok fun m => ⟨a, m, rfl⟩
  | fail he =>
    rintro m e m' ⟨⟩
    exact he
  | exhausted => rintro m e m' ⟨⟩
  | make f => exact .of_ok fun _ => ⟨_, _, rfl⟩
  | getSlot k => exact .of_ok fun _ => ⟨_, _, rfl⟩
  | setSlot k v => exact .of_ok fun _ => ⟨_, _, rfl⟩
  | operation k vs =>
    rintro ⟨heap, stack, sink, log⟩ e m' hm
    unfold Lisplet.operation at hm
    dsimp only at hm
    split at hm <;> cases hm

theorem Raises.write (text : String) {span : Span} (h : E (.output Sink.refusal span)) :
    (Eval.write text span).Raises E := by
  rintro ⟨heap, stack, sink, log⟩ e m' hm
  unfold Eval.write at hm
  dsimp only at hm
  split at hm
  · cases hm
  · cases hm
    exact h

theorem Raises.writePieces {span : Span} (h : E (.output Sink.refusal span)) (fuel : Nat)
    (pieces : List Piece) : (Eval.writePieces span fuel pieces).Raises E := by
  induction fuel generalizing pieces with
  | zero =>
    cases pieces with
    | nil => exact (Step.pure ()).raises
    | cons _ _ => exact Step.exhausted.raises
  | succ fuel ih =>
    cases pieces with
    | nil => exact (Step.pure ()).raises
    | cons p rest =>
      cases p with
      | text s =>
        intro m e m' hm
        simp only [Eval.writePieces] at hm
        cases hr : Eval.write s span m with
        | ok u m₁ => rw [hr] at hm; exact ih rest m₁ e m' hm
        | error stop m₁ => rw [hr] at hm; cases hm; exact Raises.write s h m e m' hr
      | value v => exact fun m => ih _ m

theorem Raises.print (fuel : Nat) (v : Option Value) {span : Span} (h : E (.output Sink.refusal span)) :
    (Eval.print fuel v span).Raises E := by
  unfold Eval.print
  split
  · exact .write _ h
  · exact .writePieces h fuel _

end Eval

theorem raises_respected (E : RuntimeError → Prop) : RespectsRuns E fun x _ => x.Raises E where
  step h := h.raises
  bind := Eval.Raises.bind
  orUndo _ h := h.orUndo _
  thenClose _ h := h.thenClose _
  push _ := .of_ok fun _ => ⟨_, _, rfl⟩
  inspectStack _ := .of_ok fun _ => ⟨_, _, rfl⟩
  enterFrame _ _ := .of_ok fun _ => ⟨_, _, rfl⟩
  truncate _ h := h.orUndo _
  leave _ h := h.thenClose _
  print fuel v _ h := .print fuel v h
  started := .of_ok fun _ => ⟨_, _, rfl⟩
  finished h := h.thenClose _

namespace RuntimeError

def RaisedIn (c : Code) (n : Node) (e : RuntimeError) : Prop :=
  ∃ n' : Node, n'.OccursIn n ∧ e.RaisedAt c n'

def RaisedInBody (c : Code) (e : RuntimeError) : Prop := ∃ i, ∃ n ∈ c.program.body i, e.RaisedIn c n

theorem OfCall.span_eq {c : Code} {index count : Nat} {span : Span} {e : RuntimeError}
    (h : e.OfCall c index count span) : e.span = span := by
  cases h <;> rfl

theorem RaisedAt.span_eq {c : Code} {n : Node} {e : RuntimeError} (h : e.RaisedAt c n) :
    e.span = n.span := by
  cases h with
  | call h => exact h.span_eq
  | _ => rfl

end RuntimeError

namespace Code

variable (c : Code) (fuel : Nat)

theorem permits_body (P : RuntimeError → Prop) :
    ∀ i, ∀ n ∈ c.program.body i, c.Permits (fun e => P e ∨ e.RaisedInBody c) n :=
  fun i n hn n' _ hn' he => .inr ⟨i, n, hn, n', hn', he⟩

theorem permits_node (n : Node) : c.Permits (fun e => e.RaisedIn c n ∨ e.RaisedInBody c) n :=
  fun n' _ hn' he => .inl ⟨n', hn', he⟩

theorem eval_raises (n : Node) : (c.eval fuel n).Raises fun e => e.RaisedIn c n ∨ e.RaisedInBody c :=
  ((raises_respected _).walk (c.permits_body _) fuel).eval (c.permits_node n)

theorem block_raises (n : Node) : (c.block fuel n).Raises fun e => e.RaisedIn c n ∨ e.RaisedInBody c :=
  ((raises_respected _).walk (c.permits_body _) fuel).block (c.permits_node n)

theorem exec_raises (children : List Node) (span : Span) : (c.exec fuel children span).Raises
    fun e => e.RaisedIn c (.branch children span none) ∨ e.RaisedInBody c :=
  (raises_respected _).exec (c.permits_body _) fuel (c.permits_node _)

theorem run_raises : (c.run fuel).Raises fun e => e.OfCall c 0 0 c.mainSpan ∨ e.RaisedInBody c :=
  (raises_respected _).run (c.permits_body _) fuel fun _ he => .inl he

end Code

end Lisplet
