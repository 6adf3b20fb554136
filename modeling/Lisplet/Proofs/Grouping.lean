import Lisplet.Proofs.Fuel

/-!
# Grouping statements

A form around statements runs them one after the other, and an empty form does nothing.
So such groups can be made and dissolved wherever statements stand in a row: in bodies of
functions and loops, in blocks, and in groups again. A group takes a little more fuel to
run, nothing else: `Regrouped.sameMeaning` and `Code.Regroups.sameMeaning` say that results,
machines and output are the same.
-/

namespace Lisplet

open Eval

/-! ## Groups -/

def Groupable (ns : List Node) : Prop := ∀ l, ns.head? ≠ some (.leaf l)

/-- Statements with groups made or dissolved, in the row itself and inside its statements. -/
inductive Regrouped : List Node → List Node → Prop
  | refl (ns : List Node) : Regrouped ns ns
  | symm {ns ns' : List Node} : Regrouped ns ns' → Regrouped ns' ns
  | trans {ns ns' ns'' : List Node} : Regrouped ns ns' → Regrouped ns' ns'' → Regrouped ns ns''
  | append {ns ns' ms ms' : List Node} : Regrouped ns ns' → Regrouped ms ms' →
      Regrouped (ns ++ ms) (ns' ++ ms')
  | group {ns : List Node} (span : Span) (tag : Option Nat) : Groupable ns →
      Regrouped [.branch ns span tag] ns
  | whileBody {head : Leaf} {cond : Node} {body body' : List Node} {span : Span} {tag : Option Nat} :
      head.kind = .keyword .whileLoop → Regrouped body body' →
      Regrouped [.branch (.leaf head :: cond :: body) span tag] [.branch (.leaf head :: cond :: body') span tag]
  | forBody {head : Leaf} {var list : Node} {body body' : List Node} {span : Span} {tag : Option Nat} :
      head.kind = .keyword .forEach → Regrouped body body' →
      Regrouped [.branch (.leaf head :: var :: list :: body) span tag]
        [.branch (.leaf head :: var :: list :: body') span tag]
  | ifBlocks {head : Leaf} {args args' : List Node} {cond a a' : Node} {b b' : Option Node} {span : Span}
      {tag : Option Nat} : head.kind = .keyword .ifThen → ifParts args = some (cond, a, b) →
      ifParts args' = some (cond, a', b') → Regrouped [a] [a'] → Regrouped b.toList b'.toList →
      Regrouped [.branch (.leaf head :: args) span tag] [.branch (.leaf head :: args') span tag]

/-! ## Sequences -/

namespace Walk

theorem sequence_append (w : Walk) (ns ms : List Node) : w.sequence (ns ++ ms) = (do
    match ← w.sequence ns with
    | .normal => w.sequence ms
    | flow => pure flow) := by
  induction ns with
  | nil => rfl
  | cons n ns ih =>
    rw [List.cons_append, sequence, sequence, ih, bind_assoc]
    congr 1
    funext flow
    cases flow <;> rfl

theorem sequence_singleton (w : Walk) (n : Node) : w.sequence [n] = w.block n := by
  funext m
  simp only [sequence, bind, EStateM.bind]
  cases w.block n m with
  | ok flow m₁ => cases flow <;> rfl
  | error e m₁ => rfl

end Walk

namespace Code

theorem runBlock_group (c : Code) (w : Walk) (fuel : Nat) {ns : List Node} (h : Groupable ns) (span : Span)
    (tag : Option Nat) : c.runBlock w fuel (.branch ns span tag) = w.sequence ns := by
  match ns with
  | [] => rfl
  | .branch _ _ _ :: _ => rfl
  | .leaf l :: _ => exact absurd rfl (h l)

theorem block_succ (c : Code) (fuel : Nat) (n : Node) :
    (c.walk (fuel + 1)).block n = c.runBlock (c.walk fuel) fuel n := by
  rw [walk_succ]

/-- With `extra` more fuel the one row of statements carries on the other. -/
def Prolongs (c : Code) (extra : Nat) (ns ns' : List Node) : Prop :=
  ∀ fuel, ((c.walk fuel).sequence ns).ContinuedBy ((c.walk (fuel + extra)).sequence ns')

variable {c : Code} {extra extra' : Nat} {ns ns' ms ms' : List Node}

theorem steady_sequence (c : Code) (ns : List Node) : Steady fun fuel => (c.walk fuel).sequence ns :=
  fun h => sequence_continuedBy c (c.walk_continuedBy h) ns

namespace Prolongs

theorem refl (c : Code) (ns : List Node) : c.Prolongs 0 ns ns :=
  fun fuel => c.steady_sequence ns (Nat.le_refl fuel)

theorem weaken (h : c.Prolongs extra ns ns') (hle : extra ≤ extra') : c.Prolongs extra' ns ns' :=
  fun fuel => (h fuel).trans (c.steady_sequence ns' (by omega))

theorem trans {ns'' : List Node} (h : c.Prolongs extra ns ns') (h' : c.Prolongs extra' ns' ns'') :
    c.Prolongs (extra + extra') ns ns'' := by
  intro fuel
  rw [← Nat.add_assoc]
  exact (h fuel).trans (h' (fuel + extra))

theorem append (h : c.Prolongs extra ns ns') (h' : c.Prolongs extra ms ms') :
    c.Prolongs extra (ns ++ ms) (ns' ++ ms') := by
  intro fuel
  rw [Walk.sequence_append, Walk.sequence_append]
  refine .bind (h fuel) ?_
  intro flow
  cases flow with
  | normal => exact h' fuel
  | returned v => exact .silent (silent_pure _)

/-- One statement for one statement, seen from below the form. -/
theorem form {n n' : Node} (h : ∀ fuel, (c.runBlock (c.walk fuel) fuel n).ContinuedBy
    (c.runBlock (c.walk (fuel + extra)) (fuel + extra) n')) : c.Prolongs extra [n] [n'] := by
  intro fuel
  rw [Walk.sequence_singleton, Walk.sequence_singleton]
  cases fuel with
  | zero => exact .exhausted ((c.walk_continuedBy (Nat.le_refl _)).block n')
  | succ fuel =>
    rw [Nat.add_right_comm, block_succ, block_succ]
    exact h fuel

theorem group (h : Groupable ns) (span : Span) (tag : Option Nat) :
    c.Prolongs 1 [.branch ns span tag] ns ∧ c.Prolongs 1 ns [.branch ns span tag] := by
  constructor
  · intro fuel
    rw [Walk.sequence_singleton]
    cases fuel with
    | zero => exact .exhausted (c.steady_sequence ns (Nat.le_refl _))
    | succ fuel =>
      rw [block_succ, runBlock_group c _ fuel h]
      exact c.steady_sequence ns (by omega)
  · intro fuel
    rw [Walk.sequence_singleton, block_succ, runBlock_group c _ fuel h]
    exact c.steady_sequence ns (Nat.le_refl fuel)

variable {head : Leaf} {span : Span} {tag : Option Nat}

theorem test_continuedBy (c : Code) (cond : Node) (fuel extra : Nat) :
    ((c.walk fuel).test cond).ContinuedBy ((c.walk (fuel + extra)).test cond) :=
  continuedBy_respected.test (c.walk_continuedBy (Nat.le_add_right fuel extra)).everywhere (permitted c cond)

theorem whileBody (hk : head.kind = .keyword .whileLoop) (cond : Node) (h : c.Prolongs extra ns ns') :
    c.Prolongs extra [.branch (.leaf head :: cond :: ns) span tag]
      [.branch (.leaf head :: cond :: ns') span tag] := by
  refine .form fun fuel => ?_
  have hrun (w : Walk) (fuel : Nat) (body : List Node) :
      c.runBlock w fuel (.branch (.leaf head :: cond :: body) span tag) =
        whileLoop (w.test cond) (w.sequence body) fuel := by
    simp only [runBlock, runForm, hk]
    rfl
  rw [hrun, hrun]
  have htest := test_continuedBy c cond fuel extra
  refine (continuedBy_respected.whileLoop htest (h fuel) fuel).trans ?_
  exact whileLoop_continuedBy htest.again (h fuel).again (Nat.le_add_right fuel extra)

theorem forBody (hk : head.kind = .keyword .forEach) (var list : Node) (h : c.Prolongs extra ns ns') :
    c.Prolongs extra [.branch (.leaf head :: var :: list :: ns) span tag]
      [.branch (.leaf head :: var :: list :: ns') span tag] := by
  refine .form fun fuel => ?_
  simp only [runBlock, runForm, hk, runKeyword]
  have hlist := (c.walk_continuedBy (Nat.le_add_right fuel extra)).eval list
  refine continuedBy_respected.checked_bind (fun _ _ => trivial) fun _ _ => ?_
  refine continuedBy_respected.checked_bind (fun _ _ => trivial) fun slot _ => .bind hlist ?_
  intro v
  cases v with
  | none => exact continuedBy_respected.release_then (.silent (silent_pure _))
  | some value =>
    cases value with
    | list r =>
      refine ContinuedBy.thenClose ?_ (silent_onHeap _)
      refine (continuedBy_respected.forLoop (h fuel) slot r fuel 0).trans ?_
      exact forLoop_continuedBy slot r (h fuel).again (Nat.le_add_right fuel extra) 0
    | _ => exact continuedBy_respected.release_then (.silent (silent_pure _))

theorem ifBlocks {args args' : List Node} {cond a a' : Node} {b b' : Option Node}
    (hk : head.kind = .keyword .ifThen) (hargs : ifParts args = some (cond, a, b))
    (hargs' : ifParts args' = some (cond, a', b')) (ha : c.Prolongs extra [a] [a'])
    (hb : c.Prolongs extra b.toList b'.toList) :
    c.Prolongs extra [.branch (.leaf head :: args) span tag] [.branch (.leaf head :: args') span tag] := by
  refine .form fun fuel => ?_
  have hrun (w : Walk) (fuel : Nat) {args : List Node} {a : Node} {b : Option Node}
      (hargs : ifParts args = some (cond, a, b)) :
      c.runBlock w fuel (.branch (.leaf head :: args) span tag) = (do
        if ← w.test cond then w.sequence [a] else w.sequence b.toList) := by
    simp only [runBlock, runForm, hk, runKeyword, hargs, Walk.sequence_singleton]
    cases b with
    | none => rfl
    | some b => rw [Option.toList_some, Walk.sequence_singleton]; rfl
  rw [hrun _ _ hargs, hrun _ _ hargs']
  refine .bind (test_continuedBy c cond fuel extra) ?_
  intro t
  cases t with
  | true => exact ha fuel
  | false => exact hb fuel

end Prolongs

end Code

/-! ## Regrouped statements -/

/-- Some extra fuel makes up for the groups, in both directions. -/
theorem Regrouped.prolongs {ns ns' : List Node} (h : Regrouped ns ns') (c : Code) :
    ∃ extra, c.Prolongs extra ns ns' ∧ c.Prolongs extra ns' ns := by
  induction h with
  | refl ns => exact ⟨0, .refl c ns, .refl c ns⟩
  | symm _ ih =>
    obtain ⟨extra, there, back⟩ := ih
    exact ⟨extra, back, there⟩
  | trans _ _ ih ih' =>
    obtain ⟨extra, there, back⟩ := ih
    obtain ⟨extra', there', back'⟩ := ih'
    exact ⟨extra + extra', there.trans there', Nat.add_comm extra' extra ▸ back'.trans back⟩
  | append _ _ ih ih' =>
    obtain ⟨extra, there, back⟩ := ih
    obtain ⟨extra', there', back'⟩ := ih'
    have hl := Nat.le_max_left extra extra'
    have hr := Nat.le_max_right extra extra'
    exact ⟨max extra extra', (there.weaken hl).append (there'.weaken hr),
      (back.weaken hl).append (back'.weaken hr)⟩
  | group span tag hns => exact ⟨1, Code.Prolongs.group hns span tag⟩
  | whileBody hk _ ih =>
    obtain ⟨extra, there, back⟩ := ih
    exact ⟨extra, there.whileBody hk _, back.whileBody hk _⟩
  | forBody hk _ ih =>
    obtain ⟨extra, there, back⟩ := ih
    exact ⟨extra, there.forBody hk _ _, back.forBody hk _ _⟩
  | ifBlocks hk hargs hargs' _ _ ih ih' =>
    obtain ⟨extra, there, back⟩ := ih
    obtain ⟨extra', there', back'⟩ := ih'
    have hl := Nat.le_max_left extra extra'
    have hr := Nat.le_max_right extra extra'
    exact ⟨max extra extra', .ifBlocks hk hargs hargs' (there.weaken hl) (there'.weaken hr),
      .ifBlocks hk hargs' hargs (back.weaken hl) (back'.weaken hr)⟩

/-! ## Regrouped programs -/

structure Code.Regroups (c c' : Code) : Prop where
  limit : c'.limit = c.limit
  functions : c'.program.functions = c.program.functions
  bodies : ∀ i, Regrouped (c.program.body i) (c'.program.body i)

namespace Code

theorem body_eq_nil {c : Code} {i : Nat} (hi : c.program.functions.length ≤ i) : c.program.body i = [] := by
  have hnone : c.program.function? i = none := List.getElem?_eq_none hi
  simp [Program.body, hnone]

namespace Regroups

variable {c c' : Code}

theorem symm (h : c.Regroups c') : c'.Regroups c := ⟨h.limit.symm, h.functions.symm, fun i => (h.bodies i).symm⟩

/-- There are finitely many functions, so one amount of fuel makes up for the groups in
all of them. -/
theorem prolongs (h : c.Regroups c') :
    ∃ extra, ∀ i, c'.Prolongs extra (c.program.body i) (c'.program.body i) := by
  have hfirst (k : Nat) : ∃ extra, ∀ i < k, c'.Prolongs extra (c.program.body i) (c'.program.body i) := by
    induction k with
    | zero => exact ⟨0, by simp⟩
    | succ k ih =>
      obtain ⟨extra, hextra⟩ := ih
      obtain ⟨extra', hlast, -⟩ := (h.bodies k).prolongs c'
      refine ⟨max extra extra', fun i hi => ?_⟩
      rcases Nat.lt_succ_iff_lt_or_eq.mp hi with hi | rfl
      · exact (hextra i hi).weaken (Nat.le_max_left extra extra')
      · exact hlast.weaken (Nat.le_max_right extra extra')
  obtain ⟨extra, hextra⟩ := hfirst c.program.functions.length
  refine ⟨extra, fun i => ?_⟩
  by_cases hi : i < c.program.functions.length
  · exact hextra i hi
  · rw [body_eq_nil (Nat.le_of_not_lt hi), body_eq_nil (by rw [h.functions]; exact Nat.le_of_not_lt hi)]
    exact (Prolongs.refl c' []).weaken (Nat.zero_le extra)

/-- Calls, if the bodies of functions are carried on. -/
theorem call {w w' : Walk} (h : c.Regroups c') (hw : Walk.Pairs ContinuedBy w w')
    (hbody : ∀ i, (w.sequence (c.program.body i)).ContinuedBy (w'.sequence (c'.program.body i)))
    (index : Nat) (args : List Node) (span : Span) :
    (c.call w index args span).ContinuedBy (c'.call w' index args span) := by
  have hfull (depth : Nat) : c'.isFull depth = c.isFull depth := by rw [isFull, isFull, h.limit]
  have hfunction : c'.program.function? index = c.program.function? index := by
    rw [Program.function?, h.functions, ← Program.function?]
  rw [call_eq, call_eq, hfunction]
  cases c.program.function? index with
  | none => exact .silent (silent_fail _)
  | some f =>
    refine .bind (.silent (silent_inspectStack _)) fun top => ?_
    rw [hfull, h.limit]
    split
    · exact .silent (silent_fail _)
    split
    · exact .silent (silent_fail _)
    have hargs := continuedBy_respected.pushAll hw.everywhere continuedBy_respected.push
      fun n (_ : n ∈ args) => permitted c n
    refine .bind (hargs.orUndo (silent_update_truncate top.2)) fun _ => ?_
    refine .bind (.silent (silent_enterFrame f args.length)) fun frame => ?_
    refine .bind ((hbody index).thenClose (silent_update_leave frame)) ?_
    intro flow
    cases flow <;> exact .silent (silent_pure _)

section
variable {extra : Nat} (hextra : ∀ i, c'.Prolongs extra (c.program.body i) (c'.program.body i))
include hextra

theorem call_walk (h : c.Regroups c') {fuel fuel' : Nat}
    (hw : Walk.Pairs ContinuedBy (c.walk fuel) (c'.walk fuel')) (index : Nat) (args : List Node) (span : Span) :
    (c.call (c.walk fuel) index args span).ContinuedBy (c'.call (c'.walk (fuel' + extra)) index args span) := by
  have hmore := c'.walk_continuedBy (Nat.le_add_right fuel' extra)
  refine h.call ⟨fun n => (hw.eval n).trans (hmore.eval n), fun n => (hw.block n).trans (hmore.block n)⟩ ?_ ..
  exact fun i => (sequence_continuedBy c hw _).trans (hextra i fuel')

/-- Groups in bodies cost fuel anew with every call, so the fuel is multiplied. -/
theorem walk (h : c.Regroups c') (fuel : Nat) :
    Walk.Pairs ContinuedBy (c.walk fuel) (c'.walk (fuel * (extra + 1))) := by
  induction fuel with
  | zero =>
    have hself := c'.walk_continuedBy (Nat.le_refl (0 * (extra + 1)))
    exact ⟨fun n => .exhausted (hself.eval n), fun n => .exhausted (hself.block n)⟩
  | succ fuel ih =>
    have hfuel : (fuel + 1) * (extra + 1) = fuel * (extra + 1) + extra + 1 := by
      rw [Nat.succ_mul, Nat.add_assoc]
    have hle : fuel ≤ fuel * (extra + 1) + extra :=
      Nat.le_trans (Nat.le_mul_of_pos_right fuel (Nat.succ_pos extra)) (Nat.le_add_right _ extra)
    have hmore := c'.walk_continuedBy (Nat.le_add_right (fuel * (extra + 1)) extra)
    have hw : Walk.Pairs ContinuedBy (c.walk fuel) (c'.walk (fuel * (extra + 1) + extra)) :=
      ⟨fun n => (ih.eval n).trans (hmore.eval n), fun n => (ih.block n).trans (hmore.block n)⟩
    rw [hfuel, walk_succ, walk_succ]
    constructor
    · intro n
      exact continuedBy_respected.evalNode hw.everywhere (permitted c n) fun index args _ =>
        h.call_walk hextra ih index args n.span
    · intro n
      exact runBlock_continuedBy c hw hle n fun index args => h.call_walk hextra ih index args n.span

end

/-! ### The same meaning -/

theorem refl (c : Code) : c.Regroups c := ⟨rfl, rfl, fun i => .refl (c.program.body i)⟩

theorem sequence {ns ns' : List Node} (h : c.Regroups c') (hns : Regrouped ns ns') :
    SameMeaning (fun fuel => (c.walk fuel).sequence ns) (fun fuel => (c'.walk fuel).sequence ns') := by
  have onward {c c' : Code} {ns ns' : List Node} (h : c.Regroups c') (hns : Regrouped ns ns') (fuel : Nat) :
      ∃ fuel', ((c.walk fuel).sequence ns).ContinuedBy ((c'.walk fuel').sequence ns') := by
    obtain ⟨extra, hextra⟩ := h.prolongs
    obtain ⟨extra', hprolongs, -⟩ := hns.prolongs c'
    exact ⟨_, (sequence_continuedBy c (h.walk hextra fuel) ns).trans (hprolongs _)⟩
  exact .of_continuedBy (c.steady_sequence ns) (c'.steady_sequence ns') (onward h hns) (onward h.symm hns.symm)

theorem block {n n' : Node} (h : c.Regroups c') (hn : Regrouped [n] [n']) :
    SameMeaning (c.block · n) (c'.block · n') := by
  have hsequence := h.sequence hn
  simp only [Walk.sequence_singleton] at hsequence
  exact hsequence

theorem eval (h : c.Regroups c') (n : Node) : SameMeaning (c.eval · n) (c'.eval · n) := by
  have steady (c : Code) : Steady (c.eval · n) := fun hle => (c.walk_continuedBy hle).eval n
  have onward {c c' : Code} (h : c.Regroups c') (fuel : Nat) :
      ∃ fuel', (c.eval fuel n).ContinuedBy (c'.eval fuel' n) := by
    obtain ⟨extra, hextra⟩ := h.prolongs
    exact ⟨_, (h.walk hextra fuel).eval n⟩
  exact .of_continuedBy (steady c) (steady c') (onward h) (onward h.symm)

theorem run (h : c.Regroups c') : SameMeaning c.run c'.run := by
  have onward {c c' : Code} (h : c.Regroups c') (fuel : Nat) :
      ∃ fuel', (c.run fuel).ContinuedBy (c'.run fuel') := by
    obtain ⟨extra, hextra⟩ := h.prolongs
    have hspan : c'.mainSpan = c.mainSpan := by
      unfold mainSpan Program.function?
      rw [h.functions]
    exact ⟨_, run_continuedBy hspan fun span => h.call_walk hextra (h.walk hextra fuel) 0 [] span⟩
  exact .of_continuedBy (steady_run c) (steady_run c') (onward h) (onward h.symm)

end Regroups

end Code

/-! ## Without groups -/

namespace Node

mutual

def statements : Node → List Node
  | leaf l => [leaf l]
  | branch ns span tag =>
    match ns with
    | leaf _ :: _ => [branch ns span tag]
    | _ => statementsAll ns

def statementsAll : List Node → List Node
  | [] => []
  | n :: ns => statements n ++ statementsAll ns

end

def IsGroup (n : Node) : Prop := ∃ ns span tag, n = branch ns span tag ∧ Groupable ns

end Node

namespace Node

mutual

theorem regrouped_statements : ∀ n : Node, Regrouped [n] n.statements
  | leaf l => .refl _
  | branch ns span tag => by
    unfold statements
    split
    · exact .refl _
    · rename_i hfirst
      have hns : Groupable ns := by
        intro l hl
        obtain ⟨rest, rfl⟩ := List.head?_eq_some_iff.mp hl
        exact hfirst l rest rfl
      exact .trans (.group span tag hns) (regrouped_statementsAll ns)

theorem regrouped_statementsAll : ∀ ns : List Node, Regrouped ns (statementsAll ns)
  | [] => .refl _
  | n :: ns => .append (regrouped_statements n) (regrouped_statementsAll ns)

end

mutual

theorem statements_ungrouped : ∀ n : Node, ∀ s ∈ n.statements, ¬ s.IsGroup
  | leaf l => by
    intro s hs
    obtain rfl := List.mem_singleton.mp hs
    rintro ⟨ns, span, tag, hleaf, -⟩
    cases hleaf
  | branch ns span tag => by
    unfold statements
    split
    · rename_i l rest
      intro s hs
      obtain rfl := List.mem_singleton.mp hs
      rintro ⟨ns, span', tag', hform, hns⟩
      cases hform
      exact hns l rfl
    · exact statementsAll_ungrouped ns

theorem statementsAll_ungrouped : ∀ ns : List Node, ∀ s ∈ statementsAll ns, ¬ s.IsGroup
  | [] => by simp [statementsAll]
  | n :: ns => List.forall_mem_append.mpr ⟨statements_ungrouped n, statementsAll_ungrouped ns⟩

end

end Node

/-! ## One group dissolved -/

structure Code.ReplacesBody (c c' : Code) (index : Nat) (body body' : List Node) : Prop where
  limit : c'.limit = c.limit
  functions : c'.program.functions = c.program.functions
  before : c.program.body index = body
  after : c'.program.body index = body'
  others : ∀ i ≠ index, c'.program.body i = c.program.body i

theorem Code.ReplacesBody.regroups {c c' : Code} {index : Nat} {body body' : List Node}
    (h : c.ReplacesBody c' index body body') (hbody : Regrouped body body') : c.Regroups c' := by
  refine ⟨h.limit, h.functions, fun i => ?_⟩
  by_cases hi : i = index
  · rw [hi, h.before, h.after]
    exact hbody
  · rw [h.others i hi]
    exact .refl _

theorem Regrouped.dissolve {ys : List Node} (hys : Groupable ys) (xs zs : List Node) (span : Span)
    (tag : Option Nat) : Regrouped (xs ++ [.branch ys span tag] ++ zs) (xs ++ ys ++ zs) :=
  .append (.append (.refl xs) (.group span tag hys)) (.refl zs)

/-- A form around a block stands for the block itself, also when the block is regrouped. -/
theorem Regrouped.block {ns ns' : List Node} (h : Regrouped ns ns') (hns : Groupable ns) (hns' : Groupable ns')
    (span span' : Span) (tag tag' : Option Nat) :
    Regrouped [.branch ns span tag] [.branch ns' span' tag'] :=
  (Regrouped.group span tag hns).trans (h.trans (.symm (.group span' tag' hns')))

theorem Groupable.of_dissolved {xs ys zs : List Node} (h : Groupable (xs ++ ys ++ zs)) (span : Span)
    (tag : Option Nat) : Groupable (xs ++ [.branch ys span tag] ++ zs) := by
  cases xs with
  | nil => simp [Groupable]
  | cons n xs => exact h

/-- A group among statements means what its statements mean without the form around them, and
`()` means nothing: with the same result, the same machine afterwards and the same output the
statements run as a sequence, as a block, as the body of a loop and as the body of a function,
whatever the machine. So all groups can be dissolved, those in groups too, and programs that
differ in groups anywhere run alike. -/
theorem grouping_keeps_meaning :
    (∀ (xs ys zs : List Node) (span : Span) (tag : Option Nat), Groupable ys →
      (∀ c : Code, SameMeaning (fun fuel => (c.walk fuel).sequence (xs ++ [.branch ys span tag] ++ zs))
        (fun fuel => (c.walk fuel).sequence (xs ++ ys ++ zs))) ∧
      (∀ (c : Code) (s s' : Span) (t t' : Option Nat), Groupable (xs ++ ys ++ zs) →
        SameMeaning (c.block · (.branch (xs ++ [.branch ys span tag] ++ zs) s t))
          (c.block · (.branch (xs ++ ys ++ zs) s' t'))) ∧
      (∀ (c : Code) (head : Leaf) (cond : Node) (s : Span) (t : Option Nat),
        head.kind = .keyword .whileLoop →
        SameMeaning (c.block · (.branch (.leaf head :: cond :: (xs ++ [.branch ys span tag] ++ zs)) s t))
          (c.block · (.branch (.leaf head :: cond :: (xs ++ ys ++ zs)) s t))) ∧
      (∀ (c : Code) (head : Leaf) (var list : Node) (s : Span) (t : Option Nat),
        head.kind = .keyword .forEach →
        SameMeaning (c.block · (.branch (.leaf head :: var :: list :: (xs ++ [.branch ys span tag] ++ zs)) s t))
          (c.block · (.branch (.leaf head :: var :: list :: (xs ++ ys ++ zs)) s t))) ∧
      (∀ (c c' : Code) (index : Nat),
        c.ReplacesBody c' index (xs ++ [.branch ys span tag] ++ zs) (xs ++ ys ++ zs) →
        SameMeaning c.run c'.run ∧ ∀ n, SameMeaning (c.eval · n) (c'.eval · n))) ∧
    (∀ (c : Code) (ns : List Node),
      SameMeaning (fun fuel => (c.walk fuel).sequence ns)
        (fun fuel => (c.walk fuel).sequence (Node.statementsAll ns)) ∧
      ∀ n ∈ Node.statementsAll ns, ¬ n.IsGroup) ∧
    (∀ c c' : Code, c.Regroups c' → SameMeaning c.run c'.run) := by
  refine ⟨fun xs ys zs span tag hys => ?_, fun c ns => ?_, fun c c' h => h.run⟩
  -- one regrouping serves in all five places
  · have hflat := Regrouped.dissolve hys xs zs span tag
    refine ⟨fun c => (Code.Regroups.refl c).sequence hflat, ?_, ?_, ?_, ?_⟩
    · intro c s s' t t' hblock
      exact (Code.Regroups.refl c).block (hflat.block (hblock.of_dissolved span tag) hblock s s' t t')
    · intro c head cond s t hk
      exact (Code.Regroups.refl c).block (.whileBody hk hflat)
    · intro c head var list s t hk
      exact (Code.Regroups.refl c).block (.forBody hk hflat)
    · intro c c' index h
      exact ⟨(h.regroups hflat).run, (h.regroups hflat).eval⟩
  · exact ⟨(Code.Regroups.refl c).sequence (Node.regrouped_statementsAll ns), Node.statementsAll_ungrouped ns⟩

section
variable (word : String) (operands body : List Node)

def wordLeaf : Leaf := .ofToken ⟨.atom, word, default⟩

def wordForm : Node := .branch (.leaf (wordLeaf word) :: operands) default none

def soleFunction : Code :=
  ⟨⟨.branch [wordForm "defun" (wordForm "main" [] :: body)] default none, [⟨"main", 0, 0, 0, default⟩]⟩, none⟩

theorem body_soleFunction : (soleFunction body).program.body 0 = body := rfl

end

/-- A function that returns from inside a group, and an endless loop around an empty one. -/
theorem grouping_keeps_meaning_returnInside :
    let early := [wordForm "print" [.leaf (wordLeaf "1")], wordForm "return" [.leaf (wordLeaf "2")]]
    let late := [wordForm "print" [.leaf (wordLeaf "3")]]
    Groupable early ∧
    SameMeaning (soleFunction ([] ++ [.branch early default none] ++ late)).run
      (soleFunction ([] ++ early ++ late)).run ∧
    Groupable ([] : List Node) ∧ (wordLeaf "while").kind = .keyword .whileLoop ∧
    SameMeaning ((soleFunction []).block · (wordForm "while" (.leaf (wordLeaf "true") ::
        (late ++ [.branch [] default none] ++ late))))
      ((soleFunction []).block · (wordForm "while" (.leaf (wordLeaf "true") :: (late ++ [] ++ late)))) := by
  intro early late
  have hearly : Groupable early := by simp [Groupable, early, wordForm]
  have hnil : Groupable ([] : List Node) := by simp [Groupable]
  have hreplaces : (soleFunction ([] ++ [.branch early default none] ++ late)).ReplacesBody
      (soleFunction ([] ++ early ++ late)) 0 ([] ++ [.branch early default none] ++ late)
      ([] ++ early ++ late) := by
    refine ⟨rfl, rfl, body_soleFunction _, body_soleFunction _, fun i hi => ?_⟩
    rw [Code.body_eq_nil (Nat.pos_of_ne_zero hi), Code.body_eq_nil (Nat.pos_of_ne_zero hi)]
  exact ⟨hearly, ((grouping_keeps_meaning.1 [] early late default none hearly).2.2.2.2 _ _ 0 hreplaces).1,
    hnil, rfl, (grouping_keeps_meaning.1 late [] late default none hnil).2.2.1 _ _ _ _ _ rfl⟩

end Lisplet
