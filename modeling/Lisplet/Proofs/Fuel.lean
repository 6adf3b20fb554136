import Lisplet.Proofs.Cutoff

/-!
# More fuel

Fuel decides only how far an evaluation gets. With more of it the evaluation goes the
same way: it ends like before, unless the fuel ran out before, and then it has at least
written what was written until then. So there is a meaning that does not speak of fuel:
the result that enough fuel leads to, and everything that is ever written.
-/

namespace Lisplet

/-! ## Growing output -/

def Sink.ContinuedBy (s s' : Sink) : Prop := ∃ more, s'.bytes = s.bytes ++ more

namespace Sink.ContinuedBy

theorem refl (s : Sink) : s.ContinuedBy s := ⟨.empty, by simp⟩

theorem trans {s s' s'' : Sink} (h : s.ContinuedBy s') (h' : s'.ContinuedBy s'') : s.ContinuedBy s'' := by
  obtain ⟨more, hmore⟩ := h
  obtain ⟨rest, hrest⟩ := h'
  exact ⟨more ++ rest, by rw [hrest, hmore, ByteArray.append_assoc]⟩

theorem write (s : Sink) (bytes : ByteArray) : s.ContinuedBy (s.write bytes).2 := by
  unfold Sink.write
  split
  · exact ⟨bytes, rfl⟩
  · split
    · exact ⟨bytes, rfl⟩
    · exact ⟨_, rfl⟩

end Sink.ContinuedBy

/-! ## Computations that go on -/

namespace Eval

/-- The computation goes the way of `x`, and at least as far: `x` ends the same, or runs out
of fuel having written no more than this. -/
structure ContinuedBy (x y : Eval α) : Prop where
  grows : ∀ m : Machine, m.sink.ContinuedBy (y.after m).sink
  onward : ∀ m, y m = x m ∨ ∃ m₁, x m = .error .exhausted m₁ ∧ m₁.sink.ContinuedBy (y.after m).sink

section
variable {α β : Type}

theorem after_bind (x : Eval α) (f : α → Eval β) (m : Machine) : (x >>= f).after m =
    match x m with
    | .ok a m₁ => (f a).after m₁
    | .error _ m₁ => m₁ := by
  show (match EStateM.bind x f m with
    | .ok _ m => m
    | .error _ m => m) = _
  unfold EStateM.bind
  cases x m <;> rfl

theorem after_orUndo_sink {undo : Machine → Machine} (hu : (update undo).Silent) (x : Eval α) (m : Machine) :
    ((x.orUndo undo).after m).sink = (x.after m).sink := by
  unfold after Eval.orUndo
  cases x m with
  | ok a m₁ => rfl
  | error e m₁ => exact hu.update_sink m₁

theorem after_thenClose_sink {close : Machine → Machine} (hc : (update close).Silent) (x : Eval α)
    (m : Machine) : ((x.thenClose close).after m).sink = (x.after m).sink := by
  unfold after Eval.thenClose
  cases x m <;> exact hc.update_sink _

theorem Silent.after_sink {act : Eval α} (h : act.Silent) (m : Machine) : (act.after m).sink = m.sink := by
  obtain ⟨f, -, hf⟩ := h
  unfold after
  rw [hf m, Effect.on]
  cases (f m.heap m.stack).ending <;> rfl

namespace ContinuedBy

theorem self {x : Eval α} (h : ∀ m : Machine, m.sink.ContinuedBy (x.after m).sink) : x.ContinuedBy x := ⟨h, fun _ => .inl rfl⟩

theorem silent {x : Eval α} (h : x.Silent) : x.ContinuedBy x :=
  .self fun m => by rw [h.after_sink]; exact .refl _

theorem again {x y : Eval α} (h : x.ContinuedBy y) : y.ContinuedBy y := .self h.grows

theorem exhausted {y : Eval α} (h : y.ContinuedBy y) : (Eval.exhausted : Eval α).ContinuedBy y :=
  ⟨h.grows, fun m => .inr ⟨m, rfl, h.grows m⟩⟩

theorem trans {x y z : Eval α} (h : x.ContinuedBy y) (h' : y.ContinuedBy z) : x.ContinuedBy z := by
  refine ⟨h'.grows, fun m => ?_⟩
  rcases h'.onward m with hz | ⟨m₁, hy, hm₁⟩
  · rcases h.onward m with hx | ⟨m₁, hx, hm₁⟩
    · exact .inl (hz.trans hx)
    · exact .inr ⟨m₁, hx, by rwa [after, hz, ← after]⟩
  · rcases h.onward m with hx | ⟨m₂, hx, hm₂⟩
    · exact .inr ⟨m₁, hx ▸ hy, hm₁⟩
    · have hafter : y.after m = m₁ := by rw [after, hy]
      exact .inr ⟨m₂, hx, (hafter ▸ hm₂).trans hm₁⟩

theorem bind {x y : Eval α} {f g : α → Eval β} (hx : x.ContinuedBy y) (hf : ∀ a, (f a).ContinuedBy (g a)) :
    (x >>= f).ContinuedBy (y >>= g) := by
  -- what follows `y` only adds to its output
  have hrest (m : Machine) : (y.after m).sink.ContinuedBy ((y >>= g).after m).sink := by
    rw [after_bind, after]
    cases y m with
    | ok a m₁ => exact (hf a).grows m₁
    | error e m₁ => exact .refl _
  refine ⟨fun m => (hx.grows m).trans (hrest m), fun m => ?_⟩
  rcases hx.onward m with hy | ⟨m₁, hout, hm₁⟩
  · rw [after_bind]
    show EStateM.bind y g m = EStateM.bind x f m ∨ ∃ m₁, EStateM.bind x f m = _ ∧ _
    unfold EStateM.bind
    rw [hy]
    cases x m with
    | ok a m₁ => exact (hf a).onward m₁
    | error e m₁ => exact .inl rfl
  · refine .inr ⟨m₁, ?_, hm₁.trans (hrest m)⟩
    show EStateM.bind x f m = _
    rw [EStateM.bind, hout]

theorem orUndo {x y : Eval α} {undo : Machine → Machine} (h : x.ContinuedBy y) (hu : (update undo).Silent) :
    (x.orUndo undo).ContinuedBy (y.orUndo undo) := by
  refine ⟨fun m => by rw [after_orUndo_sink hu]; exact h.grows m, fun m => ?_⟩
  rw [after_orUndo_sink hu]
  unfold Eval.orUndo
  rcases h.onward m with hy | ⟨m₁, hout, hm₁⟩
  · exact .inl (by rw [hy])
  · exact .inr ⟨undo m₁, by rw [hout], by rwa [hu.update_sink]⟩

theorem thenClose {x y : Eval α} {close : Machine → Machine} (h : x.ContinuedBy y)
    (hc : (update close).Silent) : (x.thenClose close).ContinuedBy (y.thenClose close) := by
  refine ⟨fun m => by rw [after_thenClose_sink hc]; exact h.grows m, fun m => ?_⟩
  rw [after_thenClose_sink hc]
  unfold Eval.thenClose
  rcases h.onward m with hy | ⟨m₁, hout, hm₁⟩
  · exact .inl (by rw [hy])
  · exact .inr ⟨close m₁, by rw [hout], by rwa [hc.update_sink]⟩

end ContinuedBy

end

end Eval

theorem continuedBy_congruence : Congruence Eval.ContinuedBy where
  silent := .silent
  bind := .bind
  orUndo := .orUndo
  thenClose := .thenClose

/-! ## Printing -/

namespace Eval

theorem continuedBy_write (text : String) (span : Span) : (write text span).ContinuedBy (write text span) := by
  refine .self fun m => ?_
  have hsink := Sink.ContinuedBy.write m.sink text.toUTF8
  unfold after write
  dsimp only
  cases hw : m.sink.write text.toUTF8 with
  | mk complete sink =>
    rw [hw] at hsink
    cases complete <;> exact hsink

theorem writePieces_value (span : Span) (fuel : Nat) (v : Option Value) (rest : List Piece) :
    writePieces span (fuel + 1) (.value v :: rest) = (do
      let pieces ← inspect fun h => h.pieces v
      writePieces span fuel (pieces ++ rest)) := rfl

theorem continuedBy_writePieces_self (span : Span) (fuel : Nat) (pieces : List Piece) :
    (writePieces span fuel pieces).ContinuedBy (writePieces span fuel pieces) := by
  induction fuel generalizing pieces with
  | zero =>
    cases pieces with
    | nil => exact .silent (silent_pure ())
    | cons p rest => exact .silent silent_exhausted
  | succ fuel ih =>
    rcases pieces with _ | ⟨s | v, rest⟩
    · exact .silent (silent_pure ())
    · rw [writePieces_text]
      exact .bind (continuedBy_write s span) fun _ => ih rest
    · rw [writePieces_value]
      exact .bind (.silent (silent_make fun h => (h.pieces v, h))) fun _ => ih _

theorem continuedBy_writePieces (span : Span) {fuel fuel' : Nat} (h : fuel ≤ fuel') (pieces : List Piece) :
    (writePieces span fuel pieces).ContinuedBy (writePieces span fuel' pieces) := by
  induction fuel generalizing fuel' pieces with
  | zero =>
    cases pieces with
    | nil => cases fuel' <;> exact .silent (silent_pure ())
    | cons p rest => exact .exhausted (continuedBy_writePieces_self span fuel' _)
  | succ fuel ih =>
    obtain ⟨fuel', rfl⟩ : ∃ k, fuel' = k + 1 := ⟨fuel' - 1, by omega⟩
    have hle : fuel ≤ fuel' := by omega
    rcases pieces with _ | ⟨s | v, rest⟩
    · exact .silent (silent_pure ())
    · rw [writePieces_text, writePieces_text]
      exact .bind (continuedBy_write s span) fun _ => ih hle rest
    · rw [writePieces_value, writePieces_value]
      exact .bind (.silent (silent_make fun h => (h.pieces v, h))) fun _ => ih hle _

theorem continuedBy_print {fuel fuel' : Nat} (h : fuel ≤ fuel') (v : Option Value) (span : Span) :
    (print fuel v span).ContinuedBy (print fuel' v span) := by
  unfold print
  split
  · exact continuedBy_write _ span
  · exact continuedBy_writePieces span h _

end Eval

theorem continuedBy_respected : RespectsRuns (fun _ => True) Eval.ContinuedBy where
  toRespectsCalls := continuedBy_congruence.respectsCalls
  print fuel v span _ := Eval.continuedBy_print (Nat.le_refl fuel) v span
  started := .silent (Eval.silent_update_note (fun _ => .mainStarted) fun _ => .inl rfl)
  finished h := h.thenClose (Eval.silent_update_note (fun s => .mainFinished s.size) fun _ => .inl rfl)

/-! ## Loops and statements -/

namespace Code

open Eval

theorem permitted (c : Code) (n : Node) : c.Permits (fun _ => True) n := .of_forall (fun _ => trivial) n

theorem whileLoop_continuedBy {test : Eval Bool} {body : Eval Flow} (ht : test.ContinuedBy test)
    (hb : body.ContinuedBy body) {fuel fuel' : Nat} (h : fuel ≤ fuel') :
    (whileLoop test body fuel).ContinuedBy (whileLoop test body fuel') := by
  induction fuel generalizing fuel' with
  | zero => exact .exhausted (continuedBy_respected.whileLoop ht hb fuel')
  | succ fuel ih =>
    obtain ⟨fuel', rfl⟩ : ∃ k, fuel' = k + 1 := ⟨fuel' - 1, by omega⟩
    rw [whileLoop_succ, whileLoop_succ]
    refine .bind ht ?_
    intro b
    cases b with
    | false => exact .silent (silent_pure _)
    | true =>
      refine .bind hb ?_
      intro flow
      cases flow with
      | normal => exact ih (by omega)
      | returned v => exact .silent (silent_pure _)

theorem forLoop_continuedBy (slot : Nat) (r : Ref) {body : Eval Flow} (hb : body.ContinuedBy body)
    {fuel fuel' : Nat} (h : fuel ≤ fuel') (i : Nat) :
    (forLoop slot r body fuel i).ContinuedBy (forLoop slot r body fuel' i) := by
  induction fuel generalizing fuel' i with
  | zero => exact .exhausted (continuedBy_respected.forLoop hb slot r fuel' i)
  | succ fuel ih =>
    obtain ⟨fuel', rfl⟩ : ∃ k, fuel' = k + 1 := ⟨fuel' - 1, by omega⟩
    rw [forLoop_succ, forLoop_succ]
    refine .bind (continuedBy_respected.inspect _) ?_
    intro item
    cases item with
    | none => exact .silent (silent_pure _)
    | some v =>
      refine .bind (.silent (silent_onHeap _)) fun _ => .bind (.silent (silent_setSlot slot v)) fun _ => ?_
      refine .bind hb ?_
      intro flow
      cases flow with
      | normal => exact ih (by omega) (i + 1)
      | returned v => exact .silent (silent_pure _)

/-- Only printing and loops take fuel. -/
theorem runKeyword_fuel (w : Walk) (fuel fuel' : Nat) {k : Keyword} (hprint : k ≠ .print)
    (hwhile : k ≠ .whileLoop) (hfor : k ≠ .forEach) (args : List Node) (span : Span) :
    runKeyword w fuel k args span = runKeyword w fuel' k args span := by
  cases k with
  | print => exact absurd rfl hprint
  | whileLoop => exact absurd rfl hwhile
  | forEach => exact absurd rfl hfor
  | set | ret => rcases args with _ | ⟨a, _ | ⟨b, _ | ⟨d, rest⟩⟩⟩ <;> rfl
  | _ => rfl

section
variable (c : Code) {w w' : Walk} (hw : Walk.Pairs ContinuedBy w w')
include c hw

theorem sequence_continuedBy (ns : List Node) : (w.sequence ns).ContinuedBy (w'.sequence ns) :=
  continuedBy_respected.sequence hw.everywhere fun n _ => permitted c n

theorem runKeyword_pairs (fuel : Nat) (k : Keyword) (args : List Node) (span : Span) :
    (runKeyword w fuel k args span).ContinuedBy (runKeyword w' fuel k args span) :=
  have hform := permitted c (.branch (.branch [] span none :: args) span none)
  continuedBy_respected.runKeyword hw.everywhere fuel k hform
    fun _ v => continuedBy_print (Nat.le_refl fuel) v span

theorem runKeyword_continuedBy {fuel fuel' : Nat} (h : fuel ≤ fuel') (k : Keyword) (args : List Node)
    (span : Span) : (runKeyword w fuel k args span).ContinuedBy (runKeyword w' fuel' k args span) := by
  -- more fuel first for what is below the form, then for the form itself
  refine (runKeyword_pairs c hw fuel k args span).trans ?_
  have hw' : Walk.Pairs ContinuedBy w' w' := ⟨fun n => (hw.eval n).again, fun n => (hw.block n).again⟩
  have hself := runKeyword_pairs c hw' fuel k args span
  by_cases hprint : k = .print
  · subst hprint
    unfold runKeyword
    refine continuedBy_respected.checked_bind (fun _ _ => trivial) ?_
    intro _ hcheck
    obtain ⟨e, rfl⟩ := one_operand hcheck rfl
    refine .bind (hw'.eval e) fun v => ?_
    exact .bind ((continuedBy_print h v span).thenClose (silent_onHeap _)) fun _ => .silent (silent_pure _)
  by_cases hwhile : k = .whileLoop
  · subst hwhile
    cases args with
    | nil => exact hself
    | cons cond body =>
      have htest := continuedBy_respected.test hw'.everywhere (permitted c cond)
      exact whileLoop_continuedBy htest (sequence_continuedBy c hw' body) h
  by_cases hfor : k = .forEach
  · subst hfor
    rcases args with _ | ⟨var, _ | ⟨list, body⟩⟩
    · exact hself
    · exact hself
    · unfold runKeyword
      refine continuedBy_respected.checked_bind (fun _ _ => trivial) fun _ _ => ?_
      refine continuedBy_respected.checked_bind (fun _ _ => trivial) fun slot _ => ?_
      refine .bind (hw'.eval list) ?_
      intro v
      match v with
      | some (.list r) =>
        exact (forLoop_continuedBy slot r (sequence_continuedBy c hw' body) h 0).thenClose (silent_onHeap _)
      | none | some (.bool _) | some (.int _) | some (.float _) | some (.str _ _) | some (.tuple _)
      | some (.table _) => exact continuedBy_respected.release_then (.silent (silent_pure _))
  · rw [runKeyword_fuel w' fuel fuel' hprint hwhile hfor] at hself ⊢
    exact hself

theorem runForm_continuedBy {c' : Code} {fuel fuel' : Nat} (h : fuel ≤ fuel') (children : List Node)
    (span : Span) (hcall : ∀ index args, (c.call w index args span).ContinuedBy (c'.call w' index args span)) :
    (c.runForm w fuel children span).ContinuedBy (c'.runForm w' fuel' children span) := by
  match children with
  | [] => exact .silent (silent_pure _)
  | .branch _ s _ :: _ => exact .silent (silent_fail _)
  | .leaf head :: args =>
    unfold runForm
    dsimp only
    cases head.kind with
    | keyword k => exact runKeyword_continuedBy c hw h k args span
    | identifier =>
      refine continuedBy_respected.checked_bind (fun _ _ => trivial) fun index _ => ?_
      exact .bind (hcall index args) fun _ => continuedBy_respected.release_then (.silent (silent_pure _))
    | _ => exact .silent (silent_fail _)

theorem runBlock_continuedBy {c' : Code} {fuel fuel' : Nat} (h : fuel ≤ fuel') (n : Node)
    (hcall : ∀ index args, (c.call w index args n.span).ContinuedBy (c'.call w' index args n.span)) :
    (c.runBlock w fuel n).ContinuedBy (c'.runBlock w' fuel' n) := by
  match n with
  | .leaf l => exact .silent (silent_fail _)
  | .branch [] span _ => exact .silent (silent_pure _)
  | .branch (.branch cs s tag :: rest) _ _ => exact sequence_continuedBy c hw _
  | .branch (.leaf head :: args) span tag => exact runForm_continuedBy c hw h (.leaf head :: args) span hcall

end

/-! ## The way down the tree -/

/-- With more fuel every node is evaluated and run in the same way. -/
theorem walk_continuedBy (c : Code) {fuel fuel' : Nat} (h : fuel ≤ fuel') :
    Walk.Pairs ContinuedBy (c.walk fuel) (c.walk fuel') := by
  induction fuel generalizing fuel' with
  | zero =>
    have hself := continuedBy_respected.walk (fun _ n _ => permitted c n) fuel'
    exact ⟨fun n => .exhausted (hself.eval (permitted c n)), fun n => .exhausted (hself.block (permitted c n))⟩
  | succ fuel ih =>
    obtain ⟨fuel', rfl⟩ : ∃ k, fuel' = k + 1 := ⟨fuel' - 1, by omega⟩
    have hle : fuel ≤ fuel' := by omega
    rw [walk_succ, walk_succ]
    exact ⟨continuedBy_congruence.evalNode (ih hle) c, fun n =>
      runBlock_continuedBy c (ih hle) hle n fun index args =>
        continuedBy_congruence.call (ih hle) c index args n.span⟩

/-- A run goes on as its call of the main function does. -/
theorem run_continuedBy {c c' : Code} (hspan : c'.mainSpan = c.mainSpan) {fuel fuel' : Nat}
    (hcall : ∀ span, (c.call (c.walk fuel) 0 [] span).ContinuedBy (c'.call (c'.walk fuel') 0 [] span)) :
    (c.run fuel).ContinuedBy (c'.run fuel') := by
  rw [run_eq, run_eq, hspan]
  exact .bind continuedBy_respected.started fun _ => continuedBy_respected.finished (hcall _)

end Code

/-! ## Meaning -/

namespace Eval

def Complete : EStateM.Result Stop Machine α → Prop
  | .error .exhausted _ => False
  | _ => True

def Gives (x : Nat → Eval α) (m : Machine) (r : EStateM.Result Stop Machine α) : Prop :=
  Complete r ∧ ∃ enough, ∀ fuel ≥ enough, x fuel m = r

/-- At some time the output begins with these bytes, also if the computation never ends. -/
def Shows (x : Nat → Eval α) (m : Machine) (bytes : ByteArray) : Prop :=
  ∃ fuel more, ((x fuel).after m).sink.bytes = bytes ++ more

/-- On every machine the same results, with the same machine afterwards, and the same
output. -/
structure SameMeaning (x y : Nat → Eval α) : Prop where
  gives : ∀ m r, Gives x m r ↔ Gives y m r
  shows : ∀ m bytes, Shows x m bytes ↔ Shows y m bytes

/-- More fuel only carries the computation on. -/
def Steady (x : Nat → Eval α) : Prop := ∀ {fuel fuel' : Nat}, fuel ≤ fuel' → (x fuel).ContinuedBy (x fuel')

theorem steady_run (c : Code) : Steady c.run := fun hle =>
  c.run_continuedBy rfl fun span => continuedBy_congruence.call (c.walk_continuedBy hle) c 0 [] span

section
variable {α : Type}

theorem ContinuedBy.eq_of_complete {x y : Eval α} (h : x.ContinuedBy y) {m : Machine}
    (hm : Complete (x m)) : y m = x m := by
  rcases h.onward m with hy | ⟨m₁, hout, -⟩
  · exact hy
  · rw [hout] at hm
    exact hm.elim

theorem ContinuedBy.after_sink {x y : Eval α} (h : x.ContinuedBy y) (m : Machine) :
    (x.after m).sink.ContinuedBy (y.after m).sink := by
  rcases h.onward m with hy | ⟨m₁, hout, hm₁⟩
  · rw [after, after, hy]
    exact .refl _
  · rwa [show x.after m = m₁ by rw [after, hout]]

/-- Computations that carry each other on mean the same. -/
theorem SameMeaning.of_continuedBy {x y : Nat → Eval α} (hx : Steady x) (hy : Steady y)
    (hxy : ∀ fuel, ∃ fuel', (x fuel).ContinuedBy (y fuel'))
    (hyx : ∀ fuel, ∃ fuel', (y fuel).ContinuedBy (x fuel')) : SameMeaning x y := by
  -- one direction each, for results and for output; the other is the same with `x` and `y` exchanged
  have gives {x y : Nat → Eval α} (hy : Steady y) (hxy : ∀ fuel, ∃ fuel', (x fuel).ContinuedBy (y fuel'))
      {m : Machine} {r : EStateM.Result Stop Machine α} (h : Gives x m r) : Gives y m r := by
    obtain ⟨hr, enough, henough⟩ := h
    obtain ⟨fuel', hfuel'⟩ := hxy enough
    have hresult := henough enough (Nat.le_refl enough)
    refine ⟨hr, fuel', fun fuel hle => ?_⟩
    rw [← hresult]
    exact (hfuel'.trans (hy hle)).eq_of_complete (hresult ▸ hr)
  have shows {x y : Nat → Eval α} (hxy : ∀ fuel, ∃ fuel', (x fuel).ContinuedBy (y fuel'))
      {m : Machine} {bytes : ByteArray} (h : Shows x m bytes) : Shows y m bytes := by
    obtain ⟨fuel, more, hmore⟩ := h
    obtain ⟨fuel', hfuel'⟩ := hxy fuel
    obtain ⟨rest, hrest⟩ := hfuel'.after_sink m
    exact ⟨fuel', more ++ rest, by rw [hrest, hmore, ByteArray.append_assoc]⟩
  exact ⟨fun m r => ⟨gives hy hxy, gives hx hyx⟩, fun m bytes => ⟨shows hxy, shows hyx⟩⟩

end

end Eval

end Lisplet
