import Lisplet.Proofs.Congruence
import Lisplet.Proofs.Handover

/-!
# Ownership during evaluation

Whoever evaluates a node owns its value afterwards, and evaluation that stops
gives back everything it holds. Besides the slots of the stack there are always
values that somebody keeps all the while: the literals of the tree, and the list
that a loop goes through.
-/

namespace Lisplet

/-- Whoever owns `vs` beside the slots of `m` owns `vs'` beside those of `m'`
instead, and nobody else notices. -/
def Machine.Turns (m : Machine) (vs : List (Option Value)) (m' : Machine)
    (vs' : List (Option Value)) : Prop :=
  m.heap.Turns (m.stack.slots.toList ++ vs) m'.heap (m'.stack.slots.toList ++ vs')

namespace Machine.Turns

variable {m m' m'' : Machine} {vs vs' vs'' ws : List (Option Value)}

theorem refl (m : Machine) (vs : List (Option Value)) : m.Turns vs m vs := Heap.Turns.refl _ _

theorem trans (t : m.Turns vs m' vs') (t' : m'.Turns vs' m'' vs'') : m.Turns vs m'' vs'' :=
  Heap.Turns.trans t t'

theorem of_perm (hp : vs.Perm ws) : m.Turns vs m ws := Heap.Turns.of_perm (hp.append_left _)

theorem frame (t : m.Turns vs m' vs') (ws : List (Option Value)) : m.Turns (vs ++ ws) m' (vs' ++ ws) := by
  have := Heap.Turns.frame t ws
  rwa [List.append_assoc, List.append_assoc] at this

theorem frame_left (ws : List (Option Value)) (t : m.Turns vs m' vs') :
    m.Turns (ws ++ vs) m' (ws ++ vs') :=
  (of_perm List.perm_append_comm).trans ((t.frame ws).trans (of_perm List.perm_append_comm))

/-- A step on the heap alone. -/
theorem of_heap (hstack : m'.stack = m.stack) (t : m.heap.Turns vs m'.heap vs') : m.Turns vs m' vs' := by
  unfold Machine.Turns
  rw [hstack]
  exact t.frame_left _

theorem release (v : Option Value) (m : Machine) : m.Turns [v] (m.release v) [] :=
  of_heap rfl (Heap.turns_release m.heap v)

/-! ## The stack -/

theorem setSlot (k : Nat) (v : Option Value) (m : Machine) : m.Turns [v] (m.setSlot k v) [] := by
  obtain ⟨heap, stack, sink, log⟩ := m
  unfold Machine.Turns Machine.setSlot CallStack.set
  dsimp only
  cases hold : stack.slots[stack.base + k]? with
  | none => exact (Heap.turns_release heap v).frame_left _
  | some old =>
    have hat : stack.slots.toList[stack.base + k]? = some old := by simpa using hold
    have hp : (stack.slots.toList ++ [v]).Perm ([old] ++ (stack.slots.toList.set (stack.base + k) v)) :=
      List.perm_append_comm.trans (Heap.perm_set hat v).symm
    refine (Heap.Turns.of_perm hp).trans ?_
    simpa using (Heap.turns_release heap old).frame (stack.slots.toList.set (stack.base + k) v)

theorem push (v : Option Value) (m : Machine) : m.Turns [v] (m.push v) [] := by
  unfold Machine.Turns
  refine Heap.Turns.of_perm ?_
  simp [Machine.push, CallStack.push]

theorem truncate (mark : Nat) (m : Machine) : m.Turns [] (m.truncate mark) [] := by
  obtain ⟨heap, stack, sink, log⟩ := m
  have hsplit : stack.slots.toList =
      (stack.truncate mark).2.slots.toList ++ (stack.truncate mark).1 := by
    simp [CallStack.truncate, List.take_of_length_le]
  have ht := (Heap.turns_releaseAll heap (stack.truncate mark).1).frame_left
    (stack.truncate mark).2.slots.toList
  rw [← hsplit] at ht
  simpa [Machine.Turns, Machine.truncate] using ht

theorem leave (frame : Frame) (m : Machine) : m.Turns [] (m.leave frame) [] :=
  truncate frame.base m

theorem enter (f : Function) (count : Nat) (m : Machine) :
    m.Turns [] (Code.frameOf f count m).2 [] := by
  -- the arguments stay, what is too much is dropped, and absent values fill the frame
  refine (truncate (m.stack.size - count + f.locals) m).trans ?_
  have hfill (h : Heap) (vs : List (Option Value)) (k : Nat) :
      h.Turns vs h (vs ++ List.replicate k none) := by
    induction k with
    | zero => simpa using Heap.Turns.refl h vs
    | succ k ih =>
      have hp : (vs ++ none :: List.replicate k none).Perm (none :: (vs ++ List.replicate k none)) :=
        List.perm_middle
      exact ih.trans ((Heap.turns_scalar (v := none) rfl).trans (.of_perm hp.symm))
  simpa [Machine.Turns, Machine.truncate, Code.frameOf, Machine.enter, Machine.note,
    CallStack.enter] using hfill _ _ _

end Machine.Turns

/-! ## Computations that keep accounts -/

namespace Eval

/-- Takes `takes` over and gives the owner of its result `gives`, while `held` is
held all along; if it stops, everything taken over is given back. -/
def Accounts (held takes : List (Option Value)) (act : Eval α) (gives : α → List (Option Value)) :
    Prop :=
  ∀ m : Machine, match act m with
    | .ok a m' => m.Turns (takes ++ held) m' (gives a ++ held)
    | .error _ m' => m.Turns (takes ++ held) m' held

section
variable {α β : Type} {held kept takes takes' : List (Option Value)} {gives : α → List (Option Value)}

/-- A step that does not stop. -/
theorem Accounts.of_turns {act : Eval α} (h : ∀ m, ∃ a m', act m = .ok a m' ∧ m.Turns takes m' (gives a)) :
    act.Accounts held takes gives := by
  intro m
  obtain ⟨a, m', hm, ht⟩ := h m
  rw [hm]
  exact ht.frame held

theorem Accounts.pure {a : α} (hp : takes.Perm (gives a)) :
    (Pure.pure a : Eval α).Accounts held takes gives :=
  .of_turns fun m => ⟨a, m, rfl, .of_perm hp⟩

theorem Accounts.fail (e : RuntimeError) : (Eval.fail e : Eval α).Accounts held [] gives :=
  fun m => .refl m held

theorem Accounts.exhausted : (Eval.exhausted : Eval α).Accounts held [] gives :=
  fun m => .refl m held

theorem Accounts.perm {act : Eval α} (h : act.Accounts held takes gives) (hp : takes'.Perm takes) :
    act.Accounts held takes' gives := by
  intro m
  have h := h m
  have ht : m.Turns (takes' ++ held) m (takes ++ held) := .of_perm (hp.append_right held)
  cases hm : act m with
  | ok a m' => rw [hm] at h; exact ht.trans h
  | error e m' => rw [hm] at h; exact ht.trans h

/-- Whatever else is held stays as it is. -/
theorem Accounts.weaken {act : Eval α} (h : act.Accounts held takes gives)
    (kept : List (Option Value)) : act.Accounts (kept ++ held) takes gives := by
  intro m
  have hp (vs : List (Option Value)) : (vs ++ (kept ++ held)).Perm (vs ++ held ++ kept) := by
    rw [List.append_assoc]
    exact List.perm_append_comm.append_left vs
  have h := h m
  cases hm : act m with
  | ok a m' =>
    rw [hm] at h
    exact (Machine.Turns.of_perm (hp _)).trans ((h.frame kept).trans (.of_perm (hp _).symm))
  | error e m' =>
    rw [hm] at h
    exact (Machine.Turns.of_perm (hp _)).trans ((h.frame kept).trans (.of_perm List.perm_append_comm))

theorem Accounts.bind {x : Eval α} {f : α → Eval β} {gives' : β → List (Option Value)}
    (hx : x.Accounts held takes gives) (hf : ∀ a, (f a).Accounts held (gives a) gives') :
    (x >>= f).Accounts held takes gives' := by
  intro m
  have h := hx m
  change match EStateM.bind x f m with
    | .ok a m' => m.Turns (takes ++ held) m' (gives' a ++ held)
    | .error _ m' => m.Turns (takes ++ held) m' held
  unfold EStateM.bind
  cases hm : x m with
  | error e m' => rw [hm] at h; exact h
  | ok a m' =>
    rw [hm] at h
    have h' := hf a m'
    dsimp only
    cases hm' : f a m' with
    | ok b m'' => rw [hm'] at h'; exact h.trans h'
    | error e m'' => rw [hm'] at h'; exact h.trans h'

theorem Accounts.checked_bind {r : Except RuntimeError α} {f : α → Eval β}
    {gives' : β → List (Option Value)} (h : ∀ a, r = .ok a → (f a).Accounts held [] gives') :
    (Eval.checked r >>= f).Accounts held [] gives' := by
  cases r with
  | ok a => exact h a rfl
  | error e => exact .fail e

theorem Accounts.orUndo {act : Eval α} {undo : Machine → Machine}
    (h : act.Accounts (kept ++ held) takes gives) (hu : ∀ m : Machine, m.Turns kept (undo m) []) :
    (act.orUndo undo).Accounts held (takes ++ kept) fun a => gives a ++ kept := by
  intro m
  have h := h m
  unfold Eval.orUndo
  simp only [List.append_assoc]
  cases hm : act m with
  | ok a m' => rw [hm] at h; exact h
  | error e m' => rw [hm] at h; exact h.trans ((hu m').frame held)

theorem Accounts.thenClose {act : Eval α} {close : Machine → Machine}
    (h : act.Accounts (kept ++ held) takes gives) (hc : ∀ m : Machine, m.Turns kept (close m) []) :
    (act.thenClose close).Accounts held (takes ++ kept) gives := by
  intro m
  have h := h m
  unfold Eval.thenClose
  simp only [List.append_assoc]
  cases hm : act m with
  | error e m' => rw [hm] at h; exact h.trans ((hc m').frame held)
  | ok a m' =>
    rw [hm] at h
    exact h.trans (((hc m').frame held).frame_left (gives a))

/-! ## Steps -/

theorem Accounts.make {f : Heap → α × Heap} (h : ∀ h : Heap, h.Turns takes (f h).2 (gives (f h).1)) :
    (Eval.make f).Accounts held takes gives :=
  .of_turns fun m => ⟨_, _, rfl, .of_heap rfl (h m.heap)⟩

theorem Accounts.makeValue {f : Heap → Value × Heap}
    (h : ∀ h : Heap, h.Turns takes (f h).2 [some (f h).1]) :
    (Eval.make f >>= fun v => Pure.pure (some v)).Accounts held takes fun v => [v] := by
  have hmake : (Eval.make f).Accounts held takes fun v => [some v] := .make h
  exact hmake.bind fun v => .pure (.refl _)

theorem Accounts.onHeap {f : Heap → Heap} (h : ∀ h : Heap, h.Turns takes (f h) takes') :
    (Eval.onHeap f).Accounts held takes fun _ => takes' :=
  .of_turns fun m => ⟨(), _, rfl, .of_heap rfl (h m.heap)⟩

theorem Accounts.inspect (f : Heap → α) : (Eval.inspect f).Accounts held takes fun _ => takes :=
  .of_turns fun m => ⟨_, m, rfl, .refl m takes⟩

theorem Accounts.inspectStack (f : CallStack → α) :
    (Eval.inspectStack f).Accounts held takes fun _ => takes :=
  .of_turns fun m => ⟨_, m, rfl, .refl m takes⟩

/-- A value let go before something else. -/
theorem Accounts.release_bind {v : Option Value} {f : Unit → Eval α}
    (h : (f ()).Accounts held takes gives) :
    (Eval.release v >>= f).Accounts held (v :: takes) gives := by
  have hrelease : (Eval.release v).Accounts held (v :: takes) fun _ => takes :=
    .of_turns fun m => ⟨(), _, rfl, (Machine.Turns.release v m).frame takes⟩
  exact hrelease.bind fun _ => h

theorem Accounts.getSlot (k : Nat) : (Eval.getSlot k).Accounts held [] fun v => [v] := by
  refine .of_turns fun m => ⟨_, _, rfl, ?_⟩
  unfold Machine.Turns
  change m.heap.Turns _ (m.heap.retain (m.stack.get k)) (m.stack.slots.toList ++ [m.stack.get k])
  have hget : m.stack.get k ∈ m.stack.slots.toList ++ [] ∨ m.stack.get k = none := by
    unfold CallStack.get
    cases hs : m.stack.slots[m.stack.base + k]? with
    | none => exact .inr rfl
    | some v =>
      refine .inl (List.mem_append_left _ (List.mem_of_getElem? (i := m.stack.base + k) ?_))
      simpa using hs
  have hmove (v : Option Value) : (v :: (m.stack.slots.toList ++ [])).Perm (m.stack.slots.toList ++ [v]) := by
    rw [List.append_nil]
    exact (List.perm_append_singleton v _).symm
  rcases hget with hmem | hnone
  · exact (Heap.turns_retain hmem).trans (.of_perm (hmove _))
  · rw [hnone]
    exact (Heap.turns_scalar (v := none) rfl).trans (.of_perm (hmove none))

theorem Accounts.push (v : Option Value) : (Eval.push v).Accounts held [v] fun _ => [] :=
  .of_turns fun m => ⟨(), _, rfl, .push v m⟩

theorem Accounts.enterFrame (f : Function) (count : Nat) :
    (Eval.enterFrame f count).Accounts held [] fun _ => [] :=
  .of_turns fun m => ⟨_, _, rfl, .enter f count m⟩

theorem Accounts.operation (k : Keyword) (vs : List (Option Value)) :
    (operation k vs).Accounts held vs fun v => [v] := by
  rintro ⟨heap, stack, sink, log⟩
  have ht := Heap.turns_applyOperation heap k vs
  unfold Lisplet.operation
  dsimp only
  cases ha : applyOperation k vs heap with
  | mk result heap' =>
    rw [ha] at ht
    have hgone := ht.trans ((Heap.turns_releaseAll heap' vs).frame_left [result.getD none])
    cases result with
    | some v =>
      have hturns : Machine.Turns ⟨heap, stack, sink, log⟩ vs ⟨heap'.releaseAll vs, stack, sink, log⟩
        [v] := .of_heap rfl hgone
      exact hturns.frame held
    | none =>
      have hnone : (heap'.releaseAll vs).Turns [none] (heap'.releaseAll vs) [] := by
        intro n hn
        exact ⟨.of_objects rfl, by simp, hn.2.congr fun r => by simp⟩
      have hturns : Machine.Turns ⟨heap, stack, sink, log⟩ vs ⟨heap'.releaseAll vs, stack, sink, log⟩
        [] := .of_heap rfl (hgone.trans hnone)
      exact hturns.frame held

theorem Accounts.print (fuel : Nat) (v : Option Value) (span : Span) :
    (Eval.print fuel v span).Accounts held [] fun _ => [] := by
  intro m
  obtain ⟨stop, sink, hm, -⟩ := writes_print fuel v span m m rfl rfl
  rw [hm]
  cases stop <;> exact Machine.Turns.of_heap rfl (Heap.Turns.refl m.heap held)

end

end Eval

/-! ## One step down the tree -/

/-- The cell of a string literal, as a value; absent for all other leaves. -/
def Leaf.literal (l : Leaf) : Option Value :=
  match l.kind, l.cell with
  | .str text, some r => some (.str r text)
  | _, _ => none

def Leaf.LiteralIn (held : List (Option Value)) (l : Leaf) : Prop := l.literal ∈ held

def Flow.values : Flow → List (Option Value)
  | .normal => []
  | .returned v => [v]

structure Walk.Accounts (held : List (Option Value)) (w : Walk) : Prop where
  eval : ∀ {n : Node}, n.All (Leaf.LiteralIn held) → (w.eval n).Accounts held [] fun v => [v]
  block : ∀ {n : Node}, n.All (Leaf.LiteralIn held) → (w.block n).Accounts held [] Flow.values

open Node Eval

section
variable {held : List (Option Value)}

theorem evalLeaf_accounts {l : Leaf} (h : l.LiteralIn held) :
    (evalLeaf l).Accounts held [] fun v => [v] := by
  unfold evalLeaf
  split
  · rename_i text hkind
    split
    · rename_i r hcell
      have hmem : some (.str r text) ∈ held := by
        simpa [Leaf.LiteralIn, Leaf.literal, hkind, hcell] using h
      have hshare : (Eval.onHeap fun h => h.retainRef r).Accounts held []
          fun _ => [some (.str r text)] := by
        intro m
        have ht := Heap.turns_retain (h := m.heap) (v := some (.str r text))
          (List.mem_append_right m.stack.slots.toList hmem)
        exact ht.trans (.of_perm List.perm_middle.symm)
      exact hshare.bind fun _ => .pure (.refl _)
    · exact .makeValue fun h => Heap.turns_newStr h text
  · exact .of_turns fun m => ⟨_, m, rfl, .of_heap rfl (Heap.turns_scalar rfl)⟩
  · exact .of_turns fun m => ⟨_, m, rfl, .of_heap rfl (Heap.turns_scalar rfl)⟩
  · exact .of_turns fun m => ⟨_, m, rfl, .of_heap rfl (Heap.turns_scalar rfl)⟩
  · exact .of_turns fun m => ⟨_, m, rfl, .of_heap rfl (Heap.turns_scalar rfl)⟩
  · exact .fail _
  · split
    · exact .getSlot _
    · exact .fail _
    · exact .fail _

theorem whileLoop_accounts {test : Eval Bool} {body : Eval Flow}
    (ht : test.Accounts held [] fun _ => []) (hb : body.Accounts held [] Flow.values) (fuel : Nat) :
    (Code.whileLoop test body fuel).Accounts held [] Flow.values := by
  induction fuel with
  | zero => exact .exhausted
  | succ fuel ih =>
    rw [Code.whileLoop_succ]
    refine .bind ht ?_
    intro b
    cases b with
    | false => exact .pure (.refl _)
    | true =>
      refine .bind hb ?_
      intro flow
      cases flow with
      | normal => exact ih
      | returned v => exact .pure (.refl _)

/-- The list is held while the loop goes through it, so its elements are alive. -/
theorem forLoop_accounts {body : Eval Flow} (hb : body.Accounts held [] Flow.values) (slot : Nat)
    (r : Ref) (fuel i : Nat) :
    (Code.forLoop slot r body fuel i).Accounts (some (.list r) :: held) [] Flow.values := by
  induction fuel generalizing i with
  | zero => exact .exhausted
  | succ fuel ih =>
    intro m
    unfold Code.forLoop
    cases hi : (m.heap.itemsAt r)[i]? with
    | none => exact .refl m _
    | some v =>
      obtain ⟨o, ho, hv⟩ := Heap.mem_of_itemsAt hi
      have hshare : m.Turns (some (.list r) :: held) (m.onHeap fun h => h.retain v)
          (v :: some (.list r) :: held) := by
        have hmem : some (.list r) ∈ m.stack.slots.toList ++ some (.list r) :: held := by simp
        have hr : r ∈ Value.refs (some (.list r)) := by simp [Value.refs, Value.ref?]
        exact (Heap.turns_share hmem hr ho hv).trans (.of_perm List.perm_middle.symm)
      have hset := hshare.trans ((Machine.Turns.setSlot slot v _).frame (some (.list r) :: held))
      have hbody := hb.weaken [some (.list r)] ((m.onHeap fun h => h.retain v).setSlot slot v)
      dsimp only
      cases hrun : body ((m.onHeap fun h => h.retain v).setSlot slot v) with
      | error e m₁ => rw [hrun] at hbody; exact hset.trans hbody
      | ok flow m₁ =>
        rw [hrun] at hbody
        cases flow with
        | returned v => exact hset.trans hbody
        | normal =>
          have hrest := ih (i + 1) m₁
          dsimp only
          cases hgo : Code.forLoop slot r body fuel (i + 1) m₁ with
          | ok flow m₂ => rw [hgo] at hrest; exact (hset.trans hbody).trans hrest
          | error e m₂ => rw [hgo] at hrest; exact (hset.trans hbody).trans hrest

section
variable {w : Walk} (hw : w.Accounts held)
include hw

theorem evalAll_accounts : ∀ {ns : List Node}, AllIn (Leaf.LiteralIn held) ns →
    (w.evalAll ns).Accounts held [] fun vs => vs
  | [], _ => .pure (.refl _)
  | _ :: _, h => by
    refine .bind (hw.eval h.1) fun v => ?_
    refine .bind (((evalAll_accounts h.2).weaken [v]).orUndo (Machine.Turns.release v)) fun vs => ?_
    exact .pure (List.perm_append_singleton v vs)

theorem pushAll_accounts : ∀ {ns : List Node}, AllIn (Leaf.LiteralIn held) ns →
    (w.pushAll ns).Accounts held [] fun _ => []
  | [], _ => .pure (.refl _)
  | _ :: _, h => .bind (hw.eval h.1) fun v => .bind (.push v) fun _ => pushAll_accounts h.2

theorem sequence_accounts : ∀ {ns : List Node}, AllIn (Leaf.LiteralIn held) ns →
    (w.sequence ns).Accounts held [] Flow.values
  | [], _ => .pure (.refl _)
  | _ :: _, h => by
    refine .bind (hw.block h.1) ?_
    intro flow
    cases flow with
    | normal => exact sequence_accounts h.2
    | returned v => exact .pure (.refl _)

theorem addEntries_accounts (t : Table) (ns : List Node) (h : AllIn (Leaf.LiteralIn held) ns) :
    (w.addEntries t ns).Accounts held t.values Table.values := by
  fun_induction Walk.addEntries w t ns with
  | case1 t k e rest ih1 ih2 =>
    have htable (m : Machine) : m.Turns t.values (m.releaseTable t) [] :=
      .of_heap rfl (Heap.turns_releaseTable m.heap t)
    refine .bind (((hw.eval h.1).weaken t.values).orUndo htable) ?_
    intro key
    rcases key with _ | (_ | _ | _ | ⟨r, text⟩ | _ | _ | _)
    case some.str =>
      have hentry (m : Machine) : m.Turns (some (.str r text) :: t.values)
          ((m.release (some (.str r text))).releaseTable t) [] :=
        ((Machine.Turns.release _ m).frame t.values).trans (htable _)
      refine .bind (((hw.eval h.2.1).weaken (some (.str r text) :: t.values)).orUndo hentry) ?_
      intro v
      have hput : (Eval.make fun h => h.putEntry t ⟨r, text⟩ v).Accounts held
          (v :: some (.str r text) :: t.values) Table.values :=
        (Accounts.make fun h => Heap.turns_putEntry h t ⟨r, text⟩ v).perm (.swap _ _ _)
      exact hput.bind fun t => ih1 t h.2.2
    all_goals exact .release_bind (ih2 h.2.2)
  | case2 ns t hns =>
    rcases ns with _ | ⟨k, _ | ⟨e, rest⟩⟩
    · exact .pure (.refl _)
    · exact .pure (.refl _)
    · exact (hns k e rest rfl).elim

theorem test_accounts {n : Node} (h : n.All (Leaf.LiteralIn held)) :
    (w.test n).Accounts held [] fun _ => [] :=
  .bind (hw.eval h) fun _ => .bind (.inspect _) fun _ => .release_bind (.pure (.refl _))

theorem assign_accounts (target : Node) {e : Node} (h : e.All (Leaf.LiteralIn held)) :
    (w.assign target e).Accounts held [] fun v => [v] := by
  refine .checked_bind fun k _ => .bind (hw.eval h) fun v => ?_
  have hshare : (Eval.onHeap fun h => h.retain v).Accounts held [v] fun _ => [v, v] :=
    .onHeap fun h => Heap.turns_retain (by simp)
  refine hshare.bind fun _ => ?_
  have hset : (Eval.setSlot k v).Accounts held [v, v] fun _ => [v] :=
    .of_turns fun m => ⟨(), _, rfl, (Machine.Turns.setSlot k v m).frame [v]⟩
  exact hset.bind fun _ => .pure (.refl _)

/-! ## Calls -/

theorem enterAndRun_accounts (c : Code) (hc : c.program.root.All (Leaf.LiteralIn held)) (f : Function)
    (index : Nat) {args : List Node} (h : AllIn (Leaf.LiteralIn held) args) (mark : Nat) :
    (c.enterAndRun w f index args mark).Accounts held [] fun v => [v] := by
  have hpush := ((pushAll_accounts hw h).weaken []).orUndo (Machine.Turns.truncate mark)
  refine hpush.bind fun _ => .bind (.enterFrame f args.length) fun frame => ?_
  have hbody := (sequence_accounts hw (body_all hc index)).weaken []
  refine (hbody.thenClose (Machine.Turns.leave frame)).bind ?_
  intro flow
  cases flow with
  | normal => exact .of_turns fun m => ⟨none, m, rfl, .of_heap rfl (Heap.turns_scalar rfl)⟩
  | returned v => exact .pure (.refl _)

theorem call_accounts (c : Code) (hc : c.program.root.All (Leaf.LiteralIn held)) (index : Nat)
    {args : List Node} (span : Span) (h : AllIn (Leaf.LiteralIn held) args) :
    (c.call w index args span).Accounts held [] fun v => [v] := by
  rw [c.call_eq]
  cases c.program.function? index with
  | none => exact .fail _
  | some f =>
    refine .bind (.inspectStack _) ?_
    intro top
    by_cases hfull : c.isFull top.1 = true
    · rw [if_pos hfull]
      exact .fail _
    rw [if_neg hfull]
    by_cases hcount : args.length ≠ f.arity
    · rw [if_pos hcount]
      exact .fail _
    · rw [if_neg hcount]
      exact enterAndRun_accounts hw c hc f index h top.2

/-! ## Expressions and statements -/

theorem evalKeyword_accounts (k : Keyword) {args : List Node} (span : Span)
    (h : AllIn (Leaf.LiteralIn held) args) :
    (Code.evalKeyword w k args span).Accounts held [] fun v => [v] := by
  refine .checked_bind ?_
  intro _ _
  split
  · refine .bind (hw.eval h.1) fun v => .bind (.inspect _) fun b => ?_
    cases b with
    | true => exact .release_bind (hw.eval h.2.1)
    | false => exact .pure (.refl _)
  · refine .bind (hw.eval h.1) fun v => .bind (.inspect _) fun b => ?_
    cases b with
    | true => exact .pure (.refl _)
    | false => exact .release_bind (hw.eval h.2.1)
  · refine .bind (test_accounts hw h.1) fun b => ?_
    cases b with
    | true => exact hw.eval h.2.1
    | false => exact hw.eval h.2.2.1
  · refine .bind (evalAll_accounts hw h) fun vs => ?_
    exact .makeValue fun h => Heap.turns_newList h vs.toArray
  · refine .bind (addEntries_accounts hw {} _ h) fun t => ?_
    exact .makeValue fun h => Heap.turns_newTable h t
  · exact assign_accounts hw _ h.2.1
  any_goals exact .fail _
  exact .bind (evalAll_accounts hw h) fun vs => .operation _ vs

theorem evalNode_accounts (c : Code) (hc : c.program.root.All (Leaf.LiteralIn held)) {n : Node}
    (h : n.All (Leaf.LiteralIn held)) : (c.evalNode w n).Accounts held [] fun v => [v] := by
  unfold Code.evalNode
  split
  · exact evalLeaf_accounts h
  · exact .fail _
  · exact .fail _
  · split
    · exact evalKeyword_accounts hw _ _ h.2
    · exact .checked_bind fun index _ => call_accounts hw c hc index _ h.2
    · exact .fail _

theorem runKeyword_accounts (fuel : Nat) (k : Keyword) {args : List Node} (span : Span)
    (h : AllIn (Leaf.LiteralIn held) args) :
    (Code.runKeyword w fuel k args span).Accounts held [] Flow.values := by
  have hstore (k : Keyword) : (do
      let vs ← w.evalAll args
      Eval.onHeap (store k vs)
      Pure.pure Flow.normal : Eval Flow).Accounts held [] Flow.values :=
    .bind (evalAll_accounts hw h) fun vs =>
      .bind (.onHeap fun h => Heap.turns_store h k vs) fun _ => .pure (.refl _)
  refine .checked_bind ?_
  intro _ _
  split
  · exact .bind (assign_accounts hw _ h.2.1) fun _ => .release_bind (.pure (.refl _))
  · refine .bind (hw.eval h.1) fun v => ?_
    have hprint : (Eval.print fuel v span).Accounts ([v] ++ held) [] fun _ => [] := .print fuel v span
    exact (hprint.thenClose (Machine.Turns.release v)).bind fun _ => .pure (.refl _)
  · exact hstore _
  · exact hstore _
  · exact hstore _
  · split
    · exact .fail _
    · rename_i cond a b hparts
      obtain ⟨hcond, ha, hb⟩ := mem_of_ifParts hparts
      rw [allIn_iff] at h
      refine .bind (test_accounts hw (h cond hcond)) ?_
      intro t
      cases t with
      | true => exact hw.block (h a ha)
      | false =>
        cases b with
        | none => exact .pure (.refl _)
        | some b => exact hw.block (h b (hb b rfl))
  · exact whileLoop_accounts (test_accounts hw h.1) (sequence_accounts hw h.2) fuel
  · refine .checked_bind fun slot _ => .bind (hw.eval h.2.1) ?_
    intro v
    split
    · rename_i r
      have hloop : (Code.forLoop slot r _ fuel 0).Accounts ([some (.list r)] ++ held) [] Flow.values :=
        forLoop_accounts (sequence_accounts hw h.2.2) slot r fuel 0
      exact hloop.thenClose (Machine.Turns.release _)
    · exact .release_bind (.pure (.refl _))
  · exact .fail _
  · exact .fail _
  · exact .of_turns fun m => ⟨_, m, rfl, .of_heap rfl (Heap.turns_scalar rfl)⟩
  · exact .bind (hw.eval h.1) fun _ => .pure (.refl _)
  · exact .fail _

theorem runBlock_accounts (c : Code) (hc : c.program.root.All (Leaf.LiteralIn held)) (fuel : Nat)
    {n : Node} (h : n.All (Leaf.LiteralIn held)) :
    (c.runBlock w fuel n).Accounts held [] Flow.values := by
  unfold Code.runBlock
  split
  · exact .fail _
  · exact sequence_accounts hw h
  · unfold Code.runForm
    split
    · exact .pure (.refl _)
    · exact .fail _
    · split
      · exact runKeyword_accounts hw fuel _ _ h.2
      · exact .checked_bind fun index _ => .bind (call_accounts hw c hc index _ h.2) fun _ =>
          .release_bind (.pure (.refl _))
      · exact .fail _

end

end

end Lisplet
