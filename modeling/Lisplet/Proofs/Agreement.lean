import Lisplet.Proofs.Contents
import Lisplet.Proofs.Linking
import Lisplet.Proofs.StackDiscipline

/-!
# Evaluation in step

The machine with its slots and the state with its names, side by side. `Models`
relates the two in between steps, `Agree` relates computations that end alike when
they start alike, and owners are counted on one side only. What the smaller steps
do to names they do to the slots of these names.
-/

namespace Lisplet

/-! ## States -/

structure SameWorld (m : Machine) (s : Named.State) : Prop where
  objects : m.heap.objects = s.heap.objects
  sink : m.sink = s.sink

/-- The innermost frame of `m` holds the variables of `s`, numbered by `locals`. -/
structure Models (locals : Names) (m : Machine) (s : Named.State) : Prop extends SameWorld m s where
  depth : s.depth = m.stack.depth
  room : m.stack.base + locals.size ≤ m.stack.size
  vars : ∀ x k, locals.find? x = some k → m.stack.slots[m.stack.base + k]? = some (s.vars x)

/-- Two results that nobody can tell apart from outside; states in between are
related by `rel`. -/
def SameResult (rel : Machine → Named.State → Prop) :
    EStateM.Result Stop Machine α → EStateM.Result Stop Named.State α → Prop
  | .ok a m, .ok b s => a = b ∧ rel m s
  | .error e m, .error e' s => e = e' ∧ SameWorld m s
  | _, _ => False

theorem SameResult.inv {rel : Machine → Named.State → Prop} {r : EStateM.Result Stop Machine α}
    {r' : EStateM.Result Stop Named.State α} (h : SameResult rel r r') :
    (∃ a m s, r = .ok a m ∧ r' = .ok a s ∧ rel m s) ∨
    ∃ e m s, r = .error e m ∧ r' = .error e s ∧ SameWorld m s := by
  cases r with
  | ok a m =>
    cases r' with
    | ok b s =>
      obtain ⟨rfl, hrel⟩ := h
      exact .inl ⟨a, m, s, rfl, rfl, hrel⟩
    | error _ _ => exact h.elim
  | error e m =>
    cases r' with
    | ok _ _ => exact h.elim
    | error e' s =>
      obtain ⟨rfl, hworld⟩ := h
      exact .inr ⟨e, m, s, rfl, rfl, hworld⟩

def Agree (locals : Names) (act : Eval α) (ref : Named.Eval α) : Prop :=
  ∀ (m : Machine) (s : Named.State), Models locals m s →
    SameResult (Models locals) (act m) (ref s)

section
variable {locals : Names} {α β : Type}

theorem Agree.pure (a : α) : Agree locals (Pure.pure a) (Pure.pure a) :=
  fun _ _ h => ⟨rfl, h⟩

theorem Agree.fail (e : RuntimeError) : Agree (α := α) locals (Eval.fail e) (Named.fail e) :=
  fun _ _ h => ⟨rfl, h.toSameWorld⟩

theorem Agree.exhausted : Agree (α := α) locals Eval.exhausted Named.exhausted :=
  fun _ _ h => ⟨rfl, h.toSameWorld⟩

theorem Agree.bind {x : Eval α} {y : Named.Eval α} {f : α → Eval β} {g : α → Named.Eval β}
    (hx : Agree locals x y) (hf : ∀ a, Agree locals (f a) (g a)) :
    Agree locals (x >>= f) (y >>= g) := by
  intro m s h
  show SameResult _ (EStateM.bind x f m) (EStateM.bind y g s)
  unfold EStateM.bind
  obtain ⟨a, m', s', hm, hs, h'⟩ | ⟨e, m', s', hm, hs, hworld⟩ := (hx m s h).inv
  · rw [hm, hs]
    exact hf a m' s' h'
  · rw [hm, hs]
    exact ⟨rfl, hworld⟩

theorem Agree.checked_bind {r : Except RuntimeError α} {f : α → Eval β} {g : α → Named.Eval β}
    (hf : ∀ a, r = .ok a → Agree locals (f a) (g a)) :
    Agree locals (Eval.checked r >>= f) (Named.checked r >>= g) := by
  cases r with
  | ok a => exact hf a rfl
  | error e => exact fun _ _ h => ⟨rfl, h.toSameWorld⟩

/-! ## Counting owners -/

structure Machine.Recount (m m' : Machine) : Prop where
  objects : m'.heap.objects = m.heap.objects
  stack : m'.stack = m.stack
  sink : m'.sink = m.sink

theorem recount_release (v : Option Value) (m : Machine) : m.Recount (m.release v) :=
  ⟨Heap.objects_release m.heap v, rfl, rfl⟩

theorem recount_retain (v : Option Value) (m : Machine) :
    m.Recount (m.onHeap fun h => h.retain v) :=
  ⟨Heap.objects_retain m.heap v, rfl, rfl⟩

theorem recount_putEntry (t : Table) (key : Key) (v : Option Value) (m : Machine) :
    ∃ m', Eval.make (fun h => h.putEntry t key v) m = .ok (t.set key v) m' ∧ m.Recount m' := by
  obtain ⟨heap, stack, sink, log⟩ := m
  refine ⟨⟨(heap.putEntry t key v).2, stack, sink, log⟩, ?_, Heap.objects_putEntry heap t key v, rfl, rfl⟩
  rw [← Heap.putEntry_fst heap t key v]
  rfl

theorem Models.recount {m m' : Machine} {s : Named.State} (h : Models locals m s)
    (hr : m.Recount m') : Models locals m' s := by
  obtain ⟨⟨hobjects, hsink⟩, hdepth, hroom, hvars⟩ := h
  rw [← hr.objects] at hobjects
  rw [← hr.sink] at hsink
  rw [← hr.stack] at hdepth hroom hvars
  exact ⟨⟨hobjects, hsink⟩, hdepth, hroom, hvars⟩

theorem SameWorld.recount {m m' : Machine} {s : Named.State} (h : SameWorld m s)
    (hr : m.Recount m') : SameWorld m' s :=
  ⟨hr.objects.trans h.objects, hr.sink.trans h.sink⟩

/-- A step that only counts owners has no counterpart. -/
theorem Agree.recount_bind {step : Eval α} {f : α → Eval β} {ref : Named.Eval β} {a : α}
    (hstep : ∀ m : Machine, ∃ m', step m = .ok a m' ∧ m.Recount m') (hf : Agree locals (f a) ref) :
    Agree locals (step >>= f) ref := by
  intro m s h
  obtain ⟨m', hm, hr⟩ := hstep m
  change SameResult _ (EStateM.bind step f m) (ref s)
  unfold EStateM.bind
  rw [hm]
  exact hf m' s (h.recount hr)

theorem Agree.release_bind {v : Option Value} {f : Unit → Eval β} {ref : Named.Eval β}
    (hf : Agree locals (f ()) ref) : Agree locals (Eval.release v >>= f) ref :=
  .recount_bind (fun m => ⟨_, rfl, recount_release v m⟩) hf

theorem Agree.retain_bind {v : Option Value} {f : Unit → Eval β} {ref : Named.Eval β}
    (hf : Agree locals (f ()) ref) :
    Agree locals (Eval.onHeap (fun h => h.retain v) >>= f) ref :=
  .recount_bind (fun m => ⟨_, rfl, recount_retain v m⟩) hf

theorem Agree.orUndo {act : Eval α} {ref : Named.Eval α} {undo : Machine → Machine}
    (h : Agree locals act ref) (hu : ∀ m : Machine, m.Recount (undo m)) :
    Agree locals (act.orUndo undo) ref := by
  intro m s hms
  unfold Eval.orUndo
  obtain ⟨a, m', s', hm, hs, hms'⟩ | ⟨e, m', s', hm, hs, hworld⟩ := (h m s hms).inv
  · rw [hm, hs]
    exact ⟨rfl, hms'⟩
  · rw [hm, hs]
    exact ⟨rfl, hworld.recount (hu m')⟩

theorem Agree.thenClose {act : Eval α} {ref : Named.Eval α} {close : Machine → Machine}
    (h : Agree locals act ref) (hc : ∀ m : Machine, m.Recount (close m)) :
    Agree locals (act.thenClose close) ref := by
  intro m s hms
  unfold Eval.thenClose
  obtain ⟨a, m', s', hm, hs, hms'⟩ | ⟨e, m', s', hm, hs, hworld⟩ := (h m s hms).inv
  · rw [hm, hs]
    exact ⟨rfl, hms'.recount (hc m')⟩
  · rw [hm, hs]
    exact ⟨rfl, hworld.recount (hc m')⟩

/-! ## Heap and output -/

theorem Agree.make {f g : Heap → α × Heap}
    (h : ∀ a b : Heap, a.objects = b.objects → SameAnswer (f a) (g b)) :
    Agree locals (Eval.make f) (Named.make g) := by
  rintro ⟨heap, stack, sink, log⟩ s ⟨⟨hobjects, hsink⟩, hdepth, hroom, hvars⟩
  obtain ⟨ha, ho⟩ := h heap s.heap hobjects
  exact ⟨ha, ⟨ho, hsink⟩, hdepth, hroom, hvars⟩

theorem Agree.change {f : Heap → Heap}
    (h : ∀ a b : Heap, a.objects = b.objects → (f a).objects = (f b).objects) :
    Agree locals (Eval.onHeap f) (Named.make fun h => ((), f h)) := by
  rintro ⟨heap, stack, sink, log⟩ s ⟨⟨hobjects, hsink⟩, hdepth, hroom, hvars⟩
  exact ⟨rfl, ⟨h heap s.heap hobjects, hsink⟩, hdepth, hroom, hvars⟩

theorem Agree.inspect {f : Heap → α} (h : ∀ a b : Heap, a.objects = b.objects → f a = f b) :
    Agree locals (Eval.inspect f) (Named.inspect f) :=
  fun m s hms => ⟨h m.heap s.heap hms.objects, hms⟩

theorem Agree.truthy (v : Option Value) :
    Agree locals (Eval.inspect fun h => h.truthy v) (Named.inspect fun h => h.truthy v) :=
  .inspect fun _ _ e => Heap.truthy_congr e v

theorem Agree.operation (k : Keyword) (vs : List (Option Value)) :
    Agree locals (operation k vs) (Named.operation k vs) := by
  rintro ⟨heap, stack, sink, log⟩ s ⟨⟨hobjects, hsink⟩, hdepth, hroom, hvars⟩
  obtain ⟨ha, ho⟩ := applyOperation_congr hobjects k vs
  unfold Lisplet.operation Named.operation
  dsimp only at ha ho ⊢
  cases h : applyOperation k vs heap with
  | mk result heap' =>
    cases h' : applyOperation k vs s.heap with
    | mk result' heap'' =>
      rw [h, h'] at ha ho
      dsimp only at ha ho
      subst ha
      cases result with
      | none => exact ⟨rfl, by simpa using ho, hsink⟩
      | some v => exact ⟨rfl, ⟨by simpa using ho, hsink⟩, hdepth, hroom, hvars⟩

theorem Agree.print (fuel : Nat) (v : Option Value) (span : Span) :
    Agree locals (Eval.print fuel v span) (Named.print fuel v span) := by
  intro m s h
  obtain ⟨stop, sink, hm, hs⟩ := Eval.writes_print fuel v span m
    { heap := s.heap, sink := s.sink } h.objects h.sink
  unfold Named.print
  rw [hm, hs]
  obtain ⟨⟨hobjects, hsink⟩, hdepth, hroom, hvars⟩ := h
  cases stop with
  | none => exact ⟨rfl, ⟨hobjects, rfl⟩, hdepth, hroom, hvars⟩
  | some e => exact ⟨rfl, hobjects, rfl⟩

/-! ## Variables -/

theorem Models.set {m : Machine} {s : Named.State} {x : String} {k : Nat} (h : Models locals m s)
    (hx : locals.find? x = some k) (v : Option Value) :
    Models locals (m.setSlot k v) { s with vars := fun y => if y = x then v else s.vars y } := by
  obtain ⟨heap, stack, sink, log⟩ := m
  obtain ⟨⟨hobjects, hsink⟩, hdepth, hroom, hvars⟩ := h
  have hold := hvars x k hx
  have hlt : stack.base + k < stack.slots.size := (Array.getElem?_eq_some_iff.mp hold).1
  have hset : stack.set k v = (s.vars x, { stack with
      slots := stack.slots.setIfInBounds (stack.base + k) v }) := by
    unfold CallStack.set
    dsimp only at hold
    rw [hold]
  simp only [Machine.setSlot, hset]
  refine ⟨⟨by simpa using hobjects, hsink⟩, hdepth, ?_, ?_⟩
  · simpa [CallStack.size] using hroom
  · intro y j hy
    dsimp only
    -- two names never share a slot, so every other variable keeps its value
    by_cases hyx : y = x
    · subst hyx
      rw [hx] at hy; cases hy
      rw [if_pos rfl, Array.getElem?_setIfInBounds_self_of_lt hlt]
    · have hne : stack.base + k ≠ stack.base + j := by
        intro heq
        obtain rfl : k = j := by omega
        exact hyx (Names.find?_injective hy hx)
      rw [if_neg hyx, Array.getElem?_setIfInBounds_ne hne]
      exact hvars y j hy

theorem Agree.setSlot {x : String} {k : Nat} (hx : locals.find? x = some k) (v : Option Value) :
    Agree locals (Eval.setSlot k v) (Named.setVar x v) :=
  fun _ _ h => ⟨rfl, h.set hx v⟩

theorem Agree.getSlot {x : String} {k : Nat} (hx : locals.find? x = some k) :
    Agree locals (Eval.getSlot k) (fun s => .ok (s.vars x) s) := by
  intro m s h
  refine ⟨?_, h.recount (recount_retain _ m)⟩
  rw [CallStack.get, h.vars x k hx]
  rfl

end

/-! ## Leaves and shapes -/

open Node

section
variable {functions : Names} {n : Named.Code} {c : Code} (hl : Linked functions n c)
  {locals : Names}
include hl

/-- A target is a variable in both or in neither. -/
theorem slotOf_bound {t t' : Node} (h : Related (Leaf.Bound functions locals) t t') :
    (∃ x k, n.variableOf t = .ok x ∧ slotOf t' = .ok k ∧ locals.find? x = some k) ∨
    ∃ e, n.variableOf t = .error e ∧ slotOf t' = .error e := by
  cases t with
  | branch cs span tag =>
    cases t' with
    | leaf _ => exact h.elim
    | branch cs' span' tag' =>
      obtain ⟨rfl, -⟩ := h
      exact .inr ⟨.expectedVariable span, rfl, rfl⟩
  | leaf l =>
    obtain ⟨l', rfl, hb⟩ := related_leaf_inv h
    cases hx : l.name? with
    | none =>
      refine .inr ⟨.expectedVariable l.span, ?_, ?_⟩
      · simp only [Named.Code.variableOf, Named.nameOf?, hx, Node.span]
      · simp only [slotOf, hb.unnamed hx, hb.alike.span_eq]
    | some x =>
      cases hf : functions.find? x with
      | some i =>
        obtain ⟨f, g, L, -, -, hg, -⟩ := hl.defined x i hf
        refine .inr ⟨.expectedVariable l.span, ?_, ?_⟩
        · simp only [Named.Code.variableOf, Named.nameOf?, hx, hg, Node.span, Option.isSome_some,
            if_true]
        · simp only [slotOf, hb.function x i hx hf, hb.alike.span_eq]
      | none =>
        obtain ⟨k, hk, hslot⟩ := hb.slot x hx hf
        refine .inl ⟨x, k, ?_, ?_, hk⟩
        · simp only [Named.Code.variableOf, Named.nameOf?, hx, hl.undefined x hf,
            Option.isSome_none, Bool.false_eq_true, if_false]
        · simp only [slotOf, hslot]

theorem Agree.variable_bind {α : Type} {t t' : Node} {f : Nat → Eval α}
    {g : String → Named.Eval α} (h : Related (Leaf.Bound functions locals) t t')
    (hf : ∀ x k, locals.find? x = some k → Agree locals (f k) (g x)) :
    Agree locals (Eval.checked (slotOf t') >>= f) (Named.checked (n.variableOf t) >>= g) := by
  obtain ⟨x, k, hx, hk, hfind⟩ | ⟨e, hx, hk⟩ := slotOf_bound hl h
  · rw [hx, hk]
    exact hf x k hfind
  · rw [hx, hk]
    exact fun _ _ h => ⟨rfl, h.toSameWorld⟩

theorem Agree.evalLeaf {l l' : Leaf} (h : l.Bound functions locals l') :
    Agree locals (evalLeaf l') (n.evalLeaf l) := by
  unfold Lisplet.evalLeaf Named.Code.evalLeaf
  rw [h.kind, h.cell, h.alike.span_eq]
  cases hk : l.kind with
  | str text =>
    cases l.cell with
    | some r => exact .recount_bind (fun m => ⟨_, rfl, rfl, rfl, rfl⟩) (.pure _)
    | none => exact .bind (.make fun _ _ e => newStr_congr e text) fun _ => .pure _
  | bool b => exact .pure _
  | null => exact .pure _
  | int i => exact .pure _
  | float x => exact .pure _
  | keyword k => exact .fail _
  | identifier =>
    have hx : l.name? = some l.text := by simp only [Leaf.name?, hk]
    cases hf : functions.find? l.text with
    | some i =>
      obtain ⟨f, g, L, -, -, hg, -⟩ := hl.defined l.text i hf
      simp only [h.function l.text i hx hf, hg, h.alike.text_eq, Option.isSome_some]
      exact .fail _
    | none =>
      obtain ⟨k, hk, hslot⟩ := h.slot l.text hx hf
      simp only [hslot, hl.undefined l.text hf, Option.isSome_none, Bool.false_eq_true]
      exact .getSlot hk

end

/-! ## One step down the tree -/

structure Walk.Follows (functions : Names) (w : Walk) (v : Named.Walk) : Prop where
  keeps : w.Keeps
  eval : ∀ {locals : Names} {a a' : Node}, Related (Leaf.Bound functions locals) a a' →
    Agree locals (w.eval a') (v.eval a)
  block : ∀ {locals : Names} {a a' : Node}, Related (Leaf.Bound functions locals) a a' →
    Agree locals (w.block a') (v.block a)

section
variable {functions locals : Names} {w : Walk} {v : Named.Walk} (hw : w.Follows functions v)
include hw

theorem Agree.evalAll : ∀ {ns ns' : List Node}, RelatedAll (Leaf.Bound functions locals) ns ns' →
    Agree locals (w.evalAll ns') (v.evalAll ns)
  | [], [], _ => .pure _
  | _ :: _, _ :: _, h => .bind (hw.eval h.1) fun _ =>
      .bind ((Agree.evalAll h.2).orUndo (recount_release _)) fun _ => .pure _
  | [], _ :: _, h => h.elim
  | _ :: _, [], h => h.elim

theorem Agree.sequence : ∀ {ns ns' : List Node}, RelatedAll (Leaf.Bound functions locals) ns ns' →
    Agree locals (w.sequence ns') (v.sequence ns)
  | [], [], _ => .pure _
  | _ :: _, _ :: _, h => by
    refine .bind (hw.block h.1) ?_
    intro flow
    cases flow with
    | normal => exact Agree.sequence h.2
    | returned v => exact .pure _
  | [], _ :: _, h => h.elim
  | _ :: _, [], h => h.elim

theorem Agree.addEntries (t : Table) {ns ns' : List Node}
    (h : RelatedAll (Leaf.Bound functions locals) ns ns') :
    Agree locals (w.addEntries t ns') (v.addEntries t ns) := by
  fun_induction Named.Walk.addEntries v t ns generalizing ns' with
  | case1 t k e rest ih1 ih2 =>
    obtain ⟨k', _, rfl, hk, h⟩ := relatedAll_cons_inv h
    obtain ⟨e', rest', rfl, he, hrest⟩ := relatedAll_cons_inv h
    have hrelease (t : Table) (m : Machine) : m.Recount (m.releaseTable t) := ⟨rfl, rfl, rfl⟩
    refine .bind ((hw.eval hk).orUndo (hrelease t)) ?_
    intro key
    match key with
    | some (.str r text) =>
      refine .bind ((hw.eval he).orUndo fun m => ?_) ?_
      · exact ⟨Heap.objects_release m.heap _, rfl, rfl⟩
      intro value
      exact .recount_bind (recount_putEntry t ⟨r, text⟩ value) (ih1 r text value hrest)
    | none | some (.bool _) | some (.int _) | some (.float _) | some (.list _) | some (.tuple _)
    | some (.table _) => exact .release_bind (ih2 hrest)
  | case2 ns t hns =>
    match ns, ns', h with
    | [], [], _ => exact .pure t
    | [_], [_], _ => exact .pure t
    | k :: e :: rest, _, _ => exact (hns k e rest rfl).elim

theorem Agree.test {a a' : Node} (h : Related (Leaf.Bound functions locals) a a') :
    Agree locals (w.test a') (v.test a) := by
  refine .bind (hw.eval h) ?_
  intro value m s hms
  exact ⟨Heap.truthy_congr hms.objects value, hms.recount (recount_release value m)⟩

theorem Agree.whileLoop {cond cond' : Node} {body body' : List Node}
    (hc : Related (Leaf.Bound functions locals) cond cond')
    (hb : RelatedAll (Leaf.Bound functions locals) body body') (fuel : Nat) :
    Agree locals (Code.whileLoop (w.test cond') (w.sequence body') fuel)
      (v.whileLoop cond body fuel) := by
  induction fuel with
  | zero => exact .exhausted
  | succ fuel ih =>
    rw [Code.whileLoop_succ]
    refine .bind (.test hw hc) ?_
    intro b
    cases b with
    | false => exact .pure _
    | true =>
      refine .bind (.sequence hw hb) ?_
      intro flow
      cases flow with
      | normal => exact ih
      | returned v => exact .pure _

theorem Agree.forLoop {x : String} {k : Nat} {body body' : List Node}
    (hx : locals.find? x = some k) (hb : RelatedAll (Leaf.Bound functions locals) body body')
    (r : Ref) (fuel i : Nat) :
    Agree locals (Code.forLoop k r (w.sequence body') fuel i) (v.forLoop x r body fuel i) := by
  induction fuel generalizing i with
  | zero => exact .exhausted
  | succ fuel ih =>
    rw [Code.forLoop_succ]
    refine .bind (.inspect fun _ _ e => by rw [Heap.itemsAt_congr e]) ?_
    intro item
    cases item with
    | none => exact .pure _
    | some value =>
      refine .retain_bind (.bind (.setSlot hx value) fun _ => .bind (.sequence hw hb) ?_)
      intro flow
      cases flow with
      | normal => exact ih (i + 1)
      | returned v => exact .pure _

end

end Lisplet
