import Lisplet.Proofs.Congruence
import Lisplet.Proofs.Renaming

/-!
# Two programs in step

Two programs may number their functions differently and keep their literals in
different places. Started on machines that are the same up to a renaming of
places, they go through the same steps: each gives the same value up to the
renaming, stops with the same error and writes the same output. `InStep` says so
for computations, and `run_inStep` for whole programs.
-/

namespace Lisplet

open Node

namespace Renaming

variable (ρ : Renaming)

/-! ## Machines -/

structure SameStack (s s' : CallStack) : Prop where
  slots : ρ.SameValues s.slots.toList s'.slots.toList
  base : s'.base = s.base
  depth : s'.depth = s.depth

structure SameMachine (m m' : Machine) : Prop where
  objects : ρ.SameObjects m.heap.objects m'.heap.objects
  stack : ρ.SameStack m.stack m'.stack
  sink : m'.sink = m.sink

variable {ρ}

section
variable {s s' : CallStack} (h : ρ.SameStack s s')
include h

theorem SameStack.size : s'.size = s.size := by
  simpa [CallStack.size] using h.slots.length_eq.symm

theorem SameStack.slot (i : Nat) : Option.Rel ρ.SameValue s.slots[i]? s'.slots[i]? := by
  simpa using forall₂_getElem? h.slots i

theorem SameStack.get (k : Nat) : ρ.SameValue (s.get k) (s'.get k) := by
  unfold CallStack.get
  rw [h.base]
  exact .join (h.slot (s.base + k))

theorem SameStack.push {v v' : Option Value} (hv : ρ.SameValue v v') :
    ρ.SameStack (s.push v) (s'.push v') := by
  refine ⟨?_, h.base, h.depth⟩
  simpa [CallStack.push] using List.rel_append h.slots (.cons hv .nil)

theorem SameStack.set (k : Nat) {v v' : Option Value} (hv : ρ.SameValue v v') :
    ρ.SameStack (s.set k v).2 (s'.set k v').2 := by
  unfold CallStack.set
  have hold := h.slot (s.base + k)
  rw [h.base]
  generalize s.slots[s.base + k]? = old, s'.slots[s.base + k]? = old' at hold
  cases hold with
  | none => exact h
  | some _ =>
    refine ⟨?_, rfl, h.depth⟩
    simpa using forall₂_set h.slots (s.base + k) hv

theorem SameStack.truncate (size : Nat) : ρ.SameStack (s.truncate size).2 (s'.truncate size).2 := by
  refine ⟨?_, h.base, h.depth⟩
  simpa [CallStack.truncate] using List.forall₂_take size h.slots

theorem SameStack.enter (args locals : Nat) : (s'.enter args locals).1 = (s.enter args locals).1 ∧
    ρ.SameStack (s.enter args locals).2.2 (s'.enter args locals).2.2 := by
  have hbase : s'.size - args = s.size - args := by rw [h.size]
  have htop := h.truncate (s.size - args + locals)
  simp only [CallStack.enter, hbase]
  refine ⟨by rw [h.base], ?_, rfl, by rw [h.depth]⟩
  simp only [Array.toList_append, Array.toList_replicate, htop.size]
  refine List.rel_append htop.slots ?_
  generalize s.size - args + locals - (s.truncate (s.size - args + locals)).2.size = count
  induction count with
  | zero => exact .nil
  | succ count ih => exact .cons .none ih

theorem SameStack.leave (frame : Frame) : ρ.SameStack (s.leave frame).2 (s'.leave frame).2 := by
  have hbelow := h.truncate frame.base
  exact ⟨hbelow.slots, rfl, congrArg (· - 1) hbelow.depth⟩

end

/-! ## Computations -/

inductive SameEnding (ρ : Renaming) {α β : Type} (A : α → β → Prop) :
    EStateM.Result Stop Machine α → EStateM.Result Stop Machine β → Prop
  | ok {a : α} {b : β} {m m' : Machine} : A a b → ρ.SameMachine m m' → SameEnding ρ A (.ok a m) (.ok b m')
  | error {m m' : Machine} (stop : Stop) : ρ.SameMachine m m' →
      SameEnding ρ A (.error stop m) (.error stop m')

def InStep (ρ : Renaming) {α β : Type} (A : α → β → Prop) (x : Eval α) (y : Eval β) : Prop :=
  ∀ m m' : Machine, ρ.SameMachine m m' → ρ.SameEnding A (x m) (y m')

def SameChange (ρ : Renaming) (f g : Machine → Machine) : Prop :=
  ∀ m m' : Machine, ρ.SameMachine m m' → ρ.SameMachine (f m) (g m')

namespace InStep

variable {α β γ δ : Type} {A : α → β → Prop} {B : γ → δ → Prop} {x : Eval α} {y : Eval β}

theorem pure {a : α} {b : β} (h : A a b) : ρ.InStep A (Pure.pure a) (Pure.pure b) :=
  fun _ _ hm => .ok h hm

theorem fail (e : RuntimeError) : ρ.InStep A (Eval.fail e) (Eval.fail e) :=
  fun _ _ hm => .error _ hm

theorem exhausted : ρ.InStep A Eval.exhausted Eval.exhausted :=
  fun _ _ hm => .error _ hm

theorem bind {f : α → Eval γ} {g : β → Eval δ} (hx : ρ.InStep A x y)
    (hf : ∀ a b, A a b → ρ.InStep B (f a) (g b)) : ρ.InStep B (x >>= f) (y >>= g) := by
  intro m m' hm
  show ρ.SameEnding B (EStateM.bind x f m) (EStateM.bind y g m')
  unfold EStateM.bind
  have hend := hx m m' hm
  generalize x m = r, y m' = r' at hend
  cases hend with
  | ok hab hm => exact hf _ _ hab _ _ hm
  | error stop hm => exact .error stop hm

theorem orUndo {undo undo' : Machine → Machine} (hx : ρ.InStep A x y)
    (hu : ρ.SameChange undo undo') : ρ.InStep A (x.orUndo undo) (y.orUndo undo') := by
  intro m m' hm
  unfold Eval.orUndo
  have hend := hx m m' hm
  generalize x m = r, y m' = r' at hend
  cases hend with
  | ok hab hm => exact .ok hab hm
  | error stop hm => exact .error stop (hu _ _ hm)

theorem thenClose {close close' : Machine → Machine} (hx : ρ.InStep A x y)
    (hc : ρ.SameChange close close') : ρ.InStep A (x.thenClose close) (y.thenClose close') := by
  intro m m' hm
  unfold Eval.thenClose
  have hend := hx m m' hm
  generalize x m = r, y m' = r' at hend
  cases hend with
  | ok hab hm => exact .ok hab (hc _ _ hm)
  | error stop hm => exact .error stop (hc _ _ hm)

theorem checked_bind {r : Except RuntimeError α} {f : α → Eval γ} {g : α → Eval δ}
    (hf : ∀ a, r = .ok a → ρ.InStep B (f a) (g a)) :
    ρ.InStep B (Eval.checked r >>= f) (Eval.checked r >>= g) := by
  cases r with
  | ok a => exact hf a rfl
  | error e => exact .fail e

/-! ## Heap, stack and output -/

theorem make {f : Heap → α × Heap} {g : Heap → β × Heap}
    (h : ∀ a b : Heap, ρ.SameObjects a.objects b.objects → ρ.SameAnswer A (f a) (g b)) :
    ρ.InStep A (Eval.make f) (Eval.make g) :=
  fun m m' hm => .ok (h m.heap m'.heap hm.objects).1 ⟨(h m.heap m'.heap hm.objects).2, hm.stack, hm.sink⟩

theorem onHeap {f g : Heap → Heap}
    (h : ∀ a b : Heap, ρ.SameObjects a.objects b.objects → ρ.SameObjects (f a).objects (g b).objects) :
    ρ.InStep Eq (Eval.onHeap f) (Eval.onHeap g) :=
  fun m m' hm => .ok rfl ⟨h m.heap m'.heap hm.objects, hm.stack, hm.sink⟩

theorem inspect {f : Heap → α} {g : Heap → β}
    (h : ∀ a b : Heap, ρ.SameObjects a.objects b.objects → A (f a) (g b)) :
    ρ.InStep A (Eval.inspect f) (Eval.inspect g) :=
  fun m m' hm => .ok (h m.heap m'.heap hm.objects) hm

theorem retain (v v' : Option Value) :
    ρ.InStep Eq (Eval.onHeap fun h => h.retain v) (Eval.onHeap fun h => h.retain v') :=
  .onHeap fun _ _ e => by simpa using e

theorem release_bind {v v' : Option Value} {f : Unit → Eval γ} {g : Unit → Eval δ}
    (hf : ρ.InStep B (f ()) (g ())) : ρ.InStep B (Eval.release v >>= f) (Eval.release v' >>= g) := by
  refine bind (A := Eq) (.onHeap fun _ _ e => by simpa using e) ?_
  rintro _ _ -
  exact hf

theorem getSlot (k : Nat) : ρ.InStep ρ.SameValue (Eval.getSlot k) (Eval.getSlot k) :=
  fun _ _ hm => .ok (hm.stack.get k)
    ⟨by simpa [Machine.onHeap] using hm.objects, hm.stack, hm.sink⟩

theorem setSlot (k : Nat) {v v' : Option Value} (hv : ρ.SameValue v v') :
    ρ.InStep Eq (Eval.setSlot k v) (Eval.setSlot k v') :=
  fun _ _ hm => .ok rfl
    ⟨by simpa [Machine.setSlot] using hm.objects, hm.stack.set k hv, hm.sink⟩

theorem push {v v' : Option Value} (hv : ρ.SameValue v v') :
    ρ.InStep Eq (Eval.push v) (Eval.push v') :=
  fun _ _ hm => .ok rfl ⟨hm.objects, hm.stack.push hv, hm.sink⟩

theorem inspectStack {f : CallStack → α} (h : ∀ s s', ρ.SameStack s s' → f s' = f s) :
    ρ.InStep Eq (Eval.inspectStack f) (Eval.inspectStack f) :=
  fun _ _ hm => .ok (h _ _ hm.stack).symm hm

theorem enterFrame (f : Function) (place count : Nat) :
    ρ.InStep Eq (Eval.enterFrame f count) (Eval.enterFrame { f with form := place } count) :=
  fun _ _ hm => .ok (hm.stack.enter count f.locals).1.symm
    ⟨hm.objects, (hm.stack.enter count f.locals).2, hm.sink⟩

theorem operation (k : Keyword) {vs vs' : List (Option Value)} (hvs : ρ.SameValues vs vs') :
    ρ.InStep ρ.SameValue (operation k vs) (operation k vs') := by
  rintro ⟨heap, stack, sink, log⟩ ⟨heap', stack', sink', log'⟩ hm
  obtain ⟨hresult, hobjects⟩ := applyOperation_same hm.objects k hvs
  unfold Lisplet.operation
  dsimp only at hresult hobjects ⊢
  generalize applyOperation k vs heap = r, applyOperation k vs' heap' = r' at hresult hobjects
  obtain ⟨result, heap⟩ := r
  obtain ⟨result', heap'⟩ := r'
  cases hresult with
  | none => exact .error _ ⟨hobjects, hm.stack, hm.sink⟩
  | some hv => exact .ok hv ⟨hobjects, hm.stack, hm.sink⟩

theorem write (text : String) (span : Span) : ρ.InStep Eq (Eval.write text span) (Eval.write text span) := by
  rintro ⟨heap, stack, sink, log⟩ ⟨heap', stack', sink', log'⟩ ⟨hobjects, hstack, hsink⟩
  obtain rfl : sink' = sink := hsink
  unfold Eval.write
  dsimp only
  cases sink'.write text.toUTF8 with
  | mk complete after =>
    cases complete with
    | true => exact .ok rfl ⟨hobjects, hstack, rfl⟩
    | false => exact .error _ ⟨hobjects, hstack, rfl⟩

theorem writePieces (span : Span) (fuel : Nat) {ps ps' : List Piece}
    (h : List.Forall₂ ρ.SamePiece ps ps') :
    ρ.InStep Eq (Eval.writePieces span fuel ps) (Eval.writePieces span fuel ps') := by
  induction fuel generalizing ps ps' with
  | zero =>
    cases h with
    | nil => exact .pure rfl
    | cons _ _ => exact .exhausted
  | succ fuel ih =>
    cases h with
    | nil => exact .pure rfl
    | cons hp hrest =>
      intro m m' hm
      cases hp with
      | text s =>
        have hend := InStep.write s span m m' hm
        simp only [Eval.writePieces]
        generalize Eval.write s span m = r, Eval.write s span m' = r' at hend
        cases hend with
        | ok _ hm => exact ih hrest _ _ hm
        | error stop hm => exact .error stop hm
      | value hv => exact ih (List.rel_append (pieces_same hm.objects hv) hrest) m m' hm

theorem print (fuel : Nat) {v v' : Option Value} (hv : ρ.SameValue v v') (span : Span) :
    ρ.InStep Eq (Eval.print fuel v span) (Eval.print fuel v' span) := by
  have hpieces := InStep.writePieces span fuel
    (.cons (.value hv) (.cons (.text "\n") .nil) :
      List.Forall₂ ρ.SamePiece [.value v, .text "\n"] [.value v', .text "\n"])
  cases hv with
  | str s _ => exact .write s span
  | _ => exact hpieces

end InStep

/-! ## Undoing and closing -/

theorem sameChange_release (v v' : Option Value) :
    ρ.SameChange (Machine.release v) (Machine.release v') :=
  fun _ _ hm => ⟨by simpa [Machine.release, Machine.onHeap] using hm.objects, hm.stack, hm.sink⟩

theorem sameChange_releaseTable (t t' : Table) :
    ρ.SameChange (·.releaseTable t) (·.releaseTable t') :=
  fun _ _ hm => ⟨hm.objects, hm.stack, hm.sink⟩

theorem sameChange_truncate (mark : Nat) :
    ρ.SameChange (Machine.truncate mark) (Machine.truncate mark) :=
  fun _ _ hm => ⟨hm.objects, hm.stack.truncate mark, hm.sink⟩

theorem sameChange_leave (frame : Frame) :
    ρ.SameChange (Machine.leave frame) (Machine.leave frame) :=
  fun _ _ hm => ⟨hm.objects, hm.stack.leave frame, hm.sink⟩

end Renaming

/-! ## Programs -/

inductive Binding.Renumbered (σ : Nat → Nat → Prop) : Binding → Binding → Prop
  | function {i j : Nat} : σ i j → Renumbered σ (.function i) (.function j)
  | slot (k : Nat) : Renumbered σ (.slot k) (.slot k)

structure Leaf.Rebound (σ : Nat → Nat → Prop) (l l' : Leaf) : Prop where
  token : l'.token = l.token
  kind : l'.kind = l.kind
  named : ∀ x, l.name? = some x → Option.Rel (Binding.Renumbered σ) l.binding l'.binding
  unnamed : l.name? = none → l'.binding = l.binding

/-- The same leaf in two programs that are loaded: a literal may lie in another place. -/
structure Leaf.Relinked (ρ : Renaming) (σ : Nat → Nat → Prop) (l l' : Leaf) : Prop
    extends Leaf.Rebound σ l l' where
  cell : ∀ text, l.kind = .str text → Option.Rel ρ.pairs l.cell l'.cell

/-- Functions with numbers that `σ` relates differ in the place of their definition only,
and in the numbers and places inside it. -/
structure Code.Relinked (ρ : Renaming) (σ : Nat → Nat → Prop) (c c' : Code) : Prop where
  limit : c'.limit = c.limit
  functions : ∀ i j, σ i j → ∃ f place, c.program.function? i = some f ∧
    c'.program.function? j = some { f with form := place } ∧
    RelatedAll (Leaf.Relinked ρ σ) (c.program.body i) (c'.program.body j)

section
variable {ρ : Renaming} {σ : Nat → Nat → Prop}

theorem Leaf.Rebound.span_eq {l l' : Leaf} (h : l.Rebound σ l') : l'.span = l.span := by
  simp only [Leaf.span, h.token]

theorem Leaf.Rebound.text_eq {l l' : Leaf} (h : l.Rebound σ l') : l'.text = l.text := by
  simp only [Leaf.text, h.token]

theorem Leaf.Relinked.kind_eq {l l' : Leaf} (h : l.Relinked ρ σ l') : l'.kind = l.kind := h.kind

theorem slotOf_relinked {n n' : Node} (h : Related (Leaf.Relinked ρ σ) n n') : slotOf n' = slotOf n := by
  cases n with
  | branch cs span tag =>
    obtain ⟨_, _, rfl, -⟩ := related_branch_inv h
    rfl
  | leaf l =>
    obtain ⟨l', rfl, hl⟩ := related_leaf_inv h
    unfold slotOf
    dsimp only
    cases hx : l.name? with
    | none => rw [hl.unnamed hx, hl.span_eq]
    | some x =>
      have hb := hl.named x hx
      rw [hl.span_eq]
      generalize l.binding = b, l'.binding = b' at hb
      cases hb with
      | none => rfl
      | some hb => cases hb <;> rfl

theorem functionOf_bind {α β : Type} {B : α → β → Prop} {l l' : Leaf} (h : l.Relinked ρ σ l')
    (hk : l.kind = .identifier) {f : Nat → Eval α} {g : Nat → Eval β}
    (hfg : ∀ i j, σ i j → ρ.InStep B (f i) (g j)) :
    ρ.InStep B (Eval.checked (functionOf l) >>= f) (Eval.checked (functionOf l') >>= g) := by
  have hb := h.named l.text (by simp only [Leaf.name?, hk])
  unfold functionOf
  rw [h.span_eq, h.text_eq]
  generalize l.binding = b, l'.binding = b' at hb
  cases hb with
  | none => exact .fail _
  | some hb =>
    cases hb with
    | function hij => exact hfg _ _ hij
    | slot k => exact .fail _

theorem evalLeaf_inStep {l l' : Leaf} (h : l.Relinked ρ σ l') :
    ρ.InStep ρ.SameValue (evalLeaf l) (evalLeaf l') := by
  unfold evalLeaf
  rw [h.kind, h.span_eq, h.text_eq]
  cases hk : l.kind with
  | str text =>
    have hcell := h.cell text hk
    generalize l.cell = c, l'.cell = c' at hcell
    cases hcell with
    -- a literal without a cell makes a new string on both sides
    | none => exact .bind (.make fun _ _ e => Renaming.newStr_same e text) fun _ _ hv => .pure hv
    | some hr => exact .bind (A := Eq) (.onHeap fun _ _ e => e) fun _ _ _ => .pure (.str text hr)
  | bool b => exact .pure (.bool b)
  | null => exact .pure .none
  | int n => exact .pure (.int n)
  | float x => exact .pure (.float x)
  | keyword k => exact .fail _
  | identifier =>
    have hb := h.named l.text (by simp only [Leaf.name?, hk])
    generalize l.binding = b, l'.binding = b' at hb
    cases hb with
    | none => exact .fail _
    | some hb =>
      cases hb with
      | function _ => exact .fail _
      | slot k => exact .getSlot k

end

/-! ## Several nodes -/

inductive Renaming.SameFlow (ρ : Renaming) : Flow → Flow → Prop
  | normal : SameFlow ρ .normal .normal
  | returned {v v' : Option Value} : ρ.SameValue v v' → SameFlow ρ (.returned v) (.returned v')

structure Walk.InStep (ρ : Renaming) (σ : Nat → Nat → Prop) (w w' : Walk) : Prop where
  eval : ∀ {n n' : Node}, Related (Leaf.Relinked ρ σ) n n' → ρ.InStep ρ.SameValue (w.eval n) (w'.eval n')
  block : ∀ {n n' : Node}, Related (Leaf.Relinked ρ σ) n n' → ρ.InStep ρ.SameFlow (w.block n) (w'.block n')

namespace Walk.InStep

open Renaming

variable {ρ : Renaming} {σ : Nat → Nat → Prop} {w w' : Walk} (hw : Walk.InStep ρ σ w w')
  {ns ns' : List Node} {n n' : Node}
include hw

theorem evalAll (h : RelatedAll (Leaf.Relinked ρ σ) ns ns') :
    ρ.InStep ρ.SameValues (w.evalAll ns) (w'.evalAll ns') := by
  induction ns generalizing ns' with
  | nil =>
    rw [relatedAll_nil_inv h]
    exact .pure .nil
  | cons n ns ih =>
    obtain ⟨n', ns', rfl, hn, hns⟩ := relatedAll_cons_inv h
    refine .bind (hw.eval hn) fun v v' hv => ?_
    exact .bind (.orUndo (ih hns) (sameChange_release v v')) fun _ _ hvs => .pure (.cons hv hvs)

theorem pushAll (h : RelatedAll (Leaf.Relinked ρ σ) ns ns') :
    ρ.InStep Eq (w.pushAll ns) (w'.pushAll ns') := by
  induction ns generalizing ns' with
  | nil =>
    rw [relatedAll_nil_inv h]
    exact .pure rfl
  | cons n ns ih =>
    obtain ⟨n', ns', rfl, hn, hns⟩ := relatedAll_cons_inv h
    exact .bind (hw.eval hn) fun v v' hv => .bind (.push hv) fun _ _ _ => ih hns

theorem sequence (h : RelatedAll (Leaf.Relinked ρ σ) ns ns') :
    ρ.InStep ρ.SameFlow (w.sequence ns) (w'.sequence ns') := by
  induction ns generalizing ns' with
  | nil =>
    rw [relatedAll_nil_inv h]
    exact .pure .normal
  | cons n ns ih =>
    obtain ⟨n', ns', rfl, hn, hns⟩ := relatedAll_cons_inv h
    refine .bind (hw.block hn) fun flow flow' hflow => ?_
    cases hflow with
    | normal => exact ih hns
    | returned hv => exact .pure (.returned hv)

theorem addEntries {t t' : Table} (ht : ρ.SameTable t t') (h : RelatedAll (Leaf.Relinked ρ σ) ns ns') :
    ρ.InStep ρ.SameTable (w.addEntries t ns) (w'.addEntries t' ns') := by
  fun_induction Walk.addEntries w t ns generalizing t' ns' with
  | case1 t k e rest ih1 ih2 =>
    obtain ⟨k', _, rfl, hk, h⟩ := relatedAll_cons_inv h
    obtain ⟨e', rest', rfl, he, hrest⟩ := relatedAll_cons_inv h
    refine .bind (.orUndo (hw.eval hk) (sameChange_releaseTable t t')) fun key key' hkey => ?_
    cases hkey with
    | @str r r' text hr =>
      have hundo : ρ.SameChange (fun m => (m.release (some (.str r text))).releaseTable t)
          (fun m => (m.release (some (.str r' text))).releaseTable t') :=
        fun m m' hm => sameChange_releaseTable t t' _ _ (sameChange_release _ _ m m' hm)
      refine .bind (.orUndo (hw.eval he) hundo) fun v v' hv => ?_
      have hk : ρ.SameKey ⟨r, text⟩ ⟨r', text⟩ := ⟨hr, rfl⟩
      exact .bind (.make fun _ _ e => putEntry_same e ht hk hv) fun t t' ht => ih1 t ht hrest
    | _ => exact .release_bind (ih2 ht hrest)
  | case2 ns t hns =>
    rcases ns with _ | ⟨k, _ | ⟨e, rest⟩⟩
    · rw [relatedAll_nil_inv h]
      exact .pure ht
    · obtain ⟨k', _, rfl, -, h⟩ := relatedAll_cons_inv h
      rw [relatedAll_nil_inv h]
      exact .pure ht
    · exact (hns k e rest rfl).elim

theorem test (h : Related (Leaf.Relinked ρ σ) n n') : ρ.InStep Eq (w.test n) (w'.test n') := by
  refine .bind (hw.eval h) fun v v' hv => ?_
  refine .bind (.inspect fun _ _ e => truthy_same e hv) ?_
  rintro b _ rfl
  exact .release_bind (.pure rfl)

theorem assign {target target' : Node} (ht : Related (Leaf.Relinked ρ σ) target target')
    (h : Related (Leaf.Relinked ρ σ) n n') :
    ρ.InStep ρ.SameValue (w.assign target n) (w'.assign target' n') := by
  unfold Walk.assign
  rw [slotOf_relinked ht]
  refine .checked_bind fun slot _ => .bind (hw.eval h) fun v v' hv => ?_
  exact .bind (.retain v v') fun _ _ _ => .bind (.setSlot slot hv) fun _ _ _ => .pure hv

/-! ## Loops -/

theorem whileLoop (hn : Related (Leaf.Relinked ρ σ) n n') (hns : RelatedAll (Leaf.Relinked ρ σ) ns ns')
    (fuel : Nat) :
    ρ.InStep ρ.SameFlow (Code.whileLoop (w.test n) (w.sequence ns) fuel)
      (Code.whileLoop (w'.test n') (w'.sequence ns') fuel) := by
  induction fuel with
  | zero => exact .exhausted
  | succ fuel ih =>
    rw [Code.whileLoop_succ, Code.whileLoop_succ]
    refine .bind (hw.test hn) ?_
    rintro b _ rfl
    cases b with
    | false => exact .pure .normal
    | true =>
      refine .bind (hw.sequence hns) fun flow flow' hflow => ?_
      cases hflow with
      | normal => exact ih
      | returned hv => exact .pure (.returned hv)

theorem forLoop (slot : Nat) {r r' : Ref} (hr : ρ.pairs r r')
    (hns : RelatedAll (Leaf.Relinked ρ σ) ns ns') (fuel i : Nat) :
    ρ.InStep ρ.SameFlow (Code.forLoop slot r (w.sequence ns) fuel i)
      (Code.forLoop slot r' (w'.sequence ns') fuel i) := by
  induction fuel generalizing i with
  | zero => exact .exhausted
  | succ fuel ih =>
    rw [Code.forLoop_succ, Code.forLoop_succ]
    refine .bind (.inspect fun _ _ e => itemAt_same e hr i) fun item item' hitem => ?_
    cases hitem with
    | none => exact .pure .normal
    | some hv =>
      refine .bind (.retain _ _) fun _ _ _ => .bind (.setSlot slot hv) fun _ _ _ => ?_
      refine .bind (hw.sequence hns) fun flow flow' hflow => ?_
      cases hflow with
      | normal => exact ih (i + 1)
      | returned hv => exact .pure (.returned hv)

/-! ## Calls -/

section
variable {c c' : Code} {i j : Nat}

theorem enterAndRun {f : Function} (place : Nat) (hns : RelatedAll (Leaf.Relinked ρ σ) ns ns')
    (hbody : RelatedAll (Leaf.Relinked ρ σ) (c.program.body i) (c'.program.body j)) (mark : Nat) :
    ρ.InStep ρ.SameValue (c.enterAndRun w f i ns mark)
      (c'.enterAndRun w' { f with form := place } j ns' mark) := by
  unfold Code.enterAndRun
  refine .bind (.orUndo (hw.pushAll hns) (sameChange_truncate mark)) fun _ _ _ => ?_
  rw [hns.length_eq]
  refine .bind (.enterFrame f place ns.length) ?_
  rintro frame _ rfl
  refine .bind (.thenClose (hw.sequence hbody) (sameChange_leave frame)) fun flow flow' hflow => ?_
  cases hflow with
  | normal => exact .pure .none
  | returned hv => exact .pure hv

theorem call (hc : c.Relinked ρ σ c') (hij : σ i j) (hns : RelatedAll (Leaf.Relinked ρ σ) ns ns') (span : Span) :
    ρ.InStep ρ.SameValue (c.call w i ns span) (c'.call w' j ns' span) := by
  obtain ⟨f, place, hf, hf', hbody⟩ := hc.functions i j hij
  have hfull (depth : Nat) : c'.isFull depth = c.isFull depth := by simp only [Code.isFull, hc.limit]
  rw [c.call_eq, c'.call_eq, hf, hf', hns.length_eq, hc.limit]
  refine .bind (.inspectStack fun s s' hs => by rw [hs.depth, hs.size]) ?_
  rintro top _ rfl
  rw [hfull top.1]
  by_cases hdeep : c.isFull top.1 = true
  · rw [if_pos hdeep, if_pos hdeep]
    exact .fail _
  rw [if_neg hdeep, if_neg hdeep]
  by_cases hcount : ns.length ≠ f.arity
  · rw [if_pos hcount, if_pos hcount]
    exact .fail _
  · rw [if_neg hcount, if_neg hcount]
    exact hw.enterAndRun place hns hbody top.2

end

/-! ## One step down the tree -/

theorem evalKeyword (k : Keyword) (hns : RelatedAll (Leaf.Relinked ρ σ) ns ns') (span : Span) :
    ρ.InStep ρ.SameValue (Code.evalKeyword w k ns span) (Code.evalKeyword w' k ns' span) := by
  unfold Code.evalKeyword
  rw [checkArity_related hns]
  refine .checked_bind fun _ hcheck => ?_
  cases k with
  | and =>
    obtain ⟨a, b, rfl⟩ := two_operands hcheck rfl
    obtain ⟨a', b', rfl, ha, hb⟩ := relatedAll_two_inv hns
    refine .bind (hw.eval ha) fun v v' hv => .bind (.inspect fun _ _ e => truthy_same e hv) ?_
    rintro t _ rfl
    cases t with
    | true => exact .release_bind (hw.eval hb)
    | false => exact .pure hv
  | or =>
    obtain ⟨a, b, rfl⟩ := two_operands hcheck rfl
    obtain ⟨a', b', rfl, ha, hb⟩ := relatedAll_two_inv hns
    refine .bind (hw.eval ha) fun v v' hv => .bind (.inspect fun _ _ e => truthy_same e hv) ?_
    rintro t _ rfl
    cases t with
    | true => exact .pure hv
    | false => exact .release_bind (hw.eval hb)
  | ternary =>
    obtain ⟨cond, a, b, rfl⟩ := three_operands hcheck rfl
    obtain ⟨cond', _, rfl, hcond, hns⟩ := relatedAll_cons_inv hns
    obtain ⟨a', b', rfl, ha, hb⟩ := relatedAll_two_inv hns
    refine .bind (hw.test hcond) ?_
    rintro t _ rfl
    cases t with
    | true => exact hw.eval ha
    | false => exact hw.eval hb
  | list =>
    refine .bind (hw.evalAll hns) fun vs vs' hvs => ?_
    exact .bind (.make fun _ _ e => newList_same e (by simpa using hvs)) fun _ _ hv => .pure hv
  | table =>
    have hempty : ρ.SameTable {} {} := .nil
    refine .bind (hw.addEntries hempty hns) fun t t' ht => ?_
    exact .bind (.make fun _ _ e => newTable_same e ht) fun _ _ hv => .pure hv
  | set =>
    obtain ⟨target, e, rfl⟩ := two_operands hcheck rfl
    obtain ⟨target', e', rfl, ht, he⟩ := relatedAll_two_inv hns
    exact hw.assign ht he
  | defun | ifThen | otherwise | whileLoop | forEach | ret | print | setItem | push | remove =>
    exact .fail _
  | _ => exact .bind (hw.evalAll hns) fun _ _ hvs => .operation _ hvs

theorem runKeyword (fuel : Nat) (k : Keyword) (hns : RelatedAll (Leaf.Relinked ρ σ) ns ns')
    (span : Span) :
    ρ.InStep ρ.SameFlow (Code.runKeyword w fuel k ns span) (Code.runKeyword w' fuel k ns' span) := by
  unfold Code.runKeyword
  rw [checkArity_related hns]
  refine .checked_bind fun _ hcheck => ?_
  have hstore (k : Keyword) : ρ.InStep ρ.SameFlow
      (do let vs ← w.evalAll ns; Eval.onHeap (store k vs); Pure.pure Flow.normal)
      (do let vs ← w'.evalAll ns'; Eval.onHeap (store k vs); Pure.pure Flow.normal) :=
    .bind (hw.evalAll hns) fun _ _ hvs => .bind (.onHeap fun _ _ e => store_same k hvs e)
      fun _ _ _ => .pure .normal
  cases k with
  | set =>
    obtain ⟨target, e, rfl⟩ := two_operands hcheck rfl
    obtain ⟨target', e', rfl, ht, he⟩ := relatedAll_two_inv hns
    exact .bind (hw.assign ht he) fun _ _ _ => .release_bind (.pure .normal)
  | print =>
    obtain ⟨e, rfl⟩ := one_operand hcheck rfl
    obtain ⟨e', _, rfl, he, hns⟩ := relatedAll_cons_inv hns
    rw [relatedAll_nil_inv hns]
    refine .bind (hw.eval he) fun v v' hv => ?_
    exact .bind (.thenClose (.print fuel hv span) (sameChange_release v v')) fun _ _ _ => .pure .normal
  | setItem => exact hstore _
  | push => exact hstore _
  | remove => exact hstore _
  | ifThen =>
    dsimp only
    obtain ⟨hn, hn'⟩ | ⟨cond, a, cond', a', hcond, ha, hrest⟩ := ifParts_related Leaf.Relinked.kind_eq hns
    · rw [hn, hn']
      exact .fail _
    obtain ⟨hn, hn'⟩ | ⟨b, b', hb, hn, hn'⟩ := hrest
    all_goals
      rw [hn, hn']
      refine .bind (hw.test hcond) ?_
      rintro t _ rfl
      cases t
    · exact .pure .normal
    · exact hw.block ha
    · exact hw.block hb
    · exact hw.block ha
  | whileLoop =>
    cases ns with
    | nil =>
      rw [relatedAll_nil_inv hns]
      exact .fail _
    | cons cond body =>
      obtain ⟨cond', body', rfl, hcond, hbody⟩ := relatedAll_cons_inv hns
      exact hw.whileLoop hcond hbody fuel
  | forEach =>
    rcases ns with _ | ⟨var, _ | ⟨list, body⟩⟩
    · rw [relatedAll_nil_inv hns]
      exact .fail _
    · obtain ⟨var', _, rfl, -, hns⟩ := relatedAll_cons_inv hns
      rw [relatedAll_nil_inv hns]
      exact .fail _
    · obtain ⟨var', _, rfl, hvar, hns⟩ := relatedAll_cons_inv hns
      obtain ⟨list', body', rfl, hlist, hbody⟩ := relatedAll_cons_inv hns
      dsimp only
      rw [slotOf_relinked hvar]
      refine .checked_bind fun slot _ => .bind (hw.eval hlist) fun v v' hv => ?_
      cases hv with
      | list hr => exact .thenClose (hw.forLoop slot hr hbody fuel 0) (sameChange_release _ _)
      | _ => exact .release_bind (.pure .normal)
  | ret =>
    obtain rfl | ⟨e, rfl⟩ := return_operands hcheck rfl
    · rw [relatedAll_nil_inv hns]
      exact .pure (.returned .none)
    · obtain ⟨e', _, rfl, he, hns⟩ := relatedAll_cons_inv hns
      rw [relatedAll_nil_inv hns]
      exact .bind (hw.eval he) fun _ _ hv => .pure (.returned hv)
  | _ => exact .fail _

section
variable {c c' : Code} (hc : c.Relinked ρ σ c')
include hc

theorem evalNode (h : Related (Leaf.Relinked ρ σ) n n') :
    ρ.InStep ρ.SameValue (c.evalNode w n) (c'.evalNode w' n') := by
  rcases n with l | ⟨_ | ⟨first, args⟩, span, tag⟩
  · obtain ⟨l', rfl, hl⟩ := related_leaf_inv h
    exact evalLeaf_inStep hl
  · obtain ⟨_, _, rfl, hns⟩ := related_branch_inv h
    rw [relatedAll_nil_inv hns]
    exact .fail _
  · obtain ⟨first', args', tag', rfl, hfirst, hargs⟩ := related_cons_inv h
    cases first with
    | branch cs s t =>
      obtain ⟨_, _, rfl, -⟩ := related_branch_inv hfirst
      exact .fail _
    | leaf head =>
      obtain ⟨head', rfl, hhead⟩ := related_leaf_inv hfirst
      unfold Code.evalNode
      dsimp only
      rw [hhead.kind, hhead.span_eq]
      cases hk : head.kind with
      | keyword k => exact hw.evalKeyword k hargs span
      | identifier => exact functionOf_bind hhead hk fun i j hij => hw.call hc hij hargs span
      | _ => exact .fail _

theorem runBlock (fuel : Nat) (h : Related (Leaf.Relinked ρ σ) n n') :
    ρ.InStep ρ.SameFlow (c.runBlock w fuel n) (c'.runBlock w' fuel n') := by
  rcases n with l | ⟨_ | ⟨first, args⟩, span, tag⟩
  · obtain ⟨l', rfl, hl⟩ := related_leaf_inv h
    have hleaf : statementLeaf l' = statementLeaf l := by
      simp only [statementLeaf, Leaf.keyword?, hl.kind, hl.span_eq]
    simp only [Code.runBlock, hleaf]
    exact .fail _
  · obtain ⟨_, _, rfl, hns⟩ := related_branch_inv h
    rw [relatedAll_nil_inv hns]
    exact .pure .normal
  · obtain ⟨first', args', tag', rfl, hfirst, hargs⟩ := related_cons_inv h
    cases first with
    | branch cs s t =>
      obtain ⟨_, _, rfl, hcs⟩ := related_branch_inv hfirst
      exact hw.sequence ⟨⟨rfl, hcs⟩, hargs⟩
    | leaf head =>
      obtain ⟨head', rfl, hhead⟩ := related_leaf_inv hfirst
      unfold Code.runBlock Code.runForm
      dsimp only
      rw [hhead.kind, hhead.span_eq]
      cases hk : head.kind with
      | keyword k => exact hw.runKeyword fuel k hargs span
      | identifier =>
        exact functionOf_bind hhead hk fun i j hij =>
          .bind (hw.call hc hij hargs span) fun _ _ _ => .release_bind (.pure .normal)
      | _ => exact .fail _

end

end Walk.InStep

/-! ## Whole programs -/

section
variable {ρ : Renaming} {σ : Nat → Nat → Prop} {c c' : Code} (hc : c.Relinked ρ σ c')
include hc

theorem walk_inStep (fuel : Nat) : Walk.InStep ρ σ (c.walk fuel) (c'.walk fuel) := by
  induction fuel with
  | zero =>
    refine ⟨fun _ => ?_, fun _ => ?_⟩
    · simp only [Code.walk, Code.eval]
      exact .exhausted
    · simp only [Code.walk, Code.block]
      exact .exhausted
  | succ fuel ih =>
    rw [c.walk_succ, c'.walk_succ]
    exact ⟨ih.evalNode hc, ih.runBlock hc fuel⟩

/-- Programs whose main functions correspond run in step. -/
theorem run_inStep (hmain : σ 0 0) (fuel : Nat) : ρ.InStep ρ.SameValue (c.run fuel) (c'.run fuel) := by
  obtain ⟨f, place, hf, hf', -⟩ := hc.functions 0 0 hmain
  have hnone : RelatedAll (Leaf.Relinked ρ σ) [] [] := trivial
  have hcall := (walk_inStep hc fuel).call hc hmain hnone f.span
  unfold Code.run
  rw [hf, hf']
  intro m m' hm
  refine Renaming.InStep.thenClose hcall ?_ _ _ ⟨hm.objects, hm.stack, hm.sink⟩
  exact fun _ _ hm => ⟨hm.objects, hm.stack, hm.sink⟩

end

end Lisplet
