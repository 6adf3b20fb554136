import Lisplet.Proofs.Composition
import Lisplet.Proofs.Ordered

/-!
# Computations that end

What a computation gives may depend on fuel. It ends if from some fuel on its result stays
the same and is not for want of fuel. Ending is put together like computations are, as long
as the heap stays ordered: with that everything ends that does not go down the tree.
-/

namespace Lisplet

/-! ## Machines in order -/

structure Machine.Tidy (m : Machine) : Prop where
  ordered : m.heap.Ordered
  slots : ∀ v ∈ m.stack.slots.toList, Value.Below m.heap.objects.size v

structure Machine.Leads (m m' : Machine) : Prop where
  heap : m.heap.Leads m'.heap
  slots : ∀ v ∈ m'.stack.slots.toList, Value.Below m'.heap.objects.size v
  depth : m'.stack.depth = m.stack.depth

section
variable {m m' m'' : Machine}

theorem Machine.Leads.tidy (h : m.Leads m') : m'.Tidy := ⟨h.heap.ordered, h.slots⟩

theorem Machine.Leads.trans (h₁ : m.Leads m') (h₂ : m'.Leads m'') : m.Leads m'' :=
  ⟨h₁.heap.trans h₂.heap, h₂.slots, h₂.depth.trans h₁.depth⟩

theorem Machine.Tidy.leads (hm : m.Tidy) (hheap : m.heap.Leads m'.heap)
    (hstack : m'.stack = m.stack) : m.Leads m' := by
  refine ⟨hheap, ?_, by rw [hstack]⟩
  intro v hv
  rw [hstack] at hv
  exact (hm.slots v hv).mono hheap.size

theorem Machine.Tidy.leads_objects (hm : m.Tidy) (hheap : m'.heap.objects = m.heap.objects)
    (hslots : ∀ v ∈ m'.stack.slots.toList, Value.Below m.heap.objects.size v)
    (hdepth : m'.stack.depth = m.stack.depth) : m.Leads m' :=
  ⟨hm.ordered.leads hheap, by rw [hheap]; exact hslots, hdepth⟩

theorem Machine.Tidy.refl (hm : m.Tidy) : m.Leads m := hm.leads_objects rfl hm.slots rfl

end

/-! ## Objects that stay -/

namespace Machine

theorem objects_release (v : Option Value) (m : Machine) :
    (m.release v).heap.objects = m.heap.objects := Heap.objects_release _ _

theorem objects_releaseTable (t : Table) (m : Machine) :
    (m.releaseTable t).heap.objects = m.heap.objects := Heap.objects_releaseRefs _ _

theorem objects_truncate (size : Nat) (m : Machine) :
    (m.truncate size).heap.objects = m.heap.objects := Heap.objects_releaseAll _ _

theorem objects_leave (frame : Frame) (m : Machine) : (m.leave frame).heap.objects = m.heap.objects :=
  Heap.objects_releaseAll _ _

theorem objects_frameOf (f : Function) (count : Nat) (m : Machine) :
    (Code.frameOf f count m).2.heap.objects = m.heap.objects := Heap.objects_releaseAll _ _

end Machine

/-! ## Computations that end -/

/-- An ending that is not for want of fuel: with a result that `Q` allows for a heap of
that size, or with an error. -/
inductive Ending (Q : Nat → α → Prop) (m : Machine) : EStateM.Result Stop Machine α → Prop
  | ok (a : α) (m' : Machine) : m.Leads m' → Q m'.heap.objects.size a → Ending Q m (.ok a m')
  | stopped (e : RuntimeError) (m' : Machine) : m.heap.Leads m'.heap → Ending Q m (.error (.error e) m')

/-- From some fuel on the results are the same, and an ending after `m`. -/
def Ends (Q : Nat → α → Prop) (m : Machine) (results : Nat → EStateM.Result Stop Machine α) : Prop :=
  ∃ enough result, (∀ fuel ≥ enough, results fuel = result) ∧ Ending Q m result

section
variable {α β : Type} {P : Nat → α → Prop} {Q : Nat → β → Prop} {m m₁ : Machine}

theorem Ending.ends {result : EStateM.Result Stop Machine α} (h : Ending P m result) :
    Ends P m fun _ => result := ⟨0, result, fun _ _ => rfl, h⟩

theorem Ends.later {results : Nat → EStateM.Result Stop Machine α}
    (h : Ends P m fun k => results (k + 1)) : Ends P m results := by
  obtain ⟨enough, result, hresults, hresult⟩ := h
  refine ⟨enough + 1, result, ?_, hresult⟩
  intro fuel hfuel
  obtain ⟨k, rfl⟩ : ∃ k, fuel = k + 1 := ⟨fuel - 1, by omega⟩
  exact hresults k (by omega)

theorem Ends.shift {results : Nat → EStateM.Result Stop Machine α} (h : Ends P m results) :
    Ends P m fun k => results (k + 1) := by
  obtain ⟨enough, result, hresults, hresult⟩ := h
  exact ⟨enough, result, fun fuel hfuel => hresults (fuel + 1) (by omega), hresult⟩

theorem Ends.bind {X : Nat → Eval α} {F : Nat → α → Eval β} (h : Ends P m fun k => X k m₁)
    (hF : ∀ a m', m.Leads m' → P m'.heap.objects.size a → Ends Q m' fun k => F k a m') :
    Ends Q m fun k => (X k >>= F k) m₁ := by
  obtain ⟨enough, result, hX, hresult⟩ := h
  cases hresult with
  | stopped e m' hm' =>
    refine ⟨enough, .error (.error e) m', ?_, .stopped e m' hm'⟩
    intro fuel hfuel
    have hfirst : X fuel m₁ = .error (.error e) m' := hX fuel hfuel
    change EStateM.bind (X fuel) (F fuel) m₁ = _
    rw [EStateM.bind, hfirst]
  | ok a m' hm' ha =>
    obtain ⟨enough', result', hrest, hresult'⟩ := hF a m' hm' ha
    -- the same fuel goes to both parts, so it must be enough for either
    refine ⟨max enough enough', result', ?_, ?_⟩
    · intro fuel hfuel
      have hfirst : X fuel m₁ = .ok a m' := hX fuel (by omega)
      change EStateM.bind (X fuel) (F fuel) m₁ = _
      rw [EStateM.bind, hfirst]
      exact hrest fuel (by omega)
    · cases hresult' with
      | ok b m'' hm'' hb => exact .ok b m'' (hm'.trans hm'') hb
      | stopped e m'' hm'' => exact .stopped e m'' (hm'.heap.trans hm'')

theorem Ends.orUndo {X : Nat → Eval α} {undo : Machine → Machine} (h : Ends P m fun k => X k m₁)
    (hundo : ∀ m', (undo m').heap.objects = m'.heap.objects) : Ends P m fun k => (X k).orUndo undo m₁ := by
  obtain ⟨enough, result, hX, hresult⟩ := h
  cases hresult with
  | ok a m' hm' ha =>
    refine ⟨enough, .ok a m', ?_, .ok a m' hm' ha⟩
    intro fuel hfuel
    simp only [Eval.orUndo, hX fuel hfuel]
  | stopped e m' hm' =>
    refine ⟨enough, .error (.error e) (undo m'), ?_, .stopped e _ (hm'.trans (hm'.ordered.leads (hundo m')))⟩
    intro fuel hfuel
    simp only [Eval.orUndo, hX fuel hfuel]

/-- The result counts from a machine `m₀` with the same objects. -/
theorem Ends.thenClose {X : Nat → Eval α} {close : Machine → Machine} {m₀ : Machine}
    (h : Ends P m fun k => X k m₁) (hstart : m.heap.objects = m₀.heap.objects)
    (hclose : ∀ m', (close m').heap.objects = m'.heap.objects)
    (hok : ∀ m', m.Leads m' → m₀.Leads (close m')) : Ends P m₀ fun k => (X k).thenClose close m₁ := by
  obtain ⟨enough, result, hX, hresult⟩ := h
  cases hresult with
  | ok a m' hm' ha =>
    refine ⟨enough, .ok a (close m'), ?_, .ok a _ (hok m' hm') (by rw [hclose]; exact ha)⟩
    intro fuel hfuel
    simp only [Eval.thenClose, hX fuel hfuel]
  | stopped e m' hm' =>
    have hclosed := hm'.trans (hm'.ordered.leads (hclose m'))
    refine ⟨enough, .error (.error e) (close m'), ?_, .stopped e _ (hclosed.of_objects hstart)⟩
    intro fuel hfuel
    simp only [Eval.thenClose, hX fuel hfuel]

theorem Ends.thenRelease {X : Nat → Eval α} (v : Option Value) (h : Ends P m fun k => X k m₁) :
    Ends P m fun k => (X k).thenClose (Machine.release v) m₁ := by
  refine h.thenClose rfl (Machine.objects_release v) fun m' hm' => ?_
  exact hm'.trans (hm'.tidy.leads_objects (Machine.objects_release v m') hm'.slots rfl)

/-! ## Steps -/

theorem Ends.pure {a : α} (hm : m.Tidy) (ha : P m.heap.objects.size a) :
    Ends P m fun _ => (Pure.pure a : Eval α) m := (Ending.ok a m hm.refl ha).ends

theorem Ends.fail (hm : m.Tidy) (e : RuntimeError) : Ends P m fun _ => (Eval.fail e : Eval α) m :=
  (Ending.stopped e m hm.refl.heap).ends

theorem Ends.checked_bind {r : Except RuntimeError α} {F : Nat → α → Eval β} (hm : m.Tidy)
    (h : ∀ a, r = .ok a → Ends Q m fun k => F k a m) :
    Ends Q m fun k => (Eval.checked r >>= F k) m := by
  cases r with
  | ok a => exact h a rfl
  | error e => exact .fail hm e

theorem Ends.step {act : Eval Unit} {m' : Machine} (h : m.Leads m') (hact : act m = .ok () m') :
    Ends (fun _ _ => True) m fun _ => act m := hact ▸ (Ending.ok () m' h trivial).ends

theorem Ends.onHeap {f : Heap → Heap} (hm : m.Tidy) (hf : m.heap.Leads (f m.heap)) :
    Ends (fun _ _ => True) m fun _ => Eval.onHeap f m :=
  have hchange : m.Leads (m.onHeap f) := hm.leads hf rfl
  .step hchange rfl

theorem Ends.make {f : Heap → α × Heap} (hm : m.Tidy) (hheap : m.heap.Leads (f m.heap).2)
    (ha : P (f m.heap).2.objects.size (f m.heap).1) : Ends P m fun _ => Eval.make f m := by
  have hmade : m.Leads { m with heap := (f m.heap).2 } := hm.leads hheap rfl
  exact (Ending.ok _ _ hmade ha).ends

theorem Ends.release_bind {v : Option Value} {F : Nat → Unit → Eval β} (hm : m.Tidy)
    (h : ∀ m', m.Leads m' → Ends Q m' fun k => F k () m') :
    Ends Q m fun k => (Eval.release v >>= F k) m :=
  (Ends.onHeap (f := fun h => h.release v) hm (hm.ordered.leads (Heap.objects_release _ _))).bind
    fun _ m' hm' _ => h m' hm'

theorem Ends.inspect_bind {f : Heap → α} {F : Nat → α → Eval β}
    (h : Ends Q m fun k => F k (f m.heap) m) : Ends Q m fun k => (Eval.inspect f >>= F k) m := h

end

/-! ## Results -/

def Flow.Below (n : Nat) : Flow → Prop
  | .normal => True
  | .returned v => Value.Below n v

def Table.Below (n : Nat) (t : Table) : Prop := ∀ v ∈ t.values, Value.Below n v

structure Value.AllBelow (count n : Nat) (vs : List (Option Value)) : Prop where
  length : vs.length = count
  below : ∀ v ∈ vs, Value.Below n v

theorem Table.Below.set {n : Nat} {t : Table} (ht : t.Below n) (key : Key) {v : Option Value}
    (hv : Value.Below n v) : (t.set key v).Below n := by
  intro x hx
  cases hold : t.get? key.text with
  | none =>
    rw [Table.values_set_new hold] at hx
    rcases List.mem_append.mp hx with hx | hx
    · exact ht x hx
    · simp only [List.mem_cons, List.not_mem_nil, or_false] at hx
      rcases hx with rfl | rfl
      · trivial
      · exact hv
  | some old =>
    have hmem : x ∈ v :: t.values := (Table.perm_values_set hold v).mem_iff.mp (List.mem_cons_of_mem _ hx)
    rcases List.mem_cons.mp hmem with rfl | hx
    · exact hv
    · exact ht x hx

theorem Machine.Tidy.getSlot {m : Machine} (hm : m.Tidy) (slot : Nat) :
    Value.Below m.heap.objects.size (m.stack.get slot) := by
  unfold CallStack.get
  cases hv : m.stack.slots[m.stack.base + slot]? with
  | none => trivial
  | some v => exact hm.slots v (List.mem_of_getElem? (by simpa using hv))

theorem Machine.Tidy.setSlot {m : Machine} (hm : m.Tidy) (slot : Nat) {v : Option Value}
    (hv : Value.Below m.heap.objects.size v) : m.Leads (m.setSlot slot v) := by
  refine hm.leads_objects (Heap.objects_release _ _) ?_ ?_
  · intro x hx
    simp only [Machine.setSlot, CallStack.set] at hx
    split at hx
    · rw [Array.toList_setIfInBounds] at hx
      rcases List.mem_or_eq_of_mem_set hx with hx | rfl
      · exact hm.slots x hx
      · exact hv
    · exact hm.slots x hx
  · simp only [Machine.setSlot, CallStack.set]
    split <;> rfl

theorem Machine.Tidy.push {m : Machine} (hm : m.Tidy) {v : Option Value}
    (hv : Value.Below m.heap.objects.size v) : m.Leads (m.push v) := by
  refine hm.leads_objects rfl ?_ rfl
  intro x hx
  simp only [Machine.push, CallStack.push, Array.toList_push, List.mem_append, List.mem_singleton] at hx
  rcases hx with hx | rfl
  · exact hm.slots x hx
  · exact hv

theorem evalLeaf_ends (l : Leaf) {m : Machine} (hm : m.Tidy) :
    Ends Value.Below m fun _ => evalLeaf l m := by
  unfold evalLeaf
  cases l.kind with
  | str text =>
    cases l.cell with
    | some r => exact (Ends.onHeap hm (hm.ordered.leads rfl)).bind fun _ _ hm' _ => .pure hm'.tidy trivial
    | none =>
      have hmade : Ends (fun n v => Value.Below n (some v)) m fun _ => Eval.make (fun h => h.newStr text) m :=
        .make hm (hm.ordered.leads_newStr text) trivial
      exact hmade.bind fun _ _ hm' hv => .pure hm'.tidy hv
  | bool _ | null | int _ | float _ => exact .pure hm trivial
  | keyword _ => exact .fail hm _
  | identifier =>
    match l.binding with
    | some (.slot k) =>
      have hshared : m.Leads (m.onHeap fun h => h.retain (m.stack.get k)) :=
        hm.leads (hm.ordered.leads (Heap.objects_retain _ _)) rfl
      exact (Ending.ok _ _ hshared ((hm.getSlot k).mono hshared.heap.size)).ends
    | some (.function _) | none => exact .fail hm _

/-! ## Operations -/

theorem operation_ends {k : Keyword} (hk : k.isOperation = true) {args : List Node} {span : Span} {u : Unit}
    (hcheck : checkArity k args span = .ok u) {vs : List (Option Value)} {m : Machine} (hm : m.Tidy)
    (hvs : Value.AllBelow args.length m.heap.objects.size vs) :
    Ends Value.Below m fun _ => operation k vs m := by
  obtain ⟨hleads, v, hv, hbelow⟩ := hm.ordered.leads_applyOperation hk hvs.below
    fun a ha => hvs.length ▸ accepts_of_checkArity hcheck ha
  have hafter : m.Leads { m with heap := (applyOperation k vs m.heap).2.releaseAll vs } :=
    hm.leads (hleads.trans (hleads.ordered.leads (Heap.objects_releaseAll _ _))) rfl
  have heq : operation k vs m =
      .ok v { m with heap := (applyOperation k vs m.heap).2.releaseAll vs } := by
    simp only [operation, hv]
  rw [heq]
  exact (Ending.ok v _ hafter (by simpa using hbelow)).ends

/-! ## Printing -/

/-- The pieces are written to their end, whatever else is to be written behind them. -/
def Piece.Writable (span : Span) (ps : List Piece) : Prop :=
  ∀ rest, (∀ m : Machine, m.Tidy → Ends (fun _ _ => True) m fun k => Eval.writePieces span k rest m) →
    ∀ m : Machine, m.Tidy → Ends (fun _ _ => True) m fun k => Eval.writePieces span k (ps ++ rest) m

namespace Piece.Writable

variable {span : Span}

theorem nil : Writable span [] := fun _ h => h

theorem append {ps qs : List Piece} (hp : Writable span ps) (hq : Writable span qs) :
    Writable span (ps ++ qs) := by
  intro rest h m hm
  rw [List.append_assoc]
  exact hp (qs ++ rest) (hq rest h) m hm

theorem flatMap {α : Type} {l : List α} {f : α → List Piece} (h : ∀ a ∈ l, Writable span (f a)) :
    Writable span (l.flatMap f) := by
  induction l with
  | nil => exact nil
  | cons a l ih =>
    rw [List.forall_mem_cons] at h
    exact h.1.append (ih h.2)

end Piece.Writable

theorem write_ends (s : String) (span : Span) {m : Machine} (hm : m.Tidy) :
    Ends (fun _ _ => True) m fun _ => Eval.write s span m := by
  obtain ⟨heap, stack, sink, log⟩ := m
  unfold Eval.write
  dsimp only
  split
  · exact Ending.ends (.ok () _ (hm.leads (hm.ordered.leads rfl) rfl) trivial)
  · exact Ending.ends (.stopped _ _ (hm.ordered.leads rfl))

theorem writable_text (span : Span) (s : String) : Piece.Writable span [.text s] := by
  intro rest h m hm
  apply Ends.later
  simp only [List.singleton_append, Eval.writePieces_text]
  exact (write_ends s span hm).bind fun _ m' hm' _ => h m' hm'.tidy

/-- What a value contains lies before it, in whatever heap it is written. -/
theorem writable_value (span : Span) {n : Nat} {v : Option Value} (hv : Value.Below n v) :
    Piece.Writable span [.value v] := by
  induction n using Nat.strongRecOn generalizing v with
  | ind n ih =>
    intro rest h m hm
    apply Ends.later
    suffices hp : Piece.Writable span (m.heap.pieces v) from hp rest h m hm
    match v, hv with
    | none, _ | some (.bool _), _ | some (.int _), _ | some (.float _), _ | some (.str _ _), _ =>
      exact writable_text span _
    | some (.tuple r), hr | some (.list r), hr =>
      refine ((writable_text span _).append (.flatMap fun x hx => ?_)).append (writable_text span _)
      have hx := ih r hr (hm.ordered.below_itemsAt r x hx)
      exact (writable_text span _).append hx
    | some (.table r), hr =>
      refine ((writable_text span _).append (.flatMap fun e he => ?_)).append (writable_text span _)
      have he := ih r hr (hm.ordered.below_tableAt r e he)
      exact (writable_text span _).append (he.append (writable_text span _))

theorem print_ends {v : Option Value} (span : Span) {m : Machine} (hm : m.Tidy)
    (hv : Value.Below m.heap.objects.size v) : Ends (fun _ _ => True) m fun k => Eval.print k v span m := by
  have hpieces : Ends (fun _ _ => True) m fun k => Eval.writePieces span k [.value v, .text "\n"] m := by
    refine (writable_value span hv).append (writable_text span "\n") [] ?_ m hm
    intro m' hm'
    refine ⟨0, .ok () m', fun k _ => ?_, .ok () m' hm'.refl trivial⟩
    cases k <;> rfl
  match v, hpieces with
  | some (.str _ s), _ => exact write_ends s span hm
  | none, h | some (.bool _), h | some (.int _), h | some (.float _), h | some (.tuple _), h
  | some (.list _), h | some (.table _), h => exact h

end Lisplet
