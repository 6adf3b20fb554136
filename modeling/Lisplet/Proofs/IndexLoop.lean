import Lisplet.Proofs.Grouping
import Lisplet.Proofs.IntegerLiterals
import Lisplet.Proofs.Overlooked

/-!
# `for` as an index loop

A `for` loop goes through the list that it is given by number, and looks at the list again
before every round. So it does what a `while` loop does that keeps the list in one further
variable and counts in another, whatever the body does to the list. The two loops go round
by round: at the head of each round their machines are alike but for the two variables.
-/

namespace Lisplet

open Node Eval

/-! ## The loop with an index -/

section
variable (token : Token)

def Node.keyword (k : Keyword) : Node := .leaf { token := token, kind := .keyword k }

def Node.number (n : Int64) : Node := .leaf { token := token, kind := .int n }

def Node.slot (k : Nat) : Node :=
  .leaf { token := token, kind := .identifier, binding := some (.slot k) }

def Node.form (k : Keyword) (operands : List Node) : Node :=
  .branch (keyword token k :: operands) token.span none

/-- `(< i (len t))` -/
def indexTest (t i : Nat) : Node := form token .lt [slot token i, form token .len [slot token t]]

/-- `(set v (item t i))`, the body and `(set i (+ i 1))` -/
def indexRound (t i : Nat) (var : Node) (body : List Node) : List Node :=
  form token .set [var, form token .item [slot token t, slot token i]] ::
    (body ++ [form token .set [slot token i, form token .add [slot token i, number token 1]]])

/-- `(set t E) (set i 0) (while (< i (len t)) (set v (item t i)) body... (set i (+ i 1)))`, the
leaves and forms between `E`, `v` and the body all standing at `token`. -/
def indexLoop (t i : Nat) (var list : Node) (body : List Node) : List Node :=
  [form token .set [slot token t, list], form token .set [slot token i, number token 0],
    form token .whileLoop (indexTest token t i :: indexRound token t i var body)]

end

/-! ## Expressions that only look -/

namespace Eval

def Looks (x : Eval α) (m : Machine) (a : α) : Prop :=
  ∀ h : Heap, h.objects = m.heap.objects → ∃ h' : Heap, h'.objects = m.heap.objects ∧
    x { m with heap := h } = .ok a { m with heap := h' }

variable {α β : Type} {m : Machine}

theorem Looks.pure (a : α) : (Pure.pure a : Eval α).Looks m a := fun h e => ⟨h, e, rfl⟩

theorem Looks.bind {x : Eval α} {f : α → Eval β} {a : α} {b : β} (hx : x.Looks m a) (hf : (f a).Looks m b) :
    (x >>= f).Looks m b := by
  intro h e
  obtain ⟨h₁, e₁, hfirst⟩ := hx h e
  obtain ⟨h₂, e₂, hrest⟩ := hf h₁ e₁
  refine ⟨h₂, e₂, ?_⟩
  show EStateM.bind x f _ = _
  rw [EStateM.bind, hfirst]
  exact hrest

theorem Looks.orUndo {x : Eval α} {a : α} (hx : x.Looks m a) (undo : Machine → Machine) :
    (x.orUndo undo).Looks m a := by
  intro h e
  obtain ⟨h₁, e₁, hfirst⟩ := hx h e
  exact ⟨h₁, e₁, by rw [Eval.orUndo, hfirst]⟩

theorem Looks.inspect {f : Heap → α} {a : α} (hf : ∀ h : Heap, h.objects = m.heap.objects → f h = a) :
    (Eval.inspect f).Looks m a :=
  fun h e => ⟨h, e, by rw [Eval.inspect, hf h e]⟩

theorem Looks.release (v : Option Value) : (Eval.release v).Looks m () :=
  fun h e => ⟨h.release v, by rw [Heap.objects_release, e], rfl⟩

theorem Looks.getSlot (k : Nat) : (Eval.getSlot k).Looks m (m.stack.get k) :=
  fun h e => ⟨h.retain (m.stack.get k), by rw [Heap.objects_retain, e], rfl⟩

theorem Looks.operation {k : Keyword} {vs : List (Option Value)} {v : Option Value}
    (happly : ∀ h : Heap, h.objects = m.heap.objects →
      (applyOperation k vs h).1 = some v ∧ (applyOperation k vs h).2.objects = h.objects) :
    (operation k vs).Looks m v := by
  intro h e
  obtain ⟨hvalue, hobjects⟩ := happly h e
  refine ⟨(applyOperation k vs h).2.releaseAll vs, by rw [Heap.objects_releaseAll, hobjects, e], ?_⟩
  unfold Lisplet.operation
  dsimp only
  rw [hvalue]

end Eval

section
variable {w : Walk} {m : Machine} {n n' : Node} {v v' : Option Value}

theorem evalAll_looks_one (hn : (w.eval n).Looks m v) : (w.evalAll [n]).Looks m [v] :=
  .bind hn (.bind (.orUndo (.pure []) _) (.pure _))

theorem evalAll_looks_two (hn : (w.eval n).Looks m v) (hn' : (w.eval n').Looks m v') :
    (w.evalAll [n, n']).Looks m [v, v'] :=
  .bind hn (.bind (.orUndo (evalAll_looks_one hn') _) (.pure _))

theorem test_looks {b : Bool} (hn : (w.eval n).Looks m (some (.bool b))) : (w.test n).Looks m b :=
  .bind hn (.bind (.inspect fun _ _ => rfl) (.bind (.release _) (.pure b)))

end

/-! ## Numbers of rounds -/

theorem less_index {j size : Nat} (hj : j < 2 ^ 63) (hroom : j + 1 < 2 ^ 63 ∨ size < 2 ^ 63) :
    Builtin.less (some (.int (Int64.ofNat j))) (some (Builtin.count size)) =
      some (.bool (decide (j < size))) := by
  have hlt : Int64.ofNat j < Number.clamp size ↔ j < size := by
    rw [Int64.lt_iff_toInt_lt, Int64.toInt_ofNat_of_lt hj, Number.toInt_clamp]
    omega
  simp only [Builtin.less, Builtin.order?, Builtin.count, Builtin.numeric?, Builtin.Numeric.order, hlt,
    Option.map_some, Option.some.injEq, Value.bool.injEq]
  by_cases hsize : j < size
  · simp [Builtin.trichotomy, hsize]
  · simp only [Builtin.trichotomy, hsize, decide_false, Bool.false_eq_true, if_false]
    split
    · rfl
    · split <;> rfl

theorem position?_index {j : Nat} (hj : j < 2 ^ 63) :
    Builtin.position? (some (.int (Int64.ofNat j))) = some j := by
  have hzero : (0 : Int64) ≤ Int64.ofNat j := by
    rw [Int64.le_iff_toInt_le, Int64.toInt_ofNat_of_lt hj, Int64.toInt_zero]
    omega
  simp [Builtin.position?, hzero, Int64.toNatClampNeg_ofNat_of_lt hj]

theorem sum_index (j : Nat) : Builtin.sum (some (.int (Int64.ofNat j))) (some (.int 1)) =
    some (.int (Int64.ofNat (j + 1))) := by
  simp [Builtin.sum, Builtin.operands?, Int64.ofNat_add]

/-! ## The steps of a round -/

section
variable (c : Code) (token : Token) {m : Machine} {r : Ref} {t i j : Nat}

theorem eval_slot (fuel k : Nat) : ((c.walk (fuel + 1)).eval (slot token k)).Looks m (m.stack.get k) := by
  rw [Code.walk_succ]
  exact .getSlot k

theorem eval_number (fuel : Nat) (n : Int64) :
    ((c.walk (fuel + 1)).eval (number token n)).Looks m (some (.int n)) := by
  rw [Code.walk_succ]
  exact .pure _

/-- Operations that are applied to all their operands at once. -/
theorem eval_form {fuel : Nat} {k : Keyword} {operands : List Node} {vs : List (Option Value)} {v : Option Value}
    (hk : ∀ w, Code.evalKeyword w k operands token.span = w.evalAll operands >>= operation k)
    (hoperands : ((c.walk fuel).evalAll operands).Looks m vs)
    (happly : ∀ h : Heap, h.objects = m.heap.objects →
      (applyOperation k vs h).1 = some v ∧ (applyOperation k vs h).2.objects = h.objects) :
    ((c.walk (fuel + 1)).eval (form token k operands)).Looks m v := by
  rw [Code.walk_succ]
  show (Code.evalKeyword (c.walk fuel) k operands token.span).Looks m v
  rw [hk]
  exact .bind hoperands (.operation happly)

theorem test_index (fuel : Nat) (ht : m.stack.get t = some (.list r))
    (hi : m.stack.get i = some (.int (Int64.ofNat j))) (hj : j < 2 ^ 63)
    (hroom : j + 1 < 2 ^ 63 ∨ (m.heap.itemsAt r).size < 2 ^ 63) :
    ((c.walk (fuel + 3)).test (indexTest token t i)).Looks m (decide (j < (m.heap.itemsAt r).size)) := by
  have hlen : ((c.walk (fuel + 2)).eval (form token .len [slot token t])).Looks m
      (some (Builtin.count (m.heap.itemsAt r).size)) := by
    refine eval_form c token (fun _ => rfl) (evalAll_looks_one (eval_slot c token fuel t)) fun h e => ?_
    rw [ht, applyOperation, Builtin.length, Heap.itemsAt_congr e]
    exact ⟨rfl, rfl⟩
  apply test_looks
  refine eval_form c token (fun _ => rfl) (evalAll_looks_two (eval_slot c token (fuel + 1) i) hlen) fun h e => ?_
  rw [hi, applyOperation, less_index hj hroom]
  exact ⟨rfl, rfl⟩

theorem eval_item (fuel : Nat) (ht : m.stack.get t = some (.list r))
    (hi : m.stack.get i = some (.int (Int64.ofNat j))) (hj : j < 2 ^ 63) :
    ((c.walk (fuel + 2)).eval (form token .item [slot token t, slot token i])).Looks m
      (m.heap.itemsAt r)[j]?.join := by
  refine eval_form c token (fun _ => rfl)
    (evalAll_looks_two (eval_slot c token fuel t) (eval_slot c token fuel i)) fun h e => ?_
  have hselect : Builtin.select h (some (.list r)) (some (.int (Int64.ofNat j))) =
      .inl (m.heap.itemsAt r)[j]?.join := by
    simp only [Builtin.select, position?_index hj, Option.bind_some, Heap.itemsAt_congr e]
  simp [ht, hi, applyOperation, Builtin.getItem, hselect]

theorem eval_next (fuel : Nat) (hi : m.stack.get i = some (.int (Int64.ofNat j))) :
    ((c.walk (fuel + 2)).eval (form token .add [slot token i, number token 1])).Looks m
      (some (.int (Int64.ofNat (j + 1)))) := by
  refine eval_form c token (fun _ => rfl)
    (evalAll_looks_two (eval_slot c token fuel i) (eval_number c token fuel 1)) fun h e => ?_
  simp [hi, applyOperation, Builtin.add, sum_index]

theorem block_set {k : Nat} {target : Node} (fuel : Nat) (htarget : slotOf target = .ok k) (e : Node)
    (m : Machine) :
    (c.walk (fuel + 1)).block (form token .set [target, e]) m =
      (match (c.walk fuel).eval e m with
        | .ok v m => .ok .normal (((m.onHeap fun h => h.retain v).setSlot k v).release v)
        | .error stop m => .error stop m) := by
  rw [Code.walk_succ]
  show (do
    let v ← (c.walk fuel).assign target e
    Eval.release v
    pure Flow.normal) m = _
  simp only [Walk.assign, htarget, Eval.checked, bind, EStateM.bind, pure, EStateM.pure]
  cases (c.walk fuel).eval e m <;> rfl

theorem run_set {fuel k : Nat} {target e : Node} {v : Option Value} {m₁ : Machine}
    (htarget : slotOf target = .ok k) (he : (c.walk fuel).eval e m = .ok v m₁) :
    ∃ h : Heap, h.objects = m₁.heap.objects ∧
      (c.walk (fuel + 1)).block (form token .set [target, e]) m =
        .ok .normal { m₁ with heap := h, stack := (m₁.stack.set k v).2 } := by
  refine ⟨((m₁.heap.retain v).release (m₁.stack.set k v).1).release v, by simp, ?_⟩
  rw [block_set c token fuel htarget, he]
  rfl

/-- Setting a variable to what an expression gives that only looks. -/
theorem run_set_looks {fuel k : Nat} {target e : Node} {v : Option Value} (htarget : slotOf target = .ok k)
    (he : ((c.walk fuel).eval e).Looks m v) : ∃ h : Heap, h.objects = m.heap.objects ∧
      (c.walk (fuel + 1)).block (form token .set [target, e]) m =
        .ok .normal { m with heap := h, stack := (m.stack.set k v).2 } := by
  obtain ⟨h, hobjects, heval⟩ := he m.heap rfl
  obtain ⟨h₁, hobjects₁, hset⟩ := run_set c token htarget heval
  exact ⟨h₁, hobjects₁.trans hobjects, hset⟩

end

/-! ## Sequences -/

theorem Walk.sequence_of_normal (w : Walk) {n : Node} {m m' : Machine} (h : w.block n m = .ok .normal m')
    (ns : List Node) : w.sequence (n :: ns) m = w.sequence ns m' := by
  show EStateM.bind (w.block n) _ m = _
  rw [EStateM.bind, h]

theorem Walk.sequence_of_error (w : Walk) {n : Node} {m m' : Machine} {e : Stop} (h : w.block n m = .error e m')
    (ns : List Node) : w.sequence (n :: ns) m = .error e m' := by
  show EStateM.bind (w.block n) _ m = _
  rw [EStateM.bind, h]

theorem Walk.sequence_append_apply (w : Walk) (ns ms : List Node) (m : Machine) :
    w.sequence (ns ++ ms) m = (match w.sequence ns m with
      | .ok .normal m' => w.sequence ms m'
      | result => result) := by
  rw [w.sequence_append]
  show EStateM.bind (w.sequence ns) _ m = _
  rw [EStateM.bind]
  cases w.sequence ns m with
  | error e m' => rfl
  | ok flow m' => cases flow <;> rfl

/-! ## Heads of rounds -/

section
variable {s : CallStack} {k k' : Nat}

theorem CallStack.get_set_self (hk : s.base + k < s.size) (v : Option Value) : (s.set k v).2.get k = v := by
  simp [get, base_set, slots_set, hk]

theorem CallStack.get_set_ne (hne : k ≠ k') (v : Option Value) : (s.set k v).2.get k' = s.get k' := by
  simp [get, base_set, slots_set, hne]

end

section
variable {hidden : Nat → Prop} {a b : Machine} {k : Nat} {h : Heap}

theorem Machine.AlikeBut.recount (hab : a.AlikeBut hidden b) (hh : h.objects = b.heap.objects) :
    a.AlikeBut hidden { b with heap := h } :=
  ⟨hab.objects.trans hh.symm, hab.stack, hab.sink, hab.log⟩

theorem Machine.AlikeBut.set_both (hab : a.AlikeBut hidden b) (hh : h.objects = b.heap.objects)
    (v : Option Value) : ((a.onHeap fun h => h.retain v).setSlot k v).AlikeBut hidden
      { b with heap := h, stack := (b.stack.set k v).2 } := by
  refine ⟨?_, hab.stack.set k v, hab.sink, hab.log⟩
  rw [hh, ← hab.objects]
  simp [Machine.setSlot, Machine.onHeap]

theorem Machine.AlikeBut.set_hidden (hab : a.AlikeBut hidden b) (hk : hidden (b.stack.base + k))
    (hh : h.objects = b.heap.objects) (v : Option Value) :
    a.AlikeBut hidden { b with heap := h, stack := (b.stack.set k v).2 } := by
  refine ⟨hab.objects.trans hh.symm, ⟨?_, ?_, ?_, fun x hx => ?_⟩, hab.sink, hab.log⟩
  · rw [CallStack.size_set, hab.stack.size]
  · rw [CallStack.base_set, hab.stack.base]
  · rw [CallStack.depth_set, hab.stack.depth]
  · have hne : b.stack.base + k ≠ x := fun heq => hx (heq ▸ hk)
    rw [CallStack.slots_set, if_neg (fun hx => hne hx.1), hab.stack.slots x hx]

end

def indexSlots (base t i : Nat) (x : Nat) : Prop := x = base + t ∨ x = base + i

/-- The two further variables hold the list at `r` and the number `j`. -/
structure CallStack.Counts (base t i : Nat) (r : Ref) (j : Nat) (s : CallStack) : Prop where
  frame : s.base = base
  list : s.get t = some (.list r)
  index : s.get i = some (.int (Int64.ofNat j))
  t_lt : base + t < s.size
  i_lt : base + i < s.size

/-- Both loops are about to look at element number `j`. -/
structure RoundHead (base t i : Nat) (r : Ref) (j : Nat) (a b : Machine) : Prop where
  alike : a.AlikeBut (indexSlots base t i) b
  counts : b.stack.Counts base t i r j

section
variable {base t i j : Nat} {r : Ref} {s s' : CallStack}

theorem CallStack.Counts.kept (h : s.Counts base t i r j) (hs : s.SameOutside (fun k => k ≠ t ∧ k ≠ i) s') :
    s'.Counts base t i r j := by
  have ht : s'.get t = s.get t := by
    rw [get, get, hs.base, hs.slots (s.base + t) (by omega)]
  have hi : s'.get i = s.get i := by
    rw [get, get, hs.base, hs.slots (s.base + i) (by omega)]
  exact ⟨hs.base.trans h.frame, ht.trans h.list, hi.trans h.index, hs.size ▸ h.t_lt, hs.size ▸ h.i_lt⟩

theorem CallStack.Counts.next (h : s.Counts base t i r j) (hti : t ≠ i) :
    (s.set i (some (.int (Int64.ofNat (j + 1))))).2.Counts base t i r (j + 1) := by
  have hsize := size_set s i (some (.int (Int64.ofNat (j + 1))))
  refine ⟨(base_set _ _ _).trans h.frame, ?_, ?_, hsize ▸ h.t_lt, hsize ▸ h.i_lt⟩
  · rw [get_set_ne hti.symm, h.list]
  · rw [get_set_self (h.frame ▸ h.i_lt)]

theorem CallStack.AlikeBut.hides (h : s.AlikeBut (indexSlots base t i) s') (hs : s'.Counts base t i r j) :
    s.Hides (fun k => k ≠ t ∧ k ≠ i) (indexSlots base t i) := by
  have hbase : s.base = base := h.base.trans hs.frame
  refine ⟨fun k hk hx => ?_, fun x hx => ?_⟩
  · unfold indexSlots at hx
    omega
  · rw [h.size]
    rcases hx with rfl | rfl
    · exact hs.t_lt
    · exact hs.i_lt

end

inductive RoundEnds (base t i : Nat) (r : Ref) (j : Nat) :
    EStateM.Result Stop Machine Flow → EStateM.Result Stop Machine Flow → Prop
  | normal {a b : Machine} : RoundHead base t i r (j + 1) a b →
      RoundEnds base t i r j (.ok .normal a) (.ok .normal b)
  | returned (v : Option Value) {a b : Machine} : a.AlikeBut (indexSlots base t i) b →
      RoundEnds base t i r j (.ok (.returned v) a) (.ok (.returned v) b)
  | stopped (e : Stop) {a b : Machine} : a.AlikeBut (indexSlots base t i) b →
      RoundEnds base t i r j (.error e a) (.error e b)

/-! ## Loops -/

/-- A loop through the list at `r` comes to round `i` with this machine. -/
inductive Code.Comes (slot : Nat) (r : Ref) (body : Eval Flow) (m : Machine) : Nat → Machine → Prop
  | first : Comes slot r body m 0 m
  | next {i : Nat} {a a' : Machine} {v : Option Value} : Comes slot r body m i a →
      (a.heap.itemsAt r)[i]? = some v →
      body ((a.onHeap fun h => h.retain v).setSlot slot v) = .ok .normal a' → Comes slot r body m (i + 1) a'

namespace Eval

/-- The same ends, on machines that are the same but for owners and the slots in `hidden`. -/
inductive SameEnd (hidden : Nat → Prop) :
    EStateM.Result Stop Machine α → EStateM.Result Stop Machine α → Prop
  | ok (a : α) {m m' : Machine} : m.AlikeBut hidden m' → SameEnd hidden (.ok a m) (.ok a m')
  | stopped (e : Stop) {m m' : Machine} : m.AlikeBut hidden m' → SameEnd hidden (.error e m) (.error e m')

theorem SameEnd.thenRelease {hidden : Nat → Prop} {act : Eval α} {m : Machine}
    {result : EStateM.Result Stop Machine α} (h : SameEnd hidden (act m) result) (v : Option Value) :
    SameEnd hidden (act.thenClose (Machine.release v) m) result := by
  unfold Eval.thenClose
  generalize act m = first at h ⊢
  cases h with
  | ok a hm => exact .ok a ⟨(Heap.objects_release _ v).trans hm.objects, hm.stack, hm.sink, hm.log⟩
  | stopped e hm => exact .stopped e ⟨(Heap.objects_release _ v).trans hm.objects, hm.stack, hm.sink, hm.log⟩

end Eval

section
variable (c : Code) (token : Token) (fuel : Nat) {base t i v : Nat} {r : Ref} {var : Node} {body : List Node}
  (hvar : slotOf var = .ok v) (hti : t ≠ i) (htv : t ≠ v) (hiv : i ≠ v)
  (hbody : AllIn (Leaf.SlotIn fun k => k ≠ t ∧ k ≠ i) body)
include hvar hti htv hiv hbody

theorem round_alike {j : Nat} {a b : Machine} (hhead : RoundHead base t i r j a b) (hj : j < 2 ^ 63)
    {item : Option Value} (hitem : (a.heap.itemsAt r)[j]? = some item) :
    RoundEnds base t i r j
      ((c.walk (fuel + 3)).sequence body ((a.onHeap fun h => h.retain item).setSlot v item))
      ((c.walk (fuel + 3)).sequence (indexRound token t i var body) b) := by
  have hlook := eval_item c token fuel hhead.counts.list hhead.counts.index hj
  obtain ⟨h₁, hobjects, hset⟩ := run_set_looks c token hvar hlook
  rw [← Heap.itemsAt_congr hhead.alike.objects, hitem, Option.join_some] at hset
  rw [indexRound, Walk.sequence_of_normal _ hset, Walk.sequence_append_apply]
  have halike := hhead.alike.set_both (k := v) hobjects item
  have hcounts := hhead.counts.kept (CallStack.sameOutside_set ⟨htv.symm, hiv.symm⟩ b.stack item)
  generalize hb₁ : ({ b with heap := h₁, stack := (b.stack.set v item).2 } : Machine) = b₁ at halike ⊢
  replace hcounts : b₁.stack.Counts base t i r j := hb₁ ▸ hcounts
  -- The body of the first loop runs beside that of the second, which leaves `t` and `i` alone.
  have hkeeps := sequence_keeps (walk_keeps c (fuel + 3)) hbody b₁
  have hends := sequence_overlooks (walk_overlooks c (fuel + 3)) hbody _ _ b₁ (halike.stack.hides hcounts) halike
  unfold Eval.after at hkeeps
  generalize (c.walk (fuel + 3)).sequence body b₁ = result' at hkeeps hends ⊢
  generalize (c.walk (fuel + 3)).sequence body _ = result at hends ⊢
  cases hends with
  | stopped e hm => exact .stopped e hm
  | @ok flow a₂ b₂ hm _ _ =>
    cases flow with
    | returned value => exact .returned value hm
    | normal =>
      have hb₂ := hcounts.kept hkeeps
      have hslot : slotOf (slot token i) = .ok i := rfl
      obtain ⟨h₃, hobjects₃, hnext⟩ := run_set_looks c token hslot (eval_next c token fuel hb₂.index)
      dsimp only
      rw [Walk.sequence_singleton, hnext]
      exact .normal ⟨hm.set_hidden (.inr (by rw [hb₂.frame])) hobjects₃ _, hb₂.next hti⟩

theorem loops_alike {m : Machine} {total : Nat}
    (hroom : 2 ^ 63 ≤ total → ∀ a, Code.Comes v r ((c.walk (fuel + 3)).sequence body) m (2 ^ 63 - 1) a →
      (a.heap.itemsAt r).size < 2 ^ 63)
    (left : Nat) {j : Nat} {a b : Machine} (hhead : RoundHead base t i r j a b) (hj : j < 2 ^ 63)
    (hcomes : Code.Comes v r ((c.walk (fuel + 3)).sequence body) m j a) (hleft : j + left ≤ total) :
    SameEnd (indexSlots base t i) (Code.forLoop v r ((c.walk (fuel + 3)).sequence body) left j a)
      (Code.whileLoop ((c.walk (fuel + 3)).test (indexTest token t i))
        ((c.walk (fuel + 3)).sequence (indexRound token t i var body)) left b) := by
  induction left generalizing j a b with
  | zero => exact .stopped _ hhead.alike
  | succ left ih =>
    have hitems := Heap.itemsAt_congr hhead.alike.objects r
    -- Both loops see the same end of the list, as long as its length does not clamp.
    have hfits : j + 1 < 2 ^ 63 ∨ (a.heap.itemsAt r).size < 2 ^ 63 := by
      by_cases hlast : j + 1 < 2 ^ 63
      · exact .inl hlast
      · have hj : j = 2 ^ 63 - 1 := by omega
        exact .inr (hroom (by omega) a (hj ▸ hcomes))
    obtain ⟨h, hobjects, htest⟩ :=
      test_index c token fuel hhead.counts.list hhead.counts.index hj (hitems ▸ hfits) b.heap rfl
    have hhead' : RoundHead base t i r j a { b with heap := h } := ⟨hhead.alike.recount hobjects, hhead.counts⟩
    replace htest : (c.walk (fuel + 3)).test (indexTest token t i) b = .ok _ { b with heap := h } := htest
    simp only [Code.forLoop, Code.whileLoop, htest, ← hitems]
    cases hitem : (a.heap.itemsAt r)[j]? with
    | none =>
      have hend : ¬ j < (a.heap.itemsAt r).size := by
        rw [Array.getElem?_eq_none_iff] at hitem
        omega
      simp only [hend, decide_false]
      exact .ok _ hhead'.alike
    | some item =>
      have hmore : j < (a.heap.itemsAt r).size := (Array.getElem?_eq_some_iff.mp hitem).1
      simp only [hmore, decide_true]
      have hround := round_alike c token fuel hvar hti htv hiv hbody hhead' hj hitem
      generalize hresult : (c.walk (fuel + 3)).sequence body _ = result at hround ⊢
      generalize (c.walk (fuel + 3)).sequence (indexRound token t i var body) _ = result' at hround ⊢
      cases hround with
      | stopped e hm => exact .stopped e hm
      | returned value hm => exact .ok _ hm
      -- the round has brought the index to `j + 1` on both sides
      | normal hnext => exact ih hnext (by omega) (.next hcomes hitem hresult) (by omega)

end

section
variable (c : Code) (token : Token) (fuel : Nat) {t i v : Nat} {r : Ref} {var : Node} {body : List Node}
  {m : Machine}

theorem Code.stack_eval {n : Node} {value : Option Value} {m₁ : Machine} (h : c.eval fuel n m = .ok value m₁) :
    m₁.stack.base = m.stack.base ∧ m₁.stack.size = m.stack.size := by
  have hkeeps := (walk_keeps c fuel).eval (all_of_forall slotIn_true n) m
  have hafter : ((c.walk fuel).eval n).after m = m₁ := by
    rw [Eval.after, show (c.walk fuel).eval n m = _ from h]
  rw [hafter] at hkeeps
  exact ⟨hkeeps.base, hkeeps.size⟩

theorem exec_for {head : Leaf} {list : Node} {span : Span} (hhead : head.kind = .keyword .forEach)
    (hvar : slotOf var = .ok v) (m : Machine) :
    c.exec fuel (.leaf head :: var :: list :: body) span m =
      (match c.eval fuel list m with
        | .ok (some (.list r)) m =>
          (Code.forLoop v r ((c.walk fuel).sequence body) fuel 0).thenClose (Machine.release (some (.list r))) m
        | .ok other m => .ok .normal (m.release other)
        | .error stop m => .error stop m) := by
  have hcount : checkArity .forEach (var :: list :: body) span = .ok () := rfl
  have heval : (c.walk fuel).eval list = c.eval fuel list := rfl
  simp only [Code.exec, Code.runForm, hhead, Code.runKeyword, hcount, hvar, heval, Eval.checked, bind,
    EStateM.bind, pure, EStateM.pure]
  cases c.eval fuel list m with
  | error stop m => rfl
  | ok value m =>
    cases value with
    | none => rfl
    | some x => cases x <;> rfl

theorem RoundHead.start {m₁ : Machine} (hti : t ≠ i) (ht : m₁.stack.base + t < m₁.stack.size)
    (hi : m₁.stack.base + i < m₁.stack.size) {h h' : Heap} (hh : h.objects = m₁.heap.objects)
    (hh' : h'.objects = h.objects) : RoundHead m₁.stack.base t i r 0 m₁
      { m₁ with
        heap := h'
        stack := ((m₁.stack.set t (some (.list r))).2.set i (some (.int 0))).2 } := by
  have hsame := Machine.AlikeBut.refl (indexSlots m₁.stack.base t i) m₁
  have hlist := hsame.set_hidden (.inl rfl) hh (some (.list r))
  refine ⟨hlist.set_hidden (.inr ?_) hh' (some (.int 0)), ?_⟩
  · rw [CallStack.base_set]
  · refine ⟨?_, ?_, ?_, ?_, ?_⟩
    · rw [CallStack.base_set, CallStack.base_set]
    · rw [CallStack.get_set_ne hti.symm, CallStack.get_set_self ht]
    · rw [CallStack.get_set_self (by rwa [CallStack.base_set, CallStack.size_set])]
      rfl
    · rwa [CallStack.size_set, CallStack.size_set]
    · rwa [CallStack.size_set, CallStack.size_set]

theorem indexLoop_of_list (hti : t ≠ i) {list : Node} {m₁ : Machine}
    (ht : m₁.stack.base + t < m₁.stack.size) (hi : m₁.stack.base + i < m₁.stack.size)
    (hlist : (c.walk (fuel + 3)).eval list m = .ok (some (.list r)) m₁) :
    ∃ b, RoundHead m₁.stack.base t i r 0 m₁ b ∧
      (c.walk (fuel + 4)).sequence (indexLoop token t i var list body) m =
        Code.whileLoop ((c.walk (fuel + 3)).test (indexTest token t i))
          ((c.walk (fuel + 3)).sequence (indexRound token t i var body)) (fuel + 3) b := by
  have hslot (k : Nat) : slotOf (slot token k) = .ok k := rfl
  obtain ⟨h, hobjects, hset⟩ := run_set c token (hslot t) hlist
  obtain ⟨h', hobjects', hzero⟩ := run_set_looks c token (hslot i) (eval_number c token (fuel + 2) 0)
    (m := { m₁ with heap := h, stack := (m₁.stack.set t (some (.list r))).2 })
  refine ⟨_, .start hti ht hi hobjects hobjects', ?_⟩
  rw [indexLoop, Walk.sequence_of_normal _ hset, Walk.sequence_of_normal _ hzero, Walk.sequence_singleton]
  rfl

end

/-- `for` goes as the index loop does that it stands for, with any fuel, whatever the body does
to the list, the variable or the frame. The index of the `while` loop is an integer and `len`
clamps, so the two would part at element number `2 ^ 63 - 1`, if a list could be that long.
When the expression gives something else than a list, nothing happens after it. -/
theorem for_runs_as_index_loop (c : Code) (fuel : Nat) (m : Machine) {head : Leaf} {v : Nat} {var : Node}
    (hhead : head.kind = .keyword .forEach) (hvar : slotOf var = .ok v) (list : Node) (body : List Node)
    (span : Span) :
    (∀ (token : Token) (t i : Nat) (r : Ref) (m₁ : Machine), t ≠ i → t ≠ v → i ≠ v →
      m.stack.base + t < m.stack.size → m.stack.base + i < m.stack.size →
      AllIn (Leaf.SlotIn fun k => k ≠ t ∧ k ≠ i) body →
      c.eval (fuel + 3) list m = .ok (some (.list r)) m₁ →
      (2 ^ 63 ≤ fuel + 3 → ∀ a, Code.Comes v r ((c.walk (fuel + 3)).sequence body) m₁ (2 ^ 63 - 1) a →
        (a.heap.itemsAt r).size < 2 ^ 63) →
      SameEnd (indexSlots m.stack.base t i) (c.exec (fuel + 3) (.leaf head :: var :: list :: body) span m)
        ((c.walk (fuel + 4)).sequence (indexLoop token t i var list body) m)) ∧
    (∀ (value : Option Value) (m₁ : Machine), c.eval (fuel + 3) list m = .ok value m₁ →
      (∀ r, value ≠ some (.list r)) → ∃ m₂, m₁.AlikeBut (fun _ => False) m₂ ∧
        c.exec (fuel + 3) (.leaf head :: var :: list :: body) span m = .ok .normal m₂) ∧
    (∀ (stop : Stop) (m₁ : Machine), c.eval (fuel + 3) list m = .error stop m₁ →
      c.exec (fuel + 3) (.leaf head :: var :: list :: body) span m = .error stop m₁ ∧
        ∀ token t i, (c.walk (fuel + 4)).sequence (indexLoop token t i var list body) m = .error stop m₁) := by
  refine ⟨?_, ?_, ?_⟩
  · intro token t i r m₁ hti htv hiv ht hi hbody hlist hroom
    obtain ⟨hbase, hsize⟩ := c.stack_eval _ hlist
    rw [← hbase, ← hsize] at ht hi
    obtain ⟨b, hstart, hloop⟩ := indexLoop_of_list c token fuel hti ht hi hlist
    rw [exec_for c _ hhead hvar, hlist, hloop, ← hbase]
    exact (loops_alike c token fuel hvar hti htv hiv hbody hroom (fuel + 3) hstart (by decide) .first
      (by omega)).thenRelease _
  · intro value m₁ hvalue hother
    refine ⟨m₁.release value, ?_, ?_⟩
    · exact (Machine.AlikeBut.refl _ m₁).recount (Heap.objects_release _ value)
    · rw [exec_for c _ hhead hvar, hvalue]
      cases value with
      | none => rfl
      | some x =>
        cases x with
        | list r => exact absurd rfl (hother r)
        | _ => rfl
  · intro stop m₁ hstop
    refine ⟨?_, fun token t i => ?_⟩
    · rw [exec_for c _ hhead hvar, hstop]
    · have hslot : slotOf (slot token t) = .ok t := rfl
      have hset := block_set c token (fuel + 3) hslot list m
      rw [show (c.walk (fuel + 3)).eval list m = _ from hstop] at hset
      exact Walk.sequence_of_error _ hset _

/-- `(for x (set xs (list 1)) (print x) (if (< (len xs) 3) (push xs x)))`, with a list that
grows on the way, and the same loop through a number and through an expression that stops. -/
theorem for_runs_as_index_loop_growing :
    let make := form default
    let x := slot default 0
    let xs := slot default 3
    let grown := make .set [xs, make .list [number default 1]]
    let body := [make .print [x], make .ifThen [make .lt [make .len [xs], number default 3], make .push [xs, x]]]
    let c : Code := soleFunction []
    let m : Machine := { stack := { slots := #[none, none, none, none] } }
    let loop (list : Node) := c.exec 12 (keyword default .forEach :: x :: list :: body) default m
    let indexed (list : Node) := (c.walk 13).sequence (indexLoop default 1 2 x list body) m
    SameEnd (indexSlots 0 1 2) (loop grown) (indexed grown) ∧
      (∃ m₂, m.AlikeBut (fun _ => False) m₂ ∧ loop (number default 5) = .ok .normal m₂) ∧
      ∃ stop, loop (.branch [] default none) = .error stop m ∧
        indexed (.branch [] default none) = .error stop m := by
  intro make x xs grown body c m loop indexed
  have hhead : ({ token := default, kind := .keyword .forEach } : Leaf).kind = .keyword .forEach := rfl
  have hx : slotOf x = .ok 0 := rfl
  have hruns (list : Node) := for_runs_as_index_loop c 9 m hhead hx list body default
  have hbody : AllIn (Leaf.SlotIn fun k => k ≠ 1 ∧ k ≠ 2) body := by
    simp [body, make, x, xs, form, keyword, slot, number, AllIn, All, Leaf.SlotIn]
  refine ⟨?_, ?_, ?_⟩
  · exact (hruns grown).1 default 1 2 0 _ (by decide) (by decide) (by decide) (by decide) (by decide) hbody rfl
      fun hlate => absurd hlate (by decide)
  · exact (hruns (number default 5)).2.1 _ m rfl (by simp)
  · obtain ⟨hloop, hindexed⟩ := (hruns (.branch [] default none)).2.2 _ m rfl
    exact ⟨_, hloop, hindexed default 1 2⟩

end Lisplet
