import Lisplet.Proofs.Cutoff
import Lisplet.Proofs.Reclaim
import Lisplet.Proofs.Reordering

/-!
# Running again

A program may be run as often as one likes on the machine that earlier runs left
behind. They leave objects on the heap, bytes in the output and notes in the log. No
run can tell: it appends the same bytes as the first run and ends like it. Objects
that it makes lie in other places only.
-/

namespace Lisplet

open Node

/-! ## Earlier output -/

def Machine.behind (earlier : ByteArray) (m : Machine) : Machine :=
  { m with sink := { m.sink with bytes := earlier ++ m.sink.bytes } }

def Eval.endingOn (f : Machine → Machine) : EStateM.Result Stop Machine α → EStateM.Result Stop Machine α
  | .ok a m => .ok a (f m)
  | .error e m => .error e (f m)

namespace Eval

def Appends (act : Eval α) : Prop :=
  ∀ (earlier : ByteArray) (m : Machine), act (m.behind earlier) = endingOn (Machine.behind earlier) (act m)

section
variable {α β : Type}

theorem Silent.appends {act : Eval α} (h : act.Silent) : act.Appends := by
  obtain ⟨f, -, hf⟩ := h
  intro earlier m
  rw [hf m, hf (m.behind earlier)]
  show (f m.heap m.stack).on _ _ = _
  unfold Effect.on
  cases (f m.heap m.stack).ending <;> rfl

theorem Silent.update_behind {change : Machine → Machine} (h : (update change).Silent) (earlier : ByteArray)
    (m : Machine) : change (m.behind earlier) = (change m).behind earlier := by
  unfold Machine.behind
  rw [h.update_withSink, h.update_sink]

theorem Appends.bind {x : Eval α} {f : α → Eval β} (hx : x.Appends) (hf : ∀ a, (f a).Appends) :
    (x >>= f).Appends := by
  intro earlier m
  show EStateM.bind x f (m.behind earlier) = endingOn _ (EStateM.bind x f m)
  unfold EStateM.bind
  rw [hx earlier m]
  cases x m with
  | ok a m' => exact hf a earlier m'
  | error e m' => rfl

theorem Appends.orUndo {x : Eval α} {undo : Machine → Machine} (hx : x.Appends) (h : (update undo).Silent) :
    (x.orUndo undo).Appends := by
  intro earlier m
  unfold Eval.orUndo
  rw [hx earlier m]
  cases x m with
  | ok a m' => rfl
  | error e m' => exact congrArg (EStateM.Result.error e) (h.update_behind earlier m')

theorem Appends.thenClose {x : Eval α} {close : Machine → Machine} (hx : x.Appends)
    (h : (update close).Silent) : (x.thenClose close).Appends := by
  intro earlier m
  unfold Eval.thenClose
  rw [hx earlier m]
  cases x m with
  | ok a m' => exact congrArg (EStateM.Result.ok a) (h.update_behind earlier m')
  | error e m' => exact congrArg (EStateM.Result.error e) (h.update_behind earlier m')

theorem appends_write (text : String) (span : Span) : (write text span).Appends := by
  rintro earlier ⟨heap, stack, ⟨bytes, room⟩, log⟩
  have hwrite : ∀ done : ByteArray, Sink.write ⟨earlier ++ bytes, room⟩ done =
      ((Sink.write ⟨bytes, room⟩ done).1, { (Sink.write ⟨bytes, room⟩ done).2 with
        bytes := earlier ++ (Sink.write ⟨bytes, room⟩ done).2.bytes }) := by
    intro done
    unfold Sink.write
    cases room with
    | none => simp [ByteArray.append_assoc]
    | some n =>
      dsimp only
      split <;> simp [ByteArray.append_assoc]
  unfold write Machine.behind
  dsimp only
  rw [hwrite]
  cases Sink.write ⟨bytes, room⟩ text.toUTF8 with
  | mk complete sink => cases complete <;> rfl

theorem appends_writePieces (span : Span) (fuel : Nat) (pieces : List Piece) :
    (writePieces span fuel pieces).Appends := by
  induction fuel generalizing pieces with
  | zero => cases pieces <;> exact fun _ _ => rfl
  | succ fuel ih =>
    intro earlier m
    rcases pieces with _ | ⟨s | v, rest⟩
    · rfl
    · simp only [writePieces, appends_write s span earlier m]
      cases write s span m with
      | ok _ m' => exact ih rest earlier m'
      | error e m' => rfl
    · exact ih (m.heap.pieces v ++ rest) earlier m

theorem appends_print (fuel : Nat) (v : Option Value) (span : Span) : (print fuel v span).Appends := by
  unfold print
  split
  · exact appends_write _ span
  · exact appends_writePieces span fuel _

end

end Eval

theorem appends_congruence : Congruence fun x _ => x.Appends where
  silent h := h.appends
  bind := Eval.Appends.bind
  orUndo := Eval.Appends.orUndo
  thenClose := Eval.Appends.thenClose

theorem run_appends (c : Code) (fuel : Nat) : (c.run fuel).Appends := by
  have hruns : RespectsRuns (fun _ => True) fun x _ => x.Appends :=
    { appends_congruence.respectsCalls with
      print := fun fuel v span _ => Eval.appends_print fuel v span
      started := (Eval.silent_update_note (fun _ => .mainStarted) fun _ => .inl rfl).appends
      finished := fun h =>
        h.thenClose (Eval.silent_update_note (fun s => .mainFinished s.size) fun _ => .inl rfl) }
  exact hruns.run (fun _ n _ => .of_forall (fun _ => trivial) n) fuel fun _ _ => trivial

/-! ## Earlier objects -/

theorem refs_loadLeaf (h : Heap) (l : Leaf) :
    Value.refs (loadLeaf h l).1.literal = List.range' h.objects.size (Node.leaf l).cells := by
  rw [cells_leaf]
  unfold loadLeaf Leaf.isLiteral
  cases hk : l.kind with
  | str text => simp [Leaf.literal, Heap.alloc, Value.refs, Value.ref?]
  | _ => simp [Leaf.literal, hk, Value.refs]

mutual

/-- Literals get the next places, one after the other. -/
theorem refs_loadNode : ∀ (h : Heap) (n : Node),
    (loadNode h n).1.literals.flatMap Value.refs = List.range' h.objects.size n.cells
  | h, .leaf l => by
    rw [← refs_loadLeaf]
    simp [loadNode, literals]
  | h, .branch cs span tag => by
    rw [cells_branch, ← refs_loadAll h cs, loadNode, literals, leaves_branch, List.map_flatMap]
    rfl

theorem refs_loadAll : ∀ (h : Heap) (ns : List Node),
    ((loadAll h ns).1.flatMap literals).flatMap Value.refs =
      List.range' h.objects.size (total (ns.map cells))
  | h, [] => rfl
  | h, n :: ns => by
    rw [loadAll, List.flatMap_cons, List.flatMap_append, refs_loadNode h n, refs_loadAll (loadNode h n).2 ns,
      size_loadNode, List.map_cons, total, ← List.range'_append_1]

end

/-- Whatever the caller does, literals stay strings. -/
theorem str_after (p : Program) (limit : Option Nat) (sink : Sink) (log : Log) (deeds : List Deed) {r : Ref}
    (hr : r < p.root.cells) :
    ((Interpreter.start p limit sink log).after deeds).machine.heap.objects[r]? = some .str := by
  have hrefs := refs_loadNode {} p.root
  have hmem : r ∈ (loadNode {} p.root).1.literals.flatMap Value.refs := by
    rw [hrefs]
    simpa using hr
  obtain ⟨v, hv, hr⟩ := List.mem_flatMap.mp hmem
  have howned := (inOrder_after p limit sink log deeds).owned
  have hfits := howned.1 v (List.mem_append_right _ hv)
  obtain ⟨l, -, rfl⟩ := List.mem_map.mp hv
  exact Heap.str_of_literal hfits hr

/-- Of `size` places the first `n` stay where they are, and new ones come behind all of them. -/
def pastPlaces (n size r r' : Nat) : Prop := (r < n ∧ r' = r) ∨ ∃ k, r = n + k ∧ r' = size + k

theorem pastPlaces_unique {n size a b a' b' : Nat} (h : n ≤ size) (ha : pastPlaces n size a a')
    (hb : pastPlaces n size b b') : a = b ↔ a' = b' := by
  rcases ha with ⟨ha, rfl⟩ | ⟨k, rfl, rfl⟩ <;> rcases hb with ⟨hb, rfl⟩ | ⟨l, rfl, rfl⟩ <;> omega

def Renaming.past {n size : Nat} (h : n ≤ size) : Renaming where
  pairs := pastPlaces n size
  unique := pastPlaces_unique h

theorem sameObjects_past {os os' : Array Object} (h : os.size ≤ os'.size)
    (hos : ∀ r < os.size, os[r]? = some .str) (hos' : ∀ r < os.size, os'[r]? = some .str) :
    (Renaming.past h).SameObjects os os' := by
  refine ⟨?_, fun k => .inr ⟨k, rfl, rfl⟩⟩
  rintro r r' (⟨hr, rfl⟩ | ⟨k, rfl, rfl⟩)
  · rw [hos r' hr, hos' r' hr]
    exact .some .str
  · simp

/-! ## The same program again -/

/-- A program is linked like itself if its literals stay where they are. -/
theorem relinked_self {p : Program} {ds : List Declaration} (hl : p.Lists ds) {ρ : Renaming}
    (hρ : ∀ k < offset p.root.children p.root.children.length, ρ.pairs k k) (limit : Option Nat) :
    Code.Relinked ρ (p.Renumbers p) ⟨p.load.1, limit⟩ ⟨p.load.1, limit⟩ := by
  refine ⟨rfl, ?_⟩
  rintro i j ⟨x, hi, hj⟩
  have hnodup : p.names.Nodup := hl.names ▸ hl.different
  obtain rfl : i = j := (List.getElem?_inj (List.getElem?_eq_some_iff.mp hi).1 hnodup).mp (hi.trans hj.symm)
  rw [hl.names, List.getElem?_map] at hi
  obtain ⟨d, hd, rfl⟩ := Option.map_eq_some_iff.mp hi
  have hentry := hl.entry i d hd
  have hform := hl.form i d hd
  refine ⟨_, d.form, hentry, hentry, ?_⟩
  show RelatedAll _ (p.load.1.body i) (p.load.1.body i)
  rw [body_load hentry hform]
  refine (relinked_loadNode _ _ (related_form (rebound_bound (fun _ => Iff.rfl) d.definition) _ _ _ _ _) ?_).children.drop 2
  intro k hk
  rw [size_loadTake]
  exact hρ _ (offset_add_lt_total (by simpa [cellsAt, hform] using hk))

theorem room_does {c : Code} {s : Caller} (h : s.machine.sink.room = none) (d : Deed) :
    (s.does c d).machine.sink.room = none := by
  cases d with
  | run fuel =>
    have hgrows := (run_cuts (n := 0) (fun _ _ _ _ => rfl) c fuel).grows s.machine h
    unfold Caller.does
    dsimp only
    generalize c.run fuel s.machine = result at hgrows ⊢
    cases result with
    | ok v m => exact hgrows.1
    | error e m => exact hgrows.1
  | share _ | take _ _ | drop _ =>
    unfold Caller.does
    dsimp only
    split <;> exact h

theorem room_after {i : Interpreter} (h : i.machine.sink.room = none) (deeds : List Deed) :
    (i.after deeds).machine.sink.room = none := by
  unfold Interpreter.after
  have hstart : (⟨i.machine, []⟩ : Caller).machine.sink.room = none := h
  generalize (⟨i.machine, []⟩ : Caller) = s at hstart
  induction deeds generalizing s with
  | nil => exact hstart
  | cons d deeds ih => exact ih (s.does i.code d) (room_does hstart d)

def Machine.unprinted (m : Machine) : Machine := { m with sink := { m.sink with bytes := .empty } }

theorem Machine.behind_unprinted (m : Machine) : m.unprinted.behind m.sink.bytes = m := by
  unfold behind unprinted
  simp

/-- Before and after whatever the caller does, the machines are the same but for what was printed. -/
theorem sameMachine_after (p : Program) (limit : Option Nat) {sink : Sink} (hsink : sink.room = none)
    (log : Log) (deeds : List Deed) :
    let i := Interpreter.start p limit sink log
    ∃ ρ : Renaming, (∀ k < p.root.cells, ρ.pairs k k) ∧
      ρ.SameMachine i.machine.unprinted (i.after deeds).machine.unprinted := by
  intro i
  let m := (i.after deeds).machine
  have hobjects : i.machine.heap.objects = Array.replicate p.root.cells .str := by
    show (loadNode {} p.root).2.objects = _
    rw [objects_loadNode]
    simp
  have hsize : i.machine.heap.objects.size = p.root.cells := by simp [hobjects]
  have hfirst : ∀ r < i.machine.heap.objects.size, i.machine.heap.objects[r]? = some .str := by
    intro r hr
    rw [hobjects, Array.getElem?_replicate, if_pos (hsize ▸ hr)]
  have hlater : ∀ r < i.machine.heap.objects.size, m.heap.objects[r]? = some .str :=
    fun r hr => str_after p limit sink log deeds (hsize ▸ hr)
  have hle : i.machine.heap.objects.size ≤ m.heap.objects.size :=
    Nat.not_lt.mp fun hlt => by simpa using hlater _ hlt
  refine ⟨.past hle, fun k hk => .inl ⟨hsize ▸ hk, rfl⟩, sameObjects_past hle hfirst hlater, ?_, ?_⟩
  · show Renaming.SameStack _ i.machine.stack m.stack
    rw [(inOrder_after p limit sink log deeds).stack]
    exact ⟨.nil, rfl, rfl⟩
  · have hroom : m.sink.room = i.machine.sink.room := (room_after hsink deeds).trans hsink.symm
    show m.unprinted.sink = i.machine.unprinted.sink
    simp only [Machine.unprinted, hroom]

/-- A run on `m` appends the bytes that the first run appends and ends like it: with the same
error, or with the same value up to a renaming of places. -/
def Interpreter.RunsAlike (i : Interpreter) (m : Machine) : Prop :=
  ∃ ρ : Renaming, ∀ fuel, ∃ printed,
    ((i.code.run fuel).after i.machine).sink.bytes = i.machine.sink.bytes ++ printed ∧
    ((i.code.run fuel).after m).sink.bytes = m.sink.bytes ++ printed ∧
    (∀ v first, i.code.run fuel i.machine = .ok v first → ∃ v' later,
      i.code.run fuel m = .ok v' later ∧ ρ.SameValue v v' ∧
      ρ.SameObjects first.heap.objects later.heap.objects) ∧
    (∀ stop first, i.code.run fuel i.machine = .error stop first →
      ∃ later, i.code.run fuel m = .error stop later)

/-- However often a program was run before, with whatever end, and whatever the caller kept of
its values, the next run is like the first. -/
theorem every_run_alike {root : Node} {p : Program} (h : resolve root = .ok p) {sink : Sink}
    (hsink : sink.room = none) (limit : Option Nat) (log : Log) (deeds : List Deed) :
    let i := Interpreter.start p limit sink log
    i.RunsAlike (i.after deeds).machine := by
  intro i
  obtain ⟨ns, _, span, tag, _, rfl, -⟩ := resolve_inv h
  obtain ⟨ds, hl, -⟩ := lists_of_resolve h
  obtain ⟨ρ, hkept, hsame⟩ := sameMachine_after p limit hsink log deeds
  have hcells : p.root.cells = offset p.root.children p.root.children.length := by
    have hsize := size_loadNode {} p.root
    rw [show (loadNode {} p.root).2 = p.load.2 from rfl, hl.loaded] at hsize
    rw [← size_loadTake, List.take_length, hsize]
    simp
  rw [hcells] at hkept
  refine ⟨ρ, fun fuel => ?_⟩
  have hrun := run_inStep (relinked_self hl hkept limit) ⟨mainName, hl.main, hl.main⟩ fuel _ _ hsame
  -- both runs are compared as if nothing had been printed, and get their earlier output back
  have hfirst := run_appends i.code fuel i.machine.sink.bytes i.machine.unprinted
  have hlater := run_appends i.code fuel (i.after deeds).machine.sink.bytes (i.after deeds).machine.unprinted
  rw [Machine.behind_unprinted] at hfirst hlater
  simp only [Eval.after, hfirst, hlater]
  change ρ.SameEnding ρ.SameValue (i.code.run fuel i.machine.unprinted)
    (i.code.run fuel (i.after deeds).machine.unprinted) at hrun
  generalize i.code.run fuel i.machine.unprinted = first,
    i.code.run fuel (i.after deeds).machine.unprinted = later at hrun
  cases hrun with
  | @ok v v' m m' hv hm =>
    refine ⟨m.sink.bytes, rfl, by rw [← hm.sink]; rfl, ?_, ?_⟩
    · rintro _ _ ⟨⟩
      exact ⟨v', _, rfl, hv, hm.objects⟩
    · rintro _ _ ⟨⟩
  | @error m m' stop hm =>
    refine ⟨m.sink.bytes, rfl, by rw [← hm.sink]; rfl, ?_, ?_⟩
    · rintro _ _ ⟨⟩
    · rintro _ _ ⟨⟩
      exact ⟨_, rfl⟩

def leakingForms : List Char :=
  "(defun (dig x) (dig x)) (defun (main) (set xs (list \"a\")) (push xs xs) (print \"b\") (dig xs))".toList

theorem every_run_alike_leakingForms :
    ∃ (r : Reading) (p : Program), readTree leakingForms = .ok r ∧ resolve r.root = .ok p ∧
      (⟨"> ".toUTF8, none⟩ : Sink).room = none ∧
      let i := Interpreter.start p (some 5) ⟨"> ".toUTF8, none⟩ {}
      i.RunsAlike (i.after [.run 40, .run 3, .run 40]).machine := by
  have hsome : ((readTree leakingForms).toOption.bind fun r =>
      (resolve r.root).toOption).isSome = true := by decide +kernel
  cases hr : readTree leakingForms with
  | error e => rw [hr] at hsome; cases hsome
  | ok r =>
    cases hp : resolve r.root with
    | error e => rw [hr] at hsome; simp [Except.toOption, hp] at hsome
    | ok p => exact ⟨r, p, rfl, hp, rfl, every_run_alike hp rfl (some 5) {} [.run 40, .run 3, .run 40]⟩

end Lisplet
