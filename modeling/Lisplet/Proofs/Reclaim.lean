import Lisplet.Proofs.Ownership
import Lisplet.Session
import Mathlib.Data.Fintype.EquivFin
import Mathlib.Logic.Relation

/-!
# Nothing leaks

What a program leaves behind, run as often as one likes, is owned by its literals
and by the values that the caller still holds. The count of every object is exact
all the while. If no object contains itself, whatever is alive can be reached from
these.
-/

namespace Lisplet

/-! ## Literals -/

namespace Node

/-- The cells of all string literals in a node, and absent values for its other leaves. -/
def literals (n : Node) : List (Option Value) := n.leaves.map Leaf.literal

theorem all_literals (n : Node) : n.All (Leaf.LiteralIn n.literals) :=
  all_of_leaves fun l hl => List.mem_map.mpr ⟨l, hl, rfl⟩

end Node

theorem turns_loadLeaf (h : Heap) (l : Leaf) : h.Turns [] (loadLeaf h l).2 [(loadLeaf h l).1.literal] := by
  unfold loadLeaf
  split
  · rename_i text hkind
    have hliteral : Leaf.literal { l with cell := some h.objects.size } =
        some (.str h.objects.size text) := by
      simp [Leaf.literal, hkind]
    change h.Turns [] (h.alloc .str).2 [Leaf.literal { l with cell := some h.objects.size }]
    rw [hliteral]
    exact Heap.turns_newStr h text
  · rename_i hkind
    have hliteral : l.literal = none := by
      unfold Leaf.literal
      split
      · rename_i text r hk _
        exact (hkind text hk).elim
      · rfl
    dsimp only
    rw [hliteral]
    exact Heap.turns_scalar rfl

mutual

theorem turns_loadNode : ∀ (h : Heap) (n : Node), h.Turns [] (loadNode h n).2 (loadNode h n).1.literals
  | h, .leaf l => by simpa [loadNode, Node.literals] using turns_loadLeaf h l
  | h, .branch cs _ _ => by
    have hcs := turns_loadAll h cs
    rw [loadNode, Node.literals, Node.leaves_branch, List.map_flatMap]
    exact hcs

theorem turns_loadAll : ∀ (h : Heap) (ns : List Node),
    h.Turns [] (loadAll h ns).2 ((loadAll h ns).1.flatMap Node.literals)
  | h, [] => .refl h []
  | h, n :: ns => by
    have hn := turns_loadNode h n
    have hns := (turns_loadAll (loadNode h n).2 ns).frame_left (loadNode h n).1.literals
    rw [List.append_nil] at hns
    exact hn.trans hns

end

/-! ## Whole runs -/

theorem walk_accounts {held : List (Option Value)} {c : Code}
    (hc : c.program.root.All (Leaf.LiteralIn held)) (fuel : Nat) : (c.walk fuel).Accounts held := by
  induction fuel with
  | zero => exact ⟨fun _ => .exhausted, fun _ => .exhausted⟩
  | succ fuel ih =>
    rw [Code.walk_succ]
    exact ⟨fun h => evalNode_accounts ih c hc h, fun h => runBlock_accounts ih c hc fuel h⟩

theorem run_accounts {held : List (Option Value)} {c : Code}
    (hc : c.program.root.All (Leaf.LiteralIn held)) (fuel : Nat) :
    (c.run fuel).Accounts held [] fun v => [v] := by
  have hnote (e : Machine → Event) (m : Machine) : m.Turns [] (m.note (e m)) [] :=
    .of_heap rfl (Heap.Turns.refl m.heap [])
  have hcall (span : Span) : (c.call (c.walk fuel) 0 [] span).Accounts ([] ++ held) [] fun v => [v] :=
    call_accounts (walk_accounts hc fuel) c hc 0 span trivial
  have hmain (span : Span) := (hcall span).thenClose (hnote fun m => .mainFinished m.stack.size)
  exact fun m => hmain _ (m.note .mainStarted)

/-! ## The caller -/

/-- What a caller can do: run the program and keep its value, share a value that it
holds or one inside, and let go of one. -/
inductive Deed
  | run (fuel : Nat)
  | share (i : Nat)
  | take (i j : Nat)
  | drop (i : Nat)

structure Caller where
  machine : Machine
  values : List (Option Value) := []

def Heap.inside (h : Heap) (v : Option Value) : List (Option Value) :=
  match (v.bind Value.ref?).bind fun r => h.objects[r]? with
  | some o => o.values
  | none => []

theorem Heap.mem_inside {h : Heap} {v w : Option Value} (hw : w ∈ h.inside v) :
    ∃ r o, r ∈ Value.refs v ∧ h.objects[r]? = some o ∧ w ∈ o.values := by
  unfold inside at hw
  split at hw
  · rename_i o ho
    obtain ⟨r, hr, ho⟩ := Option.bind_eq_some_iff.mp ho
    exact ⟨r, o, by simp [Value.refs, hr], ho, hw⟩
  · simp at hw

def Caller.obtain (s : Caller) (v : Option Value) : Caller :=
  ⟨s.machine.onHeap fun h => h.retain v, v :: s.values⟩

def Caller.does (c : Code) (s : Caller) : Deed → Caller
  | .run fuel =>
    match c.run fuel s.machine with
    | .ok v m => ⟨m, v :: s.values⟩
    | .error _ m => ⟨m, s.values⟩
  | .share i =>
    match s.values[i]? with
    | some v => s.obtain v
    | none => s
  | .take i j =>
    match (s.values[i]?.map s.machine.heap.inside).bind fun vs => vs[j]? with
    | some v => s.obtain v
    | none => s
  | .drop i =>
    match s.values[i]? with
    | some v => ⟨s.machine.release v, s.values.eraseIdx i⟩
    | none => s

/-- The caller stands on an empty stack, and the heap is in order for what it and
the literals own. -/
structure Caller.InOrder (held : List (Option Value)) (s : Caller) : Prop where
  stack : s.machine.stack = {}
  owned : s.machine.heap.Owned (s.values ++ held) fun _ => 0

section
variable {held : List (Option Value)} {c : Code} {s : Caller}

theorem Caller.InOrder.obtain {v : Option Value} (hs : s.InOrder held)
    (ht : s.machine.heap.Turns (s.values ++ held) (s.machine.heap.retain v)
      (v :: (s.values ++ held))) : (s.obtain v).InOrder held :=
  ⟨hs.stack, (ht _ hs.owned).2⟩

theorem Caller.InOrder.run (hc : c.program.root.All (Leaf.LiteralIn held)) (hs : s.InOrder held)
    (fuel : Nat) : (s.does c (.run fuel)).InOrder held := by
  have hstack : ((c.run fuel).after s.machine).stack = {} := by
    have h := (run_keeps _ c fuel).restored s.machine
    rw [hs.stack] at h
    exact h.eq_empty
  have hrun := (run_accounts hc fuel).weaken s.values s.machine
  unfold Eval.after at hstack
  unfold Machine.Turns at hrun
  unfold does
  dsimp only
  generalize c.run fuel s.machine = result at hrun hstack ⊢
  cases result with
  | ok v m =>
    dsimp only at hrun hstack
    rw [hs.stack, hstack] at hrun
    exact ⟨hstack, (hrun _ hs.owned).2⟩
  | error e m =>
    dsimp only at hrun hstack
    rw [hs.stack, hstack] at hrun
    exact ⟨hstack, (hrun _ hs.owned).2⟩

/-- Every step of the caller keeps the accounts in order. -/
theorem Caller.InOrder.does (hc : c.program.root.All (Leaf.LiteralIn held)) (hs : s.InOrder held)
    (d : Deed) : (s.does c d).InOrder held := by
  cases d with
  | run fuel => exact hs.run hc fuel
  | share i =>
    unfold Caller.does
    dsimp only
    split
    · rename_i v hv
      exact hs.obtain (Heap.turns_retain (List.mem_append_left _ (List.mem_of_getElem? hv)))
    · exact hs
  | take i j =>
    unfold Caller.does
    dsimp only
    split
    · rename_i v hv
      obtain ⟨vs, hvs, hj⟩ := Option.bind_eq_some_iff.mp hv
      obtain ⟨w, hw, rfl⟩ := Option.map_eq_some_iff.mp hvs
      obtain ⟨r, o, hr, ho, hmem⟩ := Heap.mem_inside (List.mem_of_getElem? hj)
      exact hs.obtain (Heap.turns_share (List.mem_append_left _ (List.mem_of_getElem? hw)) hr ho hmem)
    · exact hs
  | drop i =>
    unfold Caller.does
    dsimp only
    split
    · rename_i v hv
      have hp : (s.values ++ held).Perm ([v] ++ (s.values.eraseIdx i ++ held)) :=
        (Heap.perm_eraseIdx hv).symm.append_right held
      have ht := (Heap.Turns.of_perm hp).trans ((Heap.turns_release s.machine.heap v).frame _)
      exact ⟨hs.stack, (ht _ hs.owned).2⟩
    · exact hs

end

/-! ## Reachability -/

def Heap.Points (h : Heap) (r t : Ref) : Prop :=
  0 < h.count r ∧ ∃ o, h.objects[r]? = some o ∧ t ∈ o.refs

theorem Heap.mem_held {h : Heap} {t : Ref} (ht : t ∈ h.held) : ∃ r, h.Points r t := by
  obtain ⟨⟨o, k⟩, hmem, ht⟩ := List.mem_flatMap.mp ht
  obtain ⟨r, hr⟩ := List.mem_iff_getElem?.mp hmem
  obtain ⟨ho, hk⟩ := List.getElem?_zip_eq_some.mp hr
  by_cases hzero : k = 0
  · simp [hzero] at ht
  · rw [if_neg hzero] at ht
    have hk : h.owners[r]? = some k := by simpa using hk
    exact ⟨r, by simp [Heap.count, hk]; omega, o, by simpa using ho, ht⟩

open Relation in
/-- Going back from a live object, owner by owner, ends at somebody outside. -/
theorem Heap.Sound.reached {h : Heap} {vs : List (Option Value)} (hs : h.Sound (owns vs))
    (hacyclic : ∀ r, ¬ TransGen h.Points r r) {r : Ref} (hr : 0 < h.count r) :
    ∃ v ∈ vs, ∃ t ∈ Value.refs v, ReflTransGen h.Points t r := by
  have hbound {s : Ref} (hlive : 0 < h.count s) : s < h.objects.size := by
    obtain ⟨o, ho⟩ := hs.object_of_live hlive
    exact (Array.getElem?_eq_some_iff.mp ho).1
  -- there are finitely many objects, so without circles every way back ends
  let before (a b : Fin h.objects.size) : Prop := TransGen h.Points a b
  have : IsTrans _ before := ⟨fun _ _ _ => TransGen.trans⟩
  have : Std.Irrefl before := ⟨fun a => hacyclic a⟩
  have hwf : WellFounded before := Finite.wellFounded_of_trans_of_irrefl before
  suffices ∀ a : Fin h.objects.size, 0 < h.count a →
      ∃ v ∈ vs, ∃ t ∈ Value.refs v, ReflTransGen h.Points t a from this ⟨r, hbound hr⟩ hr
  intro a
  induction a using hwf.induction with
  | _ a ih =>
    intro ha
    by_cases howned : 0 < owns vs a
    · obtain ⟨v, hv, ht⟩ := List.mem_flatMap.mp (List.count_pos_iff.mp howned)
      exact ⟨v, hv, a, ht, .refl⟩
    · have hheld : a.val ∈ h.held := by
        apply List.count_pos_iff.mp
        have := hs.count a
        omega
      obtain ⟨s, hpoints⟩ := mem_held hheld
      obtain ⟨v, hv, t, ht, hreach⟩ := ih ⟨s, hbound hpoints.1⟩ (.single hpoints) hpoints.1
      exact ⟨v, hv, t, ht, hreach.tail hpoints⟩

open Relation in
theorem Heap.Sound.live_of_reached {h : Heap} {n : Ref → Nat} (hs : h.Sound n) {t r : Ref}
    (ht : 0 < h.count t) (hreach : ReflTransGen h.Points t r) : 0 < h.count r := by
  induction hreach with
  | refl => exact ht
  | tail _ hpoints _ =>
    obtain ⟨hlive, o, ho, hmem⟩ := hpoints
    exact hs.live_of_mem hlive ho hmem

theorem Heap.str_of_literal {h : Heap} {l : Leaf} (hfits : h.Fits l.literal) {t : Ref}
    (ht : t ∈ Value.refs l.literal) : h.objects[t]? = some .str := by
  unfold Leaf.literal at hfits ht
  split at ht
  · rename_i text r hkind hcell
    rw [hkind, hcell] at hfits
    obtain rfl : t = r := by simpa [Value.refs, Value.ref?] using ht
    obtain ⟨o, ho, hdenotes⟩ := hfits _ rfl t rfl
    cases o with
    | str => exact ho
    | _ => exact hdenotes.elim
  · simp [Value.refs] at ht

/-- A string has nothing inside. -/
theorem Heap.reached_of_str {h : Heap} {t r : Ref} (ht : h.objects[t]? = some .str)
    (hreach : Relation.ReflTransGen h.Points t r) : r = t := by
  rcases hreach.cases_head with rfl | ⟨s, hpoints, -⟩
  · rfl
  · obtain ⟨-, o, ho, hmem⟩ := hpoints
    rw [ht] at ho
    cases ho
    simp [Object.refs] at hmem

def Heap.refersBack (h : Heap) : Bool :=
  h.objects.toList.zipIdx.all fun (o, r) => o.refs.all (· < r)

open Relation in
theorem Heap.acyclic_of_refersBack {h : Heap} (hback : h.refersBack = true) (r : Ref) :
    ¬ TransGen h.Points r r := by
  have hstep {s t : Ref} (hpoints : h.Points s t) : t < s := by
    obtain ⟨-, o, ho, hmem⟩ := hpoints
    have ho : (o, s) ∈ h.objects.toList.zipIdx := List.mem_zipIdx_iff_getElem?.mpr (by simpa using ho)
    simpa using List.all_eq_true.mp (List.all_eq_true.mp hback _ ho) t hmem
  have hdown {s t : Ref} (hreach : TransGen h.Points s t) : t < s := by
    induction hreach with
    | single hpoints => exact hstep hpoints
    | tail _ hpoints ih => exact Nat.lt_trans (hstep hpoints) ih
  exact fun hcycle => Nat.lt_irrefl r (hdown hcycle)

def Interpreter.after (i : Interpreter) (deeds : List Deed) : Caller :=
  deeds.foldl (Caller.does i.code) ⟨i.machine, []⟩

theorem inOrder_after (p : Program) (limit : Option Nat) (sink : Sink) (log : Log)
    (deeds : List Deed) :
    let i := Interpreter.start p limit sink log
    (i.after deeds).InOrder i.code.program.root.literals := by
  intro i
  have hc := i.code.program.root.all_literals
  have hstart : (⟨i.machine, []⟩ : Caller).InOrder i.code.program.root.literals := by
    refine ⟨rfl, (turns_loadNode {} p.root _ ⟨by simp, ?_⟩).2⟩
    exact Heap.sound_empty.congr fun r => by simp
  unfold Interpreter.after
  generalize (⟨i.machine, []⟩ : Caller) = s at hstart ⊢
  induction deeds generalizing s with
  | nil => exact hstart
  | cons d deeds ih => exact ih (s.does i.code d) (hstart.does hc d)

open Relation in
/-- As often as a program is run, with whatever end, and whatever the caller keeps
of its values: every object has exactly as many owners as there are references to
it from the caller, from literals and from live objects, and live objects refer to
live ones only. If no live object contains itself, the live ones are the literals
and what the caller can reach. -/
theorem owners_exact (p : Program) (limit : Option Nat) (sink : Sink) (log : Log)
    (deeds : List Deed) :
    let i := Interpreter.start p limit sink log
    let values := (i.after deeds).values
    let literals := i.code.program.root.literals
    let h := (i.after deeds).machine.heap
    (∀ r, h.count r = owns values r + owns literals r + h.held.count r) ∧
    (∀ r t, h.Points r t → 0 < h.count t) ∧
    ((∀ r, ¬ TransGen h.Points r r) → ∀ r, 0 < h.count r ↔
      0 < owns literals r ∨ ∃ v ∈ values, ∃ t ∈ Value.refs v, ReflTransGen h.Points t r) := by
  intro i values literals h
  have ho : h.Owned (values ++ literals) fun _ => 0 := (inOrder_after p limit sink log deeds).owned
  have hs : h.Sound (owns (values ++ literals)) := ho.2
  refine ⟨fun r => by rw [hs.count, owns_append], ?_, ?_⟩
  · rintro r t ⟨hlive, o, hr, hmem⟩
    exact hs.live_of_mem hlive hr hmem
  · intro hacyclic r
    constructor
    · intro hr
      obtain ⟨v, hv, t, ht, hreach⟩ := hs.reached hacyclic hr
      rcases List.mem_append.mp hv with hv | hv
      · exact .inr ⟨v, hv, t, ht, hreach⟩
      · left
        obtain ⟨l, -, rfl⟩ := List.mem_map.mp hv
        have hfits := ho.1 _ (List.mem_append_right _ hv)
        -- a literal is a string, so nothing but itself is reached from it
        rw [Heap.reached_of_str (Heap.str_of_literal hfits ht) hreach]
        exact owns_pos hv ht
    · rintro (hliteral | ⟨v, hv, t, ht, hreach⟩)
      · rw [hs.count, owns_append]
        omega
      · exact hs.live_of_reached (ho.live (List.mem_append_left _ hv) ht) hreach

def listInList : List Char := "(defun (main) (return (list \"a\" (list \"b\"))))".toList

open Relation in
theorem owners_exact_listInList :
    ∃ (r : Reading) (p : Program), readTree listInList = .ok r ∧ resolve r.root = .ok p ∧
      let i := Interpreter.start p none {} {}
      -- the second run breaks off, and of the first one only the inner list is kept
      let s := i.after [.run 40, .run 2, .take 0 1, .drop 1]
      let h := s.machine.heap
      s.values.length = 1 ∧ (∀ r, ¬ TransGen h.Points r r) ∧
        ∀ r, 0 < h.count r ↔ 0 < owns i.code.program.root.literals r ∨
          ∃ v ∈ s.values, ∃ t ∈ Value.refs v, ReflTransGen h.Points t r := by
  have hrun : ((readTree listInList).toOption.bind fun r => (resolve r.root).toOption.map fun p =>
      let s := (Interpreter.start p none {} {}).after [.run 40, .run 2, .take 0 1, .drop 1]
      s.values.length == 1 && s.machine.heap.refersBack) = some true := by decide +kernel
  cases hr : readTree listInList with
  | error e => rw [hr] at hrun; cases hrun
  | ok r =>
    cases hp : resolve r.root with
    | error e => simp [hr, hp, Except.toOption] at hrun
    | ok p =>
      simp only [hr, hp, Except.toOption, Option.bind_some, Option.map_some, Option.some.injEq,
        Bool.and_eq_true, beq_iff_eq] at hrun
      have hacyclic := Heap.acyclic_of_refersBack hrun.2
      exact ⟨r, p, rfl, hp, hrun.1, hacyclic, (owners_exact p none {} {} _).2.2 hacyclic⟩

end Lisplet
