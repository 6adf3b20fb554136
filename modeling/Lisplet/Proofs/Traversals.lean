import Lisplet.Proofs.Slots

/-!
# Loops over trees

A tree can be walked without recursion: what is still to visit waits on a stack, and a
branch pushes its children in reverse, so that the first one comes up first. Each loop
is followed for as many steps as a node has parts, which takes exactly that node off the
stack and has the effect of a recursion over it, whatever waits below.
-/

namespace Lisplet

/-! ## Places -/

/-- Where a node stands in a tree: which child to take at each level. -/
abbrev Place := List Nat

namespace Node

def at? (n : Node) : Place → Option Node
  | [] => some n
  | i :: p => n.children[i]?.bind (·.at? p)

def put (n new : Node) : Place → Node
  | [] => new
  | i :: p =>
    match n with
    | leaf l => leaf l
    | branch cs span tag => branch (cs.modify i (·.put new p)) span tag

theorem at?_append (n : Node) (p q : Place) : n.at? (p ++ q) = (n.at? p).bind (·.at? q) := by
  induction p generalizing n with
  | nil => rfl
  | cons i p ih => simp [at?, ih, Option.bind_assoc]

section
variable {n m : Node} {p : Place}

theorem at?_cons_inv {i : Nat} (h : n.at? (i :: p) = some m) :
    ∃ cs span tag c, n = branch cs span tag ∧ cs[i]? = some c ∧ c.at? p = some m := by
  obtain ⟨c, hc, hm⟩ := Option.bind_eq_some_iff.mp h
  cases n with
  | leaf l => simp [children] at hc
  | branch cs span tag => exact ⟨cs, span, tag, c, rfl, hc, hm⟩

theorem put_cons {cs : List Node} {span : Span} {tag : Option Nat} {i : Nat} {c : Node}
    (h : cs[i]? = some c) (new : Node) (p : Place) :
    (branch cs span tag).put new (i :: p) = branch (cs.set i (c.put new p)) span tag := by
  rw [put, List.modify_eq_set_getElem?, h]
  rfl

theorem put_append (h : n.at? p = some m) (new : Node) (q : Place) :
    n.put new (p ++ q) = n.put (m.put new q) p := by
  induction p generalizing n with
  | nil => cases h; rfl
  | cons i p ih =>
    obtain ⟨cs, span, tag, c, rfl, hc, hm⟩ := at?_cons_inv h
    rw [List.cons_append, put_cons hc, put_cons hc, ih hm]

theorem put_self (h : n.at? p = some m) : n.put m p = n := by
  induction p generalizing n with
  | nil => cases h; rfl
  | cons i p ih =>
    obtain ⟨cs, span, tag, c, rfl, hc, hm⟩ := at?_cons_inv h
    obtain ⟨hlt, rfl⟩ := List.getElem?_eq_some_iff.mp hc
    rw [put_cons hc, ih hm, List.set_getElem_self]

theorem at?_put (h : n.at? p = some m) (new : Node) : (n.put new p).at? p = some new := by
  induction p generalizing n with
  | nil => rfl
  | cons i p ih =>
    obtain ⟨cs, span, tag, c, rfl, hc, hm⟩ := at?_cons_inv h
    have hlt : i < cs.length := (List.getElem?_eq_some_iff.mp hc).1
    simp [put_cons hc, at?, children, hlt, ih hm]

end

theorem put_put (n a b : Node) (p : Place) : (n.put a p).put b p = n.put b p := by
  induction p generalizing n with
  | nil => rfl
  | cons i p ih =>
    cases n with
    | leaf l => rfl
    | branch cs span tag => simp only [put, List.modify_modify_eq, Function.comp_def, ih]

/-! ## Leaves and their places -/

mutual

/-- The leaves from left to right, each with its place. -/
def leavesAt : Node → List (Place × Leaf)
  | leaf l => [([], l)]
  | branch cs _ _ => leavesFrom 0 cs

def leavesFrom (i : Nat) : List Node → List (Place × Leaf)
  | [] => []
  | n :: ns => n.leavesAt.map (fun e => (i :: e.1, e.2)) ++ leavesFrom (i + 1) ns

end

mutual

theorem map_leavesAt : ∀ n : Node, n.leavesAt.map Prod.snd = n.leaves
  | leaf l => by simp [leavesAt]
  | branch cs _ _ => by
    rw [leaves_branch]
    exact map_leavesFrom 0 cs

theorem map_leavesFrom : ∀ (i : Nat) (ns : List Node), (leavesFrom i ns).map Prod.snd = ns.flatMap leaves
  | _, [] => rfl
  | i, n :: ns => by
    rw [leavesFrom, List.map_append, List.map_map, map_leavesFrom (i + 1) ns, List.flatMap_cons,
      ← map_leavesAt n]
    rfl

end

mutual

theorem mem_leavesAt {l : Leaf} : ∀ {n : Node} {p : Place}, (p, l) ∈ n.leavesAt ↔ n.at? p = some (leaf l)
  | leaf l', [] => by simp [leavesAt, at?, eq_comm]
  | leaf l', i :: p => by simp [leavesAt, at?, children]
  | branch cs _ _, p => by
    rw [leavesAt, mem_leavesFrom]
    cases p with
    | nil => simp [at?]
    | cons i p => simp [at?, children]

/-- The place of a leaf starts with the number of the child that it stands in. -/
theorem mem_leavesFrom {l : Leaf} : ∀ {ns : List Node} {i : Nat} {p : Place},
    (p, l) ∈ leavesFrom i ns ↔ ∃ j q, p = (i + j) :: q ∧ ns[j]?.bind (·.at? q) = some (leaf l)
  | [], i, p => by simp [leavesFrom]
  | n :: ns, i, p => by
    rw [leavesFrom, List.mem_append, List.mem_map, mem_leavesFrom]
    constructor
    · rintro (⟨⟨q, l'⟩, hq, heq⟩ | ⟨j, q, rfl, hq⟩)
      · cases heq
        exact ⟨0, q, rfl, mem_leavesAt.mp hq⟩
      · exact ⟨j + 1, q, by rw [Nat.add_right_comm, Nat.add_assoc], hq⟩
    · rintro ⟨j, q, rfl, hq⟩
      cases j with
      | zero => exact .inl ⟨(q, l), mem_leavesAt.mpr hq, rfl⟩
      | succ j => exact .inr ⟨j, q, by rw [Nat.add_right_comm, Nat.add_assoc], hq⟩

end

def Before (a b : Place × Leaf) : Prop := a.1 < b.1

mutual

theorem pairwise_leavesAt : ∀ n : Node, n.leavesAt.Pairwise Before
  | leaf _ => List.pairwise_singleton _ _
  | branch cs _ _ => pairwise_leavesFrom 0 cs

theorem pairwise_leavesFrom : ∀ (i : Nat) (ns : List Node), (leavesFrom i ns).Pairwise Before
  | _, [] => List.Pairwise.nil
  | i, n :: ns => by
    rw [leavesFrom, List.pairwise_append]
    refine ⟨?_, pairwise_leavesFrom (i + 1) ns, ?_⟩
    · exact (pairwise_leavesAt n).map _ fun a b h => List.cons_lt_cons_iff.mpr (.inr ⟨rfl, h⟩)
    · rintro a ha ⟨p, l⟩ hb
      obtain ⟨e, -, rfl⟩ := List.mem_map.mp ha
      obtain ⟨j, q, rfl, -⟩ := mem_leavesFrom.mp hb
      exact List.cons_lt_cons_iff.mpr (.inl (by omega))

end

theorem at?_mapLeaves (f : Leaf → Leaf) (n : Node) (p : Place) :
    (n.mapLeaves f).at? p = (n.at? p).map (mapLeaves f) := by
  induction p generalizing n with
  | nil => rfl
  | cons i p ih =>
    cases n with
    | leaf l => rfl
    | branch cs span tag =>
      simp only [at?, mapLeaves, children, mapAll_eq, List.getElem?_map]
      cases cs[i]? with
      | none => rfl
      | some c => exact ih c

end Node

open Node

/-! ## Steps of a loop -/

def steps (step : α → Option α) : Nat → α → Option α
  | 0, a => some a
  | k + 1, a => (step a).bind (steps step k)

theorem steps_add (step : α → Option α) (j k : Nat) (a : α) :
    steps step (j + k) a = (steps step j a).bind (steps step k) := by
  induction j generalizing a with
  | zero => simp [steps]
  | succ j ih =>
    rw [Nat.succ_add, steps, steps, Option.bind_assoc]
    congr 1
    funext b
    exact ih b

namespace Bare

/-! ## Listing leaves -/

structure Listing where
  pending : Array Node
  out : Array Leaf

/-- Takes the last node off the stack, and ends without one. -/
def Listing.step (s : Listing) : Option Listing :=
  s.pending.back?.map fun
    | .leaf l => ⟨s.pending.pop, s.out.push l⟩
    | .branch cs _ _ => ⟨s.pending.pop ++ cs.reverse.toArray, s.out⟩

theorem Listing.step_leaf (pending : Array Node) (out : Array Leaf) (l : Leaf) :
    Listing.step ⟨pending.push (.leaf l), out⟩ = some ⟨pending, out.push l⟩ := by
  simp [step]

theorem Listing.step_branch (pending : Array Node) (out : Array Leaf) (cs : List Node) (span : Span)
    (tag : Option Nat) : Listing.step ⟨pending.push (.branch cs span tag), out⟩ =
      some ⟨pending ++ cs.reverse.toArray, out⟩ := by
  simp [step]

mutual

/-- The node on top is listed as a whole, before anything below is looked at. -/
theorem steps_listing : ∀ (n : Node) (pending : Array Node) (out : Array Leaf),
    steps Listing.step n.size ⟨pending.push n, out⟩ = some ⟨pending, out ++ n.leaves.toArray⟩
  | .leaf l, pending, out => by
    simp [Node.size, steps, Listing.step_leaf]
  | .branch cs span tag, pending, out => by
    rw [Node.size, steps, Listing.step_branch, Option.bind_some, steps_listingAll cs, leaves_branch]

theorem steps_listingAll : ∀ (ns : List Node) (pending : Array Node) (out : Array Leaf),
    steps Listing.step (sizeAll ns) ⟨pending ++ ns.reverse.toArray, out⟩ =
      some ⟨pending, out ++ (ns.flatMap leaves).toArray⟩
  | [], pending, out => by simp [sizeAll, steps]
  | n :: ns, pending, out => by
    have hpush : pending ++ (n :: ns).reverse.toArray = (pending ++ ns.reverse.toArray).push n := by simp
    rw [hpush, sizeAll, steps_add, steps_listing n, Option.bind_some, steps_listingAll ns]
    simp

end

/-! ## Binding names -/

structure Rebinding where
  tree : Node
  pending : Array Place
  locals : Names

def childPlaces (p : Place) (i : Nat) : List Node → List Place
  | [] => []
  | _ :: ns => (p ++ [i]) :: childPlaces p (i + 1) ns

/-- Takes the last place off the stack and changes the tree there, if it is a leaf. A place
that is not in the tree has no result. -/
def Rebinding.step (functions : Names) (s : Rebinding) : Option Rebinding :=
  s.pending.back?.bind fun p =>
    (s.tree.at? p).map fun
      | .leaf l =>
        let (l, locals) := bindLeaf functions s.locals l
        ⟨s.tree.put (.leaf l) p, s.pending.pop, locals⟩
      | .branch cs _ _ => ⟨s.tree, s.pending.pop ++ (childPlaces p 0 cs).reverse.toArray, s.locals⟩

section
variable {functions : Names}

theorem Rebinding.step_leaf {tree : Node} {p : Place} {l : Leaf} (h : tree.at? p = some (.leaf l))
    (pending : Array Place) (locals : Names) :
    Rebinding.step functions ⟨tree, pending.push p, locals⟩ =
      some ⟨tree.put (.leaf (bindLeaf functions locals l).1) p, pending,
        (bindLeaf functions locals l).2⟩ := by
  simp [step, h]

theorem Rebinding.step_branch {tree : Node} {p : Place} {cs : List Node} {span : Span} {tag : Option Nat}
    (h : tree.at? p = some (.branch cs span tag)) (pending : Array Place) (locals : Names) :
    Rebinding.step functions ⟨tree, pending.push p, locals⟩ =
      some ⟨tree, pending ++ (childPlaces p 0 cs).reverse.toArray, locals⟩ := by
  simp [step, h]

mutual

/-- The node at the place on top is bound as a whole, and the rest of the tree is as before. -/
theorem steps_rebinding : ∀ (n : Node) {tree : Node} {p : Place}, tree.at? p = some n →
    ∀ (pending : Array Place) (locals : Names),
    steps (Rebinding.step functions) n.size ⟨tree, pending.push p, locals⟩ =
      some ⟨tree.put (bindNode functions locals n).1 p, pending, (bindNode functions locals n).2⟩
  | .leaf l, tree, p, h, pending, locals => by
    simp [Node.size, steps, Rebinding.step_leaf h, bindNode]
  | .branch cs span tag, tree, p, h, pending, locals => by
    rw [Node.size, steps, Rebinding.step_branch h, Option.bind_some]
    exact steps_rebindingAll cs [] h pending locals

/-- The children of the node at `p` from the first one that is not yet done. -/
theorem steps_rebindingAll : ∀ (ns done : List Node) {tree : Node} {p : Place} {span : Span}
    {tag : Option Nat}, tree.at? p = some (.branch (done ++ ns) span tag) →
    ∀ (pending : Array Place) (locals : Names),
    steps (Rebinding.step functions) (sizeAll ns)
      ⟨tree, pending ++ (childPlaces p done.length ns).reverse.toArray, locals⟩ =
      some ⟨tree.put (.branch (done ++ (bindAll functions locals ns).1) span tag) p, pending,
        (bindAll functions locals ns).2⟩
  | [], done, tree, p, span, tag, h, pending, locals => by
    have hself := put_self h
    simp only [sizeAll, steps, bindAll, childPlaces, hself]
    simp
  | n :: ns, done, tree, p, span, tag, h, pending, locals => by
    have hn : tree.at? (p ++ [done.length]) = some n := by
      rw [at?_append, h]
      simp [at?, children]
    have hpush : pending ++ (childPlaces p done.length (n :: ns)).reverse.toArray =
        (pending ++ (childPlaces p (done.length + 1) ns).reverse.toArray).push (p ++ [done.length]) := by
      simp [childPlaces]
    -- the bound child joins those that are done, in the tree as it now is
    have hput : tree.put (bindNode functions locals n).1 (p ++ [done.length]) =
        tree.put (.branch (done ++ [(bindNode functions locals n).1] ++ ns) span tag) p := by
      have hchild : (done ++ n :: ns)[done.length]? = some n := by simp
      rw [put_append h, put_cons hchild]
      simp [put]
    have hrest := steps_rebindingAll ns (done ++ [(bindNode functions locals n).1])
      (at?_put h (.branch (done ++ [(bindNode functions locals n).1] ++ ns) span tag)) pending
      (bindNode functions locals n).2
    rw [hpush, sizeAll, steps_add, steps_rebinding n hn, Option.bind_some, hput]
    rw [List.length_append, List.length_singleton] at hrest
    rw [hrest, put_put, bindAll, List.append_assoc, List.singleton_append]

end

end

end Bare

/-- Both loops end after as many steps as the node has parts. The one that lists leaves lists
each of them once, in source order. The one that binds names has the effect of binding from
left to right by recursion, whatever the names seen before: a leaf that is a name gets its
function or else the number of its name, and nothing else changes anywhere in the tree. -/
theorem loops_walk_in_source_order (n : Node) :
    steps Bare.Listing.step n.size ⟨#[n], #[]⟩ = some ⟨#[], n.leaves.toArray⟩ ∧
    n.leaves = n.leavesAt.map Prod.snd ∧ n.leavesAt.Pairwise Before ∧
    (∀ p l, (p, l) ∈ n.leavesAt ↔ n.at? p = some (leaf l)) ∧
    ∀ functions locals : Names,
      let bound := bindNode functions locals n
      steps (Bare.Rebinding.step functions) n.size ⟨n, #[[]], locals⟩ = some ⟨bound.1, #[], bound.2⟩ ∧
      bound.2 = locals.internAll (n.freeNames functions.toList) ∧
      ∀ p, (∀ cs span tag, n.at? p = some (branch cs span tag) →
          ∃ cs', bound.1.at? p = some (branch cs' span tag) ∧ cs'.length = cs.length) ∧
        ∀ l, n.at? p = some (leaf l) → ∃ l', bound.1.at? p = some (leaf l') ∧ l'.bare = l.bare ∧
          (l.name? = none → l' = l) ∧
          (∀ x i, l.name? = some x → functions.find? x = some i → l'.binding = some (.function i)) ∧
          ∀ x, l.name? = some x → functions.find? x = none →
            ∃ k, bound.2.find? x = some k ∧ l'.binding = some (.slot k) := by
  have hlist := Bare.steps_listing n #[] #[]
  refine ⟨by simpa using hlist, (map_leavesAt n).symm, pairwise_leavesAt n, fun p l => mem_leavesAt,
    fun functions locals => ?_⟩
  intro bound
  have hbind : steps (Bare.Rebinding.step functions) n.size ⟨n, #[[]], locals⟩ =
      some ⟨bound.1, #[], bound.2⟩ := Bare.steps_rebinding n rfl #[] locals
  have hmap : bound.1 = n.mapLeaves (.bindTo functions.toList bound.2.toList) :=
    bindNode_eq List.prefix_rfl
  refine ⟨hbind, bindNode_names locals n, fun p => ⟨fun cs span tag h => ?_, fun l h => ?_⟩⟩
  · rw [hmap, at?_mapLeaves, h]
    exact ⟨_, rfl, by simp [mapAll_eq]⟩
  · rw [hmap, at?_mapLeaves, h]
    refine ⟨_, rfl, Leaf.bare_bindTo .., fun hl => Leaf.bindTo_unnamed hl .., fun x i hx hi => ?_,
      fun x hx hi => ?_⟩
    · rw [Names.find?_eq] at hi
      simp [Leaf.bindTo, hx, hi]
    · have hfree : x ∈ n.freeNames functions.toList := by
        have hl : l ∈ n.leaves := by
          rw [← map_leavesAt]
          exact List.mem_map_of_mem (mem_leavesAt.mpr h)
        simpa [freeNames, Names.find?_eq_none_iff.mp hi] using ⟨l, hl, hx⟩
      have hmem : x ∈ bound.2.toList := by
        rw [bindNode_names]
        exact Names.mem_internAll hfree locals
      obtain ⟨k, hk⟩ := Option.isSome_iff_exists.mp (List.isSome_idxOf?.mpr hmem)
      rw [Names.find?_eq] at hi
      refine ⟨k, by rw [Names.find?_eq, hk], ?_⟩
      simp [Leaf.bindTo, hx, hi, List.idxOf_eq_getD_idxOf?, hk]

end Lisplet
