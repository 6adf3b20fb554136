import Lisplet.Eval.Load
import Lisplet.Tree.Reader

/-!
# Leaf by leaf

Properties that all leaves of a tree have, and trees of one shape whose leaves
are related in pairs. Resolving and loading a tree change its leaves one by one,
so what they keep and what they add is said leaf by leaf.
-/

namespace Lisplet

structure Leaf.Reloaded (l l' : Leaf) : Prop where
  token : l'.token = l.token
  kind : l'.kind = l.kind
  binding : l'.binding = l.binding

namespace Node

/-! ## All leaves -/

mutual

def All (p : Leaf → Prop) : Node → Prop
  | leaf l => p l
  | branch cs _ _ => AllIn p cs

def AllIn (p : Leaf → Prop) : List Node → Prop
  | [] => True
  | n :: ns => n.All p ∧ AllIn p ns

end

theorem allIn_iff {p : Leaf → Prop} {ns : List Node} : AllIn p ns ↔ ∀ n ∈ ns, n.All p := by
  induction ns with
  | nil => simp [AllIn]
  | cons n ns ih => simp [AllIn, ih]

mutual

theorem all_of_forall {p : Leaf → Prop} (h : ∀ l, p l) : ∀ n : Node, n.All p
  | leaf l => h l
  | branch cs _ _ => allIn_of_forall h cs

theorem allIn_of_forall {p : Leaf → Prop} (h : ∀ l, p l) : ∀ ns : List Node, AllIn p ns
  | [] => trivial
  | n :: ns => ⟨all_of_forall h n, allIn_of_forall h ns⟩

end

theorem All.children {p : Leaf → Prop} {n : Node} (h : n.All p) : AllIn p n.children := by
  cases n with
  | leaf l => exact trivial
  | branch cs span tag => exact h

theorem body_all {p : Leaf → Prop} {program : Program} (h : program.root.All p) (index : Nat) :
    AllIn p (program.body index) := by
  unfold Program.body
  split
  · exact trivial
  · split
    · rename_i form hform
      have hform := allIn_iff.mp (All.children h) form (List.mem_of_getElem? hform)
      exact allIn_iff.mpr fun n hn => allIn_iff.mp (All.children hform) n (List.mem_of_mem_drop hn)
    · exact trivial

inductive OccursIn (n : Node) : Node → Prop
  | here : OccursIn n n
  | inside {c : Node} {cs : List Node} {span : Span} {tag : Option Nat} :
      c ∈ cs → OccursIn n c → OccursIn n (branch cs span tag)

theorem OccursIn.all {p : Leaf → Prop} {n outer : Node} (h : n.OccursIn outer) (ho : outer.All p) :
    n.All p := by
  induction h with
  | here => exact ho
  | inside hc _ ih => exact ih (allIn_iff.mp ho _ hc)

theorem readFrom_all {p : Leaf → Prop} {ts : List Token} (hp : ∀ t ∈ ts, p (.ofToken t))
    {nodes ns : List Node} {forms : List OpenForm} (h : readFrom ts nodes forms = .ok ns)
    (hnodes : ∀ n ∈ nodes, n.All p) (hforms : ∀ form ∈ forms, ∀ n ∈ form.before, n.All p) :
    ∀ n ∈ ns, n.All p := by
  induction ts generalizing nodes forms with
  | nil =>
    cases forms with
    | nil =>
      cases h
      intro n hn
      exact hnodes n (List.mem_reverse.mp hn)
    | cons _ _ => cases h
  | cons t ts ih =>
    rw [List.forall_mem_cons] at hp
    simp only [readFrom] at h
    split at h
    · refine ih hp.2 h (by simp) ?_
      intro form hform
      rcases List.mem_cons.mp hform with rfl | hform
      · exact hnodes
      · exact hforms form hform
    · split at h
      · cases h
      · rename_i form forms
        refine ih hp.2 h ?_ fun f hf => hforms f (List.mem_cons_of_mem _ hf)
        intro n hn
        rcases List.mem_cons.mp hn with rfl | hn
        · exact allIn_iff.mpr fun m hm => hnodes m (List.mem_reverse.mp hm)
        · exact hforms form (List.mem_cons_self ..) n hn
    · refine ih hp.2 h ?_ hforms
      intro n hn
      rcases List.mem_cons.mp hn with rfl | hn
      · exact hp.1
      · exact hnodes n hn

theorem readTree_all_tokens {p : Leaf → Prop} {source : List Char} {r : Reading}
    (h : readTree source = .ok r) (hp : ∀ t ∈ (scan source).tokens, p (.ofToken t)) : r.root.All p := by
  unfold readTree Scan.read at h
  cases hns : readFrom (scan source).tokens [] [] with
  | error e => rw [hns] at h; cases h
  | ok ns =>
    rw [hns] at h; cases h
    exact allIn_iff.mpr (readFrom_all hp hns (by simp) (by simp))

theorem readTree_all {p : Leaf → Prop} (hp : ∀ t, p (.ofToken t)) {source : List Char} {r : Reading}
    (h : readTree source = .ok r) : r.root.All p :=
  readTree_all_tokens h fun t _ => hp t

/-! ## Leaves in source order -/

theorem leavesOf_append (a b : List Node) (acc : List Leaf) :
    leavesOf (a ++ b) acc = leavesOf b (leavesOf a acc).reverse := by
  fun_induction leavesOf a acc with
  | case1 acc => simp
  | case2 acc l rest ih => rw [List.cons_append, leavesOf, ih]
  | case3 acc cs _ _ rest ih => rw [List.cons_append, leavesOf, ← List.append_assoc, ih]

theorem leavesOf_acc (ns : List Node) (acc acc' : List Leaf) :
    leavesOf ns (acc ++ acc') = acc'.reverse ++ leavesOf ns acc := by
  fun_induction leavesOf ns acc with
  | case1 acc => simp [leavesOf]
  | case2 acc l rest ih => rw [leavesOf, ← List.cons_append, ih]
  | case3 acc cs _ _ rest ih => rw [leavesOf, ih]

theorem leavesOf_nil (ns : List Node) : leavesOf ns [] = ns.flatMap leaves := by
  induction ns with
  | nil => simp [leavesOf]
  | cons n ns ih =>
    have hsplit := leavesOf_append [n] ns []
    have hacc := leavesOf_acc ns [] (leavesOf [n] []).reverse
    rw [List.nil_append] at hacc
    rw [List.singleton_append, hacc, List.reverse_reverse, ih] at hsplit
    simpa [leaves] using hsplit

@[simp] theorem leaves_leaf (l : Leaf) : (leaf l).leaves = [l] := by
  simp [leaves, leavesOf]

@[simp] theorem leaves_branch (cs : List Node) (span : Span) (tag : Option Nat) :
    (branch cs span tag).leaves = cs.flatMap leaves := by
  rw [leaves, leavesOf, List.append_nil, leavesOf_nil]

mutual

theorem all_of_leaves {p : Leaf → Prop} : ∀ {n : Node}, (∀ l ∈ n.leaves, p l) → n.All p
  | leaf l, h => h l (by simp)
  | branch cs _ _, h => allIn_of_leaves fun n hn l hl => h l (by
      rw [leaves_branch]
      exact List.mem_flatMap.mpr ⟨n, hn, hl⟩)

theorem allIn_of_leaves {p : Leaf → Prop} : ∀ {ns : List Node}, (∀ n ∈ ns, ∀ l ∈ n.leaves, p l) →
    AllIn p ns
  | [], _ => trivial
  | n :: _, h => ⟨all_of_leaves (h n (by simp)), allIn_of_leaves fun m hm => h m (by simp [hm])⟩

end

/-! ## Leaves in pairs -/

mutual

/-- Two trees of one shape, with the same spans, whose leaves are related in
pairs. Their tags may differ. -/
def Related (r : Leaf → Leaf → Prop) : Node → Node → Prop
  | leaf l, leaf l' => r l l'
  | branch cs s _, branch cs' s' _ => s = s' ∧ RelatedAll r cs cs'
  | _, _ => False

def RelatedAll (r : Leaf → Leaf → Prop) : List Node → List Node → Prop
  | [], [] => True
  | n :: ns, n' :: ns' => Related r n n' ∧ RelatedAll r ns ns'
  | _, _ => False

end

variable {r : Leaf → Leaf → Prop}

theorem related_leaf_inv {l : Leaf} {n' : Node}
    (h : Related r (leaf l) n') : ∃ l', n' = leaf l' ∧ r l l' := by
  cases n' with
  | leaf l' => exact ⟨l', rfl, h⟩
  | branch _ _ _ => exact h.elim

theorem relatedAll_cons_inv {n : Node} {ns ns' : List Node}
    (h : RelatedAll r (n :: ns) ns') :
    ∃ m ms, ns' = m :: ms ∧ Related r n m ∧ RelatedAll r ns ms := by
  cases ns' with
  | nil => exact h.elim
  | cons m ms => exact ⟨m, ms, rfl, h.1, h.2⟩

theorem relatedAll_nil_inv {ns' : List Node} (h : RelatedAll r [] ns') : ns' = [] := by
  cases ns' with
  | nil => rfl
  | cons _ _ => exact h.elim

theorem relatedAll_two_inv {a b : Node} {ns' : List Node} (h : RelatedAll r [a, b] ns') :
    ∃ a' b', ns' = [a', b'] ∧ Related r a a' ∧ Related r b b' := by
  obtain ⟨a', _, rfl, ha, h⟩ := relatedAll_cons_inv h
  obtain ⟨b', _, rfl, hb, h⟩ := relatedAll_cons_inv h
  rw [relatedAll_nil_inv h]
  exact ⟨a', b', rfl, ha, hb⟩

theorem related_branch_inv {cs : List Node} {span : Span} {tag : Option Nat} {n' : Node}
    (h : Related r (branch cs span tag) n') :
    ∃ cs' tag', n' = branch cs' span tag' ∧ RelatedAll r cs cs' := by
  cases n' with
  | leaf _ => exact h.elim
  | branch cs' s tag' =>
    obtain ⟨rfl, hcs⟩ := h
    exact ⟨cs', tag', rfl, hcs⟩

theorem related_cons_inv {n n' : Node} {ns : List Node} {span : Span} {tag : Option Nat}
    (h : Related r (branch (n :: ns) span tag) n') :
    ∃ m ms tag', n' = branch (m :: ms) span tag' ∧ Related r n m ∧ RelatedAll r ns ms := by
  obtain ⟨cs', tag', rfl, hcs⟩ := related_branch_inv h
  obtain ⟨m, ms, rfl, hm, hms⟩ := relatedAll_cons_inv hcs
  exact ⟨m, ms, tag', rfl, hm, hms⟩

theorem Related.keyword?_eq (hr : ∀ {l l'}, r l l' → l'.kind = l.kind) {n n' : Node}
    (h : Related r n n') : n'.keyword? = n.keyword? := by
  cases n with
  | leaf l =>
    obtain ⟨l', rfl, hl⟩ := related_leaf_inv h
    simp only [keyword?, Leaf.keyword?, hr hl]
  | branch _ _ _ =>
    obtain ⟨_, _, rfl, -⟩ := related_branch_inv h
    rfl

theorem RelatedAll.length_eq {ns ns' : List Node} (h : RelatedAll r ns ns') :
    ns'.length = ns.length := by
  induction ns generalizing ns' with
  | nil =>
    cases ns' with
    | nil => rfl
    | cons _ _ => exact h.elim
  | cons n ns ih =>
    cases ns' with
    | nil => exact h.elim
    | cons n' ns' => simp [ih h.2]

theorem RelatedAll.getElem? {ns ns' : List Node} (h : RelatedAll r ns ns') {i : Nat} {n n' : Node}
    (hn : ns[i]? = some n) (hn' : ns'[i]? = some n') : Related r n n' := by
  induction ns generalizing ns' i with
  | nil => simp at hn
  | cons m ns ih =>
    cases ns' with
    | nil => exact h.elim
    | cons m' ns' =>
      cases i with
      | zero => simp at hn hn'; subst hn hn'; exact h.1
      | succ i => exact ih h.2 (by simpa using hn) (by simpa using hn')

theorem RelatedAll.exists_of_mem {ns ns' : List Node} (h : RelatedAll r ns ns') {n' : Node}
    (hn' : n' ∈ ns') : ∃ n ∈ ns, Related r n n' := by
  obtain ⟨i, hi⟩ := List.mem_iff_getElem?.mp hn'
  have hlt : i < ns.length := h.length_eq ▸ (List.getElem?_eq_some_iff.mp hi).1
  exact ⟨ns[i], List.getElem_mem hlt, h.getElem? (List.getElem?_eq_getElem hlt) hi⟩

theorem RelatedAll.take {ns ns' : List Node} (h : RelatedAll r ns ns') (i : Nat) :
    RelatedAll r (ns.take i) (ns'.take i) := by
  induction ns generalizing ns' i with
  | nil =>
    cases ns' with
    | nil => simpa using h
    | cons _ _ => exact h.elim
  | cons m ns ih =>
    cases ns' with
    | nil => exact h.elim
    | cons m' ns' =>
      cases i with
      | zero => exact trivial
      | succ i => exact ⟨h.1, ih h.2 i⟩

theorem RelatedAll.drop {ns ns' : List Node} (h : RelatedAll r ns ns') (i : Nat) :
    RelatedAll r (ns.drop i) (ns'.drop i) := by
  induction i generalizing ns ns' with
  | zero => exact h
  | succ i ih =>
    cases ns with
    | nil =>
      cases ns' with
      | nil => exact h
      | cons _ _ => exact h.elim
    | cons m ns =>
      cases ns' with
      | nil => exact h.elim
      | cons m' ns' => exact ih h.2

theorem Related.children {n n' : Node} (h : Related r n n') :
    RelatedAll r n.children n'.children := by
  cases n with
  | leaf _ =>
    cases n' with
    | leaf _ => exact trivial
    | branch _ _ _ => exact h.elim
  | branch _ _ _ =>
    cases n' with
    | leaf _ => exact h.elim
    | branch _ _ _ => exact h.2

theorem Related.headKeyword?_eq (hr : ∀ {l l'}, r l l' → l'.kind = l.kind) {n n' : Node}
    (h : Related r n n') : n'.headKeyword? = n.headKeyword? := by
  have hcs := h.children
  unfold headKeyword?
  cases hns : n.children with
  | nil =>
    rw [hns] at hcs
    rw [relatedAll_nil_inv hcs]
  | cons head rest =>
    rw [hns] at hcs
    obtain ⟨head', rest', hns', hhead, -⟩ := relatedAll_cons_inv hcs
    rw [hns']
    exact hhead.keyword?_eq hr

/-- What stands in a node has its counterpart in every related one. -/
theorem OccursIn.exists_related {form' n' : Node} (h : form'.OccursIn n') {n : Node} (hn : Related r n n') :
    ∃ form : Node, form.OccursIn n ∧ Related r form form' := by
  induction h generalizing n with
  | here => exact ⟨n, .here, hn⟩
  | inside hc _ ih =>
    cases n with
    | leaf l => exact hn.elim
    | branch cs span tag =>
      obtain ⟨c, hc, hrelated⟩ := hn.2.exists_of_mem hc
      obtain ⟨form, hform, hsame⟩ := ih hrelated
      exact ⟨form, .inside hc hform, hsame⟩

theorem relatedAll_of_getElem? {ns ns' : List Node} (hlen : ns'.length = ns.length)
    (h : ∀ (i : Nat) (n n' : Node), ns[i]? = some n → ns'[i]? = some n' → Related r n n') :
    RelatedAll r ns ns' := by
  induction ns generalizing ns' with
  | nil =>
    cases ns' with
    | nil => exact trivial
    | cons _ _ => simp at hlen
  | cons m ns ih =>
    cases ns' with
    | nil => simp at hlen
    | cons m' ns' =>
      refine ⟨h 0 m m' rfl rfl, ih (by simpa using hlen) ?_⟩
      intro i n n' hn hn'
      exact h (i + 1) n n' (by simpa using hn) (by simpa using hn')

mutual

theorem Related.mono {r r' : Leaf → Leaf → Prop} (hr : ∀ l l', r l l' → r' l l') :
    ∀ {n n' : Node}, Related r n n' → Related r' n n'
  | leaf _, leaf _, h => hr _ _ h
  | branch _ _ _, branch _ _ _, h => ⟨h.1, RelatedAll.mono hr h.2⟩
  | leaf _, branch _ _ _, h => h.elim
  | branch _ _ _, leaf _, h => h.elim

theorem RelatedAll.mono {r r' : Leaf → Leaf → Prop} (hr : ∀ l l', r l l' → r' l l') :
    ∀ {ns ns' : List Node}, RelatedAll r ns ns' → RelatedAll r' ns ns'
  | [], [], _ => trivial
  | _ :: _, _ :: _, h => ⟨Related.mono hr h.1, RelatedAll.mono hr h.2⟩
  | [], _ :: _, h => h.elim
  | _ :: _, [], h => h.elim

end

mutual

theorem Related.all {p : Leaf → Prop} (hr : ∀ l l', r l l' → p l') :
    ∀ {n n' : Node}, Related r n n' → n'.All p
  | leaf _, leaf _, h => hr _ _ h
  | branch _ _ _, branch _ _ _, h => RelatedAll.all hr h.2
  | leaf _, branch _ _ _, h => h.elim
  | branch _ _ _, leaf _, h => h.elim

theorem RelatedAll.all {p : Leaf → Prop} (hr : ∀ l l', r l l' → p l') :
    ∀ {ns ns' : List Node}, RelatedAll r ns ns' → AllIn p ns'
  | [], [], _ => trivial
  | _ :: _, _ :: _, h => ⟨Related.all hr h.1, RelatedAll.all hr h.2⟩
  | [], _ :: _, h => h.elim
  | _ :: _, [], h => h.elim

end

mutual

theorem Related.all_of_all {p q : Leaf → Prop} (hr : ∀ l l', r l l' → p l → q l') :
    ∀ {n n' : Node}, Related r n n' → n.All p → n'.All q
  | leaf _, leaf _, h, hn => hr _ _ h hn
  | branch _ _ _, branch _ _ _, h, hn => RelatedAll.all_of_all hr h.2 hn
  | leaf _, branch _ _ _, h, _ => h.elim
  | branch _ _ _, leaf _, h, _ => h.elim

theorem RelatedAll.all_of_all {p q : Leaf → Prop} (hr : ∀ l l', r l l' → p l → q l') :
    ∀ {ns ns' : List Node}, RelatedAll r ns ns' → AllIn p ns → AllIn q ns'
  | [], [], _, _ => trivial
  | _ :: _, _ :: _, h, hn => ⟨Related.all_of_all hr h.1 hn.1, RelatedAll.all_of_all hr h.2 hn.2⟩
  | [], _ :: _, h, _ => h.elim
  | _ :: _, [], h, _ => h.elim

end

mutual

theorem Related.symm {r r' : Leaf → Leaf → Prop} (hr : ∀ l l', r l l' → r' l' l) :
    ∀ {n n' : Node}, Related r n n' → Related r' n' n
  | leaf _, leaf _, h => hr _ _ h
  | branch _ _ _, branch _ _ _, h => ⟨h.1.symm, RelatedAll.symm hr h.2⟩
  | leaf _, branch _ _ _, h => h.elim
  | branch _ _ _, leaf _, h => h.elim

theorem RelatedAll.symm {r r' : Leaf → Leaf → Prop} (hr : ∀ l l', r l l' → r' l' l) :
    ∀ {ns ns' : List Node}, RelatedAll r ns ns' → RelatedAll r' ns' ns
  | [], [], _ => trivial
  | _ :: _, _ :: _, h => ⟨Related.symm hr h.1, RelatedAll.symm hr h.2⟩
  | [], _ :: _, h => h.elim
  | _ :: _, [], h => h.elim

end

mutual

theorem related_self : ∀ {n : Node}, n.All (fun l => r l l) → Related r n n
  | leaf _, h => h
  | branch _ _ _, h => ⟨rfl, relatedAll_self h⟩

theorem relatedAll_self : ∀ {ns : List Node}, AllIn (fun l => r l l) ns → RelatedAll r ns ns
  | [], _ => trivial
  | _ :: _, h => ⟨related_self h.1, relatedAll_self h.2⟩

end

/-! ## Loading -/

def LoadsAlike (r : Leaf → Leaf → Prop) : Prop :=
  ∀ (h : Heap) (l l' : Leaf), r l l' →
    (loadLeaf h l').2 = (loadLeaf h l).2 ∧ r (loadLeaf h l).1 (loadLeaf h l').1

mutual

theorem Related.load (hr : LoadsAlike r) :
    ∀ {n n' : Node} (h : Heap), Related r n n' →
      (loadNode h n').2 = (loadNode h n).2 ∧ Related r (loadNode h n).1 (loadNode h n').1
  | leaf _, leaf _, h, hn => hr h _ _ hn
  | branch cs s _, branch cs' s' _, h, hn => by
    obtain ⟨hheap, hcs⟩ := RelatedAll.load hr h hn.2
    exact ⟨hheap, hn.1, hcs⟩
  | leaf _, branch _ _ _, _, hn => hn.elim
  | branch _ _ _, leaf _, _, hn => hn.elim

theorem RelatedAll.load (hr : LoadsAlike r) :
    ∀ {ns ns' : List Node} (h : Heap), RelatedAll r ns ns' →
      (loadAll h ns').2 = (loadAll h ns).2 ∧ RelatedAll r (loadAll h ns).1 (loadAll h ns').1
  | [], [], _, _ => ⟨rfl, trivial⟩
  | n :: ns, n' :: ns', h, hn => by
    obtain ⟨hheap, hnode⟩ := Related.load hr h hn.1
    obtain ⟨hheaps, hnodes⟩ := RelatedAll.load hr (loadNode h n).2 hn.2
    simp only [loadAll, hheap]
    exact ⟨hheaps, hnode, hnodes⟩
  | [], _ :: _, _, hn => hn.elim
  | _ :: _, [], _, hn => hn.elim

end

theorem children_loadNode (h : Heap) (n : Node) :
    (loadNode h n).1.children = (loadAll h n.children).1 := by
  cases n <;> rfl

theorem length_loadAll (h : Heap) (ns : List Node) : (loadAll h ns).1.length = ns.length := by
  induction ns generalizing h with
  | nil => rfl
  | cons n ns ih => simp [loadAll, ih]

/-- A node of a list is loaded into the heap that the nodes before it leave. -/
theorem getElem?_loadAll (h : Heap) {ns : List Node} {i : Nat} {n : Node} (hn : ns[i]? = some n) :
    (loadAll h ns).1[i]? = some (loadNode (loadAll h (ns.take i)).2 n).1 := by
  induction ns generalizing h i with
  | nil => simp at hn
  | cons m ns ih =>
    cases i with
    | zero => simp at hn; subst hn; rfl
    | succ i => simpa [loadAll] using ih (loadNode h m).2 (by simpa using hn)

theorem reloaded_loadLeaf (h : Heap) (l : Leaf) : l.Reloaded (loadLeaf h l).1 := by
  unfold loadLeaf
  split <;> exact ⟨rfl, rfl, rfl⟩

mutual

theorem reloaded_loadNode : ∀ (h : Heap) (n : Node), Related Leaf.Reloaded n (loadNode h n).1
  | h, leaf l => reloaded_loadLeaf h l
  | h, branch cs _ _ => ⟨rfl, reloaded_loadAll h cs⟩

theorem reloaded_loadAll : ∀ (h : Heap) (ns : List Node), RelatedAll Leaf.Reloaded ns (loadAll h ns).1
  | _, [] => trivial
  | h, n :: ns => ⟨reloaded_loadNode h n, reloaded_loadAll (loadNode h n).2 ns⟩

end

theorem reloaded_body (p : Program) (i : Nat) :
    RelatedAll Leaf.Reloaded (p.body i) (p.load.1.body i) := by
  have hroot : RelatedAll Leaf.Reloaded p.root.children p.load.1.root.children :=
    (reloaded_loadNode {} p.root).children
  have hf : p.load.1.function? i = p.function? i := rfl
  unfold Program.body
  rw [hf]
  cases p.function? i with
  | none => exact trivial
  | some f =>
    dsimp only
    by_cases hlt : f.form < p.root.children.length
    · have hn := List.getElem?_eq_getElem hlt
      have hn' := List.getElem?_eq_getElem (hroot.length_eq ▸ hlt : f.form < p.load.1.root.children.length)
      rw [hn, hn']
      exact (hroot.getElem? hn hn').children.drop 2
    · rw [List.getElem?_eq_none (Nat.le_of_not_lt hlt),
        List.getElem?_eq_none (hroot.length_eq ▸ Nat.le_of_not_lt hlt)]
      exact trivial

end Node

end Lisplet
