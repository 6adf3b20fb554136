import Lisplet.Proofs.Acceptance
import Lisplet.Proofs.Lockstep

/-!
# Definitions in another order

A program is what its definitions make it. Other nodes at the top level are never
run, and the order of the definitions only decides how functions are numbered and
in which places the literals of the program lie. Neither can be told from a run.
-/

namespace Lisplet

open Node

/-! ## Cells of literals -/

def Leaf.isLiteral (l : Leaf) : Bool :=
  match l.kind with
  | .str _ => true
  | _ => false

namespace Node

def cells (n : Node) : Nat := n.leaves.countP Leaf.isLiteral

def offset (ns : List Node) (i : Nat) : Nat := total ((ns.take i).map cells)

def cellsAt (ns : List Node) (i : Nat) : Nat := (ns[i]?.map cells).getD 0

theorem cells_leaf (l : Leaf) : (leaf l).cells = if l.isLiteral then 1 else 0 := by
  simp [cells, List.countP_cons]

theorem cells_branch (cs : List Node) (span : Span) (tag : Option Nat) :
    (branch cs span tag).cells = total (cs.map cells) := by
  rw [cells, leaves_branch]
  induction cs with
  | nil => rfl
  | cons c cs ih => rw [List.flatMap_cons, List.countP_append, ih, List.map_cons, total, cells]

theorem objects_loadLeaf (h : Heap) (l : Leaf) :
    (loadLeaf h l).2.objects = h.objects ++ Array.replicate (leaf l).cells .str := by
  rw [cells_leaf]
  unfold loadLeaf Leaf.isLiteral
  cases l.kind <;> simp [Heap.alloc]

mutual

theorem objects_loadNode : ∀ (h : Heap) (n : Node),
    (loadNode h n).2.objects = h.objects ++ Array.replicate n.cells .str
  | h, leaf l => objects_loadLeaf h l
  | h, branch cs span tag => by
    rw [cells_branch]
    exact objects_loadAll h cs

theorem objects_loadAll : ∀ (h : Heap) (ns : List Node),
    (loadAll h ns).2.objects = h.objects ++ Array.replicate (total (ns.map cells)) .str
  | h, [] => by simp [loadAll, total]
  | h, n :: ns => by
    simp [loadAll, objects_loadAll (loadNode h n).2 ns, objects_loadNode h n, total,
      Array.append_assoc]

end

theorem size_loadNode (h : Heap) (n : Node) :
    (loadNode h n).2.objects.size = h.objects.size + n.cells := by
  simp [objects_loadNode]

theorem size_loadTake (ns : List Node) (i : Nat) :
    (loadAll {} (ns.take i)).2.objects.size = offset ns i := by
  simp [objects_loadAll, offset]

theorem total_append (a b : List Nat) : total (a ++ b) = total a + total b := by
  induction a with
  | nil => simp [total]
  | cons n a ih => simp [total, ih, Nat.add_assoc]

theorem offset_succ (ns : List Node) (i : Nat) : offset ns (i + 1) = offset ns i + cellsAt ns i := by
  rw [offset, List.take_add_one, List.map_append, total_append, offset, cellsAt]
  cases ns[i]? <;> simp [total]

theorem offset_mono (ns : List Node) {i j : Nat} (h : i ≤ j) : offset ns i ≤ offset ns j := by
  induction j with
  | zero => rw [Nat.le_zero.mp h]
  | succ j ih =>
    rcases Nat.lt_or_ge j i with hlt | hge
    · rw [show i = j + 1 by omega]
    · have := ih hge
      rw [offset_succ]
      omega

/-- Cells of one node lie behind those of the nodes before it. -/
theorem offset_add_lt {ns : List Node} {i j k : Nat} (hk : k < cellsAt ns i) (h : i < j) :
    offset ns i + k < offset ns j := by
  have := offset_mono ns h
  rw [offset_succ] at this
  omega

theorem offset_injective {ns : List Node} {i j k k' : Nat} (hk : k < cellsAt ns i)
    (hk' : k' < cellsAt ns j) (h : offset ns i + k = offset ns j + k') : i = j := by
  rcases Nat.lt_trichotomy i j with hlt | rfl | hlt
  · have := offset_add_lt hk hlt
    omega
  · rfl
  · have := offset_add_lt hk' hlt
    omega

theorem offset_add_lt_total {ns : List Node} {i k : Nat} (hk : k < cellsAt ns i) :
    offset ns i + k < offset ns ns.length := by
  apply offset_add_lt hk
  by_contra hi
  simp [cellsAt, List.getElem?_eq_none (Nat.le_of_not_lt hi)] at hk

end Node

/-! ## Moved nodes -/

/-- Nodes of `ns` and nodes of `ns'` that stand for them, one for one, with as many literals. -/
structure Moves (τ : Nat → Nat → Prop) (ns ns' : List Node) : Prop where
  unique : ∀ {x y x' y'}, τ x x' → τ y y' → (x = y ↔ x' = y')
  cells : ∀ {x x'}, τ x x' → cellsAt ns' x' = cellsAt ns x

/-- The cells of nodes that stand for each other, and what is made after loading. -/
def movedCells (τ : Nat → Nat → Prop) (ns ns' : List Node) (r r' : Nat) : Prop :=
  (∃ x x' k, τ x x' ∧ k < cellsAt ns x ∧ r = offset ns x + k ∧ r' = offset ns' x' + k) ∨
  ∃ k, r = offset ns ns.length + k ∧ r' = offset ns' ns'.length + k

section
variable {τ : Nat → Nat → Prop} {ns ns' : List Node} (hτ : Moves τ ns ns')
include hτ

theorem movedCells_unique {a b a' b' : Nat} (ha : movedCells τ ns ns' a a')
    (hb : movedCells τ ns ns' b b') : a = b ↔ a' = b' := by
  -- either place is in a node that moves or behind all nodes, and never both
  rcases ha with ⟨x, x', k, hx, hk, rfl, rfl⟩ | ⟨k, rfl, rfl⟩
  · have hk' := hτ.cells hx ▸ hk
    rcases hb with ⟨y, y', l, hy, hl, rfl, rfl⟩ | ⟨l, rfl, rfl⟩
    · have hl' := hτ.cells hy ▸ hl
      constructor
      · intro heq
        obtain rfl := offset_injective hk hl heq
        rw [(hτ.unique hx hy).mp rfl]
        omega
      · intro heq
        obtain rfl := offset_injective hk' hl' heq
        rw [(hτ.unique hx hy).mpr rfl]
        omega
    · have := offset_add_lt_total hk
      have := offset_add_lt_total hk'
      omega
  · rcases hb with ⟨y, y', l, hy, hl, rfl, rfl⟩ | ⟨l, rfl, rfl⟩
    · have := offset_add_lt_total hl
      have := offset_add_lt_total (hτ.cells hy ▸ hl)
      omega
    · omega

def Renaming.ofMoves : Renaming where
  pairs := movedCells τ ns ns'
  unique := movedCells_unique hτ

theorem sameObjects_ofMoves :
    (Renaming.ofMoves hτ).SameObjects (loadAll {} ns).2.objects (loadAll {} ns').2.objects := by
  have hobjects (ns : List Node) :
      (loadAll {} ns).2.objects = Array.replicate (offset ns ns.length) .str := by
    simp [objects_loadAll, offset]
  rw [hobjects, hobjects]
  refine ⟨?_, fun k => .inr ⟨k, by simp, by simp⟩⟩
  rintro r r' (⟨x, x', k, hx, hk, rfl, rfl⟩ | ⟨k, rfl, rfl⟩)
  · have hlt := offset_add_lt_total hk
    have hlt' := offset_add_lt_total (hτ.cells hx ▸ hk)
    simpa [Array.getElem?_replicate, hlt, hlt'] using Renaming.SameObject.str
  · simp

end

section
variable {ρ : Renaming} {σ : Nat → Nat → Prop}

theorem relinked_loadLeaf {l l' : Leaf} (h h' : Heap) (hl : l.Rebound σ l')
    (hρ : ∀ k < (Node.leaf l).cells, ρ.pairs (h.objects.size + k) (h'.objects.size + k)) :
    (loadLeaf h l).1.Relinked ρ σ (loadLeaf h' l').1 := by
  rw [cells_leaf, Leaf.isLiteral] at hρ
  unfold loadLeaf
  rw [hl.kind]
  cases hk : l.kind with
  | str text =>
    have hunnamed : l.name? = none := by simp only [Leaf.name?, hk]
    refine ⟨⟨hl.token, rfl, fun x hx => ?_, fun _ => hl.unnamed hunnamed⟩, fun _ _ => .some (hρ 0 ?_)⟩
    · simp [Leaf.name?] at hx
    · simp [hk]
  | _ => exact ⟨hl, fun text htext => by simp [hk] at htext⟩

mutual

theorem cells_rebound : ∀ {n n' : Node}, Related (Leaf.Rebound σ) n n' → n'.cells = n.cells
  | .leaf l, .leaf l', h => by rw [cells_leaf, cells_leaf, Leaf.isLiteral, Leaf.isLiteral, h.kind]
  | .branch _ _ _, .branch _ _ _, h => by rw [cells_branch, cells_branch, total_cells_rebound h.2]
  | .leaf _, .branch _ _ _, h => h.elim
  | .branch _ _ _, .leaf _, h => h.elim

theorem total_cells_rebound : ∀ {ns ns' : List Node}, RelatedAll (Leaf.Rebound σ) ns ns' →
    total (ns'.map cells) = total (ns.map cells)
  | [], [], _ => rfl
  | n :: ns, n' :: ns', h => by
    simp [total, cells_rebound h.1, total_cells_rebound h.2]
  | [], _ :: _, h => h.elim
  | _ :: _, [], h => h.elim

end

mutual

/-- Nodes that differ in the numbers of functions only are loaded alike. -/
theorem relinked_loadNode : ∀ {n n' : Node} (h h' : Heap), Related (Leaf.Rebound σ) n n' →
    (∀ k < n.cells, ρ.pairs (h.objects.size + k) (h'.objects.size + k)) →
    Related (Leaf.Relinked ρ σ) (loadNode h n).1 (loadNode h' n').1
  | .leaf _, .leaf _, h, h', hn, hρ => relinked_loadLeaf h h' hn hρ
  | .branch cs span tag, .branch _ _ _, h, h', hn, hρ =>
    ⟨hn.1, relinked_loadAll h h' hn.2 fun k hk => hρ k (by rwa [cells_branch])⟩
  | .leaf _, .branch _ _ _, _, _, hn, _ => hn.elim
  | .branch _ _ _, .leaf _, _, _, hn, _ => hn.elim

theorem relinked_loadAll : ∀ {ns ns' : List Node} (h h' : Heap), RelatedAll (Leaf.Rebound σ) ns ns' →
    (∀ k < total (ns.map cells), ρ.pairs (h.objects.size + k) (h'.objects.size + k)) →
    RelatedAll (Leaf.Relinked ρ σ) (loadAll h ns).1 (loadAll h' ns').1
  | [], [], _, _, _, _ => trivial
  | n :: ns, n' :: ns', h, h', hns, hρ => by
    rw [List.map_cons, total] at hρ
    refine ⟨relinked_loadNode h h' hns.1 fun k hk => hρ k (by omega), relinked_loadAll _ _ hns.2 ?_⟩
    intro k hk
    rw [size_loadNode, size_loadNode, cells_rebound hns.1, Nat.add_assoc, Nat.add_assoc]
    exact hρ (n.cells + k) (by omega)
  | [], _ :: _, _, _, hns, _ => hns.elim
  | _ :: _, [], _, _, hns, _ => hns.elim

end

end

/-! ## Bound definitions -/

mutual

theorem related_mapLeaves {r : Leaf → Leaf → Prop} {f g : Leaf → Leaf} (h : ∀ l, r (f l) (g l)) :
    ∀ n : Node, Related r (n.mapLeaves f) (n.mapLeaves g)
  | .leaf l => h l
  | .branch cs _ _ => ⟨rfl, relatedAll_mapAll h cs⟩

theorem relatedAll_mapAll {r : Leaf → Leaf → Prop} {f g : Leaf → Leaf} (h : ∀ l, r (f l) (g l)) :
    ∀ ns : List Node, RelatedAll r (mapAll f ns) (mapAll g ns)
  | [] => trivial
  | n :: ns => ⟨related_mapLeaves h n, relatedAll_mapAll h ns⟩

end

theorem related_form {r : Leaf → Leaf → Prop} {f g : Leaf → Leaf} (h : ∀ l, r (f l) (g l)) (d : Definition)
    (index count index' count' : Option Nat) :
    Related r ((d.mapLeaves f).form index count) ((d.mapLeaves g).form index' count') :=
  ⟨rfl, related_mapLeaves h d.head, ⟨rfl, h d.name, relatedAll_mapAll h d.params⟩, relatedAll_mapAll h d.body⟩

theorem slots_congr {names names' : List String} (h : ∀ x, x ∈ names ↔ x ∈ names') (d : Definition) :
    d.slots names = d.slots names' := by
  simp only [Definition.slots, freeNames, h]

def Program.Renumbers (p p' : Program) (i j : Nat) : Prop :=
  ∃ x, p.names[i]? = some x ∧ p'.names[j]? = some x

theorem idxOf?_of_mem {names : List String} {x : String} (h : x ∈ names) :
    ∃ i, names.idxOf? x = some i ∧ names[i]? = some x := by
  cases hi : names.idxOf? x with
  | none => exact absurd h (List.idxOf?_eq_none_iff.mp hi)
  | some i =>
    obtain ⟨hlt, hget, -⟩ := List.idxOf?_eq_some_iff.mp hi
    exact ⟨i, rfl, by rw [List.getElem?_eq_getElem hlt, hget]⟩

theorem rebound_bound {p p' : Program} (h : ∀ x, x ∈ p.names ↔ x ∈ p'.names) (d : Definition) (l : Leaf) :
    (p.bound d l).Rebound (p.Renumbers p') (p'.bound d l) := by
  have hbare : (p'.bound d l).bare = (p.bound d l).bare :=
    (Leaf.bare_bindTo _ _ l).trans (Leaf.bare_bindTo _ _ l).symm
  have hname : (p.bound d l).name? = l.name? := Leaf.name?_bindTo _ _ l
  refine ⟨(congrArg Leaf.token hbare :), (congrArg Leaf.kind hbare :), ?_, ?_⟩
  · intro x hx
    rw [hname] at hx
    unfold Program.bound
    rw [← slots_congr h d]
    by_cases hmem : x ∈ p.names
    · obtain ⟨i, hi, hat⟩ := idxOf?_of_mem hmem
      obtain ⟨j, hj, hat'⟩ := idxOf?_of_mem ((h x).mp hmem)
      simp only [Leaf.bindTo, hx, hi, hj]
      exact .some (.function ⟨x, hat, hat'⟩)
    · have hi := List.idxOf?_eq_none_iff.mpr hmem
      have hj := List.idxOf?_eq_none_iff.mpr (mt (h x).mpr hmem)
      simp only [Leaf.bindTo, hx, hi, hj]
      exact .some (.slot _)
  · intro hx
    rw [hname] at hx
    rw [Program.bound, Program.bound, Leaf.bindTo_unnamed hx, Leaf.bindTo_unnamed hx]

/-! ## Where functions lie -/

structure Program.Lists (p : Program) (ds : List Declaration) : Prop where
  names : p.names = ds.map Declaration.name
  different : (ds.map Declaration.name).Nodup
  apart : (ds.map Declaration.form).Nodup
  main : p.names[0]? = some mainName
  loaded : p.load.2 = (loadAll {} p.root.children).2
  entry : ∀ (i : Nat) (d : Declaration), ds[i]? = some d →
    p.function? i = some ⟨d.name, d.form, d.definition.params.length,
      (d.definition.slots p.names).length, d.definition.name.span⟩
  form : ∀ (i : Nat) (d : Declaration), ds[i]? = some d →
    p.root.children[d.form]? = some ((d.definition.mapLeaves (p.bound d.definition)).form (some i)
      (some (d.definition.slots p.names).length))

theorem lists_of_resolve {ns : List Node} {span : Span} {tag : Option Nat} {p : Program}
    (h : resolve (.branch ns span tag) = .ok p) :
    ∃ ds, p.Lists ds ∧ (ds.map Declaration.definition).Perm (definitions ns) := by
  obtain ⟨_, ns', _, _, ds, hroot, hp, hdecl, htable, -, -, -, heach⟩ := resolve_table h
  cases hroot
  obtain ⟨⟨main, hds, hmain⟩, hnames, hmem⟩ := declare_spec hdecl
  have hfunctions : (functionNames ds).toList = p.names := by
    rw [htable, functionNames, Names.toList_ofList hnames]
  have hbound {i : Nat} {d : Declaration} (hd : ds[i]? = some d) : ∃ form count,
      count = (d.definition.slots p.names).length ∧
      form = (d.definition.mapLeaves (p.bound d.definition)).form (some i) (some count) ∧
      ns'[d.form]? = some form ∧
      p.function? i = some ⟨d.name, d.form, d.definition.params.length, count, d.definition.name.span⟩ := by
    obtain ⟨form, count, hb, hform, hentry⟩ := heach i d hd
    obtain ⟨n, -, hof⟩ := (place_of_declare hdecl).mp (List.mem_of_getElem? hd)
    obtain ⟨hcount, hn⟩ := d.definition.bind_eq (ofNode?_inv hof).2.1 hb
    rw [hfunctions] at hcount hn
    exact ⟨form, count, hcount, hn, hform, hentry⟩
  refine ⟨ds, ⟨htable, hnames, nodup_forms hnames hmem, ?_, ?_, ?_, ?_⟩, ?_⟩
  · rw [htable, hds, List.map_cons, hmain]
    rfl
  · simp only [Program.load, hp]
    rfl
  · intro i d hd
    obtain ⟨form, count, rfl, -, -, hentry⟩ := hbound hd
    exact hentry
  · intro i d hd
    obtain ⟨form, count, rfl, rfl, hform, -⟩ := hbound hd
    rw [hp]
    exact hform
  · rw [← definition_declarationsFrom 0 ns]
    exact (perm_of_declare hdecl).map Declaration.definition

/-- The body of a loaded function, loaded behind the nodes before its definition. -/
theorem body_load {p : Program} {i : Nat} {f : Function} {n : Node} (hf : p.function? i = some f)
    (hn : p.root.children[f.form]? = some n) :
    p.load.1.body i = (loadNode (loadAll {} (p.root.children.take f.form)).2 n).1.children.drop 2 := by
  have hfunction : p.load.1.function? i = some f := hf
  have hroot : p.load.1.root.children[f.form]? =
      some (loadNode (loadAll {} (p.root.children.take f.form)).2 n).1 := by
    rw [show p.load.1.root = (loadNode {} p.root).1 from rfl, children_loadNode, getElem?_loadAll {} hn]
  unfold Program.body
  rw [hfunction]
  dsimp only
  rw [hroot]

/-! ## Two programs with the same definitions -/

section
variable {p p' : Program} {ds ds' : List Declaration} (hl : p.Lists ds) (hl' : p'.Lists ds')
  (hsame : (ds.map Declaration.definition).Perm (ds'.map Declaration.definition))
include hl hl' hsame

theorem names_of_same (x : String) : x ∈ p.names ↔ x ∈ p'.names := by
  have hperm := hsame.map fun d : Definition => d.name.text
  rw [List.map_map, List.map_map] at hperm
  rw [hl.names, hl'.names]
  exact hperm.mem_iff

omit hl' in
theorem definition_of_same {d d' : Declaration} (hd : d ∈ ds) (hd' : d' ∈ ds') (hname : d'.name = d.name) :
    d'.definition = d.definition := by
  have hmem := hsame.mem_iff.mpr (List.mem_map_of_mem hd')
  obtain ⟨e, he, heq⟩ := List.mem_map.mp hmem
  have hename : e.name = d.name := by rw [← hname, Declaration.name, heq, Declaration.name]
  rw [← heq, List.inj_on_of_nodup_map hl.different he hd hename]

/-- The forms of functions with one name differ in numbers only. -/
theorem form_of_same {i j : Nat} {d d' : Declaration} (hd : ds[i]? = some d) (hd' : ds'[j]? = some d')
    (hname : d'.name = d.name) : ∃ n n', p.root.children[d.form]? = some n ∧
      p'.root.children[d'.form]? = some n' ∧ Related (Leaf.Rebound (p.Renumbers p')) n n' := by
  have hdef := definition_of_same hl hsame (List.mem_of_getElem? hd) (List.mem_of_getElem? hd') hname
  refine ⟨_, _, hl.form i d hd, hl'.form j d' hd', ?_⟩
  rw [hdef]
  exact related_form (rebound_bound (names_of_same hl hl' hsame) d.definition) d.definition _ _ _ _

def Declaration.Moved (ds ds' : List Declaration) (x x' : Nat) : Prop :=
  ∃ d ∈ ds, ∃ d' ∈ ds', d.form = x ∧ d'.form = x' ∧ d'.name = d.name

theorem moves_of_same : Moves (Declaration.Moved ds ds') p.root.children p'.root.children := by
  refine ⟨?_, ?_⟩
  · rintro _ _ _ _ ⟨d, hd, d', hd', rfl, rfl, hname⟩ ⟨e, he, e', he', rfl, rfl, hname'⟩
    constructor
    · intro heq
      obtain rfl := List.inj_on_of_nodup_map hl.apart hd he heq
      rw [List.inj_on_of_nodup_map hl'.different hd' he' (hname.trans hname'.symm)]
    · intro heq
      obtain rfl := List.inj_on_of_nodup_map hl'.apart hd' he' heq
      rw [List.inj_on_of_nodup_map hl.different hd he (hname.symm.trans hname')]
  · rintro _ _ ⟨d, hd, d', hd', rfl, rfl, hname⟩
    obtain ⟨i, hi⟩ := List.mem_iff_getElem?.mp hd
    obtain ⟨j, hj⟩ := List.mem_iff_getElem?.mp hd'
    obtain ⟨n, n', hn, hn', hrel⟩ := form_of_same hl hl' hsame hi hj hname
    simp [cellsAt, hn, hn', cells_rebound hrel]

theorem relinked_of_same (limit : Option Nat) :
    Code.Relinked (.ofMoves (moves_of_same hl hl' hsame)) (p.Renumbers p') ⟨p.load.1, limit⟩
      ⟨p'.load.1, limit⟩ := by
  refine ⟨rfl, ?_⟩
  rintro i j ⟨x, hi, hj⟩
  rw [hl.names, List.getElem?_map] at hi
  rw [hl'.names, List.getElem?_map] at hj
  obtain ⟨d, hd, rfl⟩ := Option.map_eq_some_iff.mp hi
  obtain ⟨d', hd', hname⟩ := Option.map_eq_some_iff.mp hj
  have hmem := List.mem_of_getElem? hd
  have hmem' := List.mem_of_getElem? hd'
  have hdef := definition_of_same hl hsame hmem hmem' hname
  have hentry := hl.entry i d hd
  have hentry' := hl'.entry j d' hd'
  obtain ⟨n, n', hn, hn', hrel⟩ := form_of_same hl hl' hsame hd hd' hname
  refine ⟨_, d'.form, hentry, ?_, ?_⟩
  · show p'.function? j = _
    rw [hentry', hname, hdef, slots_congr (names_of_same hl hl' hsame)]
  · have hcells : ∀ k < n.cells, movedCells (Declaration.Moved ds ds') p.root.children p'.root.children
        (offset p.root.children d.form + k) (offset p'.root.children d'.form + k) :=
      fun k hk => .inl ⟨d.form, d'.form, k, ⟨d, hmem, d', hmem', rfl, rfl, hname⟩,
        by simpa [cellsAt, hn] using hk, rfl, rfl⟩
    show RelatedAll _ (p.load.1.body i) (p'.load.1.body j)
    rw [body_load hentry hn, body_load hentry' hn']
    refine (relinked_loadNode _ _ hrel ?_).children.drop 2
    simp only [size_loadTake]
    exact hcells

end

/-- What a program does depends on its definitions alone. If a tree can be resolved, so can every
other that has the same definitions, in whatever order and among whatever other nodes. The two
programs, run with the same limit and sink, print the same and end alike: with the same error, or
with the same value up to a renaming of the places on the heap. -/
theorem only_definitions_matter {ns ns' : List Node} {span span' : Span} {tag tag' : Option Nat}
    {p : Program} (h : resolve (.branch ns span tag) = .ok p) (hns : Rearranged ns ns') :
    ∃ p', resolve (.branch ns' span' tag') = .ok p' ∧ ∃ ρ : Renaming,
      ∀ (limit : Option Nat) (sink : Sink) (log log' : Log) (fuel : Nat),
        let i := Interpreter.start p limit sink log
        let i' := Interpreter.start p' limit sink log'
        ρ.SameEnding ρ.SameValue (i.code.run fuel i.machine) (i'.code.run fuel i'.machine) := by
  obtain ⟨p', h'⟩ : ∃ p', resolve (.branch ns' span' tag') = .ok p' :=
    resolve_ok_iff.mpr (hns.resolvable (resolve_ok_iff.mp ⟨p, h⟩))
  obtain ⟨ds, hl, hdefs⟩ := lists_of_resolve h
  obtain ⟨ds', hl', hdefs'⟩ := lists_of_resolve h'
  have hperm := hdefs.trans (hns.definitions.trans hdefs'.symm)
  refine ⟨p', h', .ofMoves (moves_of_same hl hl' hperm), ?_⟩
  intro limit sink log log' fuel
  have hobjects := sameObjects_ofMoves (moves_of_same hl hl' hperm)
  rw [← hl.loaded, ← hl'.loaded] at hobjects
  have hstart : (Renaming.ofMoves (moves_of_same hl hl' hperm)).SameMachine
      (Interpreter.start p limit sink log).machine (Interpreter.start p' limit sink log').machine :=
    ⟨hobjects, ⟨.nil, rfl, rfl⟩, rfl⟩
  exact run_inStep (relinked_of_same hl hl' hperm limit) ⟨mainName, hl.main, hl'.main⟩ fuel _ _ hstart

def noisyForms : List Char :=
  "(defun (say x) (print \"> \") (print x)) \"noise\" (defun (main) (say \"a\") (return (list \"b\"))) 1".toList

theorem only_definitions_matter_noisyForms :
    ∃ (r : Reading) (ns : List Node) (span : Span) (tag : Option Nat) (p p' : Program),
      readTree noisyForms = .ok r ∧ r.root = .branch ns span tag ∧ resolve r.root = .ok p ∧
      Rearranged ns (ns.filter Node.isDefinition).reverse ∧
      resolve (.branch (ns.filter Node.isDefinition).reverse span tag) = .ok p' ∧ ∃ ρ : Renaming,
        ∀ (limit : Option Nat) (sink : Sink) (log log' : Log) (fuel : Nat),
          let i := Interpreter.start p limit sink log
          let i' := Interpreter.start p' limit sink log'
          ρ.SameEnding ρ.SameValue (i.code.run fuel i.machine) (i'.code.run fuel i'.machine) := by
  have hsome : ((readTree noisyForms).toOption.bind fun r =>
      (resolve r.root).toOption).isSome = true := by decide +kernel
  have hreversed (ns : List Node) : Rearranged ns (ns.filter Node.isDefinition).reverse := by
    refine ⟨[], ns.filter fun n => !n.isDefinition, by simp, by simp, ?_⟩
    rw [List.append_nil]
    exact (List.filter_append_perm Node.isDefinition ns).symm.trans
      ((List.reverse_perm _).symm.append_right _)
  cases hr : readTree noisyForms with
  | error e => rw [hr] at hsome; cases hsome
  | ok r =>
    cases hp : resolve r.root with
    | error e => rw [hr] at hsome; simp [Except.toOption, hp] at hsome
    | ok p =>
      obtain ⟨ns, _, span, tag, _, hroot, -⟩ := resolve_inv hp
      obtain ⟨p', hp', hrun⟩ := only_definitions_matter (hroot ▸ hp) (hreversed ns)
      exact ⟨r, ns, span, tag, p, p', rfl, hroot, hp, hreversed ns, hp', hrun⟩

end Lisplet
