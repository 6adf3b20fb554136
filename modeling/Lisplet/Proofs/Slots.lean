import Lisplet.Proofs.Balance
import Lisplet.Proofs.Resolution

/-!
# Functions and slots

Resolution only adds annotations. Which ones it adds is said here without it: a name
of a function is bound to the place of the function in the table, any other name to
its place among the names of the definition, each counted where it first occurs.
-/

namespace Lisplet

/-! ## Numbering names -/

namespace Names

def internAll (ns : Names) (xs : List String) : Names := xs.foldl (fun ns x => (ns.intern x).2) ns

theorem internAll_append (ns : Names) (xs ys : List String) :
    ns.internAll (xs ++ ys) = (ns.internAll xs).internAll ys := List.foldl_append

theorem prefix_internAll (ns : Names) (xs : List String) : ns.toList <+: (ns.internAll xs).toList := by
  induction xs generalizing ns with
  | nil => exact List.prefix_rfl
  | cons x xs ih => exact (prefix_intern ns x).trans (ih _)

theorem mem_internAll {x : String} {xs : List String} (h : x ∈ xs) (ns : Names) :
    x ∈ (ns.internAll xs).toList := by
  induction xs generalizing ns with
  | nil => cases h
  | cons y xs ih =>
    rcases List.mem_cons.mp h with rfl | h
    · have hx := getElem?_of_find? (find?_intern ns x)
      exact (prefix_internAll (ns.intern x).2 xs).subset (List.mem_of_getElem? hx)
    · exact ih h _

/-- Names are numbered by where they first occur. -/
theorem toList_internAll {ns : Names} {seen : List String} (h : ns.toList = seen.eraseDups)
    (xs : List String) : (ns.internAll xs).toList = (seen ++ xs).eraseDups := by
  induction xs generalizing ns seen with
  | nil => simpa [internAll] using h
  | cons x xs ih =>
    have hstep : (ns.intern x).2.toList = (seen ++ [x]).eraseDups := by
      rw [toList_intern, h, List.eraseDups_append]
      by_cases hx : x ∈ seen <;> simp [hx, List.removeAll, List.eraseDups_cons]
    have hrest := ih hstep
    rwa [List.append_assoc, List.singleton_append] at hrest

end Names

/-! ## Changing leaves -/

def Leaf.bindTo (functions slots : List String) (l : Leaf) : Leaf :=
  match l.name? with
  | none => l
  | some x =>
    match functions.idxOf? x with
    | some i => { l with binding := some (.function i) }
    | none => { l with binding := some (.slot (slots.idxOf x)) }

def Leaf.bare (l : Leaf) : Leaf := { l with binding := none }

theorem Leaf.name?_bindTo (functions slots : List String) (l : Leaf) :
    (l.bindTo functions slots).name? = l.name? := by
  unfold Leaf.bindTo
  split
  · rfl
  · split <;> rfl

theorem Leaf.bare_bindTo (functions slots : List String) (l : Leaf) :
    (l.bindTo functions slots).bare = l.bare := by
  unfold Leaf.bindTo
  split
  · rfl
  · split <;> rfl

namespace Node

mutual

def mapLeaves (f : Leaf → Leaf) : Node → Node
  | leaf l => leaf (f l)
  | branch cs span tag => branch (mapAll f cs) span tag

def mapAll (f : Leaf → Leaf) : List Node → List Node
  | [] => []
  | n :: ns => n.mapLeaves f :: mapAll f ns

end

mutual

def erase : Node → Node
  | leaf l => leaf l.bare
  | branch cs span _ => branch (eraseAll cs) span none

def eraseAll : List Node → List Node
  | [] => []
  | n :: ns => n.erase :: eraseAll ns

end

theorem mapAll_eq (f : Leaf → Leaf) (ns : List Node) : mapAll f ns = ns.map (mapLeaves f) := by
  induction ns with
  | nil => rfl
  | cons n ns ih => simp [mapAll, ih]

theorem eraseAll_eq (ns : List Node) : eraseAll ns = ns.map erase := by
  induction ns with
  | nil => rfl
  | cons n ns ih => simp [eraseAll, ih]

mutual

theorem erase_mapLeaves {f : Leaf → Leaf} (hf : ∀ l, (f l).bare = l.bare) :
    ∀ n : Node, (n.mapLeaves f).erase = n.erase
  | leaf l => by simp [mapLeaves, erase, hf]
  | branch cs _ _ => by simp [mapLeaves, erase, eraseAll_mapAll hf cs]

theorem eraseAll_mapAll {f : Leaf → Leaf} (hf : ∀ l, (f l).bare = l.bare) :
    ∀ ns : List Node, eraseAll (mapAll f ns) = eraseAll ns
  | [] => rfl
  | n :: ns => by simp [mapAll, eraseAll, erase_mapLeaves hf n, eraseAll_mapAll hf ns]

end

mutual

theorem leaves_mapLeaves (f : Leaf → Leaf) : ∀ n : Node, (n.mapLeaves f).leaves = n.leaves.map f
  | leaf l => by simp [mapLeaves]
  | branch cs _ _ => by simp [mapLeaves, leaves_mapAll f cs]

theorem leaves_mapAll (f : Leaf → Leaf) :
    ∀ ns : List Node, (mapAll f ns).flatMap leaves = (ns.flatMap leaves).map f
  | [] => rfl
  | n :: ns => by simp [mapAll, leaves_mapLeaves f n, leaves_mapAll f ns]

end

def freeNames (functions : List String) (n : Node) : List String :=
  (n.leaves.filterMap Leaf.name?).filter (· ∉ functions)

theorem freeNames_branch (functions : List String) (cs : List Node) (span : Span) (tag : Option Nat) :
    (branch cs span tag).freeNames functions = cs.flatMap (freeNames functions) := by
  simp only [freeNames, leaves_branch, List.filterMap_flatMap, List.filter_flatMap]
  rfl

end Node

open Node

/-! ## Binding -/

section
variable {functions : Names}

theorem bindLeaf_eq {locals : Names} {l : Leaf} {slots : List String}
    (h : (bindLeaf functions locals l).2.toList <+: slots) :
    (bindLeaf functions locals l).1 = l.bindTo functions.toList slots := by
  unfold bindLeaf at h ⊢
  unfold Leaf.bindTo
  cases hname : l.name? with
  | none => rfl
  | some x =>
    simp only [hname, ← Names.find?_eq] at h ⊢
    cases hf : functions.find? x with
    | some i => rfl
    | none =>
      simp only [hf] at h ⊢
      have hfind : slots.idxOf? x = some (locals.intern x).1 := by
        have := Names.find?_intern locals x
        rw [Names.find?_eq] at this
        exact h.findIdx?_eq_some this
      rw [List.idxOf_eq_getD_idxOf?, hfind]
      rfl

mutual

/-- A node is bound by the numbers that its names have at the end. -/
theorem bindNode_eq {slots : List String} : ∀ {locals : Names} {n : Node},
    (bindNode functions locals n).2.toList <+: slots →
    (bindNode functions locals n).1 = n.mapLeaves (.bindTo functions.toList slots)
  | _, .leaf _, h => congrArg Node.leaf (bindLeaf_eq h)
  | _, .branch _ span tag, h => congrArg (Node.branch · span tag) (bindAll_eq h)

theorem bindAll_eq {slots : List String} : ∀ {locals : Names} {ns : List Node},
    (bindAll functions locals ns).2.toList <+: slots →
    (bindAll functions locals ns).1 = mapAll (.bindTo functions.toList slots) ns
  | _, [], _ => rfl
  | locals, n :: ns, h => by
    have hn := bindNode_eq ((bindAll_extends (bindNode functions locals n).2 ns).trans h)
    have hns := @bindAll_eq slots (bindNode functions locals n).2 ns h
    simp only [bindAll, mapAll, hn, hns]

end

theorem bindLeaf_names (locals : Names) (l : Leaf) :
    (bindLeaf functions locals l).2 = locals.internAll ((leaf l).freeNames functions.toList) := by
  unfold bindLeaf freeNames
  cases hname : l.name? with
  | none => simp [hname, Names.internAll]
  | some x =>
    cases hf : functions.find? x with
    | some i =>
      have hx : x ∈ functions.toList := List.mem_of_getElem? (Names.getElem?_of_find? hf)
      simp [hname, hf, hx, Names.internAll]
    | none =>
      have hx := Names.find?_eq_none_iff.mp hf
      simp [hname, hf, hx, Names.internAll]

mutual

/-- Binding a node numbers its free names. -/
theorem bindNode_names : ∀ (locals : Names) (n : Node),
    (bindNode functions locals n).2 = locals.internAll (n.freeNames functions.toList)
  | locals, .leaf l => bindLeaf_names locals l
  | locals, .branch cs span tag => by
    rw [freeNames_branch]
    exact bindAll_names locals cs

theorem bindAll_names : ∀ (locals : Names) (ns : List Node),
    (bindAll functions locals ns).2 = locals.internAll (ns.flatMap (freeNames functions.toList))
  | _, [] => rfl
  | locals, n :: ns => by
    rw [List.flatMap_cons, Names.internAll_append, ← bindNode_names locals n]
    exact bindAll_names _ ns

end

/-- Parameters that are accepted are bound like anything else. -/
theorem bindAll_of_bindParams {locals locals' : Names} {ns ns' : List Node}
    (h : bindParams functions locals ns = .ok (ns', locals')) :
    bindAll functions locals ns = (ns', locals') := by
  induction ns generalizing locals ns' with
  | nil => cases h; rfl
  | cons n ns ih =>
    rw [bindParams] at h
    split at h
    · cases h
    · rename_i l' locals₁ hp
      split at h
      · cases h
      · rename_i ns₁ locals₂ hps
        cases h
        obtain ⟨l, x, rfl, hx, hf, -, rfl, rfl⟩ := bindParam_inv hp
        simp [bindAll, bindNode, bindLeaf, hx, hf, ih hps]

end

/-! ## Definitions -/

theorem Leaf.bindTo_unnamed {l : Leaf} (h : l.name? = none) (functions slots : List String) :
    l.bindTo functions slots = l := by
  simp [Leaf.bindTo, h]

theorem leaf_of_keyword {n : Node} {k : Keyword} (h : n.keyword? = some k) :
    ∃ l, n = .leaf l ∧ l.name? = none := by
  cases n with
  | branch _ _ _ => cases h
  | leaf l =>
    refine ⟨l, rfl, ?_⟩
    simp only [Node.keyword?, Leaf.keyword?] at h
    unfold Leaf.name?
    split at h
    · rename_i hkind
      rw [hkind]
    · cases h

namespace Definition

def form (d : Definition) (index count : Option Nat) : Node :=
  .branch (d.head :: .branch (.leaf d.name :: d.params) d.prototype index :: d.body) d.span count

def mapLeaves (f : Leaf → Leaf) (d : Definition) : Definition :=
  { d with head := d.head.mapLeaves f, name := f d.name, params := mapAll f d.params, body := mapAll f d.body }

/-- The names of a definition that name no function, each where it first occurs. -/
def slots (functions : List String) (d : Definition) : List String :=
  ((d.form none none).freeNames functions).eraseDups

theorem leaves_mapLeaves_form (f : Leaf → Leaf) (d : Definition) (index count : Option Nat) :
    ((d.mapLeaves f).form index count).leaves = (d.form none none).leaves.map f := by
  simp [form, mapLeaves, Node.leaves_mapLeaves, leaves_mapAll]

theorem erase_mapLeaves_form {f : Leaf → Leaf} (hf : ∀ l, (f l).bare = l.bare) (d : Definition)
    (index count index' count' : Option Nat) :
    ((d.mapLeaves f).form index count).erase = (d.form index' count').erase := by
  simp [form, mapLeaves, erase, eraseAll, Node.erase_mapLeaves hf, eraseAll_mapAll hf, hf]

/-- Name, parameters and body of a definition are bound in this order, with one numbering. -/
theorem bind_inv_eq {functions : Names} {index : Nat} {d : Definition} {n : Node} {count : Nat}
    (h : d.bind functions index = .ok (n, count)) :
    ∃ (params : List Node) (locals : Names),
      bindParams functions (bindLeaf functions {} d.name).2 d.params = .ok (params, locals) ∧
      (bindAll functions locals d.body).2.size = count ∧
      n = .branch (d.head :: .branch (.leaf (bindLeaf functions {} d.name).1 :: params) d.prototype
        (some index) :: (bindAll functions locals d.body).1) d.span (some count) := by
  unfold Definition.bind at h
  dsimp only at h
  split at h
  · cases h
  · rename_i params locals hp
    cases h
    exact ⟨params, locals, hp, rfl, rfl⟩

theorem toList_slots {functions : Names} {d : Definition} (hk : d.head.keyword? = some .defun)
    {params : List Node} {locals : Names}
    (hp : bindParams functions (bindLeaf functions {} d.name).2 d.params = .ok (params, locals)) :
    (bindAll functions locals d.body).2.toList = d.slots functions.toList := by
  obtain ⟨head, hhead, hunnamed⟩ := leaf_of_keyword hk
  have hparams := congrArg Prod.snd (bindAll_of_bindParams hp)
  rw [bindAll_names, bindLeaf_names] at hparams
  dsimp only at hparams
  have hfree : (d.form none none).freeNames functions.toList =
      (Node.leaf d.name).freeNames functions.toList ++ (d.params.flatMap (freeNames functions.toList) ++
        d.body.flatMap (freeNames functions.toList)) := by
    have hnone : (Node.leaf head).freeNames functions.toList = [] := by simp [freeNames, hunnamed]
    simp [form, hhead, freeNames_branch, hnone]
  have hempty : Names.toList {} = ([] : List String).eraseDups := rfl
  -- three numberings, each going on where the one before ended, are one over all names
  rw [bindAll_names, ← hparams, ← Names.internAll_append, ← Names.internAll_append, ← hfree,
    Names.toList_internAll hempty, List.nil_append]
  rfl

/-- A definition is bound leaf by leaf, to the functions and to its own slots. -/
theorem bind_eq {functions : Names} {index : Nat} {d : Definition} {n : Node} {count : Nat}
    (hk : d.head.keyword? = some .defun) (h : d.bind functions index = .ok (n, count)) :
    count = (d.slots functions.toList).length ∧
      n = (d.mapLeaves (.bindTo functions.toList (d.slots functions.toList))).form (some index) (some count) := by
  obtain ⟨params, locals, hp, hcount, rfl⟩ := bind_inv_eq h
  have hslots := toList_slots hk hp
  have hbody : (bindAll functions locals d.body).2.toList <+: d.slots functions.toList := hslots ▸ List.prefix_rfl
  have hlocals := (bindAll_extends locals d.body).trans hbody
  have hparams := bindAll_of_bindParams hp
  have hbound : (bindAll functions (bindLeaf functions {} d.name).2 d.params).2.toList <+:
      d.slots functions.toList := by rw [hparams]; exact hlocals
  have hname := (bindAll_extends (bindLeaf functions {} d.name).2 d.params).trans hbound
  -- the head is a keyword, so that binding it changes nothing
  obtain ⟨head, hhead, hunnamed⟩ := leaf_of_keyword hk
  have hfirst : d.head.mapLeaves (.bindTo functions.toList (d.slots functions.toList)) = d.head := by
    rw [hhead, Node.mapLeaves, Leaf.bindTo_unnamed hunnamed]
  have heq := bindAll_eq hbound
  rw [hparams] at heq
  refine ⟨by rw [← hcount, Names.size_eq, hslots], ?_⟩
  simp only [form, mapLeaves, hfirst, bindLeaf_eq hname, bindAll_eq hbody, ← heq]

/-- The parameters take the first slots. -/
theorem slot_of_param {functions : Names} {index i : Nat} {d : Definition} {n : Node} {count : Nat}
    (hk : d.head.keyword? = some .defun) (hd : d.name.name? = some d.name.text)
    (hi : functions.find? d.name.text = some i) (h : d.bind functions index = .ok (n, count))
    {j : Nat} {m : Node} (hm : d.params[j]? = some m) :
    ∃ l, m = .leaf l ∧ (l.bindTo functions.toList (d.slots functions.toList)).binding = some (.slot j) := by
  obtain ⟨params, locals, hp, -, -⟩ := bind_inv_eq h
  have hslots := toList_slots hk hp
  have hempty : (bindLeaf functions {} d.name).2 = {} := by simp [bindLeaf, hd, hi]
  rw [hempty] at hp
  obtain ⟨-, -, -, hnum⟩ := bindParams_spec hp
  obtain ⟨l, x, rfl, hx, hfind⟩ := hnum j m hm
  have hfind := Names.find?_of_prefix (@bindAll_extends functions locals d.body) hfind
  have hsize : Names.size {} = 0 := rfl
  rw [Names.find?_eq, hslots, hsize, Nat.zero_add] at hfind
  have hfree : x ∉ functions.toList := by
    have hmem : x ∈ d.slots functions.toList := by
      by_contra hx
      rw [List.idxOf?_eq_none_iff.mpr hx] at hfind
      cases hfind
    rw [slots, List.mem_eraseDups, freeNames, List.mem_filter] at hmem
    simpa using hmem.2
  refine ⟨l, rfl, ?_⟩
  simp [Leaf.bindTo, hx, List.idxOf?_eq_none_iff.mpr hfree, List.idxOf_eq_getD_idxOf?, hfind]

end Definition

/-! ## Declarations -/

theorem ofNode?_eq_none_iff {n : Node} : Definition.ofNode? n = none ↔ n.headKeyword? ≠ some .defun := by
  cases n with
  | leaf l => simp [Definition.ofNode?, headKeyword?, children]
  | branch cs span tag =>
    cases cs with
    | nil => simp [Definition.ofNode?, headKeyword?, children]
    | cons head rest => simp [Definition.ofNode?, headKeyword?, children]

/-- Every form that starts like a definition is one, or declaring fails. -/
theorem definition_of_declareFrom {form : Nat} {ns : List Node} {d d' : Declared}
    (h : declareFrom form d ns = .ok d') {n : Node} (hn : n ∈ ns) (hk : n.headKeyword? = some .defun) :
    ∃ definition, Definition.ofNode? n = some (.ok definition) := by
  induction ns generalizing form d with
  | nil => cases hn
  | cons m ns ih =>
    rw [declareFrom] at h
    split at h
    · rename_i hm
      rcases List.mem_cons.mp hn with rfl | hn
      · exact absurd hk (ofNode?_eq_none_iff.mp hm)
      · exact ih h hn
    · cases h
    · rename_i definition hm
      split at h
      · cases h
      · rcases List.mem_cons.mp hn with rfl | hn
        · exact ⟨definition, hm⟩
        · exact ih h hn

theorem declareFrom_of_declare {ns : List Node} {span : Span} {ds : List Declaration}
    (h : declare ns span = .ok ds) : ∃ d, declareFrom 0 {} ns = .ok d := by
  unfold declare at h
  split at h
  · cases h
  · exact ⟨_, ‹_›⟩

theorem pairwise_declarationsFrom (form : Nat) (ns : List Node) :
    (declarationsFrom form ns).Pairwise fun a b => a.form < b.form := by
  induction ns generalizing form with
  | nil => exact .nil
  | cons n ns ih =>
    rw [declarationsFrom]
    split
    · refine List.pairwise_cons.mpr ⟨?_, ih (form + 1)⟩
      intro x hx
      obtain ⟨j, -, -, -, hj⟩ := mem_declarationsFrom.mp hx
      show form < x.form
      omega
    · exact ih (form + 1)

theorem table_of_bindFunctions {names : Names} {index : Nat} {ns ns' : List Node}
    {ds : List Declaration} {fs : List Function} (h : bindFunctions names index ns ds = .ok (ns', fs)) :
    fs.map Function.name = ds.map Declaration.name ∧ fs.map Function.form = ds.map Declaration.form := by
  induction ds generalizing index ns fs with
  | nil => cases h; exact ⟨rfl, rfl⟩
  | cons d ds ih =>
    rw [bindFunctions] at h
    split at h
    · cases h
    · split at h
      · cases h
      · rename_i hrest
        cases h
        obtain ⟨hnames, hforms⟩ := ih hrest
        simp [hnames, hforms]

/-! ## Resolved programs -/

def Program.names (p : Program) : List String := p.functions.map Function.name

theorem find?_of_nodup {p : Program} (h : p.names.Nodup) {i : Nat} {f : Function}
    (hf : p.function? i = some f) : p.find? f.name = some i := by
  obtain ⟨hi, hget⟩ := List.getElem?_eq_some_iff.mp hf
  refine List.findIdx?_eq_some_iff_getElem.mpr ⟨hi, by simp [hget], ?_⟩
  intro j hj heq
  have hlen : i < p.names.length := by simpa [Program.names] using hi
  have hsame : p.names[j] = p.names[i] := by simpa [Program.names, hget] using heq
  have := (List.getElem_inj h).mp hsame
  omega

theorem place_of_declare {ns : List Node} {span : Span} {ds : List Declaration}
    (h : declare ns span = .ok ds) {d : Declaration} :
    d ∈ ds ↔ ∃ n, ns[d.form]? = some n ∧ Definition.ofNode? n = some (.ok d.definition) := by
  obtain ⟨-, -, hmem⟩ := declare_spec h
  simp only [hmem, mem_declarationsFrom, Nat.zero_add]
  constructor
  · rintro ⟨j, n, hn, hof, rfl⟩
    exact ⟨n, hn, hof⟩
  · rintro ⟨n, hn, hof⟩
    exact ⟨d.form, n, hn, hof, rfl⟩

/-- A resolved program has an entry for each declaration, and a bound form in its place. -/
theorem resolve_table {root : Node} {p : Program} (h : resolve root = .ok p) :
    ∃ ns ns' span tag ds, root = .branch ns span tag ∧ p.root = .branch ns' span tag ∧
      declare ns span = .ok ds ∧ p.names = ds.map Declaration.name ∧
      p.functions.map Function.form = ds.map Declaration.form ∧ ns'.length = ns.length ∧
      (∀ j, (∀ d ∈ ds, d.form ≠ j) → ns'[j]? = ns[j]?) ∧
      ∀ i d, ds[i]? = some d → ∃ form count,
        d.definition.bind (functionNames ds) i = .ok (form, count) ∧ ns'[d.form]? = some form ∧
        p.function? i = some ⟨d.name, d.form, d.definition.params.length, count, d.definition.name.span⟩ := by
  obtain ⟨ns, ns', span, tag, ds, hroot, hp, hdecl, hbind⟩ := resolve_inv h
  obtain ⟨-, hnames, hmem⟩ := declare_spec hdecl
  have hlt : ∀ d ∈ ds, d.form < ns.length := by
    intro d hd
    obtain ⟨n, hn, -⟩ := (place_of_declare hdecl).mp hd
    exact (List.getElem?_eq_some_iff.mp hn).1
  obtain ⟨hlen, -, hkeep, heach⟩ := bindFunctions_spec hbind (nodup_forms hnames hmem) hlt
  obtain ⟨htable, hforms⟩ := table_of_bindFunctions hbind
  simp only [Nat.zero_add] at heach
  exact ⟨ns, ns', span, tag, ds, hroot, hp, hdecl, htable, hforms, hlen, hkeep, heach⟩

def Program.bound (p : Program) (d : Definition) : Leaf → Leaf := .bindTo p.names (d.slots p.names)

/-- The entry `f` with number `i` of a function table, and the definition `d` that it comes from. -/
structure Program.Annotates (p : Program) (root : Node) (i : Nat) (f : Function) (d : Definition) :
    Prop where
  definition : ∃ index count, root.children[f.form]? = some (d.form index count)
  head : d.head.keyword? = some .defun
  name : d.name.name? = some f.name
  found : p.find? f.name = some i
  arity : f.arity = d.params.length
  locals : f.locals = (d.slots p.names).length
  fits : f.arity ≤ f.locals
  form : p.root.children[f.form]? = some ((d.mapLeaves (p.bound d)).form (some i) (some f.locals))
  body : p.body i = d.body.map (mapLeaves (p.bound d))
  params : ∀ j m, d.params[j]? = some m → ∃ l, m = .leaf l ∧ (p.bound d l).binding = some (.slot j)

/-- Inside a resolved definition every name is bound. -/
theorem Program.Annotates.leaves {p : Program} {root : Node} {i : Nat} {f : Function} {d : Definition}
    (h : p.Annotates root i f d) {l : Leaf} {x : String}
    (hl : l ∈ ((d.mapLeaves (p.bound d)).form (some i) (some f.locals)).leaves) (hx : l.name? = some x) :
    (∃ j, p.names[j]? = some x ∧ l.binding = some (.function j)) ∨
      (x ∉ p.names ∧ ∃ k < f.locals, (d.slots p.names)[k]? = some x ∧ l.binding = some (.slot k)) := by
  rw [Definition.leaves_mapLeaves_form, List.mem_map] at hl
  obtain ⟨l, hl, rfl⟩ := hl
  rw [Program.bound, Leaf.name?_bindTo] at hx
  cases hf : p.names.idxOf? x with
  | some j =>
    obtain ⟨hj, hget, -⟩ := List.idxOf?_eq_some_iff.mp hf
    exact .inl ⟨j, by rw [List.getElem?_eq_getElem hj, hget], by simp [Program.bound, Leaf.bindTo, hx, hf]⟩
  | none =>
    have hfree := List.idxOf?_eq_none_iff.mp hf
    have hmem : x ∈ d.slots p.names := by
      rw [Definition.slots, List.mem_eraseDups, freeNames, List.mem_filter]
      exact ⟨List.mem_filterMap.mpr ⟨l, hl, hx⟩, by simpa using hfree⟩
    refine .inr ⟨hfree, (d.slots p.names).idxOf x, ?_, List.getElem?_idxOf hmem, ?_⟩
    · rw [h.locals]
      exact List.idxOf_lt_length_of_mem hmem
    · simp [Program.bound, Leaf.bindTo, hx, hf]

theorem annotates_of_resolve {root : Node} {p : Program} (h : resolve root = .ok p) {i : Nat}
    {f : Function} (hf : p.function? i = some f) : ∃ d, p.Annotates root i f d := by
  obtain ⟨ns, ns', span, tag, ds, rfl, hp, hdecl, htable, -, -, -, heach⟩ := resolve_table h
  obtain ⟨-, hnames, -⟩ := declare_spec hdecl
  have hfunctions : (functionNames ds).toList = p.names := by
    rw [htable, functionNames, Names.toList_ofList hnames]
  obtain ⟨d, hd⟩ : ∃ d, ds[i]? = some d := by
    have hi : p.names[i]? = some f.name := by
      rw [Program.names, List.getElem?_map]
      exact congrArg (Option.map Function.name) hf
    rw [htable, List.getElem?_map] at hi
    obtain ⟨d, hd, -⟩ := Option.map_eq_some_iff.mp hi
    exact ⟨d, hd⟩
  obtain ⟨form, count, hb, hn', hentry⟩ := heach i d hd
  obtain rfl : f = ⟨d.name, d.form, d.definition.params.length, count, d.definition.name.span⟩ :=
    Option.some.inj (hf.symm.trans hentry)
  obtain ⟨n, hn, hof⟩ := (place_of_declare hdecl).mp (List.mem_of_getElem? hd)
  obtain ⟨⟨ptag, tag', rfl⟩, hk, hname⟩ := ofNode?_inv hof
  have hindex : (functionNames ds).find? d.definition.name.text = some i := by
    rw [functionNames, Names.find?_ofList hnames, List.getElem?_map, hd]
    rfl
  obtain ⟨hlocals, hform⟩ := d.definition.bind_eq hk hb
  rw [hfunctions] at hlocals hform
  have hparams : ∀ j m, d.definition.params[j]? = some m →
      ∃ l, m = .leaf l ∧ (p.bound d.definition l).binding = some (.slot j) := by
    intro j m hm
    have := Definition.slot_of_param hk hname hindex hb hm
    rwa [hfunctions] at this
  have hresolved : p.root.children[d.form]? = some form := by rw [hp]; exact hn'
  refine ⟨d.definition, ⟨ptag, tag', hn⟩, hk, hname, ?_, rfl, hlocals, ?_, ?_, ?_, hparams⟩
  · exact find?_of_nodup (htable ▸ hnames) hf
  · exact arity_le_locals h _ (List.mem_of_getElem? hf)
  · rw [hresolved, hform]
    rfl
  · unfold Program.body
    rw [hf]
    dsimp only
    rw [hresolved, hform, ← mapAll_eq]
    rfl

/-- A top-level node is the definition of a function, or it is left alone. -/
theorem node_of_resolve {root : Node} {p : Program} (h : resolve root = .ok p) {j : Nat} {n : Node}
    (hn : root.children[j]? = some n) :
    if n.headKeyword? = some .defun then ∃ i f, p.function? i = some f ∧ f.form = j
    else p.root.children[j]? = some n := by
  obtain ⟨ns, ns', span, tag, ds, rfl, hp, hdecl, -, -, -, hkeep, heach⟩ := resolve_table h
  split
  · rename_i hk
    obtain ⟨declared, hfrom⟩ := declareFrom_of_declare hdecl
    obtain ⟨definition, hof⟩ := definition_of_declareFrom hfrom (List.mem_of_getElem? hn) hk
    have hmem : (⟨j, definition⟩ : Declaration) ∈ ds := (place_of_declare hdecl).mpr ⟨n, hn, hof⟩
    obtain ⟨i, hi⟩ := List.mem_iff_getElem?.mp hmem
    obtain ⟨form, count, -, -, hentry⟩ := heach i _ hi
    exact ⟨i, _, hentry, rfl⟩
  · rename_i hk
    have hother : ∀ d ∈ ds, d.form ≠ j := by
      rintro d hd rfl
      obtain ⟨m, hm, hof⟩ := (place_of_declare hdecl).mp hd
      obtain rfl : n = m := Option.some.inj (hn.symm.trans hm)
      rw [ofNode?_eq_none_iff.mpr hk] at hof
      cases hof
    rw [hp]
    exact (hkeep j hother).trans hn

/-- Without its annotations a resolved tree is the tree that was resolved. -/
theorem erase_of_resolve {root : Node} {p : Program} (h : resolve root = .ok p) :
    p.root.erase = root.erase := by
  have hnode {j : Nat} {n : Node} := @node_of_resolve root p h j n
  have hentry {i : Nat} {f : Function} := @annotates_of_resolve root p h i f
  obtain ⟨ns, ns', span, tag, ds, rfl, hp, -, -, -, hlen, -, -⟩ := resolve_table h
  rw [hp] at hnode ⊢
  simp only [erase, eraseAll_eq]
  congr 1
  apply List.ext_getElem?
  intro j
  rw [List.getElem?_map, List.getElem?_map]
  cases hn : ns[j]? with
  | none => rw [List.getElem?_eq_none (hlen ▸ List.getElem?_eq_none_iff.mp hn)]
  | some n =>
    have hcase := hnode hn
    -- a node was rewritten as a definition, and erasing undoes that, or it is the old one
    split at hcase
    · obtain ⟨i, f, hf, rfl⟩ := hcase
      obtain ⟨d, hd⟩ := hentry hf
      obtain ⟨index, count, hdef⟩ := hd.definition
      have hform := hd.form
      rw [hp] at hform
      obtain rfl : n = d.form index count := Option.some.inj (hn.symm.trans hdef)
      have hn' : ns'[f.form]? = _ := hform
      rw [hn']
      exact congrArg some (d.erase_mapLeaves_form (Leaf.bare_bindTo _ _) _ _ _ _)
    · have hn' : ns'[j]? = some n := hcase
      rw [hn']

theorem eraseAll_of_spells {ns : List Node} {ts : List Token} (h : Spells ns ts) : eraseAll ns = ns := by
  induction h with
  | nil => rfl
  | leaf _ _ ih => simp [eraseAll, erase, ih, Leaf.bare, Leaf.ofToken]
  | branch _ _ _ _ ihcs ih => simp [eraseAll, erase, ihcs, ih]

/-- Trees that are read have no annotations. -/
theorem erase_readTree {source : List Char} {r : Reading} (h : readTree source = .ok r) :
    r.root.erase = r.root := by
  obtain ⟨ns, hroot, hs⟩ := spells_of_readTree h
  rw [hroot, erase, eraseAll_of_spells hs]

/-- A resolved program lists `main` and then the other functions in source order, under different
names. Each entry belongs to one definition, whose names are bound to functions and to slots that
are numbered by first occurrence, parameters first. Nothing else changes. -/
theorem resolve_annotates {root : Node} {p : Program} (h : resolve root = .ok p) :
    p.names.head? = some mainName ∧ p.names.Nodup ∧
    (p.functions.tail.map Function.form).Pairwise (· < ·) ∧
    (∀ i f, p.function? i = some f → ∃ d n, p.Annotates root i f d ∧ p.root.children[f.form]? = some n ∧
      (∀ l, l.name? = none → p.bound d l = l) ∧ ∀ l ∈ n.leaves, ∀ x, l.name? = some x →
        (∃ j, p.names[j]? = some x ∧ l.binding = some (.function j)) ∨
        (x ∉ p.names ∧ ∃ k < f.locals, (d.slots p.names)[k]? = some x ∧ l.binding = some (.slot k))) ∧
    (∀ (j : Nat) n, root.children[j]? = some n →
      if n.headKeyword? = some .defun then ∃ i f, p.function? i = some f ∧ f.form = j
      else p.root.children[j]? = some n) ∧
    p.root.erase = root.erase ∧
    ∀ source r, readTree source = .ok r → r.root = root → p.root.erase = root := by
  obtain ⟨ns, ns', span, tag, ds, -, -, hdecl, htable, hforms, -⟩ := resolve_table h
  obtain ⟨⟨main, hds, hmain⟩, hnames, -⟩ := declare_spec hdecl
  refine ⟨?_, htable ▸ hnames, ?_, ?_, ?_, erase_of_resolve h, ?_⟩
  · rw [htable, hds, List.map_cons, List.head?_cons, hmain]
  · rw [List.map_tail, hforms, hds, List.map_cons, List.tail_cons, List.pairwise_map]
    exact (pairwise_declarationsFrom 0 ns).sublist List.filter_sublist
  · intro i f hf
    obtain ⟨d, hd⟩ := annotates_of_resolve h hf
    exact ⟨d, _, hd, hd.form, fun l hl => Leaf.bindTo_unnamed hl _ _, fun l hl x hx => hd.leaves hl hx⟩
  · intro j n hn
    exact node_of_resolve h hn
  · rintro source r hr rfl
    rw [erase_of_resolve h, erase_readTree hr]

def nestedNames : List Char :=
  "(defun (f a b) (set c (list a (f c d))) (return (+ d b))) x (defun (main) (f 1 y))".toList

theorem resolve_annotates_nestedNames :
    ∃ (r : Reading) (p : Program), readTree nestedNames = .ok r ∧ resolve r.root = .ok p ∧
      p.names.head? = some mainName ∧ p.names.Nodup ∧ p.root.erase = r.root ∧
      ∀ i f, p.function? i = some f → ∃ d, p.Annotates r.root i f d := by
  have hsome : ((readTree nestedNames).toOption.bind fun r =>
      (resolve r.root).toOption).isSome = true := by decide +kernel
  cases hr : readTree nestedNames with
  | error e => rw [hr] at hsome; cases hsome
  | ok r =>
    cases hp : resolve r.root with
    | error e => rw [hr] at hsome; simp [Except.toOption, hp] at hsome
    | ok p =>
      obtain ⟨hmain, hnames, -, hentry, -, -, herase⟩ := resolve_annotates hp
      refine ⟨r, p, rfl, hp, hmain, hnames, herase _ r hr rfl, ?_⟩
      intro i f hf
      obtain ⟨d, n, hd, -⟩ := hentry i f hf
      exact ⟨d, hd⟩

end Lisplet
