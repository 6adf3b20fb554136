import Lisplet.Proofs.Slots

/-!
# Moved trees

Nothing that is made of tokens depends on where they stand: positions are only passed
on. If all positions of a scan are moved, its tree is the moved tree, the program of that
is the moved program, and faults are found at moved places.
-/

namespace Lisplet

variable (g : Position → Position)

/-! ## What is moved -/

def Span.moved (s : Span) : Span := ⟨g s.start, g s.stop⟩

def Token.moved (t : Token) : Token := { t with span := t.span.moved g }

def Cut.moved (c : Cut) : Cut := { c with quote := c.quote.moved g }

def Scan.moved (s : Scan) : Scan := ⟨s.tokens.map (.moved g), s.finish.moved g, s.cut.map (.moved g)⟩

namespace Leaf

def moved (l : Leaf) : Leaf := { l with token := l.token.moved g }

@[simp] theorem kind_moved (l : Leaf) : (l.moved g).kind = l.kind := rfl

@[simp] theorem name?_moved (l : Leaf) : (l.moved g).name? = l.name? := rfl

@[simp] theorem keyword?_moved (l : Leaf) : (l.moved g).keyword? = l.keyword? := rfl

@[simp] theorem binding_moved (l : Leaf) : (l.moved g).binding = l.binding := rfl

@[simp] theorem cell_moved (l : Leaf) : (l.moved g).cell = l.cell := rfl

end Leaf

namespace Node

mutual

def moved : Node → Node
  | leaf l => leaf (l.moved g)
  | branch cs span tag => branch (movedAll cs) (span.moved g) tag

def movedAll : List Node → List Node
  | [] => []
  | n :: ns => n.moved :: movedAll ns

end

theorem movedAll_eq (ns : List Node) : movedAll g ns = ns.map (moved g) := by
  induction ns with
  | nil => rfl
  | cons n ns ih => rw [movedAll, ih, List.map_cons]

@[simp] theorem moved_leaf (l : Leaf) : (leaf l).moved g = leaf (l.moved g) := by rw [moved]

@[simp] theorem moved_branch (cs : List Node) (span : Span) (tag : Option Nat) :
    (branch cs span tag).moved g = branch (cs.map (moved g)) (span.moved g) tag := by
  rw [moved, movedAll_eq]

end Node

namespace ReadError

def moved : ReadError → ReadError
  | invalidUtf8 s => invalidUtf8 (s.moved g)
  | unmatchedClose s => unmatchedClose (s.moved g)
  | unclosedOpen s => unclosedOpen (s.moved g)

theorem message_moved (e : ReadError) : (e.moved g).message = e.message := by cases e <;> rfl

theorem span_moved (e : ReadError) : (e.moved g).span = e.span.moved g := by cases e <;> rfl

end ReadError

namespace Fault

def moved : Fault → Fault
  | malformedDefun s => malformedDefun (s.moved g)
  | expectedPrototype s => expectedPrototype (s.moved g)
  | expectedFunctionName s => expectedFunctionName (s.moved g)
  | expectedParameter s => expectedParameter (s.moved g)
  | parameterShadowsFunction name s => parameterShadowsFunction name (s.moved g)
  | duplicateParameter name s => duplicateParameter name (s.moved g)
  | duplicateMain s => duplicateMain (s.moved g)
  | duplicateFunction name s => duplicateFunction name (s.moved g)
  | missingMain s => missingMain (s.moved g)

theorem message_moved (f : Fault) : (f.moved g).message = f.message := by cases f <;> rfl

theorem span_moved (f : Fault) : (f.moved g).span = f.span.moved g := by cases f <;> rfl

end Fault

def mapBoth {ε ε' α β : Type} (f : ε → ε') (h : α → β) : Except ε α → Except ε' β
  | .error e => .error (f e)
  | .ok a => .ok (h a)

/-! ## Reading -/

def OpenForm.moved (f : OpenForm) : OpenForm := ⟨f.before.map (.moved g), f.opening.moved g⟩

theorem readFrom_moved (ts : List Token) (nodes : List Node) (forms : List OpenForm) :
    readFrom (ts.map (.moved g)) (nodes.map (.moved g)) (forms.map (.moved g)) =
      mapBoth (.moved g) (List.map (.moved g)) (readFrom ts nodes forms) := by
  fun_induction readFrom ts nodes forms with
  | case1 nodes => simp [readFrom, mapBoth]
  | case2 nodes form forms => rfl
  | case3 t ts nodes forms hk ih =>
    have hk : (t.moved g).kind = .opening := hk
    rw [List.map_cons, readFrom.eq_def]
    simp only [hk]
    exact ih
  | case4 t ts nodes hk =>
    have hk : (t.moved g).kind = .closing := hk
    rw [List.map_cons, List.map_nil, readFrom, hk]
    rfl
  | case5 t ts nodes hk form forms ih =>
    have hk : (t.moved g).kind = .closing := hk
    rw [List.map_cons, Node.moved_branch, List.map_reverse] at ih
    rw [List.map_cons, List.map_cons, readFrom, hk]
    exact ih
  | case6 t ts nodes forms hopening hclosing ih =>
    have hk : (t.moved g).kind = t.kind := rfl
    rw [List.map_cons, readFrom.eq_def]
    simp only [hk]
    exact ih

theorem read_moved (hg : g .origin = .origin) (s : Scan) : (s.moved g).read =
    mapBoth (.moved g) (fun r => ⟨r.root.moved g, r.cut.map (.moved g)⟩) s.read := by
  have hread := readFrom_moved g s.tokens [] []
  unfold Scan.read
  rw [show (s.moved g).tokens = s.tokens.map (.moved g) from rfl]
  simp only [List.map_nil] at hread
  rw [hread]
  cases readFrom s.tokens [] [] with
  | error e => rfl
  | ok nodes => simp [mapBoth, Except.map, Scan.moved, Token.moved, Span.moved, Span.merge, Span.point, hg]

/-! ## Declaring -/

def Definition.moved (d : Definition) : Definition :=
  ⟨d.head.moved g, d.name.moved g, d.params.map (.moved g), d.prototype.moved g, d.body.map (.moved g),
    d.span.moved g⟩

def Declaration.moved (d : Declaration) : Declaration := ⟨d.form, d.definition.moved g⟩

def Declared.moved (d : Declared) : Declared := ⟨d.main.map (.moved g), d.others.map (.moved g)⟩

theorem keyword?_moved (n : Node) : (n.moved g).keyword? = n.keyword? := by
  cases n with
  | leaf l => rw [Node.moved_leaf]; rfl
  | branch cs span tag => rw [Node.moved_branch]; rfl

theorem ofNode?_moved (n : Node) : Definition.ofNode? (n.moved g) =
    (Definition.ofNode? n).map (mapBoth (.moved g) (.moved g)) := by
  rcases n with l | ⟨_ | ⟨head, rest⟩, span, tag⟩
  · rw [Node.moved_leaf]; rfl
  · rw [Node.moved_branch]; rfl
  rw [Node.moved_branch, List.map_cons]
  unfold Definition.ofNode?
  dsimp only
  rw [keyword?_moved]
  by_cases hk : head.keyword? = some .defun
  · rw [if_pos hk, if_pos hk]
    rcases rest with _ | ⟨l | ⟨_ | ⟨name | ⟨_, _, _⟩, params⟩, prototype, _⟩, body⟩
    · rfl
    · rw [List.map_cons, Node.moved_leaf]; rfl
    · rw [List.map_cons, Node.moved_branch]; rfl
    · rw [List.map_cons, Node.moved_branch, List.map_cons, Node.moved_leaf]
      simp only [Leaf.name?_moved, Option.map_some]
      by_cases h : name.name?.isSome = true
      · simp only [h, if_true]; rfl
      · simp only [h]; rfl
    · rw [List.map_cons, Node.moved_branch, List.map_cons, Node.moved_branch]; rfl
  · rw [if_neg hk, if_neg hk]; rfl

theorem add_moved (d : Declared) (x : Declaration) : (d.moved g).add (x.moved g) =
    mapBoth (.moved g) (.moved g) (d.add x) := by
  unfold Declared.add
  have hname : (x.moved g).name = x.name := rfl
  have hmain : (d.moved g).main.isSome = d.main.isSome := by simp [Declared.moved]
  have hothers : (d.moved g).others.any (fun old => old.name == x.name) =
      d.others.any fun old => old.name == x.name := by
    rw [Declared.moved, List.any_map]
    rfl
  dsimp only
  rw [hname, hmain, hothers]
  split
  · split
    · rfl
    · rfl
  · split
    · rfl
    · simp [mapBoth, Declared.moved]

theorem declareFrom_moved (form : Nat) (d : Declared) (ns : List Node) :
    declareFrom form (d.moved g) (ns.map (.moved g)) = mapBoth (.moved g) (.moved g) (declareFrom form d ns) := by
  induction ns generalizing form d with
  | nil => rfl
  | cons n ns ih =>
    rw [List.map_cons, declareFrom, declareFrom, ofNode?_moved]
    rcases Definition.ofNode? n with _ | (fault | definition)
    · exact ih (form + 1) d
    · rfl
    · have hadd := add_moved g d ⟨form, definition⟩
      simp only [Option.map_some, mapBoth]
      rw [show (⟨form, definition.moved g⟩ : Declaration) = (⟨form, definition⟩ : Declaration).moved g from rfl,
        hadd]
      cases d.add ⟨form, definition⟩ with
      | error fault => rfl
      | ok d' => exact ih (form + 1) d'

theorem declare_moved (ns : List Node) (span : Span) : declare (ns.map (.moved g)) (span.moved g) =
    mapBoth (.moved g) (List.map (.moved g)) (declare ns span) := by
  have hfrom := declareFrom_moved g 0 {} ns
  unfold declare
  rw [show (({} : Declared).moved g) = {} from rfl] at hfrom
  rw [hfrom]
  cases declareFrom 0 {} ns with
  | error fault => rfl
  | ok d =>
    obtain ⟨main, others⟩ := d
    cases main <;> rfl

/-! ## Binding -/

theorem bindLeaf_moved (functions locals : Names) (l : Leaf) : bindLeaf functions locals (l.moved g) =
    ((bindLeaf functions locals l).1.moved g, (bindLeaf functions locals l).2) := by
  unfold bindLeaf
  rw [Leaf.name?_moved]
  cases l.name? with
  | none => rfl
  | some x =>
    dsimp only
    cases functions.find? x <;> rfl

mutual

theorem bindNode_moved (functions : Names) : ∀ (locals : Names) (n : Node),
    bindNode functions locals (n.moved g) =
      ((bindNode functions locals n).1.moved g, (bindNode functions locals n).2)
  | locals, .leaf l => by simp [bindNode, bindLeaf_moved]
  | locals, .branch cs span tag => by simp [bindNode, bindAll_moved functions locals cs]

theorem bindAll_moved (functions : Names) : ∀ (locals : Names) (ns : List Node),
    bindAll functions locals (ns.map (.moved g)) =
      ((bindAll functions locals ns).1.map (.moved g), (bindAll functions locals ns).2)
  | locals, [] => by simp [bindAll]
  | locals, n :: ns => by
    simp [bindAll, bindNode_moved functions locals n, bindAll_moved functions (bindNode functions locals n).2 ns]

end

theorem bindParam_moved (functions locals : Names) (n : Node) : bindParam functions locals (n.moved g) =
    mapBoth (.moved g) (fun r => (r.1.moved g, r.2)) (bindParam functions locals n) := by
  cases n with
  | branch cs span tag => rw [Node.moved_branch]; rfl
  | leaf l =>
    rw [Node.moved_leaf, bindParam, bindParam, Leaf.name?_moved]
    cases l.name? with
    | none => rfl
    | some x =>
      dsimp only
      split
      · rfl
      · split <;> rfl

theorem bindParams_moved (functions locals : Names) (ns : List Node) :
    bindParams functions locals (ns.map (.moved g)) =
      mapBoth (.moved g) (fun r => (r.1.map (.moved g), r.2)) (bindParams functions locals ns) := by
  induction ns generalizing locals with
  | nil => rfl
  | cons n ns ih =>
    rw [List.map_cons, bindParams, bindParams, bindParam_moved]
    cases bindParam functions locals n with
    | error fault => rfl
    | ok r =>
      simp only [mapBoth, ih r.2]
      cases bindParams functions r.2 ns with
      | error fault => rfl
      | ok r' => simp

theorem bind_moved (functions : Names) (index : Nat) (d : Definition) : (d.moved g).bind functions index =
    mapBoth (.moved g) (fun r => (r.1.moved g, r.2)) (d.bind functions index) := by
  unfold Definition.bind
  have hname : bindLeaf functions {} (d.moved g).name = _ := bindLeaf_moved g functions {} d.name
  have hparams (locals : Names) : bindParams functions locals (d.moved g).params = _ :=
    bindParams_moved g functions locals d.params
  have hbody (locals : Names) : bindAll functions locals (d.moved g).body = _ :=
    bindAll_moved g functions locals d.body
  simp only [hname, hparams, hbody]
  cases bindParams functions (bindLeaf functions {} d.name).2 d.params with
  | error fault => rfl
  | ok r => simp [mapBoth, Definition.moved]

def Function.moved (f : Function) : Function := { f with span := f.span.moved g }

def Program.moved (p : Program) : Program := ⟨p.root.moved g, p.functions.map (.moved g)⟩

theorem bindFunctions_moved (names : Names) (index : Nat) (ns : List Node) (ds : List Declaration) :
    bindFunctions names index (ns.map (.moved g)) (ds.map (.moved g)) =
      mapBoth (.moved g) (fun r => (r.1.map (.moved g), r.2.map (.moved g))) (bindFunctions names index ns ds) := by
  induction ds generalizing index ns with
  | nil => rfl
  | cons d ds ih =>
    rw [List.map_cons, bindFunctions, bindFunctions,
      show (d.moved g).definition = d.definition.moved g from rfl, bind_moved]
    cases d.definition.bind names index with
    | error fault => rfl
    | ok r =>
      have hset : (ns.map (Node.moved g)).set (d.moved g).form (r.1.moved g) =
          (ns.set d.form r.1).map (.moved g) := by
        rw [List.map_set]
        rfl
      simp only [mapBoth, hset, ih]
      cases bindFunctions names (index + 1) (ns.set d.form r.1) ds with
      | error fault => rfl
      | ok r' =>
        simp [Function.moved, Declaration.moved, Definition.moved, Declaration.name, Leaf.moved, Leaf.text,
          Leaf.span, Token.moved]

theorem resolve_moved (n : Node) : resolve (n.moved g) = mapBoth (.moved g) (.moved g) (resolve n) := by
  cases n with
  | leaf l => rw [Node.moved_leaf]; rfl
  | branch ns span tag =>
    rw [Node.moved_branch, resolve, resolve, declare_moved]
    cases declare ns span with
    | error fault => rfl
    | ok ds =>
      have hnames : functionNames (ds.map (.moved g)) = functionNames ds := by
        rw [functionNames, List.map_map]
        rfl
      simp only [mapBoth, hnames, bindFunctions_moved]
      cases bindFunctions (functionNames ds) 0 ns ds with
      | error fault => rfl
      | ok r => simp [Program.moved]

theorem main_of_resolve {root : Node} {p : Program} (h : resolve root = .ok p) : ∃ f, p.function? 0 = some f := by
  obtain ⟨_, _, _, _, ds, -, -, hdecl, -, -, -, -, heach⟩ := resolve_table h
  obtain ⟨⟨main, hds, -⟩, -⟩ := declare_spec hdecl
  obtain ⟨form, count, -, -, hmain⟩ := heach 0 main (by simp [hds])
  exact ⟨_, hmain⟩

/-! ## Loading -/

theorem loadLeaf_moved (h : Heap) (l : Leaf) :
    loadLeaf h (l.moved g) = ((loadLeaf h l).1.moved g, (loadLeaf h l).2) := by
  unfold loadLeaf
  rw [Leaf.kind_moved]
  cases l.kind <;> rfl

mutual

theorem loadNode_moved : ∀ (h : Heap) (n : Node),
    loadNode h (n.moved g) = ((loadNode h n).1.moved g, (loadNode h n).2)
  | h, .leaf l => by simp [loadNode, loadLeaf_moved]
  | h, .branch cs span tag => by simp [loadNode, loadAll_moved h cs]

theorem loadAll_moved : ∀ (h : Heap) (ns : List Node),
    loadAll h (ns.map (.moved g)) = ((loadAll h ns).1.map (.moved g), (loadAll h ns).2)
  | h, [] => by simp [loadAll]
  | h, n :: ns => by simp [loadAll, loadNode_moved h n, loadAll_moved (loadNode h n).2 ns]

end

theorem load_moved (p : Program) : (p.moved g).load = (p.load.1.moved g, p.load.2) := by
  simp [Program.load, Program.moved, loadNode_moved]

end Lisplet
