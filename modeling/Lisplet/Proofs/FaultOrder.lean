import Lisplet.Proofs.Acceptance

/-!
# Which fault is reported

`faults` lists everything that is wrong with the definitions of a tree: the forms one
after the other, then a missing `main`, then the parameters of `main` and of the other
functions. The list is read off the tree; each entry is about one node and the nodes
before it. Resolution reports the first entry, and it accepts the tree if there is none.
-/

namespace Lisplet

open Node

/-! ## Signatures -/

def Node.signature? : Node → Option (Leaf × List Node)
  | branch (_ :: branch (leaf name :: params) _ _ :: _) _ _ =>
    if name.name?.isSome then some (name, params) else none
  | _ => none

def Node.declares? (n : Node) : Option String :=
  if n.isDefinition then n.signature?.map fun s => s.1.text else none

def Node.params (n : Node) : List Node := n.signature?.elim [] Prod.snd

def declaredNames (ns : List Node) : List String := ns.filterMap declares?

/-- Every definition has a signature, one of them defines `main`, and no name is defined
twice. Parameters are names, different from each other and from those of all functions. -/
structure WellFormed (ns : List Node) : Prop where
  formed : ∀ n ∈ ns, n.isDefinition = true → ∃ name params, n.signature? = some (name, params)
  main : (declaredNames ns).count mainName = 1
  different : (declaredNames ns).Nodup
  params : ∀ n ∈ ns, n.isDefinition = true → ∃ xs : List String,
    n.params.map Node.name? = xs.map some ∧ xs.Nodup ∧ ∀ x ∈ xs, x ∉ declaredNames ns

/-! ## The list of faults -/

def formFault? (before : List Node) (n : Node) : Option Fault :=
  if n.isDefinition then
    match n.operands with
    | [] => some (.malformedDefun n.span)
    | .leaf l :: _ => some (.expectedPrototype l.span)
    | .branch _ prototype _ :: _ =>
      match n.signature? with
      | none => some (.expectedFunctionName prototype)
      | some (name, _) =>
        if name.text ∈ declaredNames before then
          if name.text = mainName then some (.duplicateMain name.span)
          else some (.duplicateFunction name.text name.span)
        else none
  else none

def paramFault? (functions : List String) (before : List Node) (n : Node) : Option Fault :=
  match n.name? with
  | none => some (.expectedParameter n.span)
  | some x =>
    if x ∈ functions then some (.parameterShadowsFunction x n.span)
    else if some x ∈ before.map Node.name? then some (.duplicateParameter x n.span)
    else none

/-- What `check` finds in a row that continues `before`, one thing after the other. -/
def foundIn (check : List Node → Node → Option Fault) (before : List Node) : List Node → List Fault
  | [] => []
  | n :: ns => (check before n).toList ++ foundIn check (before ++ [n]) ns

/-- The definitions of `main`, and then the others as they come. -/
def tableOrder (ns : List Node) : List Node :=
  ns.filter (·.declares?.any (· == mainName)) ++ ns.filter (·.declares?.any (· != mainName))

def faults : Node → List Fault
  | .leaf l => [.missingMain l.span]
  | .branch ns span _ =>
    foundIn formFault? [] ns ++
      ((if mainName ∈ declaredNames ns then [] else [.missingMain span]) ++
        (tableOrder ns).flatMap fun n => foundIn (paramFault? (declaredNames ns)) [] n.params)

/-! ## Reporting the first of several faults -/

/-- The result is the first of the faults, and none if there are none. -/
def Reports (r : Except Fault α) (fs : List Fault) : Prop :=
  match r with
  | .ok _ => fs = []
  | .error f => fs.head? = some f

namespace Reports

variable {α β : Type} {r : Except Fault α} {fs gs : List Fault}

theorem error_iff (h : Reports r fs) {f : Fault} : r = .error f ↔ fs.head? = some f := by
  cases r with
  | ok a => simp [show fs = [] from h]
  | error f' => simp [show fs.head? = some f' from h]

/-- Later faults count only if there were none before. -/
theorem andThen {s : Except Fault β} (hr : Reports r fs) (hstop : ∀ f, r = .error f → s = .error f)
    (hgo : ∀ a, r = .ok a → Reports s gs) : Reports s (fs ++ gs) := by
  cases r with
  | ok a =>
    rw [show fs = [] from hr, List.nil_append]
    exact hgo a rfl
  | error f =>
    have hf : fs.head? = some f := hr
    rw [hstop f rfl]
    show (fs ++ gs).head? = some f
    rw [List.head?_append, hf]
    rfl

/-- A last step that cannot fail changes nothing. -/
theorem map {s : Except Fault β} (hr : Reports r fs) (hstop : ∀ f, r = .error f → s = .error f)
    (hgo : ∀ a, r = .ok a → ∃ b, s = .ok b) : Reports s fs := by
  rw [← List.append_nil fs]
  refine hr.andThen hstop fun a ha => ?_
  obtain ⟨b, rfl⟩ := hgo a ha
  rfl

end Reports

/-! ## Declaring -/

theorem isDefinition_iff {n : Node} : n.isDefinition = true ↔ n.headKeyword? = some .defun := by
  simp [Node.isDefinition]

/-- A definition is taken apart where it has a signature, and else its form is at fault. -/
theorem ofNode?_cases (n : Node) :
    (n.isDefinition = false ∧ Definition.ofNode? n = none) ∨
    (n.isDefinition = true ∧ n.signature? = none ∧ ∃ f, Definition.ofNode? n = some (.error f) ∧
      ∀ before, formFault? before n = some f) ∨
    (n.isDefinition = true ∧ ∃ d, Definition.ofNode? n = some (.ok d) ∧
      n.signature? = some (d.name, d.params) ∧ ∀ before, formFault? before n =
        if d.name.text ∈ declaredNames before then
          if d.name.text = mainName then some (.duplicateMain d.name.span)
          else some (.duplicateFunction d.name.text d.name.span)
        else none) := by
  by_cases hdef : n.isDefinition = true
  · have hk := isDefinition_iff.mp hdef
    rcases n with l | ⟨_ | ⟨head, rest⟩, span, tag⟩
    · cases hk
    · cases hk
    have hhead : head.keyword? = some .defun := hk
    rcases rest with _ | ⟨l | ⟨cs, prototype, ptag⟩, body⟩
    · refine .inr (.inl ⟨hdef, rfl, .malformedDefun span, ?_, fun before => ?_⟩)
      · simp [Definition.ofNode?, hhead]
      · simp [formFault?, hdef, Node.operands, Node.children, Node.span]
    · refine .inr (.inl ⟨hdef, rfl, .expectedPrototype l.span, ?_, fun before => ?_⟩)
      · simp [Definition.ofNode?, hhead]
      · simp [formFault?, hdef, Node.operands, Node.children]
    by_cases hname : (cs.head?.bind Node.name?).isSome = true
    · rcases cs with _ | ⟨name | ⟨_, _, _⟩, params⟩
      · cases hname
      · have hname : name.name?.isSome = true := hname
        refine .inr (.inr ⟨hdef, ⟨head, name, params, prototype, body, span⟩, ?_, ?_, fun before => ?_⟩)
        · simp [Definition.ofNode?, hhead, hname]
        · simp [Node.signature?, hname]
        · simp [formFault?, hdef, Node.operands, Node.children, Node.signature?, hname]
      · cases hname
    · have hsig : (branch (head :: branch cs prototype ptag :: body) span tag).signature? = none := by
        rcases cs with _ | ⟨name | ⟨_, _, _⟩, params⟩
        · rfl
        · simpa [Node.signature?, Node.name?] using hname
        · rfl
      refine .inr (.inl ⟨hdef, hsig, .expectedFunctionName prototype, ?_, fun before => ?_⟩)
      · rcases cs with _ | ⟨name | ⟨_, _, _⟩, params⟩
        · simp [Definition.ofNode?, hhead]
        · have hname : name.name? = none := by simpa [Node.name?] using hname
          simp [Definition.ofNode?, hhead, hname]
        · simp [Definition.ofNode?, hhead]
      · simp [formFault?, hdef, Node.operands, Node.children, hsig]
  · refine .inl ⟨by simpa using hdef, ofNode?_eq_none_iff.mpr ?_⟩
    rwa [isDefinition_iff] at hdef

theorem declares?_eq (n : Node) :
    n.declares? = ((Definition.ofNode? n).bind Except.toOption).map fun d => d.name.text := by
  unfold Node.declares?
  rcases ofNode?_cases n with ⟨hdef, hof⟩ | ⟨hdef, hsig, f, hof, -⟩ | ⟨hdef, d, hof, hsig, -⟩
  · simp [hdef, hof]
  · simp [hdef, hsig, hof, Except.toOption]
  · simp [hdef, hsig, hof, Except.toOption]

theorem declaredNames_eq (ns : List Node) : declaredNames ns = definedNames ns := by
  unfold declaredNames definedNames definitions
  rw [List.map_filterMap]
  exact List.filterMap_congr fun n _ => declares?_eq n

theorem definition_of_signature {n : Node} (h : n.isDefinition = true) :
    (∃ name params, n.signature? = some (name, params)) ↔ ∃ d, Definition.ofNode? n = some (.ok d) := by
  rcases ofNode?_cases n with ⟨hdef, hof⟩ | ⟨hdef, hsig, f, hof, -⟩ | ⟨hdef, d, hof, hsig, -⟩
  · rw [h] at hdef; cases hdef
  · simp [hsig, hof]
  · simp [hsig, hof]

theorem params_of_definition {n : Node} {d : Definition} (h : Definition.ofNode? n = some (.ok d)) :
    n.params = d.params := by
  rcases ofNode?_cases n with ⟨hdef, hof⟩ | ⟨hdef, hsig, f, hof, -⟩ | ⟨hdef, d', hof, hsig, -⟩ <;>
    rw [h] at hof <;> cases hof
  simp [Node.params, hsig]

theorem isDefinition_of_ofNode? {n : Node} {d : Definition} (h : Definition.ofNode? n = some (.ok d)) :
    n.isDefinition = true := by
  rcases ofNode?_cases n with ⟨-, hof⟩ | ⟨hdef, -⟩ | ⟨hdef, -⟩
  · rw [h] at hof; cases hof
  · exact hdef
  · exact hdef

theorem mem_definitions {ns : List Node} {d : Definition} :
    d ∈ definitions ns ↔ ∃ n ∈ ns, Definition.ofNode? n = some (.ok d) := by
  have htoOption (n : Node) : (Definition.ofNode? n).bind Except.toOption = some d ↔
      Definition.ofNode? n = some (.ok d) := by
    rcases Definition.ofNode? n with _ | (f | d') <;> simp [Except.toOption]
  simp [definitions, htoOption]

structure Declared.Covers (d : Declared) (before : List Node) : Prop where
  sound : d.Sound
  main : ∀ x ∈ d.main, x.name = mainName
  names : ∀ x, x ∈ d.all.map Declaration.name ↔ x ∈ declaredNames before

theorem add_reports {d : Declared} {before : List Node} (hd : d.Covers before) (x : Declaration) :
    Reports (d.add x) (if x.name ∈ declaredNames before then
        if x.name = mainName then some (.duplicateMain x.definition.name.span)
        else some (.duplicateFunction x.name x.definition.name.span)
      else none).toList := by
  by_cases hx : x.name ∈ declaredNames before
  · rw [if_pos hx]
    have hmem := (hd.names x.name).mpr hx
    obtain ⟨y, hy, hname⟩ := List.mem_map.mp hmem
    unfold Declared.add
    dsimp only
    -- `main` is kept apart from the other functions, so it is looked for elsewhere
    by_cases hmain : x.name = mainName
    · have hsome : d.main.isSome = true := by
        rcases List.mem_append.mp hy with hy | hy
        · simp [Option.mem_toList.mp hy]
        · exact absurd (hname.trans hmain) (hd.sound.others y hy)
      simp [hmain, hsome, Reports]
    · have hany : (d.others.any fun old => old.name == x.name) = true := by
        rcases List.mem_append.mp hy with hy | hy
        · exact absurd (hname.symm.trans (hd.main y (Option.mem_toList.mp hy))) hmain
        · exact List.any_eq_true.mpr ⟨y, hy, by simpa using hname⟩
      simp [hmain, hany, Reports]
  · rw [if_neg hx]
    obtain ⟨d', hadd⟩ := add_ok hd.main fun hmem => hx ((hd.names x.name).mp hmem)
    rw [hadd]
    rfl

theorem declaredNames_append (ns : List Node) (n : Node) :
    declaredNames (ns ++ [n]) = declaredNames ns ++ n.declares?.toList := by
  unfold declaredNames
  rw [List.filterMap_append]
  cases h : n.declares? <;> simp [h]

theorem Declared.Covers.add {d d' : Declared} {before : List Node} {n : Node} {x : Declaration}
    (hd : d.Covers before) (hn : n.declares? = some x.name) (h : d.add x = .ok d') :
    d'.Covers (before ++ [n]) := by
  refine ⟨(add_inv hd.sound h).1, main_of_add hd.sound h hd.main, fun y => ?_⟩
  rw [((all_of_add hd.sound h).map Declaration.name).mem_iff, declaredNames_append, hn]
  simp [hd.names y, or_comm]

theorem declareFrom_reports {d : Declared} {before ns : List Node} (hd : d.Covers before) (form : Nat) :
    Reports (declareFrom form d ns) (foundIn formFault? before ns) := by
  induction ns generalizing form d before with
  | nil => rfl
  | cons n ns ih =>
    rw [declareFrom, foundIn]
    rcases ofNode?_cases n with ⟨hdef, hof⟩ | ⟨hdef, hsig, f, hof, hfault⟩ | ⟨hdef, definition, hof, hsig, hfault⟩
    · have hnone : n.declares? = none := by simp [Node.declares?, hdef]
      have hskip : d.Covers (before ++ [n]) :=
        ⟨hd.sound, hd.main, fun x => by rw [hd.names, declaredNames_append, hnone]; simp⟩
      simp only [hof, formFault?, hdef]
      exact ih hskip (form + 1)
    · simp only [hof, hfault]
      rfl
    · have hn : n.declares? = some definition.name.text := by simp [Node.declares?, hdef, hsig]
      simp only [hof, hfault]
      refine (add_reports hd ⟨form, definition⟩).andThen (fun f hadd => ?_) fun d' hadd => ?_
      · simp only [hadd]
      · simp only [hadd]
        exact ih (hd.add (x := ⟨form, definition⟩) hn hadd) (form + 1)

theorem declare_reports (ns : List Node) (span : Span) :
    Reports (declare ns span)
      (foundIn formFault? [] ns ++ if mainName ∈ declaredNames ns then [] else [.missingMain span]) := by
  have hempty : Declared.Covers {} [] := ⟨⟨by simp, by simp⟩, by simp, by simp [Declared.all, declaredNames]⟩
  unfold declare
  refine (declareFrom_reports hempty 0).andThen (fun f hf => ?_) fun d hd => ?_
  · simp only [hf]
  simp only [hd]
  obtain ⟨-, hmain, -⟩ := declareFrom_spec hempty.sound hd
  have hdeclared : mainName ∈ declaredNames ns ↔ ∃ x, x ∈ d.main.toList := by
    rw [declaredNames_eq, ← name_declarationsFrom 0 ns, hmain]
    simp [Declaration.isMain]
  cases hm : d.main with
  | none => simp [hdeclared, hm, Reports]
  | some main => simp [hdeclared, hm, Reports]

/-! ## Binding -/

section
variable {functions locals : Names} {names : List String} {before : List Node}
  (hfunctions : ∀ x, x ∈ functions.toList ↔ x ∈ names)
include hfunctions

theorem bindParam_reports (hlocals : ∀ x, x ∈ locals.toList ↔ some x ∈ before.map Node.name?) (n : Node) :
    Reports (bindParam functions locals n) (paramFault? names before n).toList := by
  have hcontains (ns : Names) (x : String) : ns.contains x = true ↔ x ∈ ns.toList := by
    rw [Names.contains, Option.isSome_iff_ne_none, ne_eq, Names.find?_eq_none_iff, not_not]
  cases n with
  | branch cs span tag => rfl
  | leaf l =>
    unfold bindParam paramFault?
    simp only [Node.name?, Node.span]
    cases l.name? with
    | none => rfl
    | some x =>
      dsimp only
      simp only [hcontains, hfunctions, hlocals]
      by_cases hf : x ∈ names
      · simp [hf, Reports]
      by_cases hl : some x ∈ before.map Node.name?
      · simp only [hf, hl, if_true, if_false]
        rfl
      · simp only [hf, hl, if_false]
        rfl

theorem bindParams_reports (hlocals : ∀ x, x ∈ locals.toList ↔ some x ∈ before.map Node.name?)
    (ns : List Node) : Reports (bindParams functions locals ns) (foundIn (paramFault? names) before ns) := by
  induction ns generalizing locals before with
  | nil => rfl
  | cons n ns ih =>
    rw [bindParams, foundIn]
    refine (bindParam_reports hfunctions hlocals n).andThen (fun f hf => ?_) ?_
    · simp only [hf]
    rintro ⟨l', locals'⟩ hp
    obtain ⟨l, x, rfl, hx, -, hnew, rfl, -⟩ := bindParam_inv hp
    have hnext : ∀ y, y ∈ (locals.intern x).2.toList ↔ some y ∈ (before ++ [leaf l]).map Node.name? := by
      intro y
      rw [Names.toList_intern, if_neg hnew]
      simp [hlocals y, Node.name?, hx]
    simp only [hp]
    refine (ih hnext).map (fun f hf => ?_) fun r hr => ?_
    · simp only [hf]
    · simp only [hr]
      exact ⟨_, rfl⟩

theorem bind_reports {d : Definition} (hname : d.name.name? = some d.name.text) (hmem : d.name.text ∈ names)
    (index : Nat) : Reports (d.bind functions index) (foundIn (paramFault? names) [] d.params) := by
  obtain ⟨i, hi⟩ : ∃ i, functions.find? d.name.text = some i := by
    cases hi : functions.find? d.name.text with
    | some i => exact ⟨i, rfl⟩
    | none => exact absurd ((hfunctions _).mpr hmem) (Names.find?_eq_none_iff.mp hi)
  -- the name of the function takes no slot, so that the parameters start without locals
  have hempty : (bindLeaf functions {} d.name).2 = {} := by simp [bindLeaf, hname, hi]
  have hnone : ∀ x, x ∈ Names.toList {} ↔ some x ∈ ([] : List Node).map Node.name? := by simp [Names.toList]
  have hparams := bindParams_reports hfunctions hnone d.params
  unfold Definition.bind
  dsimp only
  rw [hempty]
  refine hparams.map (fun f hf => ?_) fun r hr => ?_
  · simp only [hf]
  · simp only [hr]
    exact ⟨_, rfl⟩

theorem bindFunctions_reports {ds : List Declaration}
    (hds : ∀ d ∈ ds, d.definition.name.name? = some d.name ∧ d.name ∈ names) (index : Nat) (ns : List Node) :
    Reports (bindFunctions functions index ns ds)
      (ds.flatMap fun d => foundIn (paramFault? names) [] d.definition.params) := by
  induction ds generalizing index ns with
  | nil => rfl
  | cons d ds ih =>
    obtain ⟨hname, hmem⟩ := hds d (by simp)
    rw [bindFunctions, List.flatMap_cons]
    refine (bind_reports hfunctions hname hmem index).andThen (fun f hf => ?_) fun r hr => ?_
    · simp only [hf]
    simp only [hr]
    refine (ih (fun x hx => hds x (by simp [hx])) (index + 1) (ns.set d.form r.1)).map (fun f hf => ?_) fun r hr => ?_
    · simp only [hf]
    · simp only [hr]
      exact ⟨_, rfl⟩

end

/-! ## Resolving -/

theorem params_declarationsFrom (q : String → Bool) (form : Nat) (ns : List Node) :
    ((declarationsFrom form ns).filter fun d => q d.name).map (fun d => d.definition.params) =
      (ns.filter (·.declares?.any q)).map Node.params := by
  induction ns generalizing form with
  | nil => rfl
  | cons n ns ih =>
    rw [declarationsFrom, List.filter_cons (x := n)]
    split
    · rename_i d hd
      have hn : n.declares? = some d.name.text := by simp [declares?_eq, hd, Except.toOption]
      have hname : (⟨form, d⟩ : Declaration).name = d.name.text := rfl
      rw [List.filter_cons, hn, Option.any_some, hname]
      cases q d.name.text with
      | true => simp [params_of_definition hd, ih]
      | false => simp [ih]
    · rename_i hd
      have hn : n.declares? = none := by
        rw [declares?_eq]
        rcases h : Definition.ofNode? n with _ | (f | d)
        · rfl
        · rfl
        · exact absurd h (hd d)
      rw [hn, ih]
      rfl

theorem order_of_declare {ns : List Node} {span : Span} {ds : List Declaration} (h : declare ns span = .ok ds) :
    ds = (declarationsFrom 0 ns).filter (fun d => d.name == mainName) ++
      (declarationsFrom 0 ns).filter (fun d => d.name != mainName) := by
  obtain ⟨d, hd⟩ := declareFrom_of_declare h
  obtain ⟨-, hmain, hothers⟩ := declareFrom_spec (d := {}) ⟨by simp, by simp⟩ hd
  unfold declare at h
  simp only [hd] at h
  cases hm : d.main with
  | none => simp [hm] at h
  | some main =>
    simp only [hm, Except.ok.injEq] at h
    simp only [hm, Option.toList_some, Option.toList_none, List.nil_append] at hmain hothers
    rw [← h, hothers, ← List.singleton_append, hmain]
    rfl

theorem resolve_reports (root : Node) : Reports (resolve root) (faults root) := by
  cases root with
  | leaf l => rfl
  | branch ns span tag =>
    rw [faults, ← List.append_assoc, resolve]
    refine (declare_reports ns span).andThen (fun f hf => ?_) fun ds hds => ?_
    · simp only [hf]
    have hnames : ∀ x, x ∈ (functionNames ds).toList ↔ x ∈ declaredNames ns := by
      intro x
      rw [(toList_functionNames hds).mem_iff, declaredNames_eq]
    have hnamed : ∀ d ∈ ds, d.definition.name.name? = some d.name ∧ d.name ∈ declaredNames ns := by
      intro d hd
      have hmem : d.definition ∈ definitions ns := by
        rw [← definition_declarationsFrom 0 ns]
        exact List.mem_map_of_mem ((perm_of_declare hds).mem_iff.mp hd)
      exact ⟨named_of_mem_definitions hmem, declaredNames_eq ns ▸ List.mem_map_of_mem hmem⟩
    -- parameters are looked at in table order, which need not be source order
    have horder : (tableOrder ns).flatMap (fun n => foundIn (paramFault? (declaredNames ns)) [] n.params) =
        ds.flatMap fun d => foundIn (paramFault? (declaredNames ns)) [] d.definition.params := by
      have hparams : (tableOrder ns).map Node.params = ds.map fun d => d.definition.params := by
        rw [order_of_declare hds, tableOrder, List.map_append, List.map_append,
          params_declarationsFrom (· == mainName), params_declarationsFrom (· != mainName)]
      rw [← List.flatMap_map Node.params, hparams, List.flatMap_map]
    rw [horder]
    simp only [hds]
    refine (bindFunctions_reports hnames hnamed 0 ns).map (fun f hf => ?_) fun r hr => ?_
    · simp only [hf]
    · simp only [hr]
      exact ⟨_, rfl⟩

theorem wellFormed_iff {ns : List Node} : WellFormed ns ↔ Resolvable ns := by
  have hparams {n : Node} {d : Definition} (hd : Definition.ofNode? n = some (.ok d)) :
      d.Accepted (definedNames ns) ↔ ∃ xs : List String, n.params.map Node.name? = xs.map some ∧ xs.Nodup ∧
        ∀ x ∈ xs, x ∉ declaredNames ns := by
    rw [params_of_definition hd, declaredNames_eq, Definition.Accepted]
  constructor
  · intro h
    have hdifferent := h.different
    have hmain : mainName ∈ declaredNames ns := List.count_pos_iff.mp (by rw [h.main]; exact Nat.one_pos)
    rw [declaredNames_eq] at hdifferent hmain
    refine ⟨fun n hn hk => ?_, hdifferent, hmain, fun d hd => ?_⟩
    · exact (definition_of_signature (isDefinition_iff.mpr hk)).mp (h.formed n hn (isDefinition_iff.mpr hk))
    · obtain ⟨n, hn, hof⟩ := mem_definitions.mp hd
      exact (hparams hof).mpr (h.params n hn (isDefinition_of_ofNode? hof))
  · intro h
    refine ⟨fun n hn hdef => ?_, ?_, declaredNames_eq ns ▸ h.different, fun n hn hdef => ?_⟩
    · exact (definition_of_signature hdef).mpr (h.formed n hn (isDefinition_iff.mp hdef))
    · rw [declaredNames_eq]
      exact List.count_eq_one_of_mem h.different h.main
    · obtain ⟨d, hof⟩ := h.formed n hn (isDefinition_iff.mp hdef)
      exact (hparams hof).mp (h.params d (mem_definitions.mpr ⟨n, hn, hof⟩))

/-- The fault that is reported is the first in the list, and a program is accepted exactly
if it is well formed. -/
theorem resolve_first_fault (root : Node) :
    (∀ f, resolve root = .error f ↔ (faults root).head? = some f) ∧
    ((∃ p, resolve root = .ok p) ↔ ∃ ns span tag, root = .branch ns span tag ∧ WellFormed ns) := by
  refine ⟨fun f => (resolve_reports root).error_iff, ?_⟩
  cases root with
  | leaf l => simp [resolve]
  | branch ns span tag =>
    rw [resolve_ok_iff, ← wellFormed_iff]
    simp

end Lisplet
